import Grafast.Step.Run
import Grafast.Step.Core

namespace Grafast

variable {V S X : Type}

-- A step as the executor finds it in a plan: one with an `execute` of its own, or an `EachStep` over
-- a list. For the items of all lists its mapper builds a sub-DAG, of which `mapped` is the id of the
-- target. Exceptions are values.
inductive Node (V X : Type)
  | step (step : Step V V X)
  | each (id list : Nat) (subDag : List V → List (Node V X)) (mapped : List V → Nat)

-- What an `EachStep` raises.
class EachErrors (V : Type) where
  ofStepError : StepError V → V
  indexError  : V

namespace Bucket

variable {E : Type}

def advance (b : Bucket V E X) (step : Step V E X) (s : RunState V X) :
    Out V E → Except (StepError E) (RunState V X)
  | .raised e         => .error (.raised e)
  | .column out       => b.record step s out
  | .awaitable result => do b.record step s (← awaited result)

-- The executions of a run, up to the one at which it ends with an exception.
def executed (b : Bucket V E X) : List (Step V E X) → RunState V X → List (Execution V X)
  | [],            _ => []
  | step :: steps, s =>
    match gatherCols s.results step (b.unaryHere step.id) with
    | .error _ => []
    | .ok cols =>
      let e : Execution V X := ⟨step.id, b.stepCount step, cols, b.extraFor step⟩
      let s := { s with log := s.log ++ [e] }
      match b.advance step s (step.execute (b.stepCount step) cols (b.extraFor step)) with
      | .error _ => [e]
      | .ok s    => e :: executed b steps s

end Bucket

variable [PyValue V S] [EachErrors V]

-- The items of the lists of all parents.
def eachItems (count : Nat) (values : List (List V)) : Except V (List (List V)) :=
  match CoreStep.entries count values with
  | none     => .error EachErrors.indexError
  | some col => col.mapM fun v => if PyValue.truthy v then PyValue.iterate v else .ok []

-- The source of a sub-DAG, which has the items of all lists for its column.
def itemStep {E : Type} (id : Nat) (items : List V) : Step V E X where
  id            := id
  dependencies  := []
  isUnary       := false
  isSyncAndSafe := true
  wantsExtra    := false
  execute _ _ _ := .column items

-- The column of the step that a sub-DAG is mapped to, regrouped by parent.
def regroupEach (lists : List (List V)) (mapped : Nat) (s : RunState V X) : Except V (List V) :=
  match s.results mapped with
  | none     => .error (EachErrors.ofStepError (.missingColumn mapped))
  | some col => .ok (CoreStep.regroup lists col)

-- The bucket over which a sub-DAG is run: no extra is passed on to it.
def eachBucket (isCoroutine : V → Bool) (items : List V) (steps : List (Step V V X)) :
    Bucket V V X where
  count       := items.length
  unaryHere   := bucketUnariness steps (fun _ => false) items.length
  isAwaitable := isCoroutine
  extra       := none

def executeEach (isCoroutine : V → Bool) (steps : List V → List (Step V V X)) (mapped : List V → Nat)
    (count : Nat) (values : List (List V)) : Out V V :=
  match eachItems count values with
  | .error e  => .raised e
  | .ok lists =>
    let items := lists.flatten
    match runSteps items.length (steps items) isCoroutine .empty none with
    | .error e                => .raised (EachErrors.ofStepError e)
    | .ok (.coroutine result) =>
      .awaitable ((result.mapError EachErrors.ofStepError).bind (regroupEach lists (mapped items)))
    | .ok (.results s)        =>
      match regroupEach lists (mapped items) s with
      | .error e => .raised e
      | .ok col  => .column col

variable (isCoroutine : V → Bool)

mutual

def Node.toStep : Node V X → Step V V X
  | .step step                 => step
  | .each id list subDag mapped => {
      id, dependencies := [list], isUnary := false, isSyncAndSafe := false, wantsExtra := false
      execute count values _ :=
        executeEach isCoroutine (fun items => toSteps (subDag items)) mapped count values }

def toSteps : List (Node V X) → List (Step V V X)
  | []            => []
  | node :: nodes => node.toStep :: toSteps nodes

end

mutual

-- The steps that are executed within an execution of a step, each with the extra that it gets.
def Node.within : Node V X → Execution V X → List (Step V V X × Option X)
  | .step _, _            => []
  | .each _ _ subDag _, e =>
    match eachItems e.count e.cols with
    | .error _  => []
    | .ok lists =>
      let nodes := subDag lists.flatten
      let b := eachBucket isCoroutine lists.flatten (toSteps isCoroutine nodes)
      deliveries nodes (b.executed (toSteps isCoroutine nodes) ⟨.empty, []⟩)

-- The same for the executions of a run: the `k`th is that of the `k`th step.
def deliveries : List (Node V X) → List (Execution V X) → List (Step V V X × Option X)
  | node :: nodes, e :: es =>
    (node.toStep isCoroutine, e.extra) :: node.within e ++ deliveries nodes es
  | _,             _       => []

end

mutual

-- No step within the sub-DAG of an `EachStep` wants the extra.
def Node.SubDagsPlain : Node V X → Prop
  | .step _            => True
  | .each _ _ subDag _ => ∀ items, AllPlain (subDag items)

def AllPlain : List (Node V X) → Prop
  | []            => True
  | node :: nodes => (node.toStep isCoroutine).wantsExtra = false ∧ node.SubDagsPlain ∧ AllPlain nodes

end

end Grafast
