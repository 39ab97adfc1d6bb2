import Grafast.Step.Each
import Grafast.Planner.Finalize
import Grafast.Execute.Value

namespace Grafast

-- What a bucket hands to the steps that want it. The source values of a request are the values of its
-- variables by their source tags.
structure BucketExtra (C V : Type) where
  context      : C
  parentPaths  : List Path
  sourceValues : String → Option V

-- The executable step that a kind of step is, for its id and the ids of its dependencies.
class ExecutableStep (K : Type) (V C : outParam Type) where
  node : K → Nat → List Nat → Node V (BucketExtra C V)

variable {T K V C : Type}

section

variable [ExecutableStep K V C]

def Plan.node (p : Plan K) (step : Ref) : Option (Node V (BucketExtra C V)) := do
  let kind ← p.kind step
  let id ← p.stepId step
  let dependencies ← (p.dependencies step).mapM p.stepId
  return ExecutableStep.node kind id dependencies

def Plan.nodes (p : Plan K) (steps : List Ref) : Option (List (Node V (BucketExtra C V))) :=
  steps.mapM p.node

end

-- A call of `run_steps`. The seed is the parents of the bucket and what is handed down to it.
structure RunCall (V X : Type) where
  count        : Nat
  orderedSteps : List (Node V X)
  seed         : Store V
  extra        : Option X

-- The steps that a call executes, and those executed within them, each with the extra that it gets.
def RunCall.deliveries {S X : Type} [PyValue V S] [EachErrors V] (isAwaitable isCoroutine : V → Bool)
    (c : RunCall V X) : List (Step V V X × Option X) :=
  let steps := toSteps isCoroutine c.orderedSteps
  let unaryHere := bucketUnariness steps (fun id => (c.seed id).isSome) c.count
  let b : Bucket V V X := ⟨c.count, unaryHere, isAwaitable, c.extra⟩
  Grafast.deliveries isCoroutine c.orderedSteps (b.executed steps ⟨c.seed, []⟩)

-- A request: the finalized plan of its operation, and the plans that are made and finalized on their
-- own for the concrete types of abstract values and for deferred groups.
structure Request (T K C V : Type) where
  context      : C
  sourceValues : String → Option V
  isMutation   : Bool
  operation    : Plan K × OutputPlan T
  subplans     : List (Plan K × OutputPlan T)

namespace Request

def extra (r : Request T K C V) (parentPaths : List Path) : BucketExtra C V :=
  ⟨r.context, parentPaths, r.sourceValues⟩

-- The object plans that `execute_object_plan` runs: the root plan of a mutation is not one of them.
def objectPlans (r : Request T K C V) : List (Plan K × OutputPlan T) :=
  let scopes (t : OutputPlan T) := (t.scopes []).map (·.snd)
  let (p, t) := r.operation
  let own := if r.isMutation then (scopes t).tail else scopes t
  own.map (p, ·) ++ r.subplans.flatMap fun (q, u) => (scopes u).map (q, ·)

variable [ExecutableStep K V C] (r : Request T K C V)

def runLayer (p : Plan K) (layer : LayerPlan) (parents : List V) (parentPaths : List Path)
    (parentStore : Store V) : Option (RunCall V (BucketExtra C V)) := do
  let parentId ← p.stepId layer.parentStep
  return {
    count        := parents.length
    orderedSteps := ← p.nodes (← layer.orderedSteps)
    seed         := parentStore.insert parentId parents
    extra        := some (r.extra parentPaths) }

-- The effects are run without an extra.
def runEffectSteps (p : Plan K) (layer : LayerPlan) (parents : List V) :
    Option (RunCall V (BucketExtra C V)) := do
  let parentId ← p.stepId layer.parentStep
  return {
    count        := parents.length
    orderedSteps := ← p.nodes (p.orderStepsWithin layer.effectSteps [parentId])
    seed         := Store.empty.insert parentId parents
    extra        := none }

def runSerialPlanField (p : Plan K) (field : FieldPlan T LayerPlan Ref) (liveParents : List V)
    (livePaths : List Path) (parentStep : Ref) : Option (RunCall V (BucketExtra C V)) := do
  let parentId ← p.stepId parentStep
  return {
    count        := liveParents.length
    orderedSteps := ← p.nodes (p.orderStepsWithin [field.step] [parentId])
    seed         := Store.empty.insert parentId liveParents
    extra        := some (r.extra livePaths) }

-- The calls of `run_steps` that the executor can make for a request, whatever the buckets are that
-- the values of the fields give rise to.
inductive Calls : RunCall V (BucketExtra C V) → Prop
  | layer {p : Plan K} {op : OutputPlan T} {parents : List V} {parentPaths : List Path}
      {parentStore : Store V} {c : RunCall V (BucketExtra C V)} :
    (p, op) ∈ r.objectPlans → r.runLayer p op.layer parents parentPaths parentStore = some c → Calls c
  | effects {parents : List V} {c : RunCall V (BucketExtra C V)} :
    r.isMutation = true → r.operation.snd.layer.effectSteps ≠ [] →
      runEffectSteps r.operation.fst r.operation.snd.layer parents = some c → Calls c
  | field {f : FieldPlan T LayerPlan Ref} {liveParents : List V} {livePaths : List Path}
      {c : RunCall V (BucketExtra C V)} :
    r.isMutation = true → f ∈ r.operation.snd.fields →
      r.runSerialPlanField r.operation.fst f liveParents livePaths r.operation.snd.layer.parentStep =
        some c → Calls c

-- Every step that wants the extra is executed with the extra of the request.
def SuppliesExtra {S : Type} [PyValue V S] [EachErrors V] (isAwaitable isCoroutine : V → Bool) : Prop :=
  ∀ c, r.Calls c → ∀ d ∈ c.deliveries isAwaitable isCoroutine, d.fst.wantsExtra = true →
    ∃ parentPaths, d.snd = some (r.extra parentPaths)

-- The steps that a plan runs for the effects of its root layer.
def effectWalk : List Ref :=
  let (p, t) := r.operation
  p.orderStepsWithin t.layer.effectSteps [p.stepId t.layer.parentStep]

-- No orphaned effect of a mutation depends on a step that wants the extra or is one, and no mapper of an
-- `EachStep` does.
structure Plain {S : Type} [PyValue V S] [EachErrors V] (isCoroutine : V → Bool) : Prop where
  effects : r.isMutation = true → ∀ step ∈ r.effectWalk, ∀ node, r.operation.fst.node step = some node →
    (node.toStep isCoroutine).wantsExtra = false
  subDags : ∀ p t, (p, t) ∈ r.operation :: r.subplans → ∀ step node, p.node step = some node →
    node.SubDagsPlain isCoroutine

end Request

end Grafast
