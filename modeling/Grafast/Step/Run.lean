import Grafast.Step.Basic

namespace Grafast

variable {V E X : Type}

-- One call of a step's `execute`, as the executor makes it.
structure Execution (V X : Type) where
  step  : Nat
  count : Nat
  cols  : List (List V)
  extra : Option X

structure RunState (V X : Type) where
  results : Store V
  log     : List (Execution V X)

def bucketUnariness.go (seeded : Nat → Bool) (unaryHere : Nat → Bool) :
    List (Step V E X) → Nat → Bool
  | [] => unaryHere
  | step :: steps =>
    let eff := step.isUnary && step.isSyncAndSafe &&
      step.dependencies.all fun d => !seeded d && unaryHere d
    go seeded (Function.update unaryHere step.id eff) steps

-- Whether a step is run once and broadcast in this bucket.
def bucketUnariness (steps : List (Step V E X)) (seeded : Nat → Bool) (count : Nat) : Nat → Bool :=
  if count ≤ 0 then fun _ => false else bucketUnariness.go seeded (fun _ => false) steps

def gatherCol (results : Store V) (unary : Bool) (id : Nat) : Except (StepError E) (List V) :=
  match results id with
  | none => .error (.missingColumn id)
  | some col =>
    if unary then
      match col with
      | []     => .error (.emptyColumn id)
      | v :: _ => .ok [v]
    else
      .ok col

def gatherCols (results : Store V) (step : Step V E X) (unary : Bool) :
    Except (StepError E) (List (List V)) :=
  step.dependencies.mapM (gatherCol results unary)

def storeColumn (results : Store V) (step : Step V E X) (count : Nat) (out : List V) (unary : Bool)
    (isAwaitable : V → Bool) : Except (StepError E) (Store V) :=
  if unary then
    match out with
    | [v] =>
      if isAwaitable v then
        .error (.sharedAwaitable step.id)
      else
        .ok (results.insert step.id (List.replicate count v))
    | _   => .error (.unaryLength step.id out.length)
  else if out.length = count then
    .ok (results.insert step.id out)
  else
    .error (.columnLength step.id out.length count)

-- The parameters of a run that stay fixed while the steps are executed. The tracing hook and the
-- semaphore are left out: neither can change a column.
structure Bucket (V E X : Type) where
  count       : Nat
  unaryHere   : Nat → Bool
  isAwaitable : V → Bool
  extra       : Option X

namespace Bucket

def stepCount (b : Bucket V E X) (step : Step V E X) : Nat :=
  if b.unaryHere step.id then 1 else b.count

-- A step gets the extra of the bucket if it declares that it wants it.
def extraFor (b : Bucket V E X) (step : Step V E X) : Option X :=
  if step.wantsExtra then b.extra else none

-- The call of `execute` that both loops make, with the gathering of its arguments.
def call (b : Bucket V E X) (step : Step V E X) (s : RunState V X) :
    Except (StepError E) (RunState V X × Out V E) := do
  let cols ← gatherCols s.results step (b.unaryHere step.id)
  let e : Execution V X := ⟨step.id, b.stepCount step, cols, b.extraFor step⟩
  return ({ s with log := s.log ++ [e] }, step.execute (b.stepCount step) cols (b.extraFor step))

def record (b : Bucket V E X) (step : Step V E X) (s : RunState V X) (out : List V) :
    Except (StepError E) (RunState V X) := do
  let results ← storeColumn s.results step b.count out (b.unaryHere step.id) b.isAwaitable
  return { s with results }

def awaited : Except E (List V) → Except (StepError E) (List V)
  | .ok out  => .ok out
  | .error e => .error (.raised e)

-- The rest of a run after the first awaitable column: each further one is awaited in turn.
def runStepsAsync.go (b : Bucket V E X) :
    List (Step V E X) → RunState V X → Except (StepError E) (RunState V X)
  | [], s => .ok s
  | step :: steps, s => do
    let (s, out) ← b.call step s
    match out with
    | .raised e      => .error (.raised e)
    | .column out    => go b steps (← b.record step s out)
    | .awaitable out => go b steps (← b.record step s (← awaited out))

def runStepsAsync (b : Bucket V E X) (step : Step V E X) (pending : Except E (List V))
    (steps : List (Step V E X)) (s : RunState V X) : Except (StepError E) (RunState V X) := do
  runStepsAsync.go b steps (← b.record step s (← awaited pending))

end Bucket

-- `runSteps` returns the results themselves, or a coroutine that resolves to them.
inductive Running (V E X : Type)
  | results (s : RunState V X)
  | coroutine (outcome : Except (StepError E) (RunState V X))

def Running.resolve : Running V E X → Except (StepError E) (RunState V X)
  | results s         => .ok s
  | coroutine outcome => outcome

def runSteps.go (b : Bucket V E X) :
    List (Step V E X) → RunState V X → Except (StepError E) (Running V E X)
  | [], s => .ok (.results s)
  | step :: steps, s => do
    let (s, out) ← b.call step s
    match out with
    | .raised e      => .error (.raised e)
    | .column out    => go b steps (← b.record step s out)
    | .awaitable out => .ok (.coroutine (b.runStepsAsync step out steps s))

def runSteps (count : Nat) (orderedSteps : List (Step V E X)) (isAwaitable : V → Bool)
    (seed : Store V) (extra : Option X) : Except (StepError E) (Running V E X) :=
  let unaryHere := bucketUnariness orderedSteps (fun id => (seed id).isSome) count
  runSteps.go ⟨count, unaryHere, isAwaitable, extra⟩ orderedSteps ⟨seed, []⟩

end Grafast
