import Grafast.Planner.Finalize

namespace Grafast

-- What is observed of a mutation: a step starts for a root field, or a root field has been completed
-- with its whole subtree, and has nulled the root or not.
inductive SerialEvent
  | start (field : Option Nat) (step : Ref)
  | finished (field : Nat) (nullsRoot : Bool)
  deriving DecidableEq

-- A call: what happens until it returns, and what happens when it is awaited if it returns a
-- coroutine.
structure Call where
  called  : List SerialEvent
  awaited : Option (List SerialEvent)

def Call.events (c : Call) : List SerialEvent :=
  c.called ++ c.awaited.getD []

-- How a run of steps goes: which of the steps is the first one whose column has to be awaited, and
-- which one raises.
structure StepsRun where
  awaits : Option Nat
  raises : Option Nat

namespace StepsRun

-- The steps that are started.
def started (r : StepsRun) (steps : List Ref) : List Ref :=
  match r.raises with
  | none   => steps
  | some k => steps.take (k + 1)

def isRaised (r : StepsRun) (steps : List Ref) : Bool :=
  r.raises.any (· < steps.length)

-- The steps that are started before the run becomes a coroutine, and those after.
def split (r : StepsRun) (steps : List Ref) : List Ref × Option (List Ref) :=
  let started := r.started steps
  match r.awaits with
  | none   => (started, none)
  | some k => if k < started.length then (started.take (k + 1), some (started.drop (k + 1)))
    else (started, none)

end StepsRun

inductive Outcome
  | kept
  | nullsRoot
  | raised

-- How the completion of the values of a field goes: the steps of nested buckets that start before it
-- becomes a coroutine, and those after.
structure CompletionRun where
  called  : List Ref
  awaited : Option (List Ref)
  outcome : Outcome

structure FieldRun where
  steps      : StepsRun
  completion : CompletionRun

-- The state of the root bucket, which has a single parent.
inductive Root
  | live
  | nulled
  | raised
  deriving DecidableEq

section

variable (field : Nat)

def starts (steps : List Ref) : List SerialEvent :=
  steps.map (.start (some field))

-- The write of the completed value, and the root after it.
def finish : Outcome → List SerialEvent × Root
  | .kept      => ([.finished field false], .live)
  | .nullsRoot => ([.finished field true], .nulled)
  | .raised    => ([], .raised)

def completeSteps (c : CompletionRun) : Call × Root :=
  let (finished, root) := finish field c.outcome
  match c.awaited with
  | none      => (⟨starts field c.called ++ finished, none⟩, root)
  | some rest => (⟨starts field c.called, some (starts field rest ++ finished)⟩, root)

-- A root field runs its steps for the live parents, of which there are none once the root is nulled.
def completeSerialField (walk : List Ref) (run : FieldRun) (root : Root) : Call × Root :=
  if root ≠ .live then
    (⟨[], none⟩, root)
  else
    let (called, awaited) := run.steps.split walk
    let isRaised := run.steps.isRaised walk
    let (completion, root) := completeSteps field run.completion
    match awaited with
    | none =>
      if isRaised then
        (⟨starts field called, none⟩, .raised)
      else
        (⟨starts field called ++ completion.called, completion.awaited⟩, root)
    | some rest =>
      if isRaised then
        (⟨starts field called, some (starts field rest)⟩, .raised)
      else
        (⟨starts field called, some (starts field rest ++ completion.events)⟩, root)

-- The loop of the coroutine: every further field is awaited before the next one.
def finishFields : Nat → List (List Ref × FieldRun) → Root → List SerialEvent
  | _,     [],                   _    => []
  | field, (walk, run) :: fields, root =>
    let (call, root) := completeSerialField field walk run root
    if root = .raised then call.events else call.events ++ finishFields (field + 1) fields root

-- The loop that goes on until the first field that has to be awaited.
def executeSerialFields : Nat → List (List Ref × FieldRun) → Root → Call
  | _,     [],                   _    => ⟨[], none⟩
  | field, (walk, run) :: fields, root =>
    let (call, root) := completeSerialField field walk run root
    match call.awaited with
    | some rest =>
      let later := if root = .raised then [] else finishFields (field + 1) fields root
      ⟨call.called, some (rest ++ later)⟩
    | none =>
      if root = .raised then
        ⟨call.called, none⟩
      else
        let later := executeSerialFields (field + 1) fields root
        ⟨call.called ++ later.called, later.awaited⟩

end

namespace ObjectPlan

variable {T K : Type} (p : Plan K) (owner : Ref → Option Nat)

-- The steps that are run for the effects that have been orphaned in the root bucket.
def effectWalk (t : OutputPlan T) : List Ref :=
  p.orderStepsWithin t.layer.effectSteps [p.stepId t.layer.parentStep]

def fieldWalk (t : OutputPlan T) (f : FieldPlan T LayerPlan Ref) : List Ref :=
  p.orderStepsWithin [f.step] [p.stepId t.layer.parentStep]

def ownedStarts (steps : List Ref) : List SerialEvent :=
  steps.map fun step => .start (owner step) step

-- The execution of the root bucket of a mutation. The orphaned effects are run before the fields.
def executeSerially (t : OutputPlan T) (effects : StepsRun)
    (runs : FieldPlan T LayerPlan Ref → FieldRun) : Call :=
  let fields := executeSerialFields 0 (t.fields.map fun f => (t.fieldWalk p f, runs f)) .live
  if t.layer.effectSteps.isEmpty then
    fields
  else
    let (called, awaited) := effects.split (t.effectWalk p)
    let isRaised := effects.isRaised (t.effectWalk p)
    match awaited with
    | none      =>
      if isRaised then
        ⟨ownedStarts owner called, none⟩
      else
        ⟨ownedStarts owner called ++ fields.called, fields.awaited⟩
    | some rest =>
      let later := if isRaised then [] else fields.events
      ⟨ownedStarts owner called, some (ownedStarts owner rest ++ later)⟩

end ObjectPlan

-- No step starts for a root field before all fields before it have been completed, nor after a field
-- has nulled the root.
structure Serial (events : List SerialEvent) : Prop where
  finished : ∀ before field step after, events = before ++ .start (some field) step :: after →
    ∀ k < field, .finished k false ∈ before
  nulled   : ∀ before field after, events = before ++ .finished field true :: after →
    ∀ owner step, .start owner step ∉ after

namespace OperationDefinition

variable {T K Key : Type} [PlanStep K Key]

-- The number of step objects once the first root fields have been planned.
def plannedSteps (o : OperationDefinition T K) (fields : Nat) : Option Nat := do
  let p ← (Plan.empty.construct o.rootStep []).addStep 0
  let (p, _) ← planFields o.abstractChildPlan p 0 (o.rootFields.take fields)
  return p.heap.length

-- The root field whose planning has made a step.
def fieldOf (o : OperationDefinition T K) (step : Ref) : Option Nat :=
  (List.range o.rootFields.length).find? fun k => (o.plannedSteps (k + 1)).any (step < ·)

end OperationDefinition

end Grafast
