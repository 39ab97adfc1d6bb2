import Grafast.Planner.Operation

namespace Grafast

variable {T K Key : Type}

namespace ObjectPlan

variable (p : Plan K)

def remap (remap : Remap) (t : OutputPlan T) : OutputPlan T :=
  let survivor (step : Ref) := (remap (p.stepId step)).getD step
  t.rebuild survivor fun _ layer => { layer with parentStep := survivor layer.parentStep }

-- Every step that the executor consumes.
def consumptionRootSteps (t : OutputPlan T) : List Ref :=
  (t.scopes []).flatMap fun (_, op) => op.layer.parentStep :: op.fields.map (·.step)

-- The parent step of the deepest bucket that the given steps descend from, else that of the root.
def deepestOwnerParentId (t : OutputPlan T) (boundaryIds : List (Option Nat)) : Option Nat :=
  let best := (t.scopes []).foldl (fun best (above, op) =>
    let id := p.stepId op.layer.parentStep
    if boundaryIds.contains id && best.all (·.snd < above.length) then some (id, above.length) else best)
    none
  best.elim (p.stepId t.layer.parentStep) (·.fst)

def attachEffectSteps (orphanedEffects : List Ref) (t : OutputPlan T) : OutputPlan T :=
  let ownerId (effect : Ref) := t.deepestOwnerParentId p ((p.orderSteps [effect]).snd.map p.stepId)
  t.rebuild id fun _ layer =>
    let mine := orphanedEffects.filter (ownerId · == p.stepId layer.parentStep)
    { layer with effectSteps := layer.effectSteps ++ mine }

end ObjectPlan

-- The ids at which the walk of a layer stops.
def LayerPlan.boundaryIds (p : Plan K) (layer : LayerPlan) : List (Option Nat) :=
  p.stepId layer.parentStep :: layer.hoistedOutIds

-- Fills the run steps of a layer whose fields have the given steps.
def LayerPlan.populate (p : Plan K) (fieldSteps : List Ref) (layer : LayerPlan) : LayerPlan :=
  let runSteps := fieldSteps ++ layer.effectSteps ++ layer.hoistedIn
  { layer with
    runSteps
    orderedSteps :=
      if runSteps.isEmpty then none else some (p.orderStepsWithin runSteps (layer.boundaryIds p)) }

def ObjectPlan.populateLayers (p : Plan K) (t : OutputPlan T) : OutputPlan T :=
  t.rebuild id (LayerPlan.populate p)

variable [PlanStep K Key]

namespace Plan

def hoistable (p : Plan K) (step : Ref) : Bool :=
  (p.kind step).elim false PlanStep.hoistable

def isRoot (p : Plan K) (step : Ref) : Bool :=
  (p.kind step).elim false PlanStep.isRoot

def isItem (p : Plan K) (step : Ref) : Bool :=
  (p.kind step).elim false PlanStep.isItem

-- Whether a step of a layer may be lifted into the parent layer.
def isHoistable (p : Plan K) (step : Ref) (liftableAbove : List (Option Nat)) : Bool :=
  p.dedupable step && p.hoistable step && !(p.isRoot step || p.isItem step) &&
    (p.dependencies step).all (liftableAbove.contains <| p.stepId ·)

-- Whether the ids of the given steps contain that of a step.
def hasId (p : Plan K) (steps : List Ref) (step : Ref) : Bool :=
  (steps.map p.stepId).contains (p.stepId step)

-- Lifts steps until no further step becomes liftable.
def liftOut (p : Plan K) (availableAbove : List (Option Nat)) (ownSteps : List Ref) :
    Nat → List Ref → List Ref
  | 0,        lifted => lifted
  | fuel + 1, lifted =>
    let liftableAbove := availableAbove ++ lifted.map p.stepId
    let new := ownSteps.filter fun step => !p.hasId lifted step && p.isHoistable step liftableAbove
    if new.isEmpty then lifted else liftOut p availableAbove ownSteps fuel (lifted ++ new)

end Plan

variable (p : Plan K)

mutual

-- Lifts the steps of a subtree, and returns those that have left its top layer.
def hoistLayer (availableAbove : List (Option Nat)) (isTop : Bool) :
    OutputPlan T → OutputPlan T × List Ref
  | ⟨fields, layer⟩ =>
    let hereBoundary := availableAbove ++ [p.stepId layer.parentStep]
    let targets := fields.map (·.step) ++ layer.effectSteps
    let ownSteps := p.orderStepsWithin targets hereBoundary
    let availableHere := hereBoundary ++ ownSteps.map p.stepId
    let (fields, ownSteps, hoistedIn) := hoistFields availableHere ownSteps layer.hoistedIn fields
    let liftedOut :=
      if isTop then [] else p.liftOut availableAbove ownSteps (ownSteps.length + 1) []
    let layer := { layer with
      hoistedIn     := hoistedIn.filter (!p.hasId liftedOut ·)
      hoistedOutIds := layer.hoistedOutIds ++ liftedOut.map p.stepId }
    (⟨fields, layer⟩, liftedOut)

def hoistFields (availableHere : List (Option Nat)) (ownSteps hoistedIn : List Ref) :
    List (FieldPlan T LayerPlan Ref) → List (FieldPlan T LayerPlan Ref) × List Ref × List Ref
  | []                                             => ([], ownSteps, hoistedIn)
  | ⟨name, label, step, completer, stream⟩ :: fs =>
    let (completer, lifted) := hoistCompleter availableHere completer
    let fresh := lifted.filter (!p.hasId ownSteps ·)
    let (fs, ownSteps, hoistedIn) := hoistFields availableHere (ownSteps ++ fresh) (hoistedIn ++ fresh) fs
    (⟨name, label, step, completer, stream⟩ :: fs, ownSteps, hoistedIn)

-- The parent step of a child bucket is not available to the steps that leave the bucket.
def hoistCompleter (availableHere : List (Option Nat)) :
    Completer T LayerPlan Ref → Completer T LayerPlan Ref × List Ref
  | .leaf type           => (.leaf type, [])
  | .object type child   =>
    let childBoundary := p.stepId child.layer.parentStep
    let (child, lifted) := hoistLayer (availableHere.filter (· != childBoundary)) false child
    (.object type child, lifted)
  | .abstract type plans => (.abstract type plans, [])
  | .list item           =>
    let (item, lifted) := hoistCompleter availableHere item
    (.list item, lifted)
  | .nonNull inner       =>
    let (inner, lifted) := hoistCompleter availableHere inner
    (.nonNull inner, lifted)

end

def hoistSteps (t : OutputPlan T) : OutputPlan T :=
  (hoistLayer p [] true t).fst

variable [DecidableEq Key]

-- The part of `finalizePlan` that settles the steps and the tree.
def arrangePlan (hook : Optimizer K) (hoist : Bool) (p : Plan K) (t : OutputPlan T) :
    Option (Plan K × OutputPlan T) := do
  let (p, optRemap) ← p.optimize hook
  let (p, dedupRemap) := p.deduplicate
  let t := t.remap p (p.composeRemaps optRemap dedupRemap)
  let (p, orphanedEffects) := p.treeShake t.consumptionRootSteps
  let t := if orphanedEffects.isEmpty then t else t.attachEffectSteps p orphanedEffects
  return (p, if hoist then hoistSteps p t else t)

def finalizePlan (hook : Optimizer K) (hoist : Bool) (p : Plan K) (t : OutputPlan T) :
    Option (Plan K × OutputPlan T) := do
  let (p, t) ← arrangePlan hook hoist p t
  return (p, t.populateLayers p)

namespace OperationDefinition

variable (hook : Optimizer K)

-- The step DAG and the output plan before they are finalized.
def planOutput (o : OperationDefinition T K) : Option (Plan K × OutputPlan T) := do
  let p ← (Plan.empty.construct o.rootStep []).addStep 0
  planObject o.abstractChildPlan p 0 o.rootFields

def arrange (o : OperationDefinition T K) : Option (Plan K × OutputPlan T) := do
  let (p, t) ← o.planOutput
  arrangePlan hook (o.hoist && !o.isMutation) p t

def planOperation (o : OperationDefinition T K) : Option (Plan K × OutputPlan T) := do
  let (p, t) ← o.planOutput
  finalizePlan hook (o.hoist && !o.isMutation) p t

end OperationDefinition

end Grafast
