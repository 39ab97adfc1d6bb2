import Grafast.Planner.Schedule

namespace Grafast

-- What the executor asks a walk of the steps for, and the ids at which the walk stops.
structure Walk where
  targets     : List Ref
  boundaryIds : List (Option Nat)

def Walk.steps {K : Type} (p : Plan K) (w : Walk) : List Ref :=
  p.orderStepsWithin w.targets w.boundaryIds

-- A step that the targets of a walk depend on, by a path that does not pass through the boundary.
def Walk.Reaches {K : Type} (p : Plan K) (w : Walk) : Ref → Prop :=
  Graph.Region p.dependencies (p.stepId · ∈ w.boundaryIds) w.targets

namespace ObjectPlan

variable {T K Key : Type} (p : Plan K)

-- The root bucket of a mutation runs the orphaned effects, and then each field on its own.
def serialWalks (t : OutputPlan T) : List Walk :=
  let boundaryIds := [p.stepId t.layer.parentStep]
  let effects := if t.layer.effectSteps.isEmpty then [] else [⟨t.layer.effectSteps, boundaryIds⟩]
  effects ++ t.fields.map fun f => ⟨[f.step], boundaryIds⟩

-- What `run_layer` runs.
def layerRun (op : OutputPlan T) : List Ref :=
  op.layer.orderedSteps.getD []

-- The steps that are run over one bucket of each layer, in the order in which they are run.
def runs (isMutation : Bool) (t : OutputPlan T) : List (List Ref) :=
  let root := if isMutation then (t.serialWalks p).map (Walk.steps p) else [t.layerRun]
  root ++ (t.scopes []).tail.map (·.snd.layerRun)

-- The walk of a layer, before the layer is populated.
def walk (op : OutputPlan T) : Walk where
  targets     := op.runTargets
  boundaryIds := op.layer.boundaryIds p

def walks (isMutation : Bool) (t : OutputPlan T) : List Walk :=
  let root := if isMutation then t.serialWalks p else [t.walk p]
  root ++ (t.scopes []).tail.map (·.snd.walk p)

variable [PlanStep K Key] (isMutation : Bool)

-- Every step that is registered for its effect is run once.
def EffectsOnce (t : OutputPlan T) : Prop :=
  ∀ step ∈ p.steps, p.dedupable step = false → (t.runs p isMutation).flatten.count step = 1

-- Every step that is registered for its effect belongs to one walk: that walk depends on it, and no
-- other walk does.
def EffectsOwned (t : OutputPlan T) : Prop :=
  ∀ step ∈ p.steps, p.dedupable step = false → ∃ before w after,
    t.walks p isMutation = before ++ w :: after ∧ Walk.Reaches p w step ∧
      ∀ v ∈ before ++ after, ¬Walk.Reaches p v step

end ObjectPlan

end Grafast
