import Grafast.Planner.Effects
import Grafast.Dag.Theorems.Plan
import Mathlib.Data.List.Infix

namespace Grafast

open Relation (ReflTransGen)

variable {T K Key : Type}

-- Whether a step is of a kind that may be lifted out of a layer.
def Plan.liftable [PlanStep K Key] (p : Plan K) (step : Ref) : Bool :=
  p.dedupable step && p.hoistable step && !(p.isRoot step || p.isItem step)

namespace ObjectPlan

-- The steps of the fields of a layer, and those that are run for effect.
def targets (op : OutputPlan T) : List Ref :=
  op.fields.map (·.step) ++ op.layer.effectSteps

-- The layers of a tree from one of them up to the top.
inductive Path (t : OutputPlan T) : List (OutputPlan T) → Prop
  | top : Path t [t]
  | child {op child : OutputPlan T} {above : List (OutputPlan T)} {f : FieldPlan T LayerPlan Ref} :
    Path t (op :: above) → f ∈ op.fields → f.completer.findObject = some child →
    Path t (child :: op :: above)

-- No layer runs the step within a layer that runs it, so that one layer at most does on the way from the
-- top to any leaf.
def FiresOnce (t : OutputPlan T) (step : Ref) : Prop :=
  ∀ op above, t.Path (op :: above) → step ∈ op.layerRun → ∀ outer ∈ above, step ∉ outer.layerRun

variable (p : Plan K) (root : Ref)

-- What the given layers depend on, with the parent step of the top layer.
def Needed (layers : List (OutputPlan T)) (step : Ref) : Prop :=
  step = root ∨ ∃ op ∈ layers, ∃ target ∈ op.targets, ReflTransGen p.DependsOn target step

variable [PlanStep K Key]

-- A step that can leave a layer: neither the step nor what it depends on, apart from what the enclosing
-- layers need, depends on the parent step of the layer or is of a kind that stays.
inductive CanLeave (above : List (OutputPlan T)) (op : OutputPlan T) : Ref → Prop
  | intro {step : Ref} : p.liftable step = true → op.layer.parentStep ∉ p.dependencies step →
    (∀ d ∈ p.dependencies step, ¬Needed p root above d → CanLeave above op d) → CanLeave above op step

-- A step that comes to a layer: the layer depends on it and no enclosing one does, or it comes to a layer
-- below that it can leave.
inductive Owns : List (OutputPlan T) → Ref → Prop
  | own {op : OutputPlan T} {above : List (OutputPlan T)} {target step : Ref} :
    target ∈ op.targets → ReflTransGen p.DependsOn target step → ¬Needed p root above step →
    Owns (op :: above) step
  | lifted {op child : OutputPlan T} {above : List (OutputPlan T)} {f : FieldPlan T LayerPlan Ref} {step : Ref} :
    f ∈ op.fields → f.completer.findObject = some child → Owns (child :: op :: above) step →
    CanLeave p root (op :: above) child step → Owns (op :: above) step

-- A step that comes to a layer and cannot leave it.
def Stays : List (OutputPlan T) → Ref → Prop
  | [],          _    => False
  | op :: above, step => Owns p root (op :: above) step ∧ (above = [] ∨ ¬CanLeave p root above op step)

-- A step that a layer takes up again: what stays in the layer depends on something that the enclosing
-- layers need, and the step is reached from there past the parent step of the layer.
def Reenters : List (OutputPlan T) → Ref → Prop
  | [],          _    => False
  | op :: above, step => ∃ back, Needed p root above back ∧
    (back ∈ op.targets ∨ ∃ s, Stays p root (op :: above) s ∧ back ∈ p.dependencies s) ∧
    Graph.Region p.dependencies (· == op.layer.parentStep) [back] step

-- A step for which there is one layer at most on each way down: no layer takes it up again, and it does
-- not stay in a layer within another layer in which it stays.
structure SettlesOnce (t : OutputPlan T) (step : Ref) : Prop where
  fresh : ∀ path, t.Path path → ¬Reenters p t.layer.parentStep path step
  alone : ∀ op above, t.Path (op :: above) → Stays p t.layer.parentStep (op :: above) step →
    ∀ outer, outer <:+ above → ¬Stays p t.layer.parentStep outer step

end ObjectPlan

end Grafast
