import Grafast.Planner.Finalize
import Grafast.Graph.PostOrder

namespace Grafast

namespace ObjectPlan

variable {T K Key : Type}

-- The steps that a bucket has to run: those of its fields, those that are run for effect, and those
-- that have been lifted into it.
def runTargets (op : OutputPlan T) : List Ref :=
  op.fields.map (·.step) ++ op.layer.effectSteps ++ op.layer.hoistedIn

-- A step that the run targets of a bucket depend on, by a path that does not pass through the
-- boundary of the bucket.
def Reaches (p : Plan K) (op : OutputPlan T) : Ref → Prop :=
  Graph.Region p.dependencies (p.stepId · ∈ op.layer.boundaryIds p) op.runTargets

variable [PlanStep K Key]

-- The ordered steps of every layer come after their dependencies, apart from the parent step of the
-- layer and the steps that have been lifted out of it, and they contain neither a root step nor the
-- parent step of an enclosing layer.
def Scheduled (p : Plan K) (t : OutputPlan T) : Prop :=
  ∀ above op ordered, (above, op) ∈ t.scopes [] → op.layer.orderedSteps = some ordered →
    (∀ before step after, ordered = before ++ step :: after → ∀ d ∈ p.dependencies step,
      d ∈ before ∨ p.stepId d = p.stepId op.layer.parentStep ∨
        p.stepId d ∈ op.layer.hoistedOutIds) ∧
    ∀ step ∈ ordered, p.isRoot step = false ∧ step ∉ above

-- No bucket depends on a root step or on the parent step of an enclosing layer past its boundary,
-- nor on a step that depends on itself.
def Guarded (p : Plan K) (t : OutputPlan T) : Prop :=
  ∀ above op step, (above, op) ∈ t.scopes [] → op.Reaches p step →
    p.isRoot step = false ∧ step ∉ above ∧
      ¬Relation.TransGen (Graph.Edge p.dependencies (p.stepId · ∈ op.layer.boundaryIds p)) step step

end ObjectPlan

end Grafast
