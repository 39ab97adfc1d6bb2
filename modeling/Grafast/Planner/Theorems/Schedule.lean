import Grafast.Planner.Schedule
import Grafast.Planner.Theorems.Tree
import Grafast.Dag.Theorems.Objects

namespace Grafast

variable {T K Key : Type}

namespace ObjectPlan

variable {p : Plan K} {t op : OutputPlan T} {ordered : List Ref}

-- The ordered steps of a populated layer are those that its bucket reaches.
theorem orderedSteps_populate (h : (op.populateLayers p).layer.orderedSteps = some ordered) :
    ordered = p.orderStepsWithin op.runTargets (op.layer.boundaryIds p) := by
  rw [populateLayers_layer, LayerPlan.populate] at h
  simp only at h
  split at h
  case isTrue  => contradiction
  case isFalse => exact (Option.some.inj h).symm

theorem orderedSteps_of_reaches {step : Ref} (h : op.Reaches p step) :
    (op.populateLayers p).layer.orderedSteps =
      some (p.orderStepsWithin op.runTargets (op.layer.boundaryIds p)) := by
  have hne : op.runTargets.isEmpty = false := by
    have ⟨_, ht, _⟩ := h
    exact List.isEmpty_eq_false_iff.mpr (List.ne_nil_of_mem ht)
  rw [populateLayers_layer, LayerPlan.populate]
  exact if_neg (by rw [← runTargets, hne]; exact Bool.false_ne_true)

variable [PlanStep K Key]

-- A list is closed in the sense of the graph if each of its steps comes after its dependencies.
theorem closed_iff {p : Plan K} {op : OutputPlan T} {ordered : List Ref} :
    Graph.Closed p.dependencies (p.stepId · ∈ op.layer.boundaryIds p) ordered ↔
      ∀ before step after, ordered = before ++ step :: after → ∀ d ∈ p.dependencies step,
        d ∈ before ∨ p.stepId d = p.stepId op.layer.parentStep ∨
          p.stepId d ∈ op.layer.hoistedOutIds := by
  simp only [Graph.Closed, decide_eq_true_eq, LayerPlan.boundaryIds, List.mem_cons, or_comm]

-- Exactly the guarded trees are scheduled, and their layers run the steps of their own buckets.
theorem populateLayers_scheduled_iff {n : Nat} (hp : p.Objects n) :
    (t.populateLayers p).Scheduled p ↔ t.Guarded p := by
  constructor
  case mp =>
    intro h above op step hm hr
    have hm' : (above, op.populateLayers p) ∈ (t.populateLayers p).scopes [] :=
      scopes_populateLayers ▸ List.mem_map_of_mem hm
    have ⟨hc, hs⟩ := h above _ _ hm' (orderedSteps_of_reaches hr)
    have hc := hp.orderStepsWithin_closed_iff.mp (closed_iff.mpr (populateLayers_layer ▸ hc))
    have hs := hs step (hp.mem_orderStepsWithin_iff.mpr hr)
    exact ⟨hs.left, hs.right, hc step hr⟩
  case mpr =>
    intro h _ _ ordered hm he
    rw [scopes_populateLayers, List.mem_map] at hm
    obtain ⟨⟨above, op⟩, hm, hop⟩ := hm
    obtain ⟨rfl, rfl⟩ := Prod.ext_iff.mp hop
    rw [orderedSteps_populate he]
    constructor
    · have hc := hp.orderStepsWithin_closed_iff.mpr fun step hr => (h above op step hm hr).right.right
      exact populateLayers_layer ▸ closed_iff.mp hc
    · intro step hs
      have hs := h above op step hm (hp.mem_orderStepsWithin_iff.mp hs)
      exact ⟨hs.left, hs.right.left⟩

end ObjectPlan

end Grafast
