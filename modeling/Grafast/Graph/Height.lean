import Mathlib.Data.Finset.Card
import Mathlib.Logic.Relation

namespace Graph

open Relation Classical

variable {α : Type*} {r : α → α → Prop} {u : Finset α} {x y : α}

-- The number of nodes below a node, which decreases along the edges of an acyclic relation.
noncomputable def height (r : α → α → Prop) (u : Finset α) (x : α) : Nat :=
  (u.filter (TransGen r x)).card

theorem height_le : height r u x ≤ u.card :=
  Finset.card_filter_le ..

theorem height_lt (ha : ∀ x, ¬TransGen r x x) (hy : y ∈ u) (e : r x y) :
    height r u y < height r u x := by
  apply Finset.card_lt_card
  refine Finset.ssubset_iff_of_subset (fun z hz => ?_) |>.mpr ⟨y, ?_, ?_⟩
  · have ⟨hz, hr⟩ := Finset.mem_filter.mp hz
    exact Finset.mem_filter.mpr ⟨hz, .head e hr⟩
  · exact Finset.mem_filter.mpr ⟨hy, .single e⟩
  · exact fun hc => ha y (Finset.mem_filter.mp hc).right

-- Induction from the leaves of a finite acyclic graph upwards.
theorem height_induction {motive : α → Prop} (ha : ∀ x, ¬TransGen r x x)
    (hu : ∀ x y, r x y → y ∈ u) (h : ∀ x, (∀ y, r x y → motive y) → motive x) (x : α) :
    motive x := by
  induction hn : height r u x using Nat.strong_induction_on generalizing x
  case _ n hi => exact h x fun y e => hi _ (hn ▸ height_lt ha (hu x y e) e) y rfl

end Graph
