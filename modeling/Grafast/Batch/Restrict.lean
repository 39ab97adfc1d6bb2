import Grafast.Batch.Traverse

namespace Batch

universe u v

variable {α β : Type u}

-- The entries of a column at the places that are kept.
def restrict : (Nat → Bool) → List α → List α
  | _,    []     => []
  | keep, a :: l => if keep 0 then a :: restrict (keep <| · + 1) l else restrict (keep <| · + 1) l

variable {k : Nat → Bool} {l : List α}

theorem restrict_map {f : α → β} : restrict k (l.map f) = (restrict k l).map f := by
  induction l generalizing k
  case nil         => rfl
  case cons a l hi =>
    rw [List.map_cons, restrict, restrict, hi]
    cases k 0 <;> simp

-- The number of places that are kept among the first ones.
def kept (keep : Nat → Bool) (count : Nat) : Nat :=
  (restrict keep (List.range count)).length

theorem restrict_length_congr {γ : Type v} {m : List γ} (h : l.length = m.length) :
    (restrict k l).length = (restrict k m).length := by
  induction l generalizing k m
  case nil         => rw [List.length_eq_zero_iff.mp h.symm]; rfl
  case cons a l hi =>
    obtain ⟨b, m, rfl⟩ := List.exists_cons_of_length_eq_add_one h.symm
    have hi := hi (k := (k <| · + 1)) (Nat.succ.inj h)
    rw [restrict, restrict]
    cases k 0 <;> simp [hi]

theorem kept_eq : kept k l.length = (restrict k l).length :=
  restrict_length_congr List.length_range

theorem mapM_restrict {f : α → Option β} {bs : List β} (h : l.mapM f = some bs) :
    (restrict k l).mapM f = some (restrict k bs) := by
  induction l generalizing k bs
  case nil         => exact Option.some.inj h ▸ rfl
  case cons a l hi =>
    simp only [List.mapM_cons, Option.bind_eq_bind, Option.bind_eq_some_iff] at h
    obtain ⟨b, hb, bs', hbs, h⟩ := h
    obtain rfl := Option.some.inj h
    have hi := hi (k := (k <| · + 1)) hbs
    rw [restrict, restrict]
    cases k 0
    case false => exact hi
    case true  => simp [hb, hi]

-- What is dropped contributes nothing.
theorem flatMap_restrict {f : α → List β}
    (h : ∀ i a, l[i]? = some a → k i = false → f a = []) : (restrict k l).flatMap f = l.flatMap f := by
  induction l generalizing k
  case nil         => rfl
  case cons a l hi =>
    have hi := hi (k := (k <| · + 1)) fun i b hb => h (i + 1) b (by simpa using hb)
    rw [restrict, List.flatMap_cons]
    cases hk : k 0
    case false => rw [h 0 a rfl hk]; exact hi
    case true  => rw [if_pos rfl, List.flatMap_cons, hi]

theorem filterMap_restrict {f : α → Option β}
    (h : ∀ i a, l[i]? = some a → k i = false → f a = none) :
    (restrict k l).filterMap f = l.filterMap f := by
  induction l generalizing k
  case nil         => rfl
  case cons a l hi =>
    have hi := hi (k := (k <| · + 1)) fun i b hb => h (i + 1) b (by simpa using hb)
    rw [restrict, List.filterMap_cons]
    cases hk : k 0
    case false => rw [h 0 a rfl hk]; exact hi
    case true  => rw [if_pos rfl, List.filterMap_cons, hi]

theorem mem_restrict_iff {a : α} : a ∈ restrict k l ↔ ∃ i, l[i]? = some a ∧ k i = true := by
  induction l generalizing k
  case nil         => simp [restrict]
  case cons b l hi =>
    have hs : (∃ i, (b :: l)[i]? = some a ∧ k i = true) ↔
        (b = a ∧ k 0 = true) ∨ ∃ i, l[i]? = some a ∧ k (i + 1) = true := by
      constructor
      case mp =>
        rintro ⟨i, hi, hk⟩
        cases i
        case zero   => exact .inl ⟨Option.some.inj hi, hk⟩
        case succ i => exact .inr ⟨i, by simpa using hi, hk⟩
      case mpr =>
        rintro (⟨rfl, hk⟩ | ⟨i, hi, hk⟩)
        · exact ⟨0, rfl, hk⟩
        · exact ⟨i + 1, by simpa using hi, hk⟩
    rw [hs, ← hi, restrict]
    cases k 0 <;> simp [eq_comm]

end Batch
