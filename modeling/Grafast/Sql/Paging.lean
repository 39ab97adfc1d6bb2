import Mathlib.Data.List.Basic

namespace Paging

structure Page (R Cursor : Type) where
  rows : List R
  more : Bool
  next : Option Cursor

variable {R S Cursor : Type}

-- Follows the cursors while there are more pages. There is no result without enough fuel, or where a
-- page cannot be fetched.
def follow (fetch : Option Cursor → Option (Page S Cursor)) :
    Nat → Option Cursor → Option (List (List S))
  | 0, _             => none
  | fuel + 1, cursor =>
    match fetch cursor with
    | none      => none
    | some page =>
      if page.more then (follow fetch fuel page.next).map (page.rows :: ·) else some [page.rows]

-- The pages are those of a list, each as some view shows it. A cursor stands at a place of the list.
def Serves (fetch : Option Cursor → Option (Page S Cursor)) (size : Nat) (view : List R → List S)
    (l : List R) (At : Nat → Option Cursor → Prop) : Prop :=
  ∀ k cursor, At k cursor → ∃ page, fetch cursor = some page ∧
    page.rows = view ((l.drop k).take size) ∧ (page.more = true ↔ k + size < l.length) ∧
    (k + size < l.length → At (k + size) page.next)

-- From any cursor, the pages are those of the rest of the list, and they come to an end.
theorem Serves.follow {fetch : Option Cursor → Option (Page S Cursor)} {size fuel k : Nat}
    {view : List R → List S} {l : List R} {At : Nat → Option Cursor → Prop} {cursor : Option Cursor}
    (h : Serves fetch size view l At) (hs : 0 < size) (hc : At k cursor) (hk : k ≤ l.length)
    (hf : l.length < k + fuel) :
    ∃ chunks : List (List R),
      follow fetch fuel cursor = some (chunks.map view) ∧ chunks.flatten = l.drop k := by
  induction fuel generalizing k cursor
  case zero         => omega
  case succ fuel hi =>
    obtain ⟨page, hp, hr, hm, hn⟩ := h k cursor hc
    rw [Paging.follow]
    simp only [hp, hr]
    by_cases hl : k + size < l.length
    case pos =>
      obtain ⟨chunks, hp, hc⟩ := hi (hn hl) (Nat.le_of_lt hl) (by omega)
      refine ⟨(l.drop k).take size :: chunks, by simp [hm.mpr hl, hp], ?_⟩
      rw [List.flatten_cons, hc, ← List.drop_drop, List.take_append_drop]
    case neg =>
      have hm : page.more = false := Bool.eq_false_iff.mpr fun hx => hl (hm.mp hx)
      refine ⟨[(l.drop k).take size], by simp [hm], ?_⟩
      rw [List.flatten_cons, List.flatten_nil, List.append_nil, List.take_of_length_le]
      rw [List.length_drop]
      omega

end Paging
