import Grafast.Sql.Order
import Grafast.Sql.Sorting

namespace Sql

variable {C R V : Type} [LinearOrder V] {keys : List (SortKey C)} {rows l : List R}

-- Rows by the columns that an ORDER BY clause reads of them.
def orderedBy (keys : List (SortKey C)) (columns : R → C → Option V) (r s : R) : Bool :=
  ordered keys (columns r) (columns s)

namespace Engine

variable {e : Engine} (columns : R → C → Option V)

theorem sort_orderedBy_pairwise : (e.sort (orderedBy keys columns) rows).Pairwise
    (orderedBy keys columns · · = true) :=
  e.sorted rows (fun _ _ _ => ordered_trans) fun _ _ => ordered_total

variable {columns}

theorem filter_sort_orderedBy {p : R → Bool}
    (h : ∀ r ∈ rows, ∀ s ∈ rows, orderedBy keys columns r s = true →
      orderedBy keys columns s r = true → r = s) :
    e.sort (orderedBy keys columns) (rows.filter p) = (e.sort (orderedBy keys columns) rows).filter p :=
  filter_sort (fun _ _ _ => ordered_trans) (fun _ _ => ordered_total) h

theorem sort_orderedBy_eq (columns : R → C → Option V) (hl : l.Perm rows)
    (hs : l.Pairwise (orderedBy keys columns · · = true))
    (h : ∀ r ∈ rows, ∀ s ∈ rows, orderedBy keys columns r s = true →
      orderedBy keys columns s r = true → r = s) :
    e.sort (orderedBy keys columns) rows = l :=
  sort_eq hl hs (fun _ _ _ => ordered_trans) (fun _ _ => ordered_total) h

-- Rows that are sorted by what some view shows of them.
theorem sort_orderedBy_map {S : Type} (columns : R → C → Option V) (f : S → R) {rows : List S}
    (h : ∀ r ∈ rows, ∀ s ∈ rows, orderedBy keys (columns <| f ·) r s = true →
      orderedBy keys (columns <| f ·) s r = true → r = s) :
    e.sort (orderedBy keys columns) (rows.map f) = (e.sort (orderedBy keys (columns <| f ·)) rows).map f := by
  refine sort_orderedBy_eq columns ((e.perm _ rows).map f) ?_ fun r hr s hs hrs hsr => ?_
  case refine_1 => exact List.pairwise_map.mpr (sort_orderedBy_pairwise (columns <| f ·))
  case refine_2 =>
    obtain ⟨x, hx, rfl⟩ := List.mem_map.mp hr
    obtain ⟨y, hy, rfl⟩ := List.mem_map.mp hs
    rw [h x hx y hy hrs hsr]

end Engine

end Sql
