import Grafast.Pg.Theorems.Connection

namespace Grafast

open Sql

-- The page that is asked for of some rows: the first or the last of them, as many as its size says, or all
-- rows where there are fewer or there is no size. There is no such page of a negative size.
structure IsPage {R : Type} (reverse : Bool) (size : Option Int) (sorted page : List R) : Prop where
  part   : if reverse then page <:+ sorted else page <+: sorted
  length : (page.length : Int) = size.elim (sorted.length : Int) (min · (sorted.length : Int))

namespace IsPage

variable {R : Type} {reverse : Bool} {size : Option Int} {sorted page : List R}

theorem all : IsPage reverse none sorted sorted where
  part   := by cases reverse <;> simp
  length := rfl

theorem take {n : Nat} : IsPage false (some (n : Int)) sorted (sorted.take n) where
  part   := List.take_prefix n sorted
  length := by
    rw [List.length_take, Option.elim_some]
    omega

theorem reverse_iff : IsPage (!reverse) size sorted.reverse page.reverse ↔ IsPage reverse size sorted page := by
  have hp : (if (!reverse) = true then page.reverse <:+ sorted.reverse else page.reverse <+: sorted.reverse) ↔
      if reverse = true then page <:+ sorted else page <+: sorted := by
    cases reverse
    case false => exact List.reverse_suffix
    case true  => exact List.reverse_prefix
  constructor
  case mp  => exact fun h => ⟨hp.mp h.part, by simpa using h.length⟩
  case mpr => exact fun h => ⟨hp.mpr h.part, by simpa using h.length⟩

end IsPage

namespace PgPaging

variable {C V R N : Type} {p : PgPaging} {format : CursorFormat C V} {order : List (OrderTerm C)}
variable {columns : R → C → Option V} {decode : R → N} {rows sorted : List R} {total : Nat}
variable {sourceValues : SourceValues} {afterValues beforeValues : Option (List (Option V))}

-- The rows of a page that are kept, without the one that has been fetched in excess.
def kept (p : PgPaging) (sourceValues : SourceValues) (rows : List R) : List R :=
  if (p.pageSize sourceValues).any (· < (rows.length : Int)) then
    sliceTo rows ((p.pageSize sourceValues).getD 0)
  else
    rows

def fetched (p : PgPaging) (sourceValues : SourceValues) (sorted : List R) : List R :=
  slice none ((p.pageLimit sourceValues).map Int.toNat) sorted

variable [LinearOrder V]

-- Whether a row is strictly on the side of the cursor that the page is on.
def beyond (p : PgPaging) (order : List (OrderTerm C)) (afterValues beforeValues : Option (List (Option V)))
    (row : C → Option V) : Bool :=
  if p.reverse then
    beforeValues.all (Sql.beforeValues (orderClauses order) (order.map (row ·.column)) ·)
  else
    afterValues.all (Sql.beforeValues (orderClauses order) · (order.map (row ·.column)))

end PgPaging

namespace PgConnectionStep

variable {C A V : Type} [LinearOrder V] {step : PgConnectionStep C A V} {format : CursorFormat C V}
variable {sourceValues : SourceValues} {uniqueKeys : List (List (Option V))} {key : List (Option V)}
variable {afterValues beforeValues : Option (List (Option V))}

-- The rows of a parent on the side of the cursor.
def side (step : PgConnectionStep C A V) (table : List (C → Option V))
    (afterValues beforeValues : Option (List (Option V))) (key : List (Option V)) : List (C → Option V) :=
  (step.matched table [key]).filter (step.beyond step.orderBy afterValues beforeValues)

end PgConnectionStep

-- Comments of a post, by pages of some size.
namespace Comments

end Comments

end Grafast
