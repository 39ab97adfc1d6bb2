import Grafast.Pg.Page
import Grafast.Sql.Ordered
import Grafast.Sql.Paging

namespace Grafast

open Sql

-- What a client that follows the cursors of a connection reads off it.
def Connection.toPage {N : Type} (connection : Connection N) (reverse : Bool) : Paging.Page N String where
  rows := connection.nodes
  more := if reverse then connection.pageInfo.hasPreviousPage else connection.pageInfo.hasNextPage
  next := if reverse then connection.pageInfo.startCursor else connection.pageInfo.endCursor

namespace PgPaging

variable {C V R N : Type} {p : PgPaging} {format : CursorFormat C V} {order : List (OrderTerm C)}
variable {columns : R → C → Option V} {decode : R → N} {rest l : List R} {total size k : Nat}
variable {sourceValues : SourceValues} {afterValues beforeValues : Option (List (Option V))}

namespace Reads

variable {reverse : Bool} {cursor : Option String}

end Reads

variable [LinearOrder V] {columnExprs : R → C → Option (Operand C V)} {look : R → C → Option V}

-- Rows that the order of the paging leaves equal agree on all columns of the order.
theorem eq_of_ordered_effective (p : PgPaging) {r s : C → Option V}
    (h : ordered (orderClauses (p.effectiveOrder order)) r s = true)
    (h' : ordered (orderClauses (p.effectiveOrder order)) s r = true) :
    ∀ t ∈ order, r t.column = s t.column := by
  intro t ht
  rw [effectiveOrder] at h h'
  by_cases hr : p.reverse = true
  case pos =>
    rw [if_pos hr] at h h'
    exact ordered_antisymm h h' t.reverse.clause (List.mem_map_of_mem (List.mem_map_of_mem ht))
  case neg =>
    rw [if_neg hr] at h h'
    exact ordered_antisymm h h' t.clause (List.mem_map_of_mem ht)

end PgPaging

end Grafast
