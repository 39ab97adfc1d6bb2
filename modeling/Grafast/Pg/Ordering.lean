import Grafast.Sql.Order
import Mathlib.Data.List.Nodup

namespace Grafast

open Sql

structure OrderTerm (C : Type) where
  column     : C
  descending : Bool
  nulls      : Option Nulls
  deriving DecidableEq

-- An entry of the order that a host asks for.
inductive OrderEntry (C : Type)
  | name (column : C)
  | term (term : OrderTerm C)

variable {C : Type}

def OrderTerm.ascending (column : C) : OrderTerm C where
  column     := column
  descending := false
  nulls      := none

def OrderEntry.toTerm : OrderEntry C → OrderTerm C
  | name column => .ascending column
  | term t      => t

def normalizeOrder [DecidableEq C] (orderBy : Option (List (OrderEntry C))) (primaryKey : C)
    (orderIsUnique : Bool) : List (OrderTerm C) :=
  let terms := (orderBy.getD []).map OrderEntry.toTerm
  let terms :=
    if !orderIsUnique && !terms.any (·.column = primaryKey) then
      terms ++ [.ascending primaryKey]
    else
      terms
  if terms.isEmpty then terms ++ [.ascending primaryKey] else terms

-- What the add_order_term of the steps does with the order that is stored in them.
def addOrderTerm [DecidableEq C] (order : List (OrderTerm C)) (term : OrderEntry C) (primaryKey : C)
    (orderIsUnique : Bool) : List (OrderTerm C) :=
  normalizeOrder (some (order.map .term ++ [.term term.toTerm])) primaryKey orderIsUnique

namespace OrderTerm

def clause (t : OrderTerm C) : SortKey C where
  column     := t.column
  descending := t.descending
  nulls      := t.nulls

def effectiveNulls (t : OrderTerm C) : Nulls :=
  match t.nulls with
  | some nulls => nulls
  | none       => if t.descending then .first else .last

def reverseNulls (t : OrderTerm C) : Nulls :=
  if t.effectiveNulls = .first then .last else .first

def reverse (t : OrderTerm C) : OrderTerm C where
  column     := t.column
  descending := !t.descending
  nulls      := some t.reverseNulls

variable {t : OrderTerm C}

theorem placement_clause : t.clause.placement = t.effectiveNulls := by
  cases hn : t.nulls <;> simp [SortKey.placement, effectiveNulls, clause, hn]

-- The placement of NULLs is turned around as SQL does it, also where the order leaves it open.
theorem clause_reverse : t.reverse.clause = t.clause.flip := by
  cases hn : t.effectiveNulls <;>
    simp [clause, reverse, SortKey.flip, reverseNulls, hn, Nulls.flip] <;>
    simp_all [← placement_clause, clause]

end OrderTerm

def orderClauses (terms : List (OrderTerm C)) : List (SortKey C) :=
  terms.map OrderTerm.clause

theorem orderClauses_append (terms terms' : List (OrderTerm C)) :
    orderClauses (terms ++ terms') = orderClauses terms ++ orderClauses terms' :=
  List.map_append

theorem forall_mem_orderClauses {terms : List (OrderTerm C)} {p : C → Prop} :
    (∀ k ∈ orderClauses terms, p k.column) ↔ ∀ t ∈ terms, p t.column := by
  simp [orderClauses, OrderTerm.clause]

theorem orderClauses_reverse {terms : List (OrderTerm C)} :
    orderClauses (terms.map .reverse) = (orderClauses terms).map .flip := by
  simp [orderClauses, OrderTerm.clause_reverse]

section

variable [DecidableEq C] {orderBy : Option (List (OrderEntry C))} {primaryKey : C} {orderIsUnique : Bool}

end

end Grafast
