import Grafast.Pg.Page

namespace Grafast

open Sql

structure PgConnectionStep (C A V : Type) extends PgKeyed C A V, PgPaging where
  needsTotal : Bool

namespace PgConnectionStep

variable {C A V : Type}

def make [DecidableEq C] (format : CursorFormat C V) (resource : PgResource C A V)
    (matchColumns : List C) (orderBy : Option (List (OrderEntry C))) (orderIsUnique : Bool)
    (paging : PgPaging) (needsTotal : Bool) (wherePredicates : List ((C → Option V) → Truth)) :
    Except PageError (PgConnectionStep C A V) := do
  let order := normalizeOrder orderBy resource.primaryKey orderIsUnique
  paging.check
  PgPaging.decodeLiteralCursor format order paging.after
  PgPaging.decodeLiteralCursor format order paging.before
  return {
    resource        := resource
    matchColumns    := matchColumns
    orderBy         := order
    wherePredicates := wherePredicates
    toPgPaging      := paging
    needsTotal      := needsTotal }

variable (step : PgConnectionStep C A V)

-- The literal cursors have to fit the new order.
def addOrderTerm [DecidableEq C] (format : CursorFormat C V) (orderIsUnique : Bool) (term : OrderEntry C) :
    Except PageError (PgConnectionStep C A V) := do
  let order := Grafast.addOrderTerm step.orderBy term step.resource.primaryKey orderIsUnique
  PgPaging.decodeLiteralCursor format order step.after
  PgPaging.decodeLiteralCursor format order step.before
  return { step with orderBy := order }

variable [LinearOrder V]

-- The rows of the page query, over the parents of the bucket. Each parent is numbered on its own.
def pageRows (e : Engine) (table : List (C → Option V)) (uniqueKeys : List (List (Option V)))
    (sourceValues : SourceValues) (afterValues beforeValues : Option (List (Option V))) :
    List (C → Option V) :=
  let cursor := step.cursorPredicate step.orderBy (fun _ => none) afterValues beforeValues
  let inner := (step.matched table uniqueKeys).filter fun row => cursor.all (·.eval row = .yes)
  let numbered := e.rowNumber (step.matchColumns.map ·)
    (ordered (orderClauses (step.effectiveOrder step.orderBy))) inner
  let page := numbered.filter fun row => (step.pageLimit sourceValues).all ((row.snd : Int) ≤ ·)
  (e.sort (orderedThen (orderClauses (step.matchColumns.map .ascending))) page).map (·.fst)

-- The totals of the parents, without regard to the page.
def countRows (table : List (C → Option V)) (uniqueKeys : List (List (Option V))) :
    List (Key V × Nat) :=
  (step.groupRows id (step.matched table uniqueKeys)).map fun group => (group.fst, group.snd.length)

def execute (e : Engine) (format : CursorFormat C V) (table : List (C → Option V))
    (sourceValues : SourceValues) (values : List (Key V)) :
    Except CursorError (BatchResult (Connection (RowDict C A V))) := do
  let keys := step.normalizedKeys values
  let uniqueKeys := keys.eraseDups.filterMap id
  let afterValues ← resolveCursor format step.orderBy step.after sourceValues
  let beforeValues ← resolveCursor format step.orderBy step.before sourceValues
  let build (rows : List (C → Option V)) (total : Nat) :=
    step.buildConnection format step.orderBy id step.present rows total sourceValues afterValues
      beforeValues
  if uniqueKeys.isEmpty then
    return ⟨0, keys.map fun _ => build [] 0⟩
  else
    let rows := step.pageRows e table uniqueKeys sourceValues afterValues beforeValues
    let totals := if step.needsTotal then step.countRows table uniqueKeys else []
    let byKey := step.groupRows id rows
    return ⟨if step.needsTotal then 2 else 1, keys.map fun key =>
      build ((byKey.lookup key).getD []) ((totals.lookup key).getD 0)⟩

end PgConnectionStep

end Grafast
