import Grafast.Pg.Cursor
import Grafast.Pg.Keyed

namespace Grafast

open Sql

structure PageInfo where
  hasNextPage     : Bool
  hasPreviousPage : Bool
  startCursor     : Option String
  endCursor       : Option String
  deriving DecidableEq

structure Connection (N : Type) where
  edges      : List (N × String)
  nodes      : List N
  totalCount : Nat
  pageInfo   : PageInfo

-- A connection with other nodes in the places of its own.
def Connection.mapNodes {N M : Type} (connection : Connection N) (f : N → M) : Connection M where
  edges      := connection.edges.map fun edge => (f edge.fst, edge.snd)
  nodes      := connection.nodes.map f
  totalCount := connection.totalCount
  pageInfo   := connection.pageInfo

-- The connections of a bucket with their nodes decoded. One node that is rejected raises for all of them.
def BatchResult.decoded {N M : Type} (result : BatchResult (Connection N)) (rejects : N → Bool) (f : N → M) :
    Option (BatchResult (Connection M)) :=
  if result.entries.any (·.nodes.any rejects) then
    none
  else
    some ⟨result.statements, result.entries.map (·.mapNodes f)⟩

inductive PageError
  | ambiguousPagination
  | cursor (error : CursorError)

-- The paging arguments of a connection.
structure PgPaging where
  first  : PageValue Int
  after  : PageValue String
  last   : PageValue Int
  before : PageValue String

variable {C V R N : Type}

-- The values of a cursor. An empty cursor is none.
def resolveCursor (format : CursorFormat C V) (order : List (OrderTerm C)) (cursor : PageValue String)
    (sourceValues : SourceValues) : Except CursorError (Option (List (Option V))) :=
  match resolvePlaceholder cursor sourceValues.texts with
  | none        => .ok none
  | some cursor =>
    if cursor = "" then .ok none else (decodeKeysetCursor format cursor order).map some

namespace PgPaging

variable (p : PgPaging)

def reverse : Bool :=
  p.last ≠ .literal none || p.before ≠ .literal none

-- Paging in both directions at once is an error.
def check : Except PageError Unit :=
  if (p.first ≠ .literal none || p.after ≠ .literal none) && p.reverse then
    .error .ambiguousPagination
  else
    .ok ()

-- A literal cursor is decoded when the step is made.
def decodeLiteralCursor (format : CursorFormat C V) (order : List (OrderTerm C)) :
    PageValue String → Except PageError Unit
  | .placeholder _ => .ok ()
  | .literal value =>
    match resolveCursor format order (.literal value) ⟨fun _ => none, fun _ => none⟩ with
    | .error e => .error (.cursor e)
    | .ok _    => .ok ()

def decodeLiteralCursors (format : CursorFormat C V) (order : List (OrderTerm C)) :
    Except PageError Unit := do
  decodeLiteralCursor format order p.after
  decodeLiteralCursor format order p.before

def effectiveOrder (order : List (OrderTerm C)) : List (OrderTerm C) :=
  if p.reverse then order.map .reverse else order

def pageSize (sourceValues : SourceValues) : Option Int :=
  resolvePlaceholder (if p.reverse then p.last else p.first) sourceValues.numbers

-- A page has one row more than its size, to see whether there is another page.
def pageLimit (sourceValues : SourceValues) : Option Int :=
  (p.pageSize sourceValues).map (· + 1)

def cursorPredicate (order : List (OrderTerm C)) (columnExprs : C → Option (Operand C V))
    (afterValues beforeValues : Option (List (Option V))) : Option (Expr C V) :=
  if p.reverse then
    beforeValues.bind (keysetWhere order · false columnExprs)
  else
    afterValues.bind (keysetWhere order · true columnExprs)

-- The head of a list up to an index. A negative index counts from the end of the list.
def sliceTo (rows : List R) (stop : Int) : List R :=
  if 0 ≤ stop then rows.take stop.toNat else rows.take (rows.length + stop).toNat

-- The connection of one parent: its page, seen in the requested order, and what surrounds the page.
def buildConnection (format : CursorFormat C V) (order : List (OrderTerm C)) (columns : R → C → Option V)
    (decode : R → N) (rows : List R) (total : Nat) (sourceValues : SourceValues)
    (afterValues beforeValues : Option (List (Option V))) : Connection N :=
  let hasExtra := (p.pageSize sourceValues).any (· < (rows.length : Int))
  let page := if hasExtra then sliceTo rows ((p.pageSize sourceValues).getD 0) else rows
  let page := if p.reverse then page.reverse else page
  let edges := page.map fun row => (decode row, encodeKeysetCursor format order (columns row))
  {
    edges      := edges
    nodes      := edges.map (·.fst)
    totalCount := total
    pageInfo   := {
      hasNextPage     := if p.reverse then beforeValues.isSome else hasExtra
      hasPreviousPage := if p.reverse then hasExtra else afterValues.isSome
      startCursor     := edges.head?.map (·.snd)
      endCursor       := edges.getLast?.map (·.snd) }
  }

end PgPaging

end Grafast
