import Grafast.Batch.Scatter
import Grafast.Pg.Ordering
import Grafast.Pg.Resource
import Grafast.Sql.Expression
import Grafast.Sql.Sorting

namespace Grafast

open Sql

-- A value of the pagination surface: known when the plan is made, or read from a source of the request.
inductive PageValue (α : Type)
  | literal (value : Option α)
  | placeholder (source : String)
  deriving DecidableEq

-- The values of the sources that a request has: a page size is an integer, and a cursor is a text.
structure SourceValues where
  numbers : String → Option Int
  texts   : String → Option String

def resolvePlaceholder {α : Type} (value : PageValue α) (sourceValues : String → Option α) : Option α :=
  match value with
  | .literal v     => v
  | .placeholder s => sourceValues s

-- A key of a lookup: None, a scalar (a list of one component), or a tuple.
abbrev Key (V : Type) := Option (List (Option V))

-- What the execution of a step over a bucket has done.
structure BatchResult (β : Type) where
  statements : Nat
  entries    : List β

variable {C A V : Type}

-- The key that a row has in the columns of a match. A scalar NULL is None.
def groupingKey (row : C → Option V) (matchColumns : List C) : Key V :=
  match matchColumns with
  | [column] => (row column).map fun value => [some value]
  | columns  => some (columns.map row)

def normalizeLookupKey (rawKey : Key V) (composite : Bool) : Key V :=
  if !composite then
    rawKey
  else
    match rawKey with
    | none     => none
    | some key => if key.any (·.isNone) then none else some key

-- What the steps share that look up rows by keys.
structure PgKeyed (C A V : Type) where
  resource        : PgResource C A V
  matchColumns    : List C
  orderBy         : List (OrderTerm C)
  wherePredicates : List ((C → Option V) → Truth)

namespace PgKeyed

variable (step : PgKeyed C A V)

def isComposite : Bool :=
  1 < step.matchColumns.length

def passes (row : C → Option V) : Bool :=
  step.wherePredicates.all (· row = .yes)

def normalizedKeys (keys : List (Key V)) : List (Key V) :=
  keys.map (normalizeLookupKey · step.isComposite)

-- What an entry presents of a row of the table.
def present (row : C → Option V) : RowDict C A V :=
  step.resource.decodeRow (step.resource.project row)

variable [LinearOrder V]

-- A key that contains NULL equals no other key.
def matchPredicate (uniqueKeys : List (List (Option V))) (row : C → Option V) : Bool :=
  (step.matchColumns.map row).all (·.isSome) && uniqueKeys.contains (step.matchColumns.map row)

-- The rows of the WHERE clause.
def matched (table : List (C → Option V)) (uniqueKeys : List (List (Option V))) :
    List (C → Option V) :=
  table.filter fun row => step.matchPredicate uniqueKeys row && step.passes row

-- Rows by the key that they have, in the order in which they have been returned.
def groupRows {R : Type} (columns : R → C → Option V) (rows : List R) : List (Key V × List R) :=
  (rows.map fun row => (groupingKey (columns row) step.matchColumns, row)).foldl Batch.addToGroup []

end PgKeyed

end Grafast
