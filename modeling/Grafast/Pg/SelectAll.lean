import Grafast.Pg.Keyed

namespace Grafast

open Sql

-- The rows of a root collection. The entries of a bucket have no keys, and all of them get the same rows.
structure PgSelectAllStep (C A V : Type) where
  resource        : PgResource C A V
  orderBy         : List (OrderTerm C)
  first           : PageValue Int
  offset          : PageValue Int
  wherePredicates : List ((C → Option V) → Truth)

inductive BoundError
  | negativeOffset
  | negativeLimit
  deriving DecidableEq

namespace PgSelectAllStep

variable {C A V : Type}

def make [DecidableEq C] (resource : PgResource C A V) (orderBy : Option (List (OrderEntry C)))
    (orderIsUnique : Bool) (first offset : PageValue Int) (wherePredicates : List ((C → Option V) → Truth)) :
    PgSelectAllStep C A V where
  resource        := resource
  orderBy         := normalizeOrder orderBy resource.primaryKey orderIsUnique
  first           := first
  offset          := offset
  wherePredicates := wherePredicates

variable (step : PgSelectAllStep C A V)

def addOrderTerm [DecidableEq C] (orderIsUnique : Bool) (term : OrderEntry C) : PgSelectAllStep C A V :=
  { step with
    orderBy := Grafast.addOrderTerm step.orderBy term step.resource.primaryKey orderIsUnique }

-- The OFFSET clause and its bound, which may be NULL. A literal offset of zero has no clause.
def offsetClause (sourceValues : SourceValues) : Option (Option Int) :=
  match step.offset with
  | .placeholder source    => some (sourceValues.numbers source)
  | .literal none          => none
  | .literal (some offset) => if offset ≠ 0 then some (some offset) else none

def limitClause (sourceValues : SourceValues) : Option (Option Int) :=
  match step.first with
  | .placeholder source   => some (sourceValues.numbers source)
  | .literal none         => none
  | .literal (some first) => some (some first)

def passes (row : C → Option V) : Bool :=
  step.wherePredicates.all (· row = .yes)

variable [LinearOrder V]

-- A clause whose bound is NULL is as if it were left out.
def runQuery (e : Engine) (table : List (C → Option V)) (sourceValues : SourceValues) :
    Except BoundError (List (C → Option V)) :=
  let offset := (step.offsetClause sourceValues).join
  let limit := (step.limitClause sourceValues).join
  if offset.any (· < 0) then
    .error .negativeOffset
  else if limit.any (· < 0) then
    .error .negativeLimit
  else
    .ok (slice (offset.map Int.toNat) (limit.map Int.toNat)
      (e.sort (ordered (orderClauses step.orderBy)) (table.filter step.passes)))

-- The rows are decoded once, for all entries. One value that is rejected raises.
def execute (e : Engine) (table : List (C → Option V)) (sourceValues : SourceValues) (count : Nat) :
    Except BoundError (Option (BatchResult (List (RowDict C A V)))) :=
  (step.runQuery e table sourceValues).map fun rows =>
    step.resource.decodedBy (fun rows => ⟨1, List.replicate count rows⟩) (rows.map step.resource.project)

end PgSelectAllStep

end Grafast
