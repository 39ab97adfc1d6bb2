import Grafast.Pg.Connection

namespace Grafast

open Sql

inductive AggregateFunction
  | sum
  | avg
  | min
  | max
  | count
  deriving DecidableEq

-- A name of the result of a statement: that of a column of the table, or another text.
abbrev ResultName (C : Type) := C ⊕ String

-- Only a count may do without a column.
structure PgAggregate (C : Type) where
  function      : AggregateFunction
  column        : Option C
  aliasName     : ResultName C
  column_needed : column = none → function = .count
  aliasName_ne  : aliasName ≠ .inr ""

-- The sums and averages of a database over values that are not NULL, of which there is at least one, and
-- its numbers of rows.
structure Arithmetic (V : Type) where
  sum   : List V → V
  avg   : List V → V
  count : Nat → V

-- A dictionary of some pairs, of which the last one with a name counts.
def dictOf {K α : Type} [DecidableEq K] (pairs : List (K × α)) (name : K) : Option α :=
  pairs.reverse.lookup name

-- One row of the result of the aggregate statement, as a dictionary.
abbrev AggregateRow (C V : Type) := ResultName C → Option V

-- The aggregates of a connection, and an entry of its groups.
abbrev AggregateDict (C V : Type) := ResultName C → Option (Option V)

structure AggregatedConnection (C V N : Type) extends Connection N where
  aggregates      : Option (AggregateDict C V)
  aggregateGroups : Option (List (AggregateDict C V))

inductive ConnectionError
  | cursor (error : CursorError)
  | rejectedValue

variable {C A V : Type}

namespace PgAggregate

variable [LinearOrder V]

-- An aggregate over no values is NULL, unless it counts them.
def eval (arithmetic : Arithmetic V) (aggregate : PgAggregate C) (rows : List (C → Option V)) : Option V :=
  match aggregate.column with
  | none        => some (arithmetic.count rows.length)
  | some column =>
    let values := rows.filterMap (· column)
    match aggregate.function with
    | .count => some (arithmetic.count values.length)
    | .sum   => if values.isEmpty then none else some (arithmetic.sum values)
    | .avg   => if values.isEmpty then none else some (arithmetic.avg values)
    | .min   => values.min?
    | .max   => values.max?

end PgAggregate

-- One value decoded as a column of a row is.
def PgResource.decodeValue (resource : PgResource C A V) (column : C) (value : Option V) : Option V :=
  match resource.toPy (.inl column) with
  | none   => value
  | some f => f value

-- A connection step with the aggregates that its selection asks for.
structure PgAggregatingStep (C A V : Type) extends PgConnectionStep C A V where
  aggregates       : List (PgAggregate C)
  aggregateGroupBy : List C

namespace PgAggregatingStep

variable (step : PgAggregatingStep C A V)

def hasAggregates : Bool :=
  !step.aggregates.isEmpty

-- A minimum or maximum is a value of its column, and is decoded like one.
def decodedColumn (aggregate : PgAggregate C) : Option C :=
  if aggregate.function = .min ∨ aggregate.function = .max then aggregate.column else none

def aggregateValue (aggregate : PgAggregate C) (value : Option V) : Option V :=
  match decodedColumn aggregate with
  | none        => value
  | some column => step.resource.decodeValue column value

def aggregateValues (row : AggregateRow C V) : List (ResultName C × Option V) :=
  step.aggregates.map fun aggregate =>
    (aggregate.aliasName, step.aggregateValue aggregate (row aggregate.aliasName))

-- The group of a row, keyed by the columns that the aggregates are grouped by.
def groupKeys (row : AggregateRow C V) : List (ResultName C × Option V) :=
  step.aggregateGroupBy.map fun column => (.inl column, step.resource.decodeValue column (row (.inl column)))

-- Whether a decoder rejects a value of an aggregate row.
def rejectsAggregates (row : AggregateRow C V) : Bool :=
  (step.aggregateGroupBy.any fun column => step.resource.rejectsValue (.inl column) (row (.inl column))) ||
    step.aggregates.any fun aggregate =>
      (decodedColumn aggregate).any fun column =>
        step.resource.rejectsValue (.inl column) (row aggregate.aliasName)

def groupColumns : List C :=
  step.matchColumns ++ step.aggregateGroupBy

section Statements

variable [DecidableEq C]

-- Only counts know of rows that are not there.
def emptyAggregates (arithmetic : Arithmetic V) : List (ResultName C × Option V) :=
  step.aggregates.map fun aggregate =>
    (aggregate.aliasName, if aggregate.function = .count then some (arithmetic.count 0) else none)

-- The aggregate rows of a parent that its connection shows: the first one, or one for each group.
def shownAggregates (aggregateRows : List (AggregateRow C V)) : List (AggregateRow C V) :=
  if step.aggregateGroupBy.isEmpty then aggregateRows.take 1 else aggregateRows

-- The connection of one parent with its aggregates. There is none where a decoder rejects a value of it.
def build (arithmetic : Arithmetic V) (format : CursorFormat C V) (rows : List (C → Option V)) (total : Nat)
    (aggregateRows : List (AggregateRow C V)) (sourceValues : SourceValues)
    (afterValues beforeValues : Option (List (Option V))) :
    Option (AggregatedConnection C V (RowDict C A V)) :=
  let connection := step.buildConnection format step.orderBy id step.resource.project rows total sourceValues
    afterValues beforeValues
  if connection.nodes.any step.resource.rejects ||
      (step.hasAggregates && (step.shownAggregates aggregateRows).any step.rejectsAggregates) then
    none
  else
    some {
      toConnection    := connection.mapNodes step.resource.decodeRow
      aggregates      :=
        if step.hasAggregates && step.aggregateGroupBy.isEmpty then
          match aggregateRows with
          | []       => some (dictOf (step.emptyAggregates arithmetic))
          | row :: _ => some (dictOf (step.aggregateValues row))
        else
          none
      aggregateGroups :=
        if step.hasAggregates && !step.aggregateGroupBy.isEmpty then
          some (aggregateRows.map fun row => dictOf (step.groupKeys row ++ step.aggregateValues row))
        else
          none }

variable [LinearOrder V]

-- The row of the aggregate statement for the rows with some values in the columns that it is grouped by.
-- An aggregate takes the place of a column with the name of its alias.
def aggregateRow (arithmetic : Arithmetic V) (rows : List (C → Option V)) (key : List (Option V)) :
    AggregateRow C V :=
  fun name => (dictOf ((step.groupColumns.map Sum.inl).zip key ++ step.aggregates.map fun aggregate =>
    (aggregate.aliasName, aggregate.eval arithmetic (rows.filter (step.groupColumns.map · = key)))) name).getD none

-- GROUP BY leaves the order of its rows open.
def aggregateRows (e : Engine) (arithmetic : Arithmetic V) (rows : List (C → Option V)) :
    List (AggregateRow C V) :=
  e.sort (fun _ _ => true)
    ((rows.map (step.groupColumns.map ·)).dedup.map (step.aggregateRow arithmetic rows))

-- The connections of the entries of a bucket. One value that is rejected raises for all of them.
def collect {N : Type} (statements : Nat) (entries : List (Option (AggregatedConnection C V N))) :
    Except ConnectionError (BatchResult (AggregatedConnection C V N)) :=
  if entries.all (·.isSome) then .ok ⟨statements, entries.filterMap id⟩ else .error .rejectedValue

def execute (e : Engine) (arithmetic : Arithmetic V) (format : CursorFormat C V)
    (table : List (C → Option V)) (sourceValues : SourceValues) (values : List (Key V)) :
    Except ConnectionError (BatchResult (AggregatedConnection C V (RowDict C A V))) :=
  match resolveCursor format step.orderBy step.after sourceValues,
      resolveCursor format step.orderBy step.before sourceValues with
  | .error e, _                       => .error (.cursor e)
  | .ok _, .error e                   => .error (.cursor e)
  | .ok afterValues, .ok beforeValues =>
    let keys := step.normalizedKeys values
    let uniqueKeys := keys.eraseDups.filterMap id
    if uniqueKeys.isEmpty then
      collect 0 (keys.map fun _ => step.build arithmetic format [] 0 [] sourceValues afterValues beforeValues)
    else
      let rows := step.pageRows e table uniqueKeys sourceValues afterValues beforeValues
      let totals := if step.needsTotal then step.countRows table uniqueKeys else []
      let aggregateRows :=
        if step.hasAggregates then step.aggregateRows e arithmetic (step.matched table uniqueKeys) else []
      let aggregates := (aggregateRows.map fun row =>
        (groupingKey (fun column => row (.inl column)) step.matchColumns, row)).foldl Batch.addToGroup []
      let byKey := step.groupRows id rows
      collect (1 + (if step.needsTotal then 1 else 0) + (if step.hasAggregates then 1 else 0))
        (keys.map fun key => step.build arithmetic format ((byKey.lookup key).getD [])
          ((totals.lookup key).getD 0) ((aggregates.lookup key).getD []) sourceValues afterValues beforeValues)

end Statements

end PgAggregatingStep

end Grafast
