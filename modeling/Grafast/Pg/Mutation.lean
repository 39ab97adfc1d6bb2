import Grafast.Pg.Resource

namespace Grafast

-- Where a write takes a value from: the plan, or the column of a dependency.
inductive ValueSource (V : Type)
  | literal (value : Option V)
  | dependency (index : Nat)

-- An update needs a column to set.
inductive WriteError
  | noColumns

variable {C A V : Type}

def ValueSource.forEntry (source : ValueSource V) (values : List (List (Option V))) (i : Nat) : Option V :=
  match source with
  | literal value    => value
  | dependency index => ((values[index]?).bind (·[i]?)).getD none

-- A value is encoded for its column, unless it is None.
def PgResource.encodeValue (resource : PgResource C A V) (name : C ⊕ A) (value : Option V) : Option V :=
  match (resource.attributes name).codec.bind (·.toPg) with
  | none   => value
  | some f => value.map f

-- The stored columns of a row that is returned, as a dictionary.
def PgResource.decodeReturned (resource : PgResource C A V) (rows : List (C → Option V)) :
    Option (C → Option V) :=
  rows.head?.map fun row column => resource.decodeRow (resource.project row) (.inl column)

-- The rows with a primary key. NULL is the key of none.
def PgResource.hasPrimaryKey [DecidableEq V] (resource : PgResource C A V) (pk : Option V)
    (row : C → Option V) : Bool :=
  pk.isSome && row resource.primaryKey = pk

-- A statement that writes the rows with a primary key: it sets some columns of them, or deletes them.
structure UpdateStatement (C V : Type) where
  pk     : Option V
  values : List (C × Option V)

structure DeleteStatement (V : Type) where
  pk : Option V

structure PgUpdateSingleStep (C A V : Type) where
  resource : PgResource C A V
  pkValue  : ValueSource V
  values   : List (C × ValueSource V)

structure PgDeleteSingleStep (C A V : Type) where
  resource : PgResource C A V
  pkValue  : ValueSource V

namespace PgUpdateSingleStep

variable (step : PgUpdateSingleStep C A V)

def pkForEntry (values : List (List (Option V))) (i : Nat) : Option V :=
  step.pkValue.forEntry values i

def valuesForEntry (values : List (List (Option V))) (i : Nat) : List (C × Option V) :=
  step.values.map fun (column, source) =>
    (column, step.resource.encodeValue (.inl column) (source.forEntry values i))

def buildStatement (values : List (List (Option V))) (i : Nat) :
    Except WriteError (UpdateStatement C V) :=
  let entry := step.valuesForEntry values i
  if entry.isEmpty then
    .error .noColumns
  else
    .ok ⟨step.pkForEntry values i, entry⟩

variable [DecidableEq C] [DecidableEq V]

def setColumns (values : List (C × Option V)) (row : C → Option V) (column : C) : Option V :=
  (values.lookup column).getD (row column)

-- The table after the statement, and the rows that it returns.
def run (statement : UpdateStatement C V) (table : List (C → Option V)) :
    List (C → Option V) × List (C → Option V) :=
  (table.map fun row =>
      if step.resource.hasPrimaryKey statement.pk row then setColumns statement.values row else row,
    (table.filter (step.resource.hasPrimaryKey statement.pk)).map (setColumns statement.values))

-- Each entry is a statement of its own, which is committed before the next one.
def execute (count : Nat) (values : List (List (Option V))) :
    ExceptT WriteError (StateM (List (C → Option V))) (List (Option (C → Option V))) :=
  (List.range count).mapM fun i => do
    let statement ← ExceptT.mk (pure (step.buildStatement values i))
    let (table, rows) := step.run statement (← get)
    set table
    return step.resource.decodeReturned rows

end PgUpdateSingleStep

namespace PgDeleteSingleStep

variable (step : PgDeleteSingleStep C A V)

def pkForEntry (values : List (List (Option V))) (i : Nat) : Option V :=
  step.pkValue.forEntry values i

def buildStatement (values : List (List (Option V))) (i : Nat) : DeleteStatement V :=
  ⟨step.pkForEntry values i⟩

variable [DecidableEq V]

def run (statement : DeleteStatement V) (table : List (C → Option V)) :
    List (C → Option V) × List (C → Option V) :=
  (table.filter fun row => !step.resource.hasPrimaryKey statement.pk row,
    table.filter (step.resource.hasPrimaryKey statement.pk))

def execute (count : Nat) (values : List (List (Option V))) :
    StateM (List (C → Option V)) (List (Option (C → Option V))) :=
  (List.range count).mapM fun i => do
    let (table, rows) := step.run (step.buildStatement values i) (← get)
    set table
    return step.resource.decodeReturned rows

end PgDeleteSingleStep

end Grafast
