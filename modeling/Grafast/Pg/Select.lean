import Grafast.Pg.Keyed

namespace Grafast

open Sql

variable {C A V : Type}

section

variable [DecidableEq V]

def coalesceKey (state : List (List (Option V)) × List (Option Nat)) (key : Key V) :
    List (List (Option V)) × List (Option Nat) :=
  match key with
  | none     => (state.fst, state.snd ++ [none])
  | some key =>
    match state.fst.idxOf? key with
    | some slot => (state.fst, state.snd ++ [some slot])
    | none      => (state.fst ++ [key], state.snd ++ [some state.fst.length])

-- The unique keys in their order, and for each entry the slot of its key among them.
def coalesceKeys (keys : List (Key V)) : List (List (Option V)) × List (Option Nat) :=
  keys.foldl coalesceKey ([], [])

end

structure PgSelectStep (C A V : Type) extends PgKeyed C A V where
  first  : PageValue Int
  offset : PageValue Int

-- Whether a numbered row is on the page. A comparison with a bound that is NULL keeps no row.
def inPage (first offset : Option Int) (rn : Nat) : Bool :=
  match offset, first with
  | none, _                 => false
  | some offset, none       => offset < rn
  | some offset, some first => offset < rn && rn ≤ offset + first

-- The window over the matched rows: each part is numbered, and the page of each part is kept.
def windowSlice {R P : Type} [DecidableEq P] (e : Engine) (part : R → P) (le : R → R → Bool)
    (first offset : Option Int) (rows : List R) : List R :=
  (e.sort (·.snd ≤ ·.snd) ((e.rowNumber part le rows).filter (inPage first offset ·.snd))).map (·.fst)

namespace PgSelectStep

def make [DecidableEq C] (resource : PgResource C A V) (matchColumns : List C)
    (orderBy : Option (List (OrderEntry C))) (orderIsUnique : Bool) (first offset : PageValue Int)
    (wherePredicates : List ((C → Option V) → Truth)) : PgSelectStep C A V where
  resource        := resource
  matchColumns    := matchColumns
  orderBy         := normalizeOrder orderBy resource.primaryKey orderIsUnique
  first           := first
  offset          := offset
  wherePredicates := wherePredicates

variable (step : PgSelectStep C A V)

-- The columns are stored ones, so that the check for computed columns does not fail.
def addOrderTerm [DecidableEq C] (orderIsUnique : Bool) (term : OrderEntry C) : PgSelectStep C A V :=
  { step with
    orderBy := Grafast.addOrderTerm step.orderBy term step.resource.primaryKey orderIsUnique }

def isLimited : Bool :=
  step.first ≠ .literal none || step.offset ≠ .literal (some 0)

variable [LinearOrder V]

def runQuery (e : Engine) (table : List (C → Option V)) (uniqueKeys : List (List (Option V)))
    (sourceValues : SourceValues) : List (C → Option V) :=
  let le := ordered (orderClauses step.orderBy)
  if step.isLimited then
    windowSlice e (step.matchColumns.map ·) le (resolvePlaceholder step.first sourceValues.numbers)
      (resolvePlaceholder step.offset sourceValues.numbers) (step.matched table uniqueKeys)
  else
    e.sort le (step.matched table uniqueKeys)

def groupAndDecode (rows : List (RowDict C A V)) : List (Key V × List (RowDict C A V)) :=
  (step.groupRows (fun row => (row <| .inl ·)) rows).map fun group =>
    (group.fst, step.resource.decodeRows group.snd)

-- The execution over a bucket, for what an entry takes of its rows, where no decoder rejects a value.
def executeWith {β : Type} (take : List (RowDict C A V) → β) (e : Engine)
    (table : List (C → Option V)) (sourceValues : SourceValues) (values : List (Key V)) :
    BatchResult β :=
  let keys := step.normalizedKeys values
  let uniqueKeys := (coalesceKeys keys).fst
  if uniqueKeys.isEmpty then
    ⟨0, keys.map fun _ => take []⟩
  else
    let rows := step.runQuery e table uniqueKeys sourceValues
    let grouped := step.groupAndDecode (rows.map step.resource.project)
    ⟨1, keys.map fun key => take ((grouped.lookup key).getD [])⟩

def execute := step.executeWith id

-- The rows that the statement of a bucket returns. Without a key there is no statement.
def fetched (e : Engine) (table : List (C → Option V)) (sourceValues : SourceValues)
    (values : List (Key V)) : List (C → Option V) :=
  let uniqueKeys := (coalesceKeys (step.normalizedKeys values)).fst
  if uniqueKeys.isEmpty then [] else step.runQuery e table uniqueKeys sourceValues

-- The execution with the decoders as they are: all rows of the statement are decoded before its entries
-- are handed out, so that one value that is rejected raises for the whole bucket.
def runWith {β : Type} (take : List (RowDict C A V) → β) (e : Engine) (table : List (C → Option V))
    (sourceValues : SourceValues) (values : List (Key V)) : BatchResult (Option β) :=
  let result := step.executeWith take e table sourceValues values
  if ((step.fetched e table sourceValues values).map step.resource.project).any step.resource.rejects then
    ⟨result.statements, result.entries.map fun _ => none⟩
  else
    ⟨result.statements, result.entries.map some⟩

def run := step.runWith id

end PgSelectStep

-- The single row of each entry, of the rows that a select would give it.
def PgSelectSingleStep.execute [LinearOrder V] (step : PgSelectStep C A V) :=
  step.executeWith List.head?

def PgSelectSingleStep.run [LinearOrder V] (step : PgSelectStep C A V) :=
  step.runWith List.head?

end Grafast
