import Grafast.Execute.Itemwise

namespace Grafast.Streaming

-- How the result of an item is there when it is reached: at once, or as a future that is done or is not.
inductive Arrival
  | ready
  | done
  | pending
  deriving DecidableEq

-- The value of a streamed field. An async iterator ends after its values, or raises.
inductive Source (V : Type)
  | list (values : List V)
  | iterator (values : List V) (raises : Option V)

inductive StreamValue (V : Type)
  | null
  | notIterable
  | source (source : Source V)

-- A batch of a stream, and the record that ends it.
inductive StreamBatch (V : Type)
  | items (items : List (Data V)) (errors : List (LocatedError V)) (children : List (StreamRecord V))
  | done (errors : List (LocatedError V))

-- What is sent of a stream.
inductive StreamResult (V : Type)
  | incremental (items : List (Data V)) (errors : List (LocatedError V))
  | completed (errors : List (LocatedError V))

abbrev Arriving (V : Type) := Arrival × StreamItem V

-- An entry in the queue of a producer. The items of a list are boxed by the first entry, in advance or
-- by a thunk when they are reached; a pull of an iterator adds the next one.
inductive Entry (V : Type)
  | first (early : Bool) (tail : List (Arriving V))
  | item (item : Arriving V)
  | pull (items : List (Arriving V)) (ending : Arriving V)

-- What a streamed field comes to: its value, or its initial items and what is sent of the rest.
inductive Driven (V : Type)
  | field (completed : Completed V)
  | streamed (initial : Data V) (results : List (StreamResult V))

variable {V : Type}

def Source.values : Source V → List V
  | .list values       => values
  | .iterator values _ => values

def Source.raises : Source V → Option V
  | .list _            => none
  | .iterator _ raises => raises

-- The sentinel of an exhausted stream.
def exhausted : StreamItem V :=
  .item none [] []

section Queue

def raisesAtOnce : Arriving V → Bool
  | (.ready, .raised) => true
  | _                 => false

-- `_first_executor` starts the first item and, in advance, the others; it raises if one of them does.
def firstExecutor (early : Bool) : List (Arriving V) → Arriving V × List (Entry V)
  | []           => ((.ready, exhausted), [.item (.ready, exhausted)])
  | item :: tail =>
    if early && (item :: tail).any raisesAtOnce then
      ((.ready, .raised), [])
    else
      (item, tail.map .item ++ [.item (.ready, exhausted)])

-- The result of an entry, and the entries that it adds to the queue.
def Entry.run : Entry V → Arriving V × List (Entry V)
  | .first early tail            => firstExecutor early tail
  | .item arriving               => (arriving, [])
  | .pull [] ending              => (ending, [])
  | .pull (next :: items) ending => (next, [.pull items ending])

-- The items that have been accumulated for a batch.
structure Accumulated (V : Type) where
  items    : List (Data V)
  errors   : List (LocatedError V)
  children : List (StreamRecord V)

def Accumulated.empty : Accumulated V :=
  ⟨[], [], []⟩

def Accumulated.add (data : Data V) (errors : List (LocatedError V)) (children : List (StreamRecord V))
    (batch : Accumulated V) : Accumulated V :=
  ⟨batch.items ++ [data], batch.errors ++ errors, batch.children ++ children⟩

def Accumulated.flush (batch : Accumulated V) : List (StreamBatch V) :=
  if batch.items.isEmpty then [] else [.items batch.items batch.errors batch.children]

-- Drains a queue: what is there at once is accumulated into one batch, which is flushed before an item
-- that is pending and at the end. An exception ends the task.
def drainQueue : Nat → List (Entry V) → Accumulated V → List (StreamBatch V)
  | 0,        _,              _     => []
  | _ + 1,    [],             _     => []
  | fuel + 1, entry :: queue, batch =>
    let ((arrival, result), added) := entry.run
    let flushed := if arrival = .pending then batch.flush else []
    let batch := if arrival = .pending then .empty else batch
    match result with
    | .raised                            => flushed
    | .item none errors _                => flushed ++ batch.flush ++ [.done errors]
    | .item (some data) errors children =>
      flushed ++ drainQueue fuel (queue ++ added) (batch.add data errors children)

-- The number of entries that come into the queue by an entry, with the entry itself.
def Entry.size : Entry V → Nat
  | .first _ tail  => tail.length + 2
  | .item _        => 1
  | .pull items _  => items.length + 1

def queueSize : List (Entry V) → Nat
  | []             => 0
  | entry :: queue => entry.size + queueSize queue

def onStreamItems (queue : List (Entry V)) : List (StreamBatch V) :=
  drainQueue (queueSize queue) queue .empty

def handleStreamBatch : StreamBatch V → StreamResult V
  | .items items errors _ => .incremental items errors
  | .done errors          => .completed errors

end Queue

variable {T L S I : Type} [DecidableEq I] [Host V T] [DecidableEq T]

open Host

-- The result of the pull that comes after the values of an iterator. The errors that are caught are
-- `GraphQLError`, `TypeError`, `ValueError` and `RuntimeError`.
def endingItem (isCaughtError : V → Bool) (path : Path) : Option V → StreamItem V
  | none       => exhausted
  | some error => if isCaughtError error then .item none [located (.raised error) path] [] else .raised

-- The items of a stream from the place `start` on.
def arriving (arrivals : Nat → Arrival) (start : Nat) (items : List (StreamItem V)) : List (Arriving V) :=
  items.mapIdx fun k item => (arrivals (start + k), item)

-- The entry that a producer starts with.
def producer (isCaughtError : V → Bool) (early : Bool) (arrivals : Nat → Arrival) (path : Path)
    (initialCount : Nat) (source : Source V) (items : List (StreamItem V)) : Entry V :=
  match source with
  | .list _               => .first early (arriving arrivals initialCount items)
  | .iterator values raises =>
    .pull (arriving arrivals initialCount items) (arrivals values.length, endingItem isCaughtError path raises)

-- The error of an iterator that raises before it has yielded the initial items.
def headError (initialCount : Nat) (source : Source V) : Option V :=
  if source.values.length < initialCount then source.raises else none

variable (runs : LayerRuns L S I V) (isCaughtError : V → Bool)

-- The initial items, and a stream of the others. The values of a list have the path of the list.
def driveSource (item : Completer T L S) (fieldLabel : String) (e : Grafast.Entry V) (keys : Option (List I))
    (seed : I → V) (early : Bool) (arrivals : Nat → Arrival) (initialCount : Nat) (source : Source V) :
    Exec V (Driven V) := do
  let entries := itemEntries e source.values
  let bridge (entries : List (Grafast.Entry V)) : Option (Bridge I V) :=
    keys.map fun ids => ids.map fun id => (id, entries.map fun _ => seed id)
  let head := entries.take initialCount
  let completed ← if head.isEmpty then pure [] else
    completeValues runs.toLayers runs.pointwise item fieldLabel head (bridge head)
  let (list, errors) := collectItems item.isNonNull completed [] []
  addErrors errors
  match list with
  | .bubble error => return .field (.bubble error)
  | .value data   =>
    let items := (entries.drop initialCount).map fun e =>
      streamItem item.isNonNull (completeValues runs.toLayers runs.pointwise item fieldLabel [e] (bridge [e]))
    let queue := [producer isCaughtError early arrivals e.path initialCount source items]
    return .streamed data ((onStreamItems queue).map handleStreamBatch)

def driveStreamValue (item : Completer T L S) (fieldLabel : String) (e : Grafast.Entry V)
    (keys : Option (List I)) (seed : I → V) (early : Bool) (arrivals : Nat → Arrival) (initialCount : Int)
    (value : StreamValue V) : Exec V (Driven V) :=
  if initialCount < 0 then
    return .field (.bubbleAt initialCountError e.path)
  else
    match value with
    | .null          => return .field (.value .null)
    | .notIterable   => return .field (.bubbleAt (notIterableError fieldLabel) e.path)
    | .source source =>
      match headError initialCount.toNat source with
      | some error => if isCaughtError error then return .field (.bubbleAt (.raised error) e.path) else failure
      | none       =>
        driveSource runs isCaughtError item fieldLabel e keys seed early arrivals initialCount.toNat source

end Grafast.Streaming
