import Grafast.Dag.Passes
import Grafast.Text.Unicode

namespace Grafast

open Text (Str)

-- How the lookup of a segment ends: with a value, with an exception that `getIn` takes for a missing
-- segment, or with another exception.
inductive Lookup (V : Type)
  | found (value : V)
  | missing
  | raised (error : V)

-- How the decoding of a global id ends: with a type name and the parts of the id, with a `ValueError`, or with
-- another exception.
inductive Decoding (V : Type)
  | decoded (typename : Str) (idParts : List V)
  | valueError (error : V)
  | raised (error : V)

-- What the core steps use of Python values; exceptions are values as well. `S` are the segments of
-- access paths, equal if `==` and `repr` do not tell them apart.
class PyValue (V : Type) (S : outParam Type) where
  pyNone         : V
  isNone         : V → Bool
  isException    : V → Bool
  truthy         : V → Bool
  hashable       : V → Bool
  keyEq          : V → V → Bool
  typeName       : V → String
  repr           : V → String
  asDict         : V → Option (S → Lookup V)
  getItem        : V → S → Lookup V
  getAttr        : V → S → Lookup V
  iterate        : V → Except V (List V)
  ofList         : List V → V
  ofTuple        : List V → V
  ofDict         : List (String × V) → V
  decodeGlobalId : V → Decoding V
  noLoader       : Str → V

-- The host's callables, by identity, as the core steps call them: an exception that a callable
-- raises is the error of its result.
class Callables (V F : Type) where
  call     : F → V → Except V V
  test     : F → V → Except V Bool
  load     : F → List V → Except V (List V)
  mapItems : F → List V → Option (List V)

-- The loaders of a node step, by type name.
structure Loaders (F : Type) where
  items : List (Str × F)
  nodup : (items.map Prod.fst).Nodup

def Loaders.sorted {F : Type} (loaders : Loaders F) : List (Str × F) :=
  loaders.items.mergeSort fun a b =>
    !List.lex (b.fst.map Text.CodePoint.toNat) (a.fst.map Text.CodePoint.toNat) Nat.blt

inductive CoreStep (V S F : Type)
  | root (identity : Nat)
  | constant (data : V)
  | access (path : List S) (fallback : V)
  | lambda (fn : F)
  | list (length : Nat)
  | object (keys : List String)
  | each (mapper : F)
  | loadOne (loadFn : F)
  | loadMany (loadFn : F)
  | node (loaders : Loaders F)
  | filter (predicate : F)

-- The class of a step with its `peer_key` and `dedup_params`.
inductive CoreKey (S F : Type)
  | root (identity : Nat)
  | constant (typeName repr : String)
  | access (hasFallback : Bool) (path : List S) (fallbackRepr : String)
  | lambda (fn : F)
  | list (length : Nat)
  | object (keys : List String)
  | each (mapper : F)
  | loadOne (loadFn : F)
  | loadMany (loadFn : F)
  | node (loaders : List (Str × F))
  | filter (predicate : F)
  deriving DecidableEq

namespace CoreStep

open PyValue

variable {V S F : Type} [PyValue V S]

def key : CoreStep V S F → CoreKey S F
  | root identity        => .root identity
  | constant data        => .constant (typeName data) (repr data)
  | access path fallback => .access (!isNone fallback) path (repr fallback)
  | lambda fn            => .lambda fn
  | list length          => .list length
  | object keys          => .object keys
  | each mapper          => .each mapper
  | loadOne loadFn       => .loadOne loadFn
  | loadMany loadFn      => .loadMany loadFn
  | node loaders         => .node loaders.sorted
  | filter predicate     => .filter predicate

def isUnary : CoreStep V S F → Bool
  | root _ | each _ | loadOne _ | loadMany _ | node _ => false
  | _                                                  => true

-- The number of dependencies that the constructor of a step adds.
def dependencyCount : CoreStep V S F → Nat
  | root _ | constant _ => 0
  | list length         => length
  | object keys         => keys.length
  | _                   => 1

instance : StepClass (CoreStep V S F) (CoreKey S F) where
  key       := key
  dedupable := fun _ => true
  isUnary   := isUnary

-- The lookup of one segment: in a dict by key only, else as an item, else as an attribute.
def lookupSegment (current : V) (segment : S) : Lookup V :=
  match asDict current with
  | some get => get segment
  | none     =>
    match getItem current segment with
    | .missing => getAttr current segment
    | result   => result

def walk : V → List S → Lookup V
  | value, []              => .found value
  | value, segment :: path =>
    if isNone value then
      .missing
    else
      match lookupSegment value segment with
      | .found next => walk next path
      | result      => result

def getIn (value : V) (path : List S) (fallback : V) : Option V :=
  match walk value path with
  | .found v  => some v
  | .missing  => some fallback
  | .raised _ => none

-- An exception that an upstream step has left in an entry is passed on.
def accessEntry (path : List S) (fallback parent : V) : Option V :=
  if isException parent then some parent else getIn parent path fallback

-- The entries of the column of the first dependency.
def entries (count : Nat) (values : List (List V)) : Option (List V) := do
  let col ← values[0]?
  (List.range count).mapM (col[·]?)

-- The entries of all dependencies at one place of the bucket.
def row (values : List (List V)) (i : Nat) : Option (List V) :=
  values.mapM (·[i]?)

-- The coalesced keys of a batch, and the slot of every entry.
structure Coalesced (V : Type) where
  uniqueKeys : List V
  slotForKey : List (V × Nat)
  entrySlot  : List Nat

def coalesceKey (c : Coalesced V) (key : V) : Coalesced V :=
  let slot := c.uniqueKeys.length
  if hashable key then
    match c.slotForKey.find? (keyEq ·.fst key) with
    | some (_, slot) => { c with entrySlot := c.entrySlot ++ [slot] }
    | none           =>
      ⟨c.uniqueKeys ++ [key], c.slotForKey ++ [(key, slot)], c.entrySlot ++ [slot]⟩
  else
    ⟨c.uniqueKeys ++ [key], c.slotForKey, c.entrySlot ++ [slot]⟩

def coalesce (keys : List V) : Coalesced V :=
  keys.foldl coalesceKey ⟨[], [], []⟩

-- The lists of all parents in one column.
def explode (lists : List V) : Option (List (List V)) :=
  lists.mapM fun v => if truthy v then (iterate v).toOption else some []

def regroup : List (List V) → List V → List V
  | [],             _   => []
  | items :: lists, col => ofList (col.take items.length) :: regroup lists (col.drop items.length)

-- An entry of a node column: the error it carries, or the type and the key to load. Only a `ValueError` of the
-- decoding is caught.
def nodeEntry (loaders : Loaders F) (raw : V) : Except V (Except V (Str × V)) :=
  if isException raw then
    .ok (.error raw)
  else
    match decodeGlobalId raw with
    | .raised error              => .error error
    | .valueError error          => .ok (.error error)
    | .decoded typename idParts =>
      if (loaders.items.lookup typename).isNone then
        .ok (.error (noLoader typename))
      else
        match idParts with
        | [key] => .ok (.ok (typename, key))
        | _     => .ok (.ok (typename, ofTuple idParts))

-- What is not caught of one entry ends the walk over the ids.
def nodeKeys (loaders : Loaders F) : List V → Except V (List (Except V (Str × V)))
  | []         => .ok []
  | raw :: ids =>
    match nodeEntry loaders raw with
    | .error error => .error error
    | .ok key      =>
      match nodeKeys loaders ids with
      | .error error => .error error
      | .ok keys     => .ok (key :: keys)

def keysOfType (keys : List (Except V (Str × V))) (typename : Str) : List V :=
  keys.filterMap fun
    | .ok (t, key) => if t = typename then some key else none
    | .error _     => none

variable [Callables V F]

open Callables

def applyEntry (fn : F) (value : V) : V :=
  if isException value then
    value
  else
    match call fn value with
    | .ok v    => v
    | .error e => e

def loadEntries (loadFn : F) (count : Nat) (keys : List V) : Option (List V) :=
  let c := coalesce keys
  match load loadFn c.uniqueKeys with
  | .error e   => some (List.replicate count e)
  | .ok loaded =>
    if loaded.length = c.uniqueKeys.length then c.entrySlot.mapM (loaded[·]?) else none

-- The result of the loader of one type over the keys of that type.
def loadType (loaders : Loaders F) (keys : List (Except V (Str × V))) (typename : Str) :
    Option (Except V (List V)) := do
  let loader ← loaders.items.lookup typename
  let typeKeys := keysOfType keys typename
  match load loader typeKeys with
  | .error e   => return .error e
  | .ok loaded => if loaded.length = typeKeys.length then return .ok loaded else failure

-- The `n`th entry of a type takes the `n`th result of the type's loader.
def scatterNode (loaders : Loaders F) (keys : List (Except V (Str × V))) (i : Nat) :
    Except V (Str × V) → Option V
  | .error e         => some e
  | .ok (typename, _) => do
    match ← loadType loaders keys typename with
    | .error e   => some e
    | .ok loaded => loaded[(keysOfType (keys.take i) typename).length]?

def nodeEntries (loaders : Loaders F) (ids : List V) : Option (List V) :=
  match nodeKeys loaders ids with
  | .error _ => none
  | .ok keys => keys.zipIdx.mapM fun (key, i) => scatterNode loaders keys i key

def filterItems (predicate : F) : List V → Except V (List V)
  | []            => .ok []
  | item :: items => do
    let keep ← test predicate item
    let rest ← filterItems predicate items
    return if keep then item :: rest else rest

def filterEntry (predicate : F) (entry : V) : V :=
  if isNone entry || isException entry then
    entry
  else
    match iterate entry >>= filterItems predicate with
    | .ok items => ofList items
    | .error e  => e

-- `none` means that `execute` raises.
def execute (count : Nat) (values : List (List V)) : CoreStep V S F → Option (List V)
  | root _               => none
  | constant data        => some (List.replicate count data)
  | access path fallback => do (← entries count values).mapM (accessEntry path fallback)
  | lambda fn            => return (← entries count values).map (applyEntry fn)
  | list _               => (List.range count).mapM fun i => (row values i).map ofList
  | object keys          =>
    (List.range count).mapM fun i => (row values i).map fun vs => ofDict (keys.zip vs)
  | each mapper          => do
    let lists ← explode (← entries count values)
    return regroup lists (← mapItems mapper lists.flatten)
  | loadOne loadFn       => do loadEntries loadFn count (← entries count values)
  | loadMany loadFn      => do loadEntries loadFn count (← entries count values)
  | node loaders         => do nodeEntries loaders (← entries count values)
  | filter predicate     => return (← entries count values).map (filterEntry predicate)

-- The column of a step in a bucket of root values: a root step is seeded with the bucket.
def column (bucket : List V) (values : List (List V)) : CoreStep V S F → Option (List V)
  | root _ => some bucket
  | step   => step.execute bucket.length values

end CoreStep

namespace Plan

variable {V S F : Type} [PyValue V S] [Callables V F]

def columnWithin (p : Plan (CoreStep V S F)) (bucket : List V) : Nat → Ref → Option (List V)
  | 0,        _ => none
  | fuel + 1, r => do
    let step ← p.kind r
    let values ← (p.dependencies r).mapM (columnWithin p bucket fuel)
    step.column bucket values

-- What a step computes for a bucket of root values; `none` means that it raises, or a step that it
-- depends on.
def column (p : Plan (CoreStep V S F)) (bucket : List V) (r : Ref) : Option (List V) :=
  p.columnWithin bucket (p.heap.length + 1) r

end Plan

end Grafast
