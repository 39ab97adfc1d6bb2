import Grafast.Execute.Value
import Grafast.Batch.Scatter

namespace Grafast

open Batch

-- The hoisted columns that are parallel to the values that are completed.
abbrev Bridge (I V : Type) := List (I × List V)

abbrev BucketStore (I V : Type) := I → Option (List V)

-- What the executor knows of layers. `streaming` is whether the request accepts streams.
structure Layers (L S I : Type) where
  stepId        : S → I
  hoistedOutIds : L → List I
  streaming     : Bool

-- The run of a layer over a bucket, with the columns that are seeded for it. Without a result one of its
-- steps raises.
abbrev RunLayer (L I V : Type) := L → List (Entry V) → List (I × List V) → Option (BucketStore I V)

variable {T L S I V : Type} [DecidableEq I]

def addErrors (errors : List (LocatedError V)) : Exec V Unit :=
  modify fun context => { context with errors := context.errors ++ errors }

def addStream (stream : StreamRecord V) : Exec V Unit :=
  modify fun context => { context with streams := context.streams ++ [stream] }

def Completer.isNonNull : Completer T L S → Bool
  | .nonNull _ => true
  | _          => false

section Leaf

variable [Host V T]

open Host

def serializeLeaf (leafType : T) (value : V) : Except (FieldError V) V :=
  match serialize leafType value with
  | .error e       => .error (.raised e)
  | .ok serialized =>
    if isNull serialized then
      .error (nullSerializedError leafType value serialized)
    else
      .ok serialized

-- The exceptions that the `try` around the serialization of a leaf catches.
def isCaught : FieldError V → Bool
  | .raised e => isLeafError e
  | _         => true

def completeSingleLeaf (leafType : T) (e : Entry V) : Option (Completed V) :=
  if isException e.value then
    some (.bubbleAt (.raised e.value) e.path)
  else if isNull e.value then
    some (.value .null)
  else
    match serializeLeaf leafType e.value with
    | .ok serialized => some (.value (.leaf serialized))
    | .error error   => if isCaught error then some (.bubbleAt error e.path) else none

def enforceNonNull (fieldLabel : String) (e : Entry V) : Completed V → Completed V
  | .value .null => .bubbleAt (nonNullError fieldLabel) e.path
  | completed    => completed

end Leaf

section List

variable [Host V T]

open Host

-- Where the items of a list stand among the items of all lists.
inductive Span (V : Type)
  | invalid (error : LocatedError V)
  | null
  | items (start length : Nat)

-- The items of all lists, each with the place of its list, and where the items of a list stand.
structure Flat (V : Type) where
  items  : List (Entry V)
  owners : List Nat
  spans  : List (Span V)

def itemEntries (e : Entry V) (items : List V) : List (Entry V) :=
  items.mapIdx fun index item => ⟨item, e.path ++ [.index index], e.info⟩

-- A value as a list of entries, unless it is null or not a list.
inductive Items (V : Type)
  | invalid (error : LocatedError V)
  | null
  | items (items : List (Entry V))

def presentItems (fieldLabel : String) (e : Entry V) : Option (Items V) :=
  match iterate e.value with
  | none              => some (.invalid (located (notIterableError fieldLabel) e.path))
  | some (.error _)   => none
  | some (.ok values) => some (.items (itemEntries e values))

def listItems (fieldLabel : String) (e : Entry V) : Option (Items V) :=
  if isException e.value then
    some (.invalid (located (.raised e.value) e.path))
  else if isNull e.value then
    some .null
  else
    presentItems fieldLabel e

-- Flattens the lists from the place `i` on, when the lists before have `start` items.
def flattenFrom (fieldLabel : String) : Nat → Nat → List (Entry V) → Option (Flat V)
  | _, _,     []      => some ⟨[], [], []⟩
  | i, start, e :: es => do
    match ← listItems fieldLabel e with
    | .invalid error =>
      let flat ← flattenFrom fieldLabel (i + 1) start es
      return ⟨flat.items, flat.owners, .invalid error :: flat.spans⟩
    | .null          =>
      let flat ← flattenFrom fieldLabel (i + 1) start es
      return ⟨flat.items, flat.owners, .null :: flat.spans⟩
    | .items items   =>
      let flat ← flattenFrom fieldLabel (i + 1) (start + items.length) es
      return ⟨items ++ flat.items, List.replicate items.length i ++ flat.owners,
        .items start items.length :: flat.spans⟩

-- The hoisted columns at the places of some values.
def Bridge.gather (bridge : Option (Bridge I V)) (places : List Nat) : Option (Option (Bridge I V)) :=
  match bridge with
  | none         => some none
  | some columns => some <$> columns.mapM fun (id, column) => do return (id, ← Batch.gather column places)

-- The items of a list up to the first violation that nulls it, with the errors of nulled items.
def collectItems (itemIsNonNull : Bool) :
    List (Completed V) → List (Data V) → List (LocatedError V) → Completed V × List (LocatedError V)
  | [],                    items, errors => (.value (.list items), errors)
  | .value data :: rest,   items, errors => collectItems itemIsNonNull rest (items ++ [data]) errors
  | .bubble error :: rest, items, errors =>
    if itemIsNonNull then
      (.bubble error, errors)
    else
      collectItems itemIsNonNull rest (items ++ [.null]) (errors ++ [error])

def collectSpan (itemIsNonNull : Bool) (completed : List (Completed V)) :
    Span V → Exec V (Completed V)
  | .invalid error      => return .bubble error
  | .null               => return .value .null
  | .items start length => do
    let items ← (List.range length).mapM fun k => completed[start + k]?
    let (list, errors) := collectItems itemIsNonNull items [] []
    addErrors errors
    return list

end List

section Object

variable [Host V T]

open Host

-- What is known of a value before its child bucket has run.
def objectResult (e : Entry V) : Completed V :=
  if isException e.value then .bubbleAt (.raised e.value) e.path else .value .null

def isPresent (value : V) : Bool :=
  !isException value && !isNull value

-- The guard of an object type.
def checkTypeOf (objectType : T) (e : Entry V) : Except V Bool :=
  match isTypeOf objectType with
  | none       => .ok true
  | some check => check e.value e.path

def rejectChild (objectType : T) (e : Entry V) : Completed V :=
  .bubbleAt (invalidReturnTypeError objectType e.value) e.path

-- The children of a bucket that are kept, with the places of their values, and the results so far.
structure ObjectBucket (V : Type) where
  kept    : List (Entry V × Nat)
  results : List (Completed V)

def objectBucket (objectType : T) (entries : List (Entry V)) : Option (ObjectBucket V) := do
  let children := entries.zipIdx.filter fun (e, _) => isPresent e.value
  let guard ← children.mapM fun (e, _) => (checkTypeOf objectType e).toOption
  let checked := children.zip guard
  let rejected := checked.filterMap fun (child, ok) => if ok then none else some child
  let results := scatter (fun _ completed => completed) (rejected.map (·.snd))
    (rejected.map fun (e, _) => rejectChild objectType e) (entries.map objectResult)
  return ⟨checked.filterMap fun (child, ok) => if ok then some child else none, results⟩

-- The hoisted columns of a child bucket, whose children come from the given places.
def buildHoistParentStore (hoistedOutIds : List I) (bridge : Option (Bridge I V))
    (origin : List Nat) : Option (List (I × List V)) :=
  if hoistedOutIds.isEmpty then
    some []
  else do
    let columns ← bridge
    hoistedOutIds.mapM fun id => do
      let column ← columns.lookup id
      return (id, ← gather column origin)

end Object

section Abstract

variable [Host V T]

open Host

-- The concrete type of a value, or why it has none.
def runtimeType (abstractType : T) (e : Entry V) : Except (FieldError V) T :=
  match resolveType abstractType e.value e.info with
  | .error error => .error (.raised error)
  | .ok runtime  =>
    if isException runtime then
      .error (.raised runtime)
    else
      match ensureValidRuntimeType runtime abstractType e.value e.info with
      | .error error   => .error (.raised error)
      | .ok objectType => .ok objectType

def abstractResult (abstractType : T) (e : Entry V) : Completed V :=
  if isPresent e.value then
    match runtimeType abstractType e with
    | .error error => .bubbleAt error e.path
    | .ok _        => .value .null
  else
    objectResult e

-- The type of the group that a value belongs to.
def groupType (abstractType : T) (e : Entry V) : Option T :=
  if isPresent e.value then (runtimeType abstractType e).toOption else none

-- The members of each concrete type.
def groupByType [DecidableEq T] (abstractType : T) (entries : List (Entry V)) :
    List (T × List (Entry V × Nat)) :=
  let members := entries.zipIdx.filterMap fun (e, i) =>
    (groupType abstractType e).map fun type => (type, e, i)
  members.foldl addToGroup []

end Abstract

section Field

variable [Host V T]

def Slot.isLive : Slot V → Bool
  | .live _ => true
  | .dead _ => false

def Slot.assemble : Slot V → Completed V
  | .live output => .value (.object output)
  | .dead error  => .bubble error

-- Writes the completed value of a field into the output of its parent.
def writeValue (responseName : String) (isNonNull : Bool) : Slot V → Completed V → Slot V
  | .live output, .value data   => .live (output ++ [(responseName, data)])
  | .live output, .bubble error =>
    if isNonNull then .dead error else .live (output ++ [(responseName, .null)])
  | .dead error,  _             => .dead error

-- The violations that a field catches.
def caughtErrors (isNonNull : Bool) (completed : List (Completed V)) : List (LocatedError V) :=
  completed.filterMap fun
    | .bubble error => if isNonNull then none else some error
    | .value _      => none

def livePlaces (slots : List (Slot V)) : List Nat :=
  (slots.zipIdx.filter (·.fst.isLive)).map (·.snd)

def fieldEntries (responseName : String) (values : List V) (parents : List (Entry V)) :
    List (Entry V) :=
  List.zipWith (fun value parent =>
    ⟨value, parent.path ++ [.name responseName], parent.path ++ [.name responseName]⟩) values parents

-- The ids that the layer of the child bucket of a field hoists out.
def Layers.childHoistedOutIds (layers : Layers L S I) (completer : Completer T L S) : List I :=
  completer.findObject.elim [] fun child => layers.hoistedOutIds child.layer

-- The hoisted columns that the child bucket of a field needs, at the live places of the bucket.
def hoistBridgeForField (hoistedOutIds : List I) (store : BucketStore I V) (live : List Nat) :
    Option (Option (Bridge I V)) :=
  if hoistedOutIds.isEmpty then
    some none
  else
    some <$> hoistedOutIds.mapM fun id => do return (id, ← gather (← store id) live)

end Field

section Stream

variable [Host V T]

-- One item of the tail of a stream, completed over a context of its own. A violation of a non-null
-- item ends the stream.
def streamItem (itemIsNonNull : Bool) (complete : Exec V (List (Completed V))) : StreamItem V :=
  match complete.run ⟨[], []⟩ with
  | some ([.value data], context)   => .item (some data) context.errors context.streams
  | some ([.bubble error], context) =>
    if itemIsNonNull then
      .item none [error] []
    else
      .item (some .null) [error] context.streams
  | _                               => .raised

-- What is drained of a stream: its items up to the one that ends it.
def drained : List (StreamItem V) → List (StreamItem V)
  | []                             => []
  | .item (some d) es cs :: items  => .item (some d) es cs :: drained items
  | item :: _                      => [item]

end Stream

variable (layers : Layers L S I) (runLayer : RunLayer L I V) [Host V T] [DecidableEq T]

mutual

def completeValues : Completer T L S → String → List (Entry V) → Option (Bridge I V) →
    Exec V (List (Completed V))
  | .leaf leafType, _, entries, _ => liftM (entries.mapM (completeSingleLeaf leafType))
  | .nonNull inner, fieldLabel, entries, bridge => do
    let completed ← completeValues inner fieldLabel entries bridge
    return List.zipWith (enforceNonNull fieldLabel) entries completed
  | .list item, fieldLabel, entries, bridge => do
    let flat ← flattenFrom fieldLabel 0 0 entries
    let itemBridge ← Bridge.gather bridge flat.owners
    let completed ← completeValues item fieldLabel flat.items itemBridge
    flat.spans.mapM (collectSpan item.isNonNull completed)
  | .object objectType child, _, entries, bridge => do
    let bucket ← objectBucket objectType entries
    if bucket.kept.isEmpty then
      return bucket.results
    let origin := bucket.kept.map (·.snd)
    let store ← buildHoistParentStore (layers.hoistedOutIds child.layer) bridge origin
    let children ← executeObjectPlan child (bucket.kept.map (·.fst)) store
    return scatter (fun _ completed => completed) origin children bucket.results
  | .abstract abstractType plans, _, entries, bridge =>
    (groupByType abstractType entries).foldlM (fun results (objectType, members) => do
      let origin := members.map (·.snd)
      let store ← buildHoistParentStore (layers.hoistedOutIds (plans objectType).layer) bridge origin
      let children ← executeObjectPlan (plans objectType) (members.map (·.fst)) store
      return scatter (fun _ completed => completed) origin children results)
      (entries.map (abstractResult abstractType))

def executeObjectPlan : ObjectPlan T L S → List (Entry V) → List (I × List V) →
    Exec V (List (Completed V))
  | ⟨fields, layer⟩, parents, parentStore => do
    let store ← runLayer layer parents parentStore
    let slots ← walkOutput fields parents store (parents.map fun _ => .live [])
    return slots.map (·.assemble)

def walkOutput : List (FieldPlan T L S) → List (Entry V) → BucketStore I V → List (Slot V) →
    Exec V (List (Slot V))
  | [],      _,       _,     slots => return slots
  | f :: fs, parents, store, slots => do
    let slots ← completeField f parents store slots
    walkOutput fs parents store slots

def completeField : FieldPlan T L S → List (Entry V) → BucketStore I V → List (Slot V) →
    Exec V (List (Slot V))
  | ⟨responseName, fieldLabel, step, completer, stream⟩, parents, store, slots => do
    let live := livePlaces slots
    if live.isEmpty then
      return slots
    let column ← store (layers.stepId step)
    let outcome := fieldEntries responseName (← gather column live) (← gather parents live)
    let bridge ← hoistBridgeForField (layers.childHoistedOutIds completer) store live
    match stream, layers.streaming with
    | some directive, true =>
      (live.zip outcome).zipIdx.foldlM (fun slots ((i, e), k) => do
        let head ← match directive with
          | .error message           => pure (.bubbleAt (.graphQLError message) e.path)
          | .args initialCount label =>
            if initialCount < 0 then
              pure (.bubbleAt initialCountError e.path)
            else
              completeStreamValue completer initialCount.toNat label fieldLabel e bridge k
        addErrors (caughtErrors completer.isNonNull [head])
        return slots.modify i (writeValue responseName completer.isNonNull · head)) slots
    | _, _ => do
      let completed ← completeValues completer fieldLabel outcome bridge
      addErrors (caughtErrors completer.isNonNull completed)
      return scatter (writeValue responseName completer.isNonNull) live completed slots

-- Completes the head of a streamed list and leaves its tail to a stream.
def completeStreamValue : Completer T L S → Nat → Option String → String → Entry V →
    Option (Bridge I V) → Nat → Exec V (Completed V)
  | .nonNull inner, initialCount, label, fieldLabel, e, bridge, k =>
    completeStreamValue inner initialCount label fieldLabel e bridge k
  | .list item, initialCount, label, fieldLabel, e, bridge, k =>
    if Host.isNone e.value then
      return .value .null
    else
      match Host.iterate e.value with
      | none              => return .bubbleAt (notIterableError fieldLabel) e.path
      | some (.error _)   => failure
      | some (.ok values) => do
        let items := itemEntries e values
        let head := items.take initialCount
        let headBridge ← Bridge.gather bridge (List.replicate head.length k)
        let completed ← if head.isEmpty then pure [] else
          completeValues item fieldLabel head headBridge
        let (data, errors) := collectItems item.isNonNull completed [] []
        addErrors errors
        match data with
        | .bubble error => return .bubble error
        | .value data   => do
          let itemBridge ← Bridge.gather bridge [k]
          let tail := (items.drop initialCount).map fun e =>
            streamItem item.isNonNull (completeValues item fieldLabel [e] itemBridge)
          addStream (.stream e.path label (drained tail))
          return .value data
  | _, _, _, _, _, _, _ => failure

end

end Grafast
