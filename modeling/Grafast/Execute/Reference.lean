import Grafast.Execute.Completion

namespace Grafast

variable {T L S I V : Type} [DecidableEq I]

-- What the steps of a layer give a parent on its own, from the values that are seeded for it. `columns` are
-- the ids with a column.
structure LayerRuns (L S I V : Type) extends Layers L S I where
  columns : L → I → Bool
  value   : L → (I → Option V) → V → Path → I → V

def seedsAt (store : List (I × List V)) (k : Nat) (id : I) : Option V :=
  (store.lookup id).bind (·[k]?)

-- The run of a layer that gives each parent of a bucket what it gives it on its own.
def LayerRuns.pointwise (runs : LayerRuns L S I V) : RunLayer L I V := fun layer parents parentStore =>
  some fun id =>
    if runs.columns layer id then
      some <| parents.mapIdx fun k e => runs.value layer (seedsAt parentStore k) e.value e.path id
    else
      none

def Completed.bubble? : Completed V → Option (LocatedError V)
  | .value _      => none
  | .bubble error => some error

-- What a nullable position makes of a completed value.
def Completed.orNull : Completed V → Data V
  | .value data => data
  | .bubble _   => .null

-- A list of completed items: the first violation of a non-null item nulls the list.
def completeItems (itemIsNonNull : Bool) (items : List (Completed V)) : Completed V :=
  match if itemIsNonNull then items.findSome? (·.bubble?) else none with
  | some error => .bubble error
  | none       => .value (.list (items.map (·.orNull)))

structure FieldResult (V : Type) where
  responseName : String
  isNonNull    : Bool
  completed    : Completed V

def FieldResult.bubble? (f : FieldResult V) : Option (LocatedError V) :=
  if f.isNonNull then f.completed.bubble? else none

-- An object of completed fields: the first violation of a non-null field nulls the object.
def completeOutput (fields : List (FieldResult V)) : Completed V :=
  match fields.findSome? (·.bubble?) with
  | some error => .bubble error
  | none       => .value (.object (fields.map fun f => (f.responseName, f.completed.orNull)))

-- The values that are seeded for the layer of an object.
def layerSeeds (hoistedOutIds : List I) (seeds : I → Option V) (id : I) : Option V :=
  if hoistedOutIds.contains id then seeds id else none

-- A value of a column, with the values that are seeded for it.
structure Seeded (I V : Type) where
  entry : Entry V
  seed  : I → V

-- The values that are seeded for a value by the columns of a bridge.
def Seeded.seeds (keys : Option (List I)) (x : Seeded I V) : I → Option V :=
  layerSeeds (keys.getD []) (some <| x.seed ·)

-- The columns of hoisted values that are parallel to the values.
def bridgeOf (keys : Option (List I)) (xs : List (Seeded I V)) : Option (Bridge I V) :=
  keys.map fun ids => ids.map fun id => (id, xs.map (·.seed id))

def storeOf (ids : List I) (xs : List (Seeded I V)) : List (I × List V) :=
  ids.map fun id => (id, xs.map (·.seed id))

variable (runs : LayerRuns L S I V) [Host V T]

open Host

mutual

-- The completion of one value, by recursion over its type. An error is located where it occurs, and
-- nulls the nearest position that may be null.
def reference : Completer T L S → String → Entry V → (I → Option V) → Completed V
  | .leaf leafType, _, e, _ =>
    if isPresent e.value then
      match serializeLeaf leafType e.value with
      | .error error   => .bubbleAt error e.path
      | .ok serialized => .value (.leaf serialized)
    else
      objectResult e
  | .nonNull inner, fieldLabel, e, seeds => enforceNonNull fieldLabel e (reference inner fieldLabel e seeds)
  | .list item, fieldLabel, e, seeds =>
    if isPresent e.value then
      match iterate e.value with
      | none                => .bubbleAt (notIterableError fieldLabel) e.path
      | some (.error error) => .bubbleAt (.raised error) e.path
      | some (.ok values)   => completeItems item.isNonNull <|
        (itemEntries e values).map fun e => reference item fieldLabel e seeds
    else
      objectResult e
  | .object objectType child, _, e, seeds =>
    if isPresent e.value then
      match checkTypeOf objectType e with
      | .error error => .bubbleAt (.raised error) e.path
      | .ok false    => rejectChild objectType e
      | .ok true     => referenceObject child e seeds
    else
      objectResult e
  | .abstract abstractType plans, _, e, seeds =>
    if isPresent e.value then
      match runtimeType abstractType e with
      | .error error   => .bubbleAt error e.path
      | .ok objectType => referenceObject (plans objectType) e seeds
    else
      objectResult e

def referenceObject : ObjectPlan T L S → Entry V → (I → Option V) → Completed V
  | ⟨fields, layer⟩, e, seeds =>
    let value := runs.value layer (layerSeeds (runs.hoistedOutIds layer) seeds) e.value e.path
    completeOutput (referenceFields fields e value)

def referenceFields : List (FieldPlan T L S) → Entry V → (I → V) → List (FieldResult V)
  | [],      _, _     => []
  | f :: fs, e, value => referenceField f e value :: referenceFields fs e value

def referenceField : FieldPlan T L S → Entry V → (I → V) → FieldResult V
  | ⟨responseName, fieldLabel, step, completer, _⟩, e, value =>
    let path := e.path ++ [.name responseName]
    let seeds := layerSeeds (runs.childHoistedOutIds completer) (some <| value ·)
    ⟨responseName, completer.isNonNull,
      reference completer fieldLabel ⟨value (runs.stepId step), path, path⟩ seeds⟩

end

mutual

-- Whether the completion of a value calls nothing that raises outside a `try`: no serialization fails
-- with an exception other than those that are caught, no `is_type_of` and no iteration raises. A field
-- after one that has nulled its parent is not completed. The columns that are read have to exist.
def Safe : Completer T L S → String → Entry V → (I → Option V) → Prop
  | .leaf leafType, _, e, _ =>
    isPresent e.value → ∀ error, serialize leafType e.value = .error error → isLeafError error
  | .nonNull inner, fieldLabel, e, seeds => Safe inner fieldLabel e seeds
  | .list item, fieldLabel, e, seeds =>
    isPresent e.value → ∀ result, iterate e.value = some result → ∃ values, result = .ok values ∧
      ∀ i ∈ itemEntries e values, Safe item fieldLabel i seeds
  | .object objectType child, _, e, seeds =>
    isPresent e.value →
      match checkTypeOf objectType e with
      | .error _   => False
      | .ok false  => True
      | .ok true   => SafeObject child e seeds
  | .abstract abstractType plans, _, e, seeds =>
    isPresent e.value → ∀ objectType, runtimeType abstractType e = .ok objectType →
      SafeObject (plans objectType) e seeds

def SafeObject : ObjectPlan T L S → Entry V → (I → Option V) → Prop
  | ⟨fields, layer⟩, e, seeds =>
    (∀ id ∈ runs.hoistedOutIds layer, (seeds id).isSome) ∧
      SafeFields fields e (runs.columns layer)
        (runs.value layer (layerSeeds (runs.hoistedOutIds layer) seeds) e.value e.path)

def SafeFields : List (FieldPlan T L S) → Entry V → (I → Bool) → (I → V) → Prop
  | [],      _, _,       _     => True
  | f :: fs, e, columns, value => SafeField f e columns value ∧
    ((referenceField runs f e value).bubble? = none → SafeFields fs e columns value)

def SafeField : FieldPlan T L S → Entry V → (I → Bool) → (I → V) → Prop
  | ⟨responseName, fieldLabel, step, completer, _⟩, e, columns, value =>
    columns (runs.stepId step) ∧ (∀ id ∈ runs.childHoistedOutIds completer, columns id) ∧
      let path := e.path ++ [.name responseName]
      Safe completer fieldLabel ⟨value (runs.stepId step), path, path⟩
        (layerSeeds (runs.childHoistedOutIds completer) (some <| value ·))

end

-- A completed item of a list or field of an object, with the errors that have been caught below it.
structure Part (V : Type) where
  isNonNull : Bool
  completed : Completed V
  errors    : List (LocatedError V)

def Part.bubble? (part : Part V) : Option (LocatedError V) :=
  if part.isNonNull then part.completed.bubble? else none

-- A position that may be null catches a violation.
def Part.reported (part : Part V) : List (LocatedError V) :=
  part.errors ++ if part.isNonNull then [] else part.completed.bubble?.toList

-- The errors of the parts up to the first one that nulls the whole.
def partErrors : List (Part V) → List (LocatedError V)
  | []            => []
  | part :: parts => part.reported ++ if part.bubble?.isSome then [] else partErrors parts

def iteratedEntries (e : Entry V) : List (Entry V) :=
  if isPresent e.value then
    match iterate e.value with
    | some (.ok values) => itemEntries e values
    | _                 => []
  else
    []

-- Whether a value is completed as an object of a type.
def isObjectOf (objectType : T) (e : Entry V) : Bool :=
  isPresent e.value && match checkTypeOf objectType e with
    | .ok ok   => ok
    | .error _ => false

mutual

-- The errors of the completion of one value: one for each position that is nulled. What comes after a
-- part that has nulled the whole is not completed.
def referenceErrors : Completer T L S → String → Entry V → (I → Option V) → List (LocatedError V)
  | .leaf _, _, _, _ => []
  | .nonNull inner, fieldLabel, e, seeds => referenceErrors inner fieldLabel e seeds
  | .list item, fieldLabel, e, seeds =>
    partErrors <| (iteratedEntries e).map fun i =>
      ⟨item.isNonNull, reference runs item fieldLabel i seeds, referenceErrors item fieldLabel i seeds⟩
  | .object objectType child, _, e, seeds =>
    if isObjectOf objectType e then referenceObjectErrors child e seeds else []
  | .abstract abstractType plans, _, e, seeds =>
    match groupType abstractType e with
    | some objectType => referenceObjectErrors (plans objectType) e seeds
    | none            => []

def referenceObjectErrors : ObjectPlan T L S → Entry V → (I → Option V) → List (LocatedError V)
  | ⟨fields, layer⟩, e, seeds =>
    let value := runs.value layer (layerSeeds (runs.hoistedOutIds layer) seeds) e.value e.path
    partErrors (referenceParts fields e value)

def referenceParts : List (FieldPlan T L S) → Entry V → (I → V) → List (Part V)
  | [],      _, _     => []
  | f :: fs, e, value => referencePart f e value :: referenceParts fs e value

def referencePart : FieldPlan T L S → Entry V → (I → V) → Part V
  | ⟨responseName, fieldLabel, step, completer, _⟩, e, value =>
    let path := e.path ++ [.name responseName]
    let seeds := layerSeeds (runs.childHoistedOutIds completer) (some <| value ·)
    let entry := ⟨value (runs.stepId step), path, path⟩
    ⟨completer.isNonNull, reference runs completer fieldLabel entry seeds,
      referenceErrors completer fieldLabel entry seeds⟩

end

mutual

-- Whether the completion of a value has no error to catch that is not an error of the response: after
-- an item that nulls its list, no item has errors below it.
def Quiet : Completer T L S → String → Entry V → (I → Option V) → Prop
  | .leaf _, _, _, _ => True
  | .nonNull inner, fieldLabel, e, seeds => Quiet inner fieldLabel e seeds
  | .list item, fieldLabel, e, seeds =>
    (∀ i ∈ iteratedEntries e, Quiet item fieldLabel i seeds) ∧
      (item.isNonNull → (iteratedEntries e).Pairwise fun i j =>
        (reference runs item fieldLabel i seeds).bubble?.isSome →
          referenceErrors runs item fieldLabel j seeds = [])
  | .object objectType child, _, e, seeds => isObjectOf objectType e → QuietObject child e seeds
  | .abstract abstractType plans, _, e, seeds =>
    ∀ objectType, groupType abstractType e = some objectType → QuietObject (plans objectType) e seeds

def QuietObject : ObjectPlan T L S → Entry V → (I → Option V) → Prop
  | ⟨fields, layer⟩, e, seeds =>
    QuietFields fields e
      (runs.value layer (layerSeeds (runs.hoistedOutIds layer) seeds) e.value e.path)

def QuietFields : List (FieldPlan T L S) → Entry V → (I → V) → Prop
  | [],      _, _     => True
  | f :: fs, e, value => QuietField f e value ∧
    ((referenceField runs f e value).bubble? = none → QuietFields fs e value)

def QuietField : FieldPlan T L S → Entry V → (I → V) → Prop
  | ⟨responseName, fieldLabel, step, completer, _⟩, e, value =>
    let path := e.path ++ [.name responseName]
    Quiet completer fieldLabel ⟨value (runs.stepId step), path, path⟩
      (layerSeeds (runs.childHoistedOutIds completer) (some <| value ·))

end

-- A parent of a bucket, with the values that its columns hold for it on its own.
def LayerRuns.parent (runs : LayerRuns L S I V) (layer : L) (x : Seeded I V) : Seeded I V :=
  ⟨x.entry, runs.value layer (layerSeeds (runs.hoistedOutIds layer) (some <| x.seed ·)) x.entry.value
    x.entry.path⟩

-- The value of a field of a parent.
def Seeded.field (responseName : String) (id : I) (x : Seeded I V) : Seeded I V :=
  ⟨⟨x.seed id, x.entry.path ++ [.name responseName], x.entry.path ++ [.name responseName]⟩, x.seed⟩

section Buckets

variable [DecidableEq T] (P : L → List (Seeded I V) → Prop)

mutual

-- Whether a property holds of the buckets that the completion of some values forms, a bucket for all values
-- of one type. A parent that has been nulled is in no bucket of the fields that follow.
def Buckets : Completer T L S → List (Seeded I V) → Prop
  | .leaf _, _ => True
  | .nonNull inner, xs => Buckets inner xs
  | .list item, xs => Buckets item (xs.flatMap fun x => (iteratedEntries x.entry).map (⟨·, x.seed⟩))
  | .object objectType child, xs => ObjectBuckets child (xs.filter (isObjectOf objectType ·.entry))
  | .abstract abstractType plans, xs => ∀ objectType,
    ObjectBuckets (plans objectType) (xs.filter (groupType abstractType ·.entry = some objectType))

def ObjectBuckets : ObjectPlan T L S → List (Seeded I V) → Prop
  | ⟨fields, layer⟩, xs => xs ≠ [] → P layer xs ∧ FieldsBuckets fields (xs.map (runs.parent layer))

def FieldsBuckets : List (FieldPlan T L S) → List (Seeded I V) → Prop
  | [],      _  => True
  | f :: fs, ps => FieldBuckets f ps ∧
    FieldsBuckets fs (ps.filter fun p => (referenceField runs f p.entry p.seed).bubble?.isNone)

def FieldBuckets : FieldPlan T L S → List (Seeded I V) → Prop
  | ⟨responseName, _, step, completer, _⟩, ps =>
    Buckets completer (ps.map (Seeded.field responseName (runs.stepId step)))

end

end Buckets

-- A run of a layer that does not raise gives each parent of a bucket what it gives it on its own.
def LayerRuns.RunsApart (runs : LayerRuns L S I V) (runLayer : RunLayer L I V) (layer : L)
    (xs : List (Seeded I V)) : Prop :=
  ∀ store, runLayer layer (xs.map (·.entry)) (storeOf (runs.hoistedOutIds layer) xs) = some store →
    runs.pointwise layer (xs.map (·.entry)) (storeOf (runs.hoistedOutIds layer) xs) = some store

-- The run of a layer over a bucket does not raise.
def LayerRuns.Completes (runs : LayerRuns L S I V) (runLayer : RunLayer L I V) (layer : L)
    (xs : List (Seeded I V)) : Prop :=
  (runLayer layer (xs.map (·.entry)) (storeOf (runs.hoistedOutIds layer) xs)).isSome

end Grafast
