import Grafast.Batch.Trace
import Grafast.Incremental.Record
import Grafast.Execute.Completion

namespace Grafast.Incremental

-- What a step or a list holds at a place: an exception, null or a value.
abbrev Cell (V : Type) := Except (FieldError V) (Option V)

-- The usages of an object that are new, and the groups of fields that are left to some of them.
structure Deferred (U F : Type) where
  newDeferUsages : List U
  newGroups      : List (List U × F)

mutual

-- The plans as the walk of a result sees them. A composite type has a plan for each concrete type.
inductive Completer (T U F V : Type)
  | leaf (serialize : V → Except (FieldError V) V)
  | object (runtimeType : V → Path → Except (FieldError V) T) (childPlan : T → ObjectPlan T U F V)
  | list (iterate : V → Except (FieldError V) (List (Cell V))) (itemCompleter : Completer T U F V)
  | nonNull (inner : Completer T U F V)

structure FieldPlan (T U F V : Type) where
  responseName : String
  fieldLabel   : String
  column       : V → Path → Cell V
  completer    : Completer T U F V
  stream       : Option (Nat × Option String)

structure ObjectPlan (T U F V : Type) where
  fields   : List (FieldPlan T U F V)
  deferred : Deferred U F

end

mutual

-- The fields of an object have different response names.
def Completer.Distinct {T U F V : Type} : Completer T U F V → Prop
  | .leaf _             => True
  | .object _ childPlan => ∀ type, (childPlan type).Distinct
  | .list _ item        => item.Distinct
  | .nonNull inner      => inner.Distinct

def ObjectPlan.Distinct {T U F V : Type} : ObjectPlan T U F V → Prop
  | ⟨fields, _⟩ => (fields.map (·.responseName)).Nodup ∧ fieldsDistinct fields

def fieldsDistinct {T U F V : Type} : List (FieldPlan T U F V) → Prop
  | []                          => True
  | ⟨_, _, _, completer, _⟩ :: fs => completer.Distinct ∧ fieldsDistinct fs

end

-- What a walk does on the way, with the place where it does it: it makes the records of new usages, catches an
-- error, or hands over an object with its deferred groups or a list with its remaining items.
inductive Event (U F V : Type)
  | mint (newDeferUsages : List U) (path : Path)
  | error (place : Path) (error : LocatedError V)
  | defer (deferred : Deferred U F) (parent : V) (path : Path)
  | stream (stream : StreamRec) (tail : List (Cell V))

def Event.place {U F V : Type} : Event U F V → Path
  | .mint _ path     => path
  | .error place _   => place
  | .defer _ _ path  => path
  | .stream list _   => list.path

structure Entry (V : Type) where
  cell : Cell V
  path : Path

-- An object that is walked, with its output so far.
structure Parent (V : Type) where
  value : V
  path  : Path
  slot  : Slot V

variable {T U F V : Type}

-- The path of an exception that has already been located stays what it is.
variable (errorPath : V → Option Path)

def located (error : FieldError V) (path : Path) : LocatedError V :=
  match error with
  | .raised e => ⟨.raised e, (errorPath e).getD path⟩
  | error     => ⟨error, path⟩

def Completer.isNonNull : Completer T U F V → Bool
  | .nonNull _ => true
  | _          => false

def completeLeaf (serialize : V → Except (FieldError V) V) (e : Entry V) : Completed V :=
  match e.cell with
  | .error error      => .bubble (located errorPath error e.path)
  | .ok none          => .value .null
  | .ok (some value)  =>
    match serialize value with
    | .error error    => .bubble (located errorPath error e.path)
    | .ok serialized  => .value (.leaf serialized)

def enforceNonNull (fieldLabel : String) (e : Entry V) : Completed V → Completed V
  | .value .null => .bubble ⟨nonNullError fieldLabel, e.path⟩
  | completed    => completed

-- A value as a list of entries, unless it is null or not a list.
def listItems (iterate : V → Except (FieldError V) (List (Cell V))) (e : Entry V) :
    Except (LocatedError V) (Option (List (Entry V))) :=
  match e.cell with
  | .error error     => .error (located errorPath error e.path)
  | .ok none         => .ok none
  | .ok (some value) =>
    match iterate value with
    | .error error   => .error (located errorPath error e.path)
    | .ok cells      => .ok (some (cells.mapIdx fun index cell => ⟨cell, e.path ++ [.index index]⟩))

def itemsOf : Except (LocatedError V) (Option (List (Entry V))) → List (Entry V)
  | .ok (some items) => items
  | _                => []

-- What a list makes of its completed items, with the errors that it catches.
def finishList (itemIsNonNull : Bool) (list : Except (LocatedError V) (Option (List (Entry V))))
    (completed : List (Completed V)) : Completed V × List (LocatedError V) :=
  match list with
  | .error error   => (.bubble error, [])
  | .ok none       => (.value .null, [])
  | .ok (some _)   => collectItems itemIsNonNull completed [] []

-- Takes the completed items of each list in turn.
def finishLists (itemIsNonNull : Bool) : List (Except (LocatedError V) (Option (List (Entry V)))) →
    List (Completed V) → List (Completed V × List (LocatedError V))
  | [],            _         => []
  | list :: lists, completed =>
    finishList itemIsNonNull list (completed.take (itemsOf list).length) ::
      finishLists itemIsNonNull lists (completed.drop (itemsOf list).length)

-- The concrete type of a present value.
def concreteType (runtimeType : V → Path → Except (FieldError V) T) (e : Entry V) : Option (V × T) :=
  match e.cell with
  | .ok (some value) => (runtimeType value e.path).toOption.map (value, ·)
  | _                => none

-- What is known of a composite value before its object is walked.
def objectResult (runtimeType : V → Path → Except (FieldError V) T) (e : Entry V) : Completed V :=
  match e.cell with
  | .error error     => .bubble (located errorPath error e.path)
  | .ok none         => .value .null
  | .ok (some value) =>
    match runtimeType value e.path with
    | .error error   => .bubble (located errorPath error e.path)
    | .ok _          => .value .null

def catchErrors (place : Path) (errors : List (LocatedError V)) : List (Event U F V) :=
  errors.map (.error place ·)

-- The violation that a nullable field catches.
def caughtError (isNonNull : Bool) : Completed V → List (LocatedError V)
  | .bubble error => if isNonNull then [] else [error]
  | .value _      => []

def mintEvents (deferred : Deferred U F) (parents : List (Parent V)) : List (Event U F V) :=
  if deferred.newDeferUsages.isEmpty then [] else parents.map fun parent => .mint deferred.newDeferUsages parent.path

def captureDeferredJobs (deferred : Deferred U F) (parents : List (Parent V)) : List (Event U F V) :=
  if deferred.newDeferUsages.isEmpty && deferred.newGroups.isEmpty then
    []
  else
    (parents.filter (·.slot.isLive)).map fun parent => .defer deferred parent.value parent.path

def Parent.write (responseName : String) (isNonNull : Bool) (parent : Parent V) (completed : Completed V) : Parent V :=
  { parent with slot := writeValue responseName isNonNull parent.slot completed }

def FieldPlan.entry (f : FieldPlan T U F V) (parent : Parent V) : Entry V :=
  ⟨f.column parent.value parent.path, parent.path ++ [.name f.responseName]⟩

variable [DecidableEq T]

-- A member of a type, as the object to be walked.
def memberOf (runtimeType : V → Path → Except (FieldError V) T) (type : T) (e : Entry V) : Option (Parent V) :=
  (concreteType runtimeType e).bind fun (value, t) => if t = type then some ⟨value, e.path, .live []⟩ else none

-- Writes the objects of a type to the results of its members.
def writeMembers (runtimeType : V → Path → Except (FieldError V) T) (type : T) (entries : List (Entry V))
    (results : List (Completed V)) (parents : List (Parent V)) : List (Completed V) :=
  (Batch.refill (fun x => (memberOf runtimeType type x.1).isSome) (fun x parent => (x.1, parent.slot.assemble))
    (entries.zip results) parents).map (·.2)

def concreteTypes (runtimeType : V → Path → Except (FieldError V) T) (entries : List (Entry V)) : List T :=
  (entries.filterMap fun e => (concreteType runtimeType e).map (·.snd)).eraseDups

mutual

-- Completes the values of a bucket.
def completeValues : Completer T U F V → String → List (Entry V) → List (Completed V) × List (Event U F V)
  | .leaf serialize, _, entries => (entries.map (completeLeaf errorPath serialize), [])
  | .nonNull inner, fieldLabel, entries =>
    let (completed, events) := completeValues inner fieldLabel entries
    (List.zipWith (enforceNonNull fieldLabel) entries completed, events)
  | .list iterate item, fieldLabel, entries =>
    let lists := entries.map (listItems errorPath iterate)
    let (completed, events) := completeValues item fieldLabel (lists.flatMap itemsOf)
    let results := finishLists item.isNonNull lists completed
    (results.map (·.fst), events ++ (entries.zip results).flatMap fun (e, result) => catchErrors e.path result.snd)
  | .object runtimeType childPlan, _, entries =>
    (concreteTypes runtimeType entries).foldl (fun results type =>
      let walked := executeObjectPlan (childPlan type) (entries.filterMap (memberOf runtimeType type))
      (writeMembers runtimeType type entries results.1 walked.1, results.2 ++ walked.2))
      (entries.map (objectResult errorPath runtimeType), [])

-- Walks the objects of a bucket.
def executeObjectPlan : ObjectPlan T U F V → List (Parent V) → List (Parent V) × List (Event U F V)
  | ⟨fields, deferred⟩, parents =>
    let (walked, events) := walkFields fields parents
    (walked, mintEvents deferred parents ++ events ++ captureDeferredJobs deferred walked)

def walkFields : List (FieldPlan T U F V) → List (Parent V) → List (Parent V) × List (Event U F V)
  | [],      parents => (parents, [])
  | f :: fs, parents =>
    let (parents, events) := completeField f parents
    let (parents, events') := walkFields fs parents
    (parents, events ++ events')

def completeField : FieldPlan T U F V → List (Parent V) → List (Parent V) × List (Event U F V)
  | ⟨responseName, fieldLabel, column, completer, stream⟩, parents =>
    let live := parents.filter (·.slot.isLive)
    let entries := live.map (FieldPlan.entry ⟨responseName, fieldLabel, column, completer, stream⟩)
    match stream with
    | none =>
      let (completed, events) := completeValues completer fieldLabel entries
      (Batch.refill (·.slot.isLive) (·.write responseName completer.isNonNull) parents completed,
        events ++ (entries.zip completed).flatMap fun (e, result) =>
          catchErrors e.path (caughtError completer.isNonNull result))
    | some (initialCount, label) =>
      let heads := entries.map fun e => (e, completeStreamValue completer fieldLabel initialCount label e)
      (Batch.refill (·.slot.isLive) (·.write responseName completer.isNonNull) parents (heads.map (·.snd.fst)),
        heads.flatMap fun (e, (result, events, sunk)) =>
          events ++ catchErrors e.path (caughtError completer.isNonNull result) ++ sunk)

-- Completes the head of a streamed list, and hands over the list with its tail.
def completeStreamValue : Completer T U F V → String → Nat → Option String → Entry V →
    Completed V × List (Event U F V) × List (Event U F V)
  | .nonNull inner, fieldLabel, initialCount, label, e =>
    completeStreamValue inner fieldLabel initialCount label e
  | .list iterate item, fieldLabel, initialCount, label, e =>
    match e.cell with
    | .error _         => (.bubble (located errorPath (notIterableError fieldLabel) e.path), [], [])
    | .ok none         => (.value .null, [], [])
    | .ok (some value) =>
      match iterate value with
      | .error error => (.bubble (located errorPath error e.path), [], [])
      | .ok cells    =>
        let items := cells.mapIdx fun index cell => (⟨cell, e.path ++ [.index index]⟩ : Entry V)
        let (completed, events) := completeValues item fieldLabel (items.take initialCount)
        let (head, errors) := collectItems item.isNonNull completed [] []
        let events := events ++ catchErrors e.path errors
        match head with
        | .bubble error => (.bubble error, events, [])
        | .value data   => (.value data, events, [.stream ⟨e.path, label⟩ (cells.drop initialCount)])
  | .leaf _, _, _, _, _     => (.value .null, [], [])
  | .object _ _, _, _, _, _ => (.value .null, [], [])

end

end Grafast.Incremental
