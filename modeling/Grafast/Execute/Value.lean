import Grafast.Planner.Tree

namespace Grafast

inductive PathKey
  | index (index : Nat)
  | name (responseName : String)
  deriving DecidableEq

abbrev Path := List PathKey

-- What the executor asks of values and of the types of a schema. Exceptions are values as well, and
-- an exception that is raised is the error of a result. A resolve info is given by its path.
class Host (V : Type) (T : outParam Type) where
  isException            : V → Bool
  isNone                 : V → Bool
  isUndefined            : V → Bool
  iterate                : V → Option (Except V (List V))
  serialize              : T → V → Except V V
  isTypeOf               : T → Option (V → Path → Except V Bool)
  resolveType            : T → V → Path → Except V V
  ensureValidRuntimeType : V → T → V → Path → Except V T
  -- `GraphQLError`, `TypeError` and `ValueError`
  isLeafError            : V → Bool
  -- the path of an exception that has already been located
  errorPath              : V → Option Path
  typeName               : T → String
  inspect                : V → String

inductive FieldError (V : Type)
  | raised (error : V)
  | typeError (message : String)
  | graphQLError (message : String)

structure LocatedError (V : Type) where
  error : FieldError V
  path  : Path

inductive Data (V : Type)
  | null
  | leaf (serialized : V)
  | list (items : List (Data V))
  | object (fields : List (String × Data V))

-- A completed value: its data, or the non-null violation that it passes on.
inductive Completed (V : Type)
  | value (data : Data V)
  | bubble (error : LocatedError V)

-- A value that is to be completed, with its path and the path of the field it belongs to.
structure Entry (V : Type) where
  value : V
  path  : Path
  info  : Path

-- A parent of a bucket: its output so far, or the violation that has nulled it.
inductive Slot (V : Type)
  | live (output : List (String × Data V))
  | dead (error : LocatedError V)

mutual

-- The remaining items of a streamed list. An item without data ends its stream.
inductive StreamRecord (V : Type)
  | stream (path : Path) (label : Option String) (items : List (StreamItem V))

inductive StreamItem (V : Type)
  | item (data : Option (Data V)) (errors : List (LocatedError V)) (children : List (StreamRecord V))
  | raised

end

-- What completion adds to: the errors of the response and the streams.
structure Context (V : Type) where
  errors  : List (LocatedError V)
  streams : List (StreamRecord V)

-- A computation over a context; without a result it raises an exception that nothing catches.
abbrev Exec (V α : Type) := StateT (Context V) Option α

variable {T V : Type} [Host V T]

open Host

-- An exception that has already been located stays where it is.
def located (error : FieldError V) (path : Path) : LocatedError V :=
  match error with
  | .raised e => ⟨.raised e, (errorPath e).getD path⟩
  | error     => ⟨error, path⟩

def Completed.bubbleAt (error : FieldError V) (path : Path) : Completed V :=
  .bubble (located error path)

def isNull (value : V) : Bool :=
  isNone value || isUndefined value

def nonNullError (fieldLabel : String) : FieldError V :=
  .typeError ("Cannot return null for non-nullable field " ++ fieldLabel ++ ".")

def notIterableError (fieldLabel : String) : FieldError V :=
  .graphQLError ("Expected Iterable, but did not find one for field '" ++ fieldLabel ++ "'.")

def nullSerializedError (leafType : T) (value serialized : V) : FieldError V :=
  .typeError ("Expected `" ++ typeName V leafType ++ ".serialize(" ++ inspect value ++
    ")` to return non-nullable value, returned: " ++ inspect serialized)

def invalidReturnTypeError (objectType : T) (value : V) : FieldError V :=
  .graphQLError ("Expected value of type '" ++ typeName V objectType ++ "' but got: " ++
    inspect value ++ ".")

def initialCountError : FieldError V :=
  .graphQLError "initialCount must be a positive integer"

end Grafast
