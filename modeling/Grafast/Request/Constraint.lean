import Mathlib.Data.List.Sort
import Mathlib.Data.String.Basic

namespace Grafast

-- What constraints use of Python objects. A mapping has keys, and may have items besides those of its keys
-- where it makes up what is missing. Other objects have attributes, and so has `None`.
class PyObject (V : Type) (Y : outParam Type) where
  typeOf          : V → Y
  eq              : V → V → Bool
  pyNone          : V
  isNone          : V → Bool
  keys            : V → Option (List String)
  getItem         : V → String → Option V
  getAttr         : V → String → Option V
  ofItems         : List (String × V) → V
  keys_ofItems    : ∀ items, keys (ofItems items) = some (items.map Prod.fst)
  getItem_ofItems : ∀ items key, getItem (ofItems items) key = items.lookup key
  getItem_of_key  : ∀ v names key, keys v = some names → key ∈ names → (getItem v key).isSome = true

open PyObject

inductive Scope
  | variables
  | context
  deriving DecidableEq

-- The inputs of a request that constraints are validated against.
structure RequestFacts (V : Type) where
  variableValues : List (String × V)
  contextValue   : V

variable {V Y : Type} [PyObject V Y]

def RequestFacts.scopeValue (facts : RequestFacts V) : Scope → V
  | .variables => ofItems facts.variableValues
  | .context   => facts.contextValue

-- Walks a path through mappings and attributes. There is no result where it ends early, as if it ended
-- in the value `ABSENT`.
def valueAt (value : V) : List String → Option V
  | []          => some value
  | key :: path =>
    match keys value with
    | some names => if names.contains key then (getItem value key).bind (valueAt · path) else none
    | none       => if isNone value then none else (getAttr value key).bind (valueAt · path)

variable [DecidableEq Y]

-- Equality of two values of the same type, where `ABSENT` only equals itself.
def valuesEqual : Option V → Option V → Bool
  | none, none     => true
  | some a, some b => typeOf a = typeOf b && eq a b
  | _, _           => false

inductive Constraint (V : Type)
  | value (scope : Scope) (path : List String) (observed : Option V)
  | equality (scope : Scope) (path : List String) (expected : V) (passed : Bool)
  | exists (scope : Scope) (path : List String) (present : Bool)
  | keys (scope : Scope) (path : List String) (names : List String)

def Constraint.holds (facts : RequestFacts V) : Constraint V → Bool
  | .value scope path observed          => valuesEqual (valueAt (facts.scopeValue scope) path) observed
  | .equality scope path expected passed =>
    valuesEqual (valueAt (facts.scopeValue scope) path) (some expected) == passed
  | .exists scope path present          => (valueAt (facts.scopeValue scope) path).isSome == present
  | .keys scope path names              =>
    ((valueAt (facts.scopeValue scope) path).bind PyObject.keys).any fun found => found.mergeSort = names

-- Whether all constraints of a plan still hold for a request.
def constraintsMatch (constraints : List (Constraint V)) (facts : RequestFacts V) : Bool :=
  constraints.all (·.holds facts)

end Grafast
