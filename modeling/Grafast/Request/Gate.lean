import Grafast.Request.Constraint

namespace Grafast

open PyObject

variable {V Y : Type} [PyObject V Y]

-- A value for which it is asked whether it is a key. A string equals just itself.
structure KeyLike where
  str    : String
  equals : String → Bool

def KeyLike.ofString (name : String) : KeyLike where
  str    := name
  equals := (name == ·)

-- The reads of the context and of the variables at plan time that are recorded.
inductive GateRead (V : Type)
  | eval (key : String)
  | evalIs (key : String) (expected : V)
  | evalHas (key : String)
  | getItem (name : String)
  | get (name : String)
  | contains (name : KeyLike)
  | enumerate

namespace ContextGate

-- A missing key raises.
def read (context : V) (key : String) : Option V :=
  if (keys context).isSome then getItem context key else getAttr context key

def has (context : V) (key : String) : Bool :=
  match keys context with
  | some names => names.contains key
  | none       => (getAttr context key).isSome

end ContextGate

variable [DecidableEq Y]

-- The constraints that a read records. A read that raises records none.
def GateRead.record (facts : RequestFacts V) : GateRead V → List (Constraint V)
  | .eval key            =>
    match ContextGate.read facts.contextValue key with
    | some v => [.value .context [key] (some v)]
    | none   => []
  | .evalIs key expected =>
    match ContextGate.read facts.contextValue key with
    | some v =>
      [.exists .context [key] true, .equality .context [key] expected (valuesEqual (some v) (some expected))]
    | none   => []
  | .evalHas key         => [.exists .context [key] (ContextGate.has facts.contextValue key)]
  | .getItem name        =>
    match facts.variableValues.lookup name with
    | some v => [.value .variables [name] (some v)]
    | none   => []
  | .get name            => [.value .variables [name] (facts.variableValues.lookup name)]
  | .contains name       =>
    [.exists .variables [name.str] (facts.variableValues.any fun item => name.equals item.fst)]
  | .enumerate           => [.keys .variables [] (facts.variableValues.map Prod.fst).mergeSort]

end Grafast
