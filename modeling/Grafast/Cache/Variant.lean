import Grafast.Cache.PlanCache
import Grafast.Request.Constraint

namespace Grafast

-- Which objects equal a bool or a tuple of names, and which ones are identical.
class PyEquality (V : Type) (Y : outParam Type) extends PyObject V Y where
  ofBool     : Bool → V
  identical  : V → V → Bool
  eqNames    : V → List String → Bool
  eq_of_is   : ∀ a b, identical a b = true → a = b

-- A constraint that is stored with a plan: on the inputs of the request, or on what a customizer selects.
inductive Stored (V K : Type)
  | input (constraint : Constraint V)
  | customizer (customizer : K) (arity : Nat) (keys : List String)

-- What constraints are validated against. The keys are those of the predicates that a customizer gives in
-- the context of the database.
structure CacheRequest (V K : Type) where
  facts     : RequestFacts V
  freshKeys : K → Nat → List String

section

variable {V K Y : Type} [DecidableEq Y]

def Stored.holds [PyObject V Y] (request : CacheRequest V K) : Stored V K → Bool
  | input constraint        => constraint.holds request.facts
  | customizer f arity keys => request.freshKeys f arity = keys

def accepts [PyObject V Y] (constraints : List (Stored V K)) (request : CacheRequest V K) : Bool :=
  constraints.all (·.holds request)

end

section

variable {V K Y : Type} [PyEquality V Y] [DecidableEq K]

open PyEquality PyObject

-- Elements of tuples are equal as soon as they are identical.
def elementEq (a b : V) : Bool :=
  identical a b || eq a b

def observedEq : Option V → Option V → Bool
  | none, none     => true
  | some a, some b => elementEq a b
  | _, _           => false

-- Equality of named tuples is that of tuples: it neither sees their classes nor the types of their values.
def Constraint.tupleEq : Constraint V → Constraint V → Bool
  | .value s p a, .value s' p' b             => s = s' && p = p' && observedEq a b
  | .value s p a, .exists s' p' present      => s = s' && p = p' && a.any (elementEq · (ofBool present))
  | .value s p a, .keys s' p' names          => s = s' && p = p' && a.any (eqNames · names)
  | .exists s p present, .value s' p' b      => s = s' && p = p' && b.any (elementEq (ofBool present))
  | .exists s p present, .exists s' p' there => s = s' && p = p' && present == there
  | .keys s p names, .value s' p' b          => s = s' && p = p' && b.any (eqNames · names)
  | .keys s p names, .keys s' p' names'      => s = s' && p = p' && names = names'
  | .equality s p a passed, .equality s' p' b passed' =>
    s = s' && p = p' && elementEq a b && passed == passed'
  | _, _ => false

def Stored.tupleEq : Stored V K → Stored V K → Bool
  | input a, input b                          => a.tupleEq b
  | customizer f n keys, customizer g m keys' => f = g && n = m && keys = keys'
  | _, _                                      => false

def constraintsEq : List (Stored V K) → List (Stored V K) → Bool
  | [], []           => true
  | a :: as, b :: bs => a.tupleEq b && constraintsEq as bs
  | _, _             => false

instance : PyEq (List (Stored V K)) where
  eq := constraintsEq

end

end Grafast
