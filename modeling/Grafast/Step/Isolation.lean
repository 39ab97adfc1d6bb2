import Grafast.Step.Core
import Grafast.Batch.Restrict

namespace Grafast

namespace CoreStep

open PyValue Callables Batch

open Text (Str)

variable {V S F : Type} [PyValue V S]

-- Whether a dependency of a step carries an exception in an entry.
def Poisoned (values : List (List V)) (i : Nat) : Prop :=
  ∃ col ∈ values, ∃ e, col[i]? = some e ∧ isException e = true

-- The steps that pass an exception in an entry on, rather than to take it for a value.
def propagates : CoreStep V S F → Bool
  | access _ _ | lambda _ | node _ | filter _ => true
  | _                                         => false

variable [Callables V F]

-- The items that a predicate is called with: up to the first one for which it raises.
def testedItems (predicate : F) : List V → List V
  | []            => []
  | item :: items =>
    match test predicate item with
    | .ok _    => item :: testedItems predicate items
    | .error _ => [item]

def filterCalls (predicate : F) (entry : V) : List (F × List V) :=
  if isNone entry || isException entry then
    []
  else
    match iterate entry with
    | .ok items => (testedItems predicate items).map fun item => (predicate, [item])
    | .error _  => []

-- The types of the keys of a node step, each at its first key.
def keyTypes (keys : List (Except V (Str × V))) : List Str :=
  (keys.filterMap fun
    | .ok (t, _) => some t
    | .error _   => none).eraseDups

-- No loader is called where the walk over the ids has ended before.
def nodeCalls (loaders : Loaders F) (ids : List V) : List (F × List V) :=
  match nodeKeys loaders ids with
  | .error _ => []
  | .ok keys => (keyTypes keys).filterMap fun typename =>
    (loaders.items.lookup typename).map fun loader => (loader, keysOfType keys typename)

-- The calls of the host's callables that a step makes, with what it passes to them.
def calls (count : Nat) (values : List (List V)) (step : CoreStep V S F) : List (F × List V) :=
  let column := (entries count values).getD []
  match step with
  | root _ | constant _ | access _ _ | list _ | object _ => []
  | lambda fn         => (column.filter (!isException ·)).map fun v => (fn, [v])
  | each mapper       => (explode column).toList.map fun lists => (mapper, lists.flatten)
  | loadOne loadFn    => [(loadFn, (coalesce column).uniqueKeys)]
  | loadMany loadFn   => [(loadFn, (coalesce column).uniqueKeys)]
  | node loaders      => nodeCalls loaders column
  | filter predicate  => column.flatMap (filterCalls predicate)

-- A step carries exceptions in no other entries than those where a dependency does: where entries with
-- exceptions are absent, it computes the same for the others, by the same calls.
structure Isolated (step : CoreStep V S F) (count : Nat) (values : List (List V)) (out : List V) :
    Prop where
  result   : step.execute count values = some out
  poisoned : ∀ i < count, Poisoned values i → ∃ e, out[i]? = some e ∧ isException e = true
  absent   : ∀ keep : Nat → Bool, (∀ i < count, keep i = false → Poisoned values i) →
    step.execute (kept keep count) (values.map (restrict keep)) = some (restrict keep out)
  calls    : ∀ keep : Nat → Bool, (∀ i < count, keep i = false → Poisoned values i) →
    step.calls (kept keep count) (values.map (restrict keep)) = step.calls count values

-- Whether a step finds an answer for each entry of its column that carries no exception: no lookup
-- of a path raises, no id raises anything but a `ValueError`, and no loader returns too few or too many results.
def Answers (values : List (List V)) : CoreStep V S F → Prop
  | access path fallback => ∀ col ∈ values, ∀ v ∈ col, isException v = false →
    (getIn v path fallback).isSome
  | node loaders         => ∀ col ∈ values,
    (∀ v ∈ col, isException v = false → ∀ error, decodeGlobalId v ≠ .raised error) ∧
    ∀ keys, nodeKeys loaders col = .ok keys → ∀ typename key, .ok (typename, key) ∈ keys →
      (loadType loaders keys typename).isSome
  | _                    => True

end CoreStep

-- What is known of exceptions: containers are none, and only an exception is equal to an exception.
structure PyValue.ExceptionLaws (V : Type) {S : Type} [PyValue V S] : Prop where
  ofList : ∀ items : List V, PyValue.isException (PyValue.ofList items) = false
  ofDict : ∀ items : List (String × V), PyValue.isException (PyValue.ofDict items) = false
  keyEq  : ∀ a b : V, PyValue.keyEq a b = true → PyValue.isException b = true →
    PyValue.isException a = true

namespace Plan

variable {V S F : Type} [PyValue V S] [Callables V F]

-- A step of a plan that has its columns, and isolates the exceptions in them.
def Isolates (p : Plan (CoreStep V S F)) (bucket : List V) (r : Ref) : Prop :=
  ∃ step values out, p.kind r = some step ∧
    (p.dependencies r).mapM (p.column bucket) = some values ∧ step.Isolated bucket.length values out

-- A step of a plan that passes exceptions on, and finds its answers.
def PassesOn (p : Plan (CoreStep V S F)) (bucket : List V) (r : Ref) : Prop :=
  ∃ step, p.kind r = some step ∧ step.propagates ∧
    ∀ values, (p.dependencies r).mapM (p.column bucket) = some values → step.Answers values

end Plan

end Grafast
