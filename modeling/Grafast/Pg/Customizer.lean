import Grafast.Pg.Transform

namespace Grafast

-- A placeholder of a predicate. Its fresh name stands for the bind itself.
structure PgPlaceholder (V T : Type) where
  source    : String
  type      : T
  transform : Option (PyCallable V)

-- What a Core predicate compiles to, apart in SQL text and bind parameters.
inductive PredicatePart (V T : Type)
  | sql (text : String)
  | literal (name : String) (value : V) (type : T)
  | placeholder (bind : PgPlaceholder V T)

abbrev Predicate (V T : Type) := List (PredicatePart V T)

-- How the Postgres dialect writes a literal into a statement. Not all can be written.
class SqlLiterals (V T : Type) extends PyRepr V where
  inline : V → T → Option String

-- The token that stands for a placeholder in a key.
structure SentinelToken where
  source    : String
  transform : Option String
  deriving DecidableEq

-- The key of a predicate: its text, with tokens for the placeholders, and the sources of these. The text
-- of a predicate with a literal that cannot be written names the literals, and lists what they print as.
inductive PredicateKey
  | rendered (text : List (Char ⊕ SentinelToken)) (sources : List String)
  | structural (text : List (Char ⊕ SentinelToken)) (params : List (String × String)) (sources : List String)
  deriving DecidableEq

-- What a statement has of a predicate when it is executed: its text, and what is bound to it. An exception
-- on the way to a value fails the statement.
abbrev BoundPredicate (V T : Type) := List (Char ⊕ Except V V × T)

-- A request: its context, the entries of the context, and the variables by their source.
structure PgRequest (V C : Type) where
  context      : C
  entry        : String → Except V V
  sourceValues : String → V

section

variable {V T C : Type}

def chars {α : Type} (text : String) : List (Char ⊕ α) :=
  text.toList.map .inl

namespace PgPlaceholder

variable (bind : PgPlaceholder V T)

def token [PyRepr V] : SentinelToken :=
  ⟨bind.source, bind.transform.map transformKey⟩

def resolve (request : PgRequest V C) : Except V V :=
  if bind.source.startsWith "ctx:" then
    request.entry (bind.source.drop 4).toString
  else
    .ok (request.sourceValues bind.source)

def transformed (run : Interpreter V) (value : V) : Except V V :=
  match bind.transform with
  | none           => .ok value
  | some transform => transform.call run ⟨[value], []⟩

-- What `where_params` has for the placeholder.
def value (run : Interpreter V) (request : PgRequest V C) : Except V V :=
  bind.resolve request >>= bind.transformed run

end PgPlaceholder

namespace PredicatePart

def placeholder? : PredicatePart V T → Option (PgPlaceholder V T)
  | placeholder bind => some bind
  | _                => none

def isLiteral : PredicatePart V T → Bool
  | literal _ _ _ => true
  | _             => false

variable [SqlLiterals V T]

open SqlLiterals

-- Whether the part can be written into the text.
def renders : PredicatePart V T → Bool
  | literal _ value type => (inline value type).isSome
  | _                    => true

def sentinelled : PredicatePart V T → List (Char ⊕ SentinelToken)
  | sql text             => chars text
  | literal _ value type => chars ((inline value type).getD "")
  | placeholder bind     => [.inr bind.token]

def structural : PredicatePart V T → List (Char ⊕ SentinelToken)
  | sql text         => chars text
  | literal name _ _ => chars ("%(" ++ name ++ ")s")
  | placeholder bind => [.inr bind.token]

def param? : PredicatePart V T → Option (String × String)
  | literal name value _ => some (name, PyRepr.repr value)
  | _                    => none

-- A literal that can be written filters like its text.
def bound (run : Interpreter V) (request : PgRequest V C) : PredicatePart V T → BoundPredicate V T
  | sql text             => chars text
  | literal _ value type =>
    match inline value type with
    | some text => chars text
    | none      => [.inr (.ok value, type)]
  | placeholder bind     => [.inr (bind.value run request, bind.type)]

end PredicatePart

namespace Predicate

variable [SqlLiterals V T] (predicate : Predicate V T)

def placeholders : List (PgPlaceholder V T) :=
  predicate.filterMap PredicatePart.placeholder?

def sources : List String :=
  (predicate.placeholders.map (·.source)).mergeSort

def bakesLiteral : Bool :=
  predicate.any PredicatePart.isLiteral

def key : PredicateKey :=
  if predicate.all PredicatePart.renders then
    .rendered (predicate.flatMap PredicatePart.sentinelled) predicate.sources
  else
    .structural (predicate.flatMap PredicatePart.structural)
      ((predicate.filterMap PredicatePart.param?).mergeSort (·.fst ≤ ·.fst)) predicate.sources

def bound (run : Interpreter V) (request : PgRequest V C) : BoundPredicate V T :=
  predicate.flatMap (PredicatePart.bound run request)

end Predicate

-- What a customizer of two arguments builds its placeholders with.
def contextPlaceholder (key : String) (type : T) (transform : Option (PyCallable V)) : PredicatePart V T :=
  .placeholder ⟨"ctx:" ++ key, type, transform⟩

-- A `select_customizer` of a resource, by the number of its arguments.
inductive SelectCustomizer (V T C : Type)
  | one (customizer : C → List (Predicate V T))
  | two (customizer : C → (String → T → Option (PyCallable V) → PredicatePart V T) → List (Predicate V T))

def resolveCustomizerPredicates (customizer : SelectCustomizer V T C) (context : C) :
    List (Predicate V T) :=
  match customizer with
  | .one customizer => customizer context
  | .two customizer => customizer context contextPlaceholder

structure CustomizerConstraint (V T C : Type) where
  customizer : SelectCustomizer V T C
  keys       : List PredicateKey

-- The customization of a step. The predicates of the customizer come first.
structure PgCustomizable (V T C : Type) where
  selectCustomizer         : SelectCustomizer V T C
  wherePredicates          : List (Predicate V T)
  customizerBakesLiteral   : Bool
  customizerPredicateCount : Nat

-- The statements that a step can have.
inductive CustomizedStatement
  | rows
  | count
  | aggregates

variable [SqlLiterals V T]

def CustomizerConstraint.Matches (constraint : CustomizerConstraint V T C) (context : C) : Prop :=
  (resolveCustomizerPredicates constraint.customizer context).map Predicate.key = constraint.keys

namespace PgCustomizable

def seedResourceCustomization (customizer : SelectCustomizer V T C) (context : C) : PgCustomizable V T C :=
  let predicates := resolveCustomizerPredicates customizer context
  ⟨customizer, predicates, predicates.any Predicate.bakesLiteral, predicates.length⟩

variable (step : PgCustomizable V T C)

def addWhere (predicate : Predicate V T) : PgCustomizable V T C :=
  { step with wherePredicates := step.wherePredicates ++ [predicate] }

def customizerKeys : List PredicateKey :=
  (step.wherePredicates.take step.customizerPredicateCount).map Predicate.key

def CustomizerStructureMatches (context : C) : Prop :=
  (resolveCustomizerPredicates step.selectCustomizer context).map Predicate.key = step.customizerKeys

instance {context : C} : Decidable (step.CustomizerStructureMatches context) :=
  inferInstanceAs (Decidable (_ = _))

def customizerConstraint : CustomizerConstraint V T C :=
  ⟨step.selectCustomizer, step.customizerKeys⟩

-- The predicates that a statement of the step adds. They are the same for all its statements.
def conditions (run : Interpreter V) (request : PgRequest V C) :
    CustomizedStatement → List (BoundPredicate V T)
  | .rows | .count | .aggregates => step.wherePredicates.map (·.bound run request)

end PgCustomizable

end

end Grafast
