import Grafast.Pg.Aggregate
import Grafast.Pg.Select
import Grafast.Pg.SelectAll
import Grafast.Pg.Union

namespace Grafast

open Sql

-- What a bind parameter is bound to: an array of keys, a number, a value, or the list of an IN.
inductive BindValue (V : Type)
  | keys (keys : List (List (Option V)))
  | number (number : Option Int)
  | value (value : Option V)
  | items (values : List (Option V))
  | tuples (rows : List (List (Option V)))

namespace BindValue

variable {V : Type}

def isExpanding : BindValue V → Bool
  | items _  => true
  | tuples _ => true
  | _        => false

-- The binds of the statement that is run. The elements of a list have the name of the list and their numbers.
def bound (key : String) : BindValue V → List (String × BindValue V)
  | items values => values.zipIdx.map fun item => (key ++ "_" ++ toString (item.snd + 1), .value item.fst)
  | tuples rows  => rows.zipIdx.flatMap fun row => row.fst.zipIdx.map fun item =>
      (key ++ "_" ++ toString (row.snd + 1) ++ "_" ++ toString (item.snd + 1), .value item.fst)
  | bound        => [(key, bound)]

end BindValue

-- A bind parameter of a predicate: one with a value of its own, or the placeholder of some number.
inductive HostBind (V : Type)
  | literal (key : String) (value : BindValue V) (required : Bool)
  | placeholder (number : Nat)

-- What a host hands over as a predicate, as far as it matters which binds it has.
inductive HostPredicate (V : Type)
  | raw (text : String)
  | element (binds : List (HostBind V))
  | other (typeName : String)

inductive PredicateError
  | rawString (text : String)
  | notElement (typeName : String)
  | reservedBind (key : String)
  | unboundBind (key : String)

namespace HostBind

variable {V : Type}

def key : HostBind V → String
  | literal key _ _   => key
  | placeholder number => "grafast_ph_" ++ toString number

def required : HostBind V → Bool
  | literal _ _ required => required
  | placeholder _        => false

end HostBind

def reservedBindNames : List String :=
  ["keys", "first", "offset"]

def checkBind {V : Type} (bind : HostBind V) : Except PredicateError Unit :=
  if reservedBindNames.contains bind.key then
    .error (.reservedBind bind.key)
  else if bind.required then
    .error (.unboundBind bind.key)
  else
    .ok ()

def checkPredicate {V : Type} : HostPredicate V → Except PredicateError (List (HostBind V))
  | .raw text       => .error (.rawString text)
  | .other typeName => .error (.notElement typeName)
  | .element binds  => do
    binds.forM checkBind
    return binds

-- A bind parameter that a builder adds. Its value is baked into the statement, or passed along with it.
structure EngineBind (V : Type) where
  key   : String
  value : BindValue V
  baked : Bool

inductive BindPart (V : Type)
  | engine (bind : EngineBind V)
  | host (bind : HostBind V)

-- The bind parameters of a statement, in the order in which it is compiled.
abbrev Statement (V : Type) := List (BindPart V)

namespace BindPart

variable {V : Type} (resolved : Nat → BindValue V)

def key : BindPart V → String
  | engine bind => bind.key
  | host bind   => bind.key

-- What is passed along with a statement for a part of it.
def param : BindPart V → Option (BindValue V)
  | engine bind                => if bind.baked then none else some bind.value
  | host (.literal _ _ _)      => none
  | host (.placeholder number) => some (resolved number)

-- What the compiled statement has for a part by itself.
def compiled : BindPart V → Option (BindValue V)
  | engine bind            => if bind.baked then some bind.value else none
  | host (.literal _ v _)  => some v
  | host (.placeholder _)  => none

-- The value that the author of a part intends.
def intended : BindPart V → BindValue V
  | engine bind                => bind.value
  | host (.literal _ v _)      => v
  | host (.placeholder number) => resolved number

def bound (part : BindPart V) : List (String × BindValue V) :=
  (part.intended resolved).bound part.key

-- The name of a part, and those of its elements.
def names (part : BindPart V) : List String :=
  part.key :: (part.bound resolved).map Prod.fst

end BindPart

namespace Statement

variable {V : Type} (statement : Statement V) (resolved : Nat → BindValue V)

-- Of the binds with one name, the last one counts.
def compiledParam (key : String) : Option (BindValue V) :=
  (statement.reverse.find? (·.key = key)).bind BindPart.compiled

-- The value of a bind. What is passed along overrides what is compiled.
def valueOf (key : String) : Option (BindValue V) :=
  match (statement.filter (·.key = key)).findSome? (BindPart.param resolved) with
  | some value => some value
  | none       => statement.compiledParam key

def elementsOf (key : String) : List (String × BindValue V) :=
  match statement.valueOf resolved key with
  | none       => []
  | some value => if value.isExpanding then value.bound key else []

-- The elements of the lists of a statement, in its order.
def elements : List (String × BindValue V) :=
  statement.flatMap fun part => statement.elementsOf resolved part.key

-- What a bind is bound to when the statement is run. An element takes the place of a bind of its name.
def executed (name : String) : Option (BindValue V) :=
  match (statement.elements resolved).reverse.lookup name with
  | some value => some value
  | none       => (statement.valueOf resolved name).filter fun value => !value.isExpanding

end Statement

-- A predicate of a host, which reads its binds by their names.
structure RowPredicate (C V : Type) where
  binds : List (HostBind V)
  holds : (String → Option (BindValue V)) → (C → Option V) → Truth
  holds_congr {resolved : Nat → BindValue V} {f g : String → Option (BindValue V)} :
    (∀ bind ∈ binds, ∀ b ∈ (BindPart.host bind).bound resolved, f b.fst = g b.fst) → holds f = holds g

namespace RowPredicate

variable {C V : Type} (predicate : RowPredicate C V) (resolved : Nat → BindValue V)

-- The predicate with the values that its author intends.
def intended : (C → Option V) → Truth :=
  predicate.holds fun name => (predicate.binds.flatMap fun bind => (BindPart.host bind).bound resolved).lookup name

-- The predicate as a part of a statement.
def within (statement : Statement V) : (C → Option V) → Truth :=
  predicate.holds (statement.executed resolved)

end RowPredicate

variable {C A V : Type}

def hostParts (predicates : List (List (HostBind V))) : List (BindPart V) :=
  predicates.flatten.map BindPart.host

def keysBind (uniqueKeys : List (List (Option V))) (composite : Bool) : EngineBind V where
  key   := "keys"
  value := if composite then .tuples uniqueKeys else .keys uniqueKeys
  baked := composite

-- The values that a seek compares with. A last value that is NULL is compared with nothing.
def keysetBinds (order : List (OrderTerm C)) (values : List (Option V)) : List (EngineBind V) :=
  let bounds := (order.zip values).map (·.snd)
  (bounds.zipIdx.filter fun bound => bound.fst.isSome || bound.snd + 1 < bounds.length).map fun bound =>
    ⟨"__ks_" ++ toString bound.snd, .value bound.fst, true⟩

namespace PgPaging

variable (p : PgPaging)

def cursorBinds (order : List (OrderTerm C)) (afterValues beforeValues : Option (List (Option V))) :
    List (EngineBind V) :=
  ((if p.reverse then beforeValues else afterValues).map (keysetBinds order)).getD []

def pageLimitBinds (sourceValues : SourceValues) : List (EngineBind V) :=
  match p.pageLimit sourceValues with
  | none       => []
  | some limit => [⟨"page_limit", .number (some limit), false⟩]

end PgPaging

namespace PgSelectStep

variable (step : PgSelectStep C A V)

def sliceBinds (sourceValues : SourceValues) : List (EngineBind V) :=
  if step.isLimited then
    ⟨"offset", .number (resolvePlaceholder step.offset sourceValues.numbers), false⟩ ::
      match resolvePlaceholder step.first sourceValues.numbers with
      | none       => []
      | some first => [⟨"first", .number (some first), false⟩]
  else
    []

-- A LATERAL that is folded into a statement adds none: only children without predicates are folded.
def buildQuery (predicates : List (List (HostBind V))) (uniqueKeys : List (List (Option V)))
    (sourceValues : SourceValues) : Statement V :=
  .engine (keysBind uniqueKeys step.isComposite) :: hostParts predicates ++
    (step.sliceBinds sourceValues).map .engine

end PgSelectStep

namespace PgSelectAllStep

variable (step : PgSelectAllStep C A V)

def rootBinds (sourceValues : SourceValues) : List (EngineBind V) :=
  (match step.offset with
    | .placeholder source => [⟨"root_offset", .number (sourceValues.numbers source), false⟩]
    | .literal _          => []) ++
  match step.first with
  | .placeholder source => [⟨"root_first", .number (sourceValues.numbers source), false⟩]
  | .literal _          => []

def buildQuery (predicates : List (List (HostBind V))) (sourceValues : SourceValues) : Statement V :=
  hostParts predicates ++ (step.rootBinds sourceValues).map .engine

-- The step with predicates of a host as its statement evaluates them.
def withPredicates (predicates : List (RowPredicate C V)) (sourceValues : SourceValues)
    (resolved : Nat → BindValue V) : PgSelectAllStep C A V :=
  { step with
    wherePredicates := predicates.map
      (·.within resolved (step.buildQuery (predicates.map (·.binds)) sourceValues)) }

end PgSelectAllStep

namespace PgConnectionStep

variable (step : PgConnectionStep C A V)

def buildPageQuery (predicates : List (List (HostBind V))) (uniqueKeys : List (List (Option V)))
    (sourceValues : SourceValues) (afterValues beforeValues : Option (List (Option V))) : Statement V :=
  .engine (keysBind uniqueKeys step.isComposite) :: hostParts predicates ++
    (step.cursorBinds step.orderBy afterValues beforeValues ++ step.pageLimitBinds sourceValues).map .engine

def buildCountQuery (predicates : List (List (HostBind V))) (uniqueKeys : List (List (Option V))) :
    Statement V :=
  .engine (keysBind uniqueKeys step.isComposite) :: hostParts predicates

end PgConnectionStep

def PgAggregatingStep.buildAggregateQuery (step : PgAggregatingStep C A V)
    (predicates : List (List (HostBind V))) (uniqueKeys : List (List (Option V))) : Statement V :=
  .engine (keysBind uniqueKeys step.isComposite) :: hostParts predicates

namespace PgUnionAllStep

variable (step : PgUnionAllStep C A V)

def matchBinds (uniqueKeys : List (List (Option V))) : List (EngineBind V) :=
  if step.isPerParent then [keysBind uniqueKeys (1 < step.matchColumns.length)] else []

-- The leg of one member, with the predicates of that member.
def branchSelect (predicates : List (List (HostBind V))) (uniqueKeys : List (List (Option V)))
    (afterValues beforeValues : Option (List (Option V))) : Statement V :=
  (step.matchBinds uniqueKeys ++ step.cursorBinds step.orderBy afterValues beforeValues).map .engine ++
    hostParts predicates

def buildPageQuery (predicates : List (List (List (HostBind V)))) (uniqueKeys : List (List (Option V)))
    (sourceValues : SourceValues) (afterValues beforeValues : Option (List (Option V))) : Statement V :=
  predicates.flatMap (step.branchSelect · uniqueKeys afterValues beforeValues) ++
    (step.pageLimitBinds sourceValues).map .engine

def countBranchSelect (predicates : List (List (HostBind V))) (uniqueKeys : List (List (Option V))) :
    Statement V :=
  (step.matchBinds uniqueKeys).map .engine ++ hostParts predicates

def buildCountQuery (predicates : List (List (List (HostBind V)))) (uniqueKeys : List (List (Option V))) :
    Statement V :=
  predicates.flatMap (step.countBranchSelect · uniqueKeys)

end PgUnionAllStep

-- The statements that take the predicates of a host. A union has those of each of its members.
inductive PgQuery (C A V : Type)
  | select (step : PgSelectStep C A V) (predicates : List (List (HostBind V)))
      (uniqueKeys : List (List (Option V)))
  | selectAll (step : PgSelectAllStep C A V) (predicates : List (List (HostBind V)))
  | page (step : PgConnectionStep C A V) (predicates : List (List (HostBind V)))
      (uniqueKeys : List (List (Option V))) (afterValues beforeValues : Option (List (Option V)))
  | count (step : PgConnectionStep C A V) (predicates : List (List (HostBind V)))
      (uniqueKeys : List (List (Option V)))
  | aggregate (step : PgAggregatingStep C A V) (predicates : List (List (HostBind V)))
      (uniqueKeys : List (List (Option V)))
  | unionPage (step : PgUnionAllStep C A V) (predicates : List (List (List (HostBind V))))
      (uniqueKeys : List (List (Option V))) (afterValues beforeValues : Option (List (Option V)))
  | unionCount (step : PgUnionAllStep C A V) (predicates : List (List (List (HostBind V))))
      (uniqueKeys : List (List (Option V)))

namespace PgQuery

def predicates : PgQuery C A V → List (List (HostBind V))
  | select _ predicates _           => predicates
  | selectAll _ predicates          => predicates
  | page _ predicates _ _ _         => predicates
  | count _ predicates _            => predicates
  | aggregate _ predicates _        => predicates
  | unionPage _ predicates _ _ _    => predicates.flatten
  | unionCount _ predicates _       => predicates.flatten

def statement (sourceValues : SourceValues) : PgQuery C A V → Statement V
  | select step predicates uniqueKeys    => step.buildQuery predicates uniqueKeys sourceValues
  | selectAll step predicates            => step.buildQuery predicates sourceValues
  | page step predicates uniqueKeys afterValues beforeValues =>
    step.buildPageQuery predicates uniqueKeys sourceValues afterValues beforeValues
  | count step predicates uniqueKeys     => step.buildCountQuery predicates uniqueKeys
  | aggregate step predicates uniqueKeys => step.buildAggregateQuery predicates uniqueKeys
  | unionPage step predicates uniqueKeys afterValues beforeValues =>
    step.buildPageQuery predicates uniqueKeys sourceValues afterValues beforeValues
  | unionCount step predicates uniqueKeys => step.buildCountQuery predicates uniqueKeys

end PgQuery

end Grafast
