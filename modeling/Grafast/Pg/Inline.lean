import Grafast.Naming.Numbered
import Grafast.Pg.Keyed

namespace Grafast

open Sql

variable {V : Type}

-- The types whose values are the same after a way through JSON.
def isJsonStableNativeType : SqlType → Bool
  | .integer | .boolean | .string | .json => true
  | .other _                              => false

def PgCodec.isJsonStable (codec : PgCodec V) : Bool :=
  codec.jsonStable.getD codec.sqlType.isNone

-- A resource with the names of its stored columns and of its computed attributes.
structure DeclaredResource (V : Type) extends PgResource String String V where
  columns  : List String
  computed : List String

namespace DeclaredResource

variable (resource : DeclaredResource V)

def attributeInlineJsonSafe (name : String ⊕ String) : Bool :=
  match (resource.attributes name).codec with
  | some codec => codec.isJsonStable
  | none       =>
    match (resource.attributes name).sqlType <|> resource.columnTypes name with
    | some type => isJsonStableNativeType type
    | none      => false

def isInlineJsonSafe : Bool :=
  resource.columns.all (resource.attributeInlineJsonSafe <| .inl ·) &&
    resource.computed.all (resource.attributeInlineJsonSafe <| .inr ·)

end DeclaredResource

namespace Inline

inductive Kind
  | hasOne
  | hasMany
  deriving DecidableEq

inductive Error
  | computedOrder (column : String)
  | columnTuples (localColumns remoteColumns : List String)

-- The first term that names a computed attribute is the error.
def assertOrderTermsStored (resource : DeclaredResource V) (terms : List (OrderTerm String)) : Except Error Unit :=
  match terms.find? (resource.computed.contains ·.column) with
  | some term => .error (.computedOrder term.column)
  | none      => .ok ()

-- A relation that a parent has in its own statement.
structure InlineSpec (V : Type) where
  resource        : DeclaredResource V
  kind            : Kind
  nestedAlias     : String
  localColumns    : List String
  remoteColumns   : List String
  orderBy         : List (OrderTerm String)
  wherePredicates : List ((String → Option V) → Truth)
  computed        : List String

def InlineSpec.postInit (spec : InlineSpec V) : Except Error (InlineSpec V) :=
  if spec.localColumns.isEmpty || spec.localColumns.length != spec.remoteColumns.length then
    .error (.columnTuples spec.localColumns spec.remoteColumns)
  else
    .ok spec

-- A select of the rows that match a key, with what its constructor has checked.
structure RelationSelect (V : Type) where
  resource         : DeclaredResource V
  single           : Bool
  matchColumns     : List String
  orderBy          : List (OrderTerm String)
  first            : PageValue Int
  offset           : PageValue Int
  dedupable        : Bool
  wherePredicates  : List ((String → Option V) → Truth)
  matchColumns_ne  : matchColumns ≠ []
  orderBy_stored   : ∀ term ∈ orderBy, term.column ∉ resource.computed

def RelationSelect.isLimited (select : RelationSelect V) : Bool :=
  select.first ≠ .literal none || select.offset ≠ .literal (some 0)

def RelationSelect.isComposite (select : RelationSelect V) : Bool :=
  1 < select.matchColumns.length

-- What the classes of steps are told apart by.
inductive Content (V : Type)
  | access (path : List String) (hasFallback : Bool)
  | connection
  | selectAll
  | select (select : RelationSelect V)
  | other

structure PlanStep (V : Type) where
  id           : Nat
  dependencies : List Nat
  content      : Content V

-- What the inlining sees of a plan: its toggle, and the steps that depend on a step.
structure PlanView (V : Type) where
  inlineRelations : Bool
  dependentsOf    : Nat → List (PlanStep V)

-- A select that takes relations into its statement: a keyed one or a root collection.
structure ParentSelect (V : Type) where
  id          : Nat
  resource    : DeclaredResource V
  dedupable   : Bool
  inlineSpecs : List (InlineSpec V)

-- The names in the rows of a select, in their order: the stored columns, the computed attributes, and one name
-- for each relation that is inlined.
def ParentSelect.projectedNames (parent : ParentSelect V) : List String :=
  parent.resource.columns ++ parent.resource.computed ++ parent.inlineSpecs.map (·.nestedAlias)

def nestedAliasFor (childResource : DeclaredResource V) (remoteColumns : List String) : String :=
  "__inline_" ++ childResource.table ++ "_" ++ "_".intercalate remoteColumns

-- The column that an access reads off its parent, if it is no more than that.
def accessColumnPath (step : PlanStep V) : Option (List String) :=
  match step.content with
  | .access path hasFallback => if path.length != 1 || hasFallback then none else some path
  | _                        => none

inductive SkipReason
  | otherDependency
  | composite
  | crossSchema
  | selfRelation
  | optOut
  | mutation
  | limited
  | customizer
  | filtered
  | unsafeColumn
  deriving DecidableEq

-- Why a relation select stays out of the statement of the parent, if it does.
def skipReason (parent : ParentSelect V) (access child : PlanStep V) (select : RelationSelect V) :
    Option SkipReason :=
  if child.dependencies.head? ≠ some access.id then some .otherDependency
  else if select.isComposite then some .composite
  else if select.resource.schema ≠ parent.resource.schema then some .crossSchema
  else if select.resource.table = parent.resource.table then some .selfRelation
  else if select.resource.optOutInline then some .optOut
  else if !select.dedupable then some .mutation
  else if select.isLimited then some .limited
  else if select.resource.hasCustomizer then some .customizer
  else if !select.wherePredicates.isEmpty then some .filtered
  else if !select.resource.isInlineJsonSafe then some .unsafeColumn
  else none

-- Connections, root collections and steps of other classes are no candidates.
def foldedSelect (parent : ParentSelect V) (access child : PlanStep V) : Option (RelationSelect V) :=
  match child.content with
  | .select select => if (skipReason parent access child select).isNone then some select else none
  | _              => none

def numberedAlias (ownAlias : String) (number : Nat) : String :=
  ownAlias ++ "_" ++ toString number

-- A relation as it is inlined. It has no predicates, as a select with some is not folded.
def RelationSelect.inlineSpec (select : RelationSelect V) (localPath : List String) (nestedAlias : String) :
    InlineSpec V where
  resource        := select.resource
  kind            := if select.single then .hasOne else .hasMany
  nestedAlias     := nestedAlias
  localColumns    := localPath
  remoteColumns   := select.matchColumns
  orderBy         := select.orderBy
  wherePredicates := []
  computed        := select.resource.computed

def inlineCandidateFor (parent : ParentSelect V) (child access : PlanStep V) (localPath : List String)
    (usedAliases : List String) : Except Error (Option (InlineSpec V)) :=
  match foldedSelect parent access child with
  | none        => .ok none
  | some select => do
    assertOrderTermsStored select.resource select.orderBy
    let ownAlias := nestedAliasFor select.resource select.matchColumns
    let spec ← (select.inlineSpec localPath (Naming.pick numberedAlias usedAliases ownAlias)).postInit
    return some spec

-- A step that depends on an access to a column of the parent.
structure Consumer (V : Type) where
  access    : PlanStep V
  localPath : List String
  child     : PlanStep V

-- The consumers of the columns of a parent, in the order of the two loops over dependents.
def consumers (plan : PlanView V) (parent : ParentSelect V) : List (Consumer V) :=
  (plan.dependentsOf parent.id).flatMap fun access =>
    (accessColumnPath access).elim [] fun localPath =>
      (plan.dependentsOf access.id).map fun child => ⟨access, localPath, child⟩

-- The candidates among consumers, where some aliases are used already.
def candidatesAmong (parent : ParentSelect V) (usedAliases : List String) :
    List (Consumer V) → Except Error (List (PlanStep V × InlineSpec V))
  | []                    => .ok []
  | consumer :: consumers => do
    match ← inlineCandidateFor parent consumer.child consumer.access consumer.localPath usedAliases with
    | none      => candidatesAmong parent usedAliases consumers
    | some spec =>
      let candidates ← candidatesAmong parent (Naming.addUsed usedAliases spec.nestedAlias) consumers
      return (consumer.child, spec) :: candidates

def inlines (plan : PlanView V) (parent : ParentSelect V) : Bool :=
  plan.inlineRelations && !parent.resource.optOutInline && parent.dedupable

def findInlineCandidates (plan : PlanView V) (parent : ParentSelect V) :
    Except Error (List (PlanStep V × InlineSpec V)) :=
  if inlines plan parent then candidatesAmong parent [] (consumers plan parent) else .ok []

-- The step that takes the place of a folded child and reads its rows off the rows of the parent.
structure NestedExtract (V : Type) where
  child       : Nat
  nestedAlias : String
  resource    : DeclaredResource V
  kind        : Kind

def ParentSelect.cloneWithInlineSpecs (parent : ParentSelect V) (id : Nat) (inlineSpecs : List (InlineSpec V)) :
    ParentSelect V :=
  { parent with id := id, inlineSpecs := inlineSpecs }

-- The parent that replaces this one under a new id, and the steps that replace the children.
def foldInlineCandidates (parent : ParentSelect V) (id : Nat) (candidates : List (PlanStep V × InlineSpec V)) :
    ParentSelect V × List (NestedExtract V) :=
  (parent.cloneWithInlineSpecs id (candidates.map (·.snd)), candidates.map fun candidate =>
    ⟨candidate.fst.id, candidate.snd.nestedAlias, candidate.snd.resource, candidate.snd.kind⟩)

-- The names that the folded children of a parent have from their tables and columns alone.
def ownAliases (plan : PlanView V) (parent : ParentSelect V) : List String :=
  if inlines plan parent then
    (consumers plan parent).filterMap fun consumer =>
      (foldedSelect parent consumer.access consumer.child).map fun select =>
        nestedAliasFor select.resource select.matchColumns
  else
    []

end Inline

end Grafast
