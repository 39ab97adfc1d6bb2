import Grafast.Planner.Tree
import Grafast.Request.Document

namespace Grafast

structure FieldNode (A F : Type) where
  node         : F
  directives   : List (DirectiveNode A)
  selectionSet : List (SelectionNode A F)

variable {A F V T : Type}

def FieldNode.selection (f : FieldNode A F) : SelectionNode A F :=
  .field f.node f.directives f.selectionSet

-- The selections that are merged with those of a selection set: those of its inline fragments and of the
-- fragments that it spreads, but not those below its fields.
inductive SelectionNode.Reaches (fragments : Fragments A F) :
    List (SelectionNode A F) → SelectionNode A F → Prop
  | here {selections : List (SelectionNode A F)} {s : SelectionNode A F} :
    s ∈ selections → Reaches fragments selections s
  | inlineFragment {selections selectionSet : List (SelectionNode A F)} {s : SelectionNode A F}
    {typeCondition : Option String} {directives : List (DirectiveNode A)} :
    .inlineFragment typeCondition directives selectionSet ∈ selections →
      Reaches fragments selectionSet s → Reaches fragments selections s
  | fragmentSpread {selections : List (SelectionNode A F)} {s : SelectionNode A F} {name : String}
    {directives : List (DirectiveNode A)} {fragment : FragmentDefinitionNode A F} :
    .fragmentSpread name directives ∈ selections → fragments.lookup name = some fragment →
      Reaches fragments fragment.selectionSet s → Reaches fragments selections s

namespace Collection

-- A `@defer` that has been come to in one inside of others. Usages are told apart by identity.
inductive DeferUsage
  | outermost (identity : Nat) (label : Option String)
  | nested (identity : Nat) (label : Option String) (parentDeferUsage : DeferUsage)
  deriving DecidableEq

def DeferUsage.ancestors : DeferUsage → List DeferUsage
  | outermost _ _     => []
  | nested _ _ parent => parent :: parent.ancestors

structure FieldDetails (A F : Type) where
  node       : FieldNode A F
  deferUsage : Option DeferUsage

-- Field details by their response names.
abbrev GroupedFieldSet (A F : Type) := List (String × List (FieldDetails A F))

structure CollectedFields (A F : Type) where
  groupedFieldSet : GroupedFieldSet A F
  newDeferUsages  : List DeferUsage

-- The usages that govern a group, without those inside of others of them. A group with a member that is
-- not deferred has none.
def getFilteredDeferUsageSet (group : List (FieldDetails A F)) : List DeferUsage :=
  if group.any (·.deferUsage.isNone) then [] else
    let filtered := (group.filterMap (·.deferUsage)).eraseDups
    filtered.filter fun usage => !usage.ancestors.any (filtered.contains ·)

def sameUsages (a b : List DeferUsage) : Bool :=
  a.all (b.contains ·) && b.all (a.contains ·)

structure DeferPlan (A F : Type) where
  newGroups      : List (List DeferUsage × GroupedFieldSet A F)
  newDeferUsages : List DeferUsage

-- Adds an entry to the group of its usages.
def addToGroup (usages : List DeferUsage) (entry : String × List (FieldDetails A F)) :
    List (List DeferUsage × GroupedFieldSet A F) → List (List DeferUsage × GroupedFieldSet A F)
  | []              => [(usages, [entry])]
  | group :: groups =>
    if sameUsages usages group.fst then (group.fst, group.snd ++ [entry]) :: groups
    else group :: addToGroup usages entry groups

-- Splits the fields of a level into those that are run now and those of deferred groups.
def buildExecutionPlanGroups (collected : CollectedFields A F) (parentDeferUsages : List DeferUsage) :
    GroupedFieldSet A F × DeferPlan A F :=
  let isInitial (entry : String × List (FieldDetails A F)) :=
    sameUsages (getFilteredDeferUsageSet entry.snd) parentDeferUsages
  let groups := (collected.groupedFieldSet.filter (!isInitial ·)).foldl
    (fun groups entry => addToGroup (getFilteredDeferUsageSet entry.snd) entry groups) []
  (collected.groupedFieldSet.filter isInitial, ⟨groups, collected.newDeferUsages⟩)

-- The same split in one pass, without the usages that are new.
def partitionDefer (collected : CollectedFields A F) (parentDeferUsages : List DeferUsage) :
    GroupedFieldSet A F × List (List DeferUsage × GroupedFieldSet A F) :=
  collected.groupedFieldSet.foldl (fun split entry =>
    let filtered := getFilteredDeferUsageSet entry.snd
    if sameUsages filtered parentDeferUsages then (split.fst ++ [entry], split.snd)
    else (split.fst, addToGroup filtered entry split.snd)) ([], [])

def fieldParentDeferUsages (details : List (FieldDetails A F)) : List DeferUsage :=
  if details.isEmpty then [] else getFilteredDeferUsageSet details

-- The values of the arguments of a `@stream` directive.
structure StreamValues where
  enabled      : Option Bool
  initialCount : Option Int
  label        : Option String
  deriving DecidableEq

-- An error of the arguments is kept for the execution.
def getStreamUsage : Except String (Option StreamValues) → Option StreamDirective
  | .error message      => some (.error message)
  | .ok none            => none
  | .ok (some values)   =>
    if values = ⟨none, none, none⟩ ∨ values.enabled = some false then none
    else some (.args (values.initialCount.getD 0) values.label)

-- What the collection of fields takes from the GraphQL library: the functions that collect the fields of
-- an operation and of the selection sets of field nodes, and the one that reads a `@stream` directive. They
-- read variables through the arguments of directives only.
structure Collector (A F V T : Type) (fragments : Fragments A F) where
  collectFields    : List (String × V) → T → List (SelectionNode A F) → CollectedFields A F
  collectSubfields : List (String × V) → T → List (FieldDetails A F) → CollectedFields A F
  streamValues     : List (String × V) → FieldNode A F → Except String (Option StreamValues)
  fields_congr {selections : List (SelectionNode A F)} {v v' : List (String × V)} {type : T} :
    (∀ s, SelectionNode.Reaches fragments selections s →
      ∀ name ∈ SelectionNode.planTimeVariables s.directives, v.lookup name = v'.lookup name) →
    collectFields v type selections = collectFields v' type selections
  subfields_congr {details : List (FieldDetails A F)} {v v' : List (String × V)} {type : T} :
    (∀ s, SelectionNode.Reaches fragments (details.flatMap (·.node.selectionSet)) s →
      ∀ name ∈ SelectionNode.planTimeVariables s.directives, v.lookup name = v'.lookup name) →
    collectSubfields v type details = collectSubfields v' type details
  stream_congr {node : FieldNode A F} {v v' : List (String × V)} :
    (∀ name ∈ SelectionNode.planTimeVariables node.directives, v.lookup name = v'.lookup name) →
    streamValues v node = streamValues v' node
  fields_reached {selections : List (SelectionNode A F)} {v : List (String × V)} {type : T} :
    ∀ entry ∈ (collectFields v type selections).groupedFieldSet, ∀ details ∈ entry.snd,
      SelectionNode.Reaches fragments selections details.node.selection
  subfields_reached {details : List (FieldDetails A F)} {v : List (String × V)} {type : T} :
    ∀ entry ∈ (collectSubfields v type details).groupedFieldSet, ∀ field ∈ entry.snd,
      SelectionNode.Reaches fragments (details.flatMap (·.node.selectionSet)) field.node.selection

-- The fields of an object as they are collected, with the `@stream` arguments of each.
structure Level (A F : Type) where
  initial   : GroupedFieldSet A F
  deferPlan : DeferPlan A F
  streams   : List (Option StreamDirective)

def Level.fields (initial : GroupedFieldSet A F) (deferPlan : DeferPlan A F) : GroupedFieldSet A F :=
  initial ++ deferPlan.newGroups.flatMap (·.snd)

namespace Collector

variable {fragments : Fragments A F} (c : Collector A F V T fragments) (incremental : Bool)
  (variableValues : List (String × V))

def streamOf (details : List (FieldDetails A F)) : Option StreamDirective :=
  if incremental then
    details.head?.bind fun first => getStreamUsage (c.streamValues variableValues first.node)
  else
    none

def partition (collected : CollectedFields A F) (parentDeferUsages : List DeferUsage) : Level A F :=
  let groups :=
    if incremental then buildExecutionPlanGroups collected parentDeferUsages
    else (collected.groupedFieldSet.map fun entry =>
      (entry.fst, entry.snd.map fun details => ⟨details.node, none⟩), ⟨[], []⟩)
  ⟨groups.fst, groups.snd, (Level.fields groups.fst groups.snd).map fun entry =>
    c.streamOf incremental variableValues entry.snd⟩

def rootLevel (rootType : T) (selections : List (SelectionNode A F)) : Level A F :=
  c.partition incremental variableValues (c.collectFields variableValues rootType selections) []

-- The level of the subfields of an object field.
def subfieldsPartitioned (objectType : T) (details : List (FieldDetails A F)) : Level A F :=
  c.partition incremental variableValues (c.collectSubfields variableValues objectType details)
    (fieldParentDeferUsages details)

-- The level at the end of a path of response names, each with the object type of its value.
def levelAt (rootType : T) (selections : List (SelectionNode A F)) : List (String × T) → Option (Level A F)
  | []           => some (c.rootLevel incremental variableValues rootType selections)
  | entry :: path =>
    (levelAt rootType selections path).bind fun level =>
      ((Level.fields level.initial level.deferPlan).lookup entry.fst).map fun details =>
        c.subfieldsPartitioned incremental variableValues entry.snd details

end Collector

end Collection

end Grafast
