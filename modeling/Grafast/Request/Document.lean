import Grafast.Request.Constraint
import Mathlib.Data.Finset.Card
import Mathlib.Data.List.Dedup

namespace Grafast

-- An argument of a directive: a variable, or a literal of the document.
inductive DirectiveValue (A : Type)
  | var (name : String)
  | literal (value : A)

def DirectiveValue.variableName? {A : Type} : DirectiveValue A → Option String
  | .var name => some name
  | .literal _     => none

structure DirectiveNode (A : Type) where
  name      : String
  arguments : List (String × DirectiveValue A)

-- The selections of a document. `F` is what a field has besides.
inductive SelectionNode (A F : Type)
  | field (node : F) (directives : List (DirectiveNode A)) (selectionSet : List (SelectionNode A F))
  | inlineFragment (typeCondition : Option String) (directives : List (DirectiveNode A))
    (selectionSet : List (SelectionNode A F))
  | fragmentSpread (name : String) (directives : List (DirectiveNode A))

structure FragmentDefinitionNode (A F : Type) where
  typeCondition : String
  selectionSet  : List (SelectionNode A F)

-- The fragments of a document by their names.
abbrev Fragments (A F : Type) := List (String × FragmentDefinitionNode A F)

variable {A F V : Type}

namespace DirectiveNode

-- The directives whose arguments are resolved before or during planning.
def isPlanTime (d : DirectiveNode A) : Bool :=
  d.name ∈ ["skip", "include", "defer", "stream"]

def variableNames (d : DirectiveNode A) : List String :=
  d.arguments.filterMap (·.snd.variableName?)

end DirectiveNode

namespace SelectionNode

def directives : SelectionNode A F → List (DirectiveNode A)
  | field _ directives _          => directives
  | inlineFragment _ directives _ => directives
  | fragmentSpread _ directives   => directives

def planTimeVariables (directives : List (DirectiveNode A)) : List String :=
  (directives.filter (·.isPlanTime)).flatMap (·.variableNames)

end SelectionNode

namespace Fragments

-- How many of the fragments have not been visited.
def unvisited (fragments : Fragments A F) (visited : List String) : Nat :=
  ((fragments.map Prod.fst).toFinset \ visited.toFinset).card

theorem unvisited_cons_le {fragments : Fragments A F} {visited : List String} {name : String} :
    fragments.unvisited (name :: visited) ≤ fragments.unvisited visited := by
  apply Finset.card_le_card
  rw [List.toFinset_cons]
  exact Finset.sdiff_subset_sdiff (Finset.Subset.refl _) (Finset.subset_insert ..)

theorem unvisited_cons_lt {fragments : Fragments A F} {visited : List String} {name : String}
    {fragment : FragmentDefinitionNode A F} (h : fragments.lookup name = some fragment) (hn : name ∉ visited) :
    fragments.unvisited (name :: visited) < fragments.unvisited visited := by
  obtain ⟨before, after, he, _⟩ := List.lookup_eq_some_iff.mp h
  apply Finset.card_lt_card
  rw [Finset.ssubset_iff_of_subset]
  · exact ⟨name, by simp [he, hn], by simp⟩
  · rw [List.toFinset_cons]
    exact Finset.sdiff_subset_sdiff (Finset.Subset.refl _) (Finset.subset_insert ..)

-- Walks the selections and each fragment that they reach, which stops at a fragment that has been visited
-- on the way or before in the same selection set.
def scanSelectionSet (fragments : Fragments A F) (visited : List String) :
    List (SelectionNode A F) → List String
  | []                                                   => []
  | .field _ directives selectionSet :: rest             =>
    SelectionNode.planTimeVariables directives ++ scanSelectionSet fragments visited selectionSet ++
      scanSelectionSet fragments visited rest
  | .inlineFragment _ directives selectionSet :: rest    =>
    SelectionNode.planTimeVariables directives ++ scanSelectionSet fragments visited selectionSet ++
      scanSelectionSet fragments visited rest
  | .fragmentSpread name directives :: rest              =>
    if _hv : name ∈ visited then
      SelectionNode.planTimeVariables directives ++ scanSelectionSet fragments visited rest
    else
      match _hf : fragments.lookup name with
      | none          =>
        SelectionNode.planTimeVariables directives ++ scanSelectionSet fragments (name :: visited) rest
      | some fragment =>
        SelectionNode.planTimeVariables directives ++
          scanSelectionSet fragments (name :: visited) fragment.selectionSet ++
          scanSelectionSet fragments (name :: visited) rest
termination_by selections => (fragments.unvisited visited, sizeOf selections)
decreasing_by
  -- A walk either enters a fragment that has not been visited, or goes on with fewer selections.
  all_goals first
    | exact Prod.Lex.left _ _ (unvisited_cons_lt _hf _hv)
    | exact Prod.Lex.right' _ (le_refl _) (by simp +arith)
    | exact Prod.Lex.right' _ unvisited_cons_le (by simp +arith)

theorem scanSelectionSet_fragmentSpread {fragments : Fragments A F} {visited : List String} {name : String}
    {directives : List (DirectiveNode A)} {rest : List (SelectionNode A F)}
    {fragment : FragmentDefinitionNode A F} (hv : name ∉ visited) (hf : fragments.lookup name = some fragment) :
    fragments.scanSelectionSet visited (.fragmentSpread name directives :: rest) =
      SelectionNode.planTimeVariables directives ++
        fragments.scanSelectionSet (name :: visited) fragment.selectionSet ++
        fragments.scanSelectionSet (name :: visited) rest := by
  rw [scanSelectionSet, dif_neg hv]
  split
  case h_1 hn   => cases hn.symm.trans hf
  case h_2 f hs =>
    obtain rfl := Option.some.inj (hs.symm.trans hf)
    rfl

end Fragments

-- The constraints on the variables that the directives of an operation refer to.
def directiveVariableConstraints (selectionSet : List (SelectionNode A F)) (fragments : Fragments A F)
    (variableValues : List (String × V)) : List (Constraint V) :=
  (fragments.scanSelectionSet [] selectionSet).dedup.mergeSort.map fun name =>
    .value .variables [name] (variableValues.lookup name)

end Grafast
