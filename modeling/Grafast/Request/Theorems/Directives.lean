import Grafast.Request.Collect

namespace Grafast

variable {A F V T : Type} {fragments : Fragments A F}

namespace SelectionNode

-- The selections below a selection set that are come to without the fragments of the given names.
inductive Occurs (fragments : Fragments A F) (avoid : List String) :
    List (SelectionNode A F) → SelectionNode A F → Prop
  | here {selections : List (SelectionNode A F)} {s : SelectionNode A F} :
    s ∈ selections → Occurs fragments avoid selections s
  | field {selections selectionSet : List (SelectionNode A F)} {s : SelectionNode A F} {node : F}
    {directives : List (DirectiveNode A)} :
    .field node directives selectionSet ∈ selections →
      Occurs fragments avoid selectionSet s → Occurs fragments avoid selections s
  | inlineFragment {selections selectionSet : List (SelectionNode A F)} {s : SelectionNode A F}
    {typeCondition : Option String} {directives : List (DirectiveNode A)} :
    .inlineFragment typeCondition directives selectionSet ∈ selections →
      Occurs fragments avoid selectionSet s → Occurs fragments avoid selections s
  | fragmentSpread {selections : List (SelectionNode A F)} {s : SelectionNode A F} {name : String}
    {directives : List (DirectiveNode A)} {fragment : FragmentDefinitionNode A F} :
    .fragmentSpread name directives ∈ selections → name ∉ avoid → fragments.lookup name = some fragment →
      Occurs fragments avoid fragment.selectionSet s → Occurs fragments avoid selections s

variable {avoid : List String} {selections : List (SelectionNode A F)} {s t : SelectionNode A F}
  {name : String}

namespace Occurs

-- A selection occurs without a further fragment, or it occurs in that fragment without entering it again.
theorem avoid_cons (h : Occurs fragments avoid selections s) (name : String) :
    Occurs fragments (name :: avoid) selections s ∨ ∃ fragment, fragments.lookup name = some fragment ∧
      Occurs fragments (name :: avoid) fragment.selectionSet s := by
  induction h
  case here hm                       => exact .inl (.here hm)
  case field hm _ hi                 => exact hi.imp_left (.field hm)
  case inlineFragment hm _ hi        => exact hi.imp_left (.inlineFragment hm)
  case fragmentSpread n _ _ hm ha hf _ hi =>
    obtain hi | hi := hi
    · by_cases hn : n = name
      case pos => exact .inr ⟨_, hn ▸ hf, hi⟩
      case neg => exact .inl (.fragmentSpread hm (by simp [hn, ha]) hf hi)
    · exact .inr hi

theorem not_nil : ¬Occurs fragments avoid [] s := by
  intro h
  cases h
  case here hm               => cases hm
  case field hm _            => cases hm
  case inlineFragment hm _   => cases hm
  case fragmentSpread _ _ hm _ => cases hm

theorem cons_iff {first : SelectionNode A F} {rest : List (SelectionNode A F)} :
    Occurs fragments avoid (first :: rest) s ↔
      Occurs fragments avoid [first] s ∨ Occurs fragments avoid rest s := by
  have hmem {x : SelectionNode A F} : x ∈ first :: rest ↔ x ∈ [first] ∨ x ∈ rest := by simp
  constructor
  case mp  =>
    intro h
    cases h
    case here hm                    => exact (hmem.mp hm).imp .here .here
    case field hm h                 => exact (hmem.mp hm).imp (.field · h) (.field · h)
    case inlineFragment hm h        => exact (hmem.mp hm).imp (.inlineFragment · h) (.inlineFragment · h)
    case fragmentSpread ha hf hm h =>
      exact (hmem.mp hm).imp (.fragmentSpread · ha hf h) (.fragmentSpread · ha hf h)
  case mpr =>
    rintro (h | h) <;> cases h
    case inl.here hm                   => exact .here (hmem.mpr (.inl hm))
    case inl.field hm h                => exact .field (hmem.mpr (.inl hm)) h
    case inl.inlineFragment hm h       => exact .inlineFragment (hmem.mpr (.inl hm)) h
    case inl.fragmentSpread ha hf hm h => exact .fragmentSpread (hmem.mpr (.inl hm)) ha hf h
    case inr.here hm                   => exact .here (hmem.mpr (.inr hm))
    case inr.field hm h                => exact .field (hmem.mpr (.inr hm)) h
    case inr.inlineFragment hm h       => exact .inlineFragment (hmem.mpr (.inr hm)) h
    case inr.fragmentSpread ha hf hm h => exact .fragmentSpread (hmem.mpr (.inr hm)) ha hf h

theorem of_field {node : F} {directives : List (DirectiveNode A)} {selectionSet : List (SelectionNode A F)}
    (h : Occurs fragments avoid [.field node directives selectionSet] s) :
    s = .field node directives selectionSet ∨ Occurs fragments avoid selectionSet s := by
  cases h
  case here hm                 => exact .inl (List.mem_singleton.mp hm)
  case field hm h              => cases List.mem_singleton.mp hm; exact .inr h
  case inlineFragment hm _     => cases List.mem_singleton.mp hm
  case fragmentSpread _ _ hm _ => cases List.mem_singleton.mp hm

theorem of_inlineFragment {typeCondition : Option String} {directives : List (DirectiveNode A)}
    {selectionSet : List (SelectionNode A F)}
    (h : Occurs fragments avoid [.inlineFragment typeCondition directives selectionSet] s) :
    s = .inlineFragment typeCondition directives selectionSet ∨ Occurs fragments avoid selectionSet s := by
  cases h
  case here hm                 => exact .inl (List.mem_singleton.mp hm)
  case field hm _              => cases List.mem_singleton.mp hm
  case inlineFragment hm h     => cases List.mem_singleton.mp hm; exact .inr h
  case fragmentSpread _ _ hm _ => cases List.mem_singleton.mp hm

theorem of_fragmentSpread {directives : List (DirectiveNode A)}
    (h : Occurs fragments avoid [.fragmentSpread name directives] s) :
    s = .fragmentSpread name directives ∨ name ∉ avoid ∧ ∃ fragment, fragments.lookup name = some fragment ∧
      Occurs fragments avoid fragment.selectionSet s := by
  cases h
  case here hm                  => exact .inl (List.mem_singleton.mp hm)
  case field hm _               => cases List.mem_singleton.mp hm
  case inlineFragment hm _      => cases List.mem_singleton.mp hm
  case fragmentSpread ha hf hm h =>
    cases List.mem_singleton.mp hm
    exact .inr ⟨ha, _, hf, h⟩

-- What occurs below a field occurs above it.
theorem trans_field {f : FieldNode A F} (h : Occurs fragments avoid selections f.selection)
    (ht : Occurs fragments avoid f.selectionSet t) : Occurs fragments avoid selections t := by
  generalize hs : f.selection = s at h
  induction h
  case here hm                      => exact .field (hs ▸ hm) ht
  case field hm _ hi                => exact .field hm (hi hs)
  case inlineFragment hm _ hi       => exact .inlineFragment hm (hi hs)
  case fragmentSpread hm ha hf _ hi => exact .fragmentSpread hm ha hf (hi hs)

theorem of_reaches (h : Reaches fragments selections s) : Occurs fragments [] selections s := by
  induction h
  case here hm                   => exact .here hm
  case inlineFragment hm _ hi    => exact .inlineFragment hm hi
  case fragmentSpread hm hf _ hi => exact .fragmentSpread hm List.not_mem_nil hf hi

end Occurs

theorem reaches_flatMap {α : Type} {l : List α} {f : α → List (SelectionNode A F)}
    (h : Reaches fragments (l.flatMap f) s) : ∃ x ∈ l, Reaches fragments (f x) s := by
  cases h
  case here hm               =>
    obtain ⟨x, hx, hm⟩ := List.mem_flatMap.mp hm
    exact ⟨x, hx, .here hm⟩
  case inlineFragment hm h   =>
    obtain ⟨x, hx, hm⟩ := List.mem_flatMap.mp hm
    exact ⟨x, hx, .inlineFragment hm h⟩
  case fragmentSpread hf hm h =>
    obtain ⟨x, hx, hm⟩ := List.mem_flatMap.mp hm
    exact ⟨x, hx, .fragmentSpread hm hf h⟩

end SelectionNode

open SelectionNode

-- The scan finds the variables of all selections that occur without the fragments that it has visited.
theorem Fragments.mem_scanSelectionSet {visited : List String} {selections : List (SelectionNode A F)}
    {s : SelectionNode A F} {name : String} (h : Occurs fragments visited selections s)
    (hn : name ∈ planTimeVariables s.directives) : name ∈ fragments.scanSelectionSet visited selections := by
  fun_induction Fragments.scanSelectionSet fragments visited selections
  case case1                                                      => exact absurd h Occurs.not_nil
  case case2 node directives selectionSet rest hs hr               =>
    rw [List.append_assoc, List.mem_append, List.mem_append]
    obtain h | h := Occurs.cons_iff.mp h
    · obtain rfl | h := h.of_field
      · exact .inl hn
      · exact .inr (.inl (hs h))
    · exact .inr (.inr (hr h))
  case case3 typeCondition directives selectionSet rest hs hr      =>
    rw [List.append_assoc, List.mem_append, List.mem_append]
    obtain h | h := Occurs.cons_iff.mp h
    · obtain rfl | h := h.of_inlineFragment
      · exact .inl hn
      · exact .inr (.inl (hs h))
    · exact .inr (.inr (hr h))
  case case4 spread directives rest hv hr                  =>
    rw [List.mem_append]
    obtain h | h := Occurs.cons_iff.mp h
    · obtain rfl | ⟨ha, _⟩ := h.of_fragmentSpread
      · exact .inl hn
      · exact absurd hv ha
    · exact .inr (hr h)
  case case5 visited spread directives rest hv hf hr               =>
    rw [List.mem_append]
    obtain h | h := Occurs.cons_iff.mp h
    · obtain rfl | ⟨_, fragment, he, _⟩ := h.of_fragmentSpread
      · exact .inl hn
      · cases hf.symm.trans he
    · obtain h | ⟨fragment, he, _⟩ := h.avoid_cons spread
      · exact .inr (hr h)
      · cases hf.symm.trans he
  case case6 visited spread directives rest hv fragment hf hs hr   =>
    rw [List.append_assoc, List.mem_append, List.mem_append]
    -- What occurs in the fragment or in what follows it occurs without the fragment, or again in it.
    have hbody {selections : List (SelectionNode A F)} (h : Occurs fragments visited selections s) :
        Occurs fragments (spread :: visited) selections s ∨
          name ∈ fragments.scanSelectionSet (spread :: visited) fragment.selectionSet := by
      obtain h | ⟨fragment', he, h⟩ := h.avoid_cons spread
      · exact .inl h
      · obtain rfl := Option.some.inj (hf.symm.trans he)
        exact .inr (hs h)
    obtain h | h := Occurs.cons_iff.mp h
    · obtain rfl | ⟨_, fragment', he, h⟩ := h.of_fragmentSpread
      · exact .inl hn
      · obtain rfl := Option.some.inj (hf.symm.trans he)
        exact .inr (.inl ((hbody h).elim hs id))
    · exact .inr ((hbody h).symm.imp id hr)

-- The variables that the constraints on directives are about.
theorem value_mem_directiveVariableConstraints {selections : List (SelectionNode A F)}
    {v : List (String × V)} {name : String} :
    .value .variables [name] (v.lookup name) ∈ directiveVariableConstraints selections fragments v ↔
      name ∈ fragments.scanSelectionSet [] selections := by
  simp only [directiveVariableConstraints, List.mem_map, List.mem_mergeSort, List.mem_dedup,
    Constraint.value.injEq, true_and, List.cons.injEq, and_true]
  constructor
  case mp  => rintro ⟨n, hn, rfl, _⟩; exact hn
  case mpr => exact fun hn => ⟨name, hn, rfl, rfl⟩

namespace Collection

theorem mem_addToGroup {usages : List DeferUsage} {entry e : String × List (FieldDetails A F)}
    {groups : List (List DeferUsage × GroupedFieldSet A F)} :
    e ∈ (addToGroup usages entry groups).flatMap (·.snd) ↔ e ∈ groups.flatMap (·.snd) ∨ e = entry := by
  induction groups
  case nil                => simp [addToGroup]
  case cons group rest hi =>
    rw [addToGroup]
    split
    case isTrue  => simp only [List.flatMap_cons, List.mem_append, List.mem_singleton, or_right_comm]
    case isFalse => simp only [List.flatMap_cons, List.mem_append, hi, or_assoc]

-- Splitting a level neither adds nor drops fields.
theorem mem_buildExecutionPlanGroups {collected : CollectedFields A F} {parents : List DeferUsage}
    {e : String × List (FieldDetails A F)} :
    e ∈ Level.fields (buildExecutionPlanGroups collected parents).fst
        (buildExecutionPlanGroups collected parents).snd ↔ e ∈ collected.groupedFieldSet := by
  have hfold (l : GroupedFieldSet A F) (groups : List (List DeferUsage × GroupedFieldSet A F)) :
      e ∈ (l.foldl (fun groups entry => addToGroup (getFilteredDeferUsageSet entry.snd) entry groups)
        groups).flatMap (·.snd) ↔ e ∈ groups.flatMap (·.snd) ∨ e ∈ l := by
    induction l generalizing groups
    case nil           => simp
    case cons x l hi   => rw [List.foldl_cons, hi, mem_addToGroup, List.mem_cons, or_assoc]
  rw [Level.fields, List.mem_append, buildExecutionPlanGroups]
  dsimp only
  rw [hfold]
  simp only [List.mem_filter, List.flatMap_nil, List.not_mem_nil, false_or, ← and_or_left]
  exact and_iff_left (by simp)

namespace Collector

variable (c : Collector A F V T fragments) {incremental : Bool} {v v' : List (String × V)}
  {selections : List (SelectionNode A F)} {rootType : T} {collected : CollectedFields A F}
  {parents : List DeferUsage}

-- The field nodes of a level.
def FieldsOccur (fragments : Fragments A F) (selections : List (SelectionNode A F))
    (fields : GroupedFieldSet A F) : Prop :=
  ∀ entry ∈ fields, ∀ details ∈ entry.snd, Occurs fragments [] selections details.node.selection

theorem fieldsOccur_partition (h : FieldsOccur fragments selections collected.groupedFieldSet) :
    FieldsOccur fragments selections (Level.fields (c.partition incremental v collected parents).initial
      (c.partition incremental v collected parents).deferPlan) := by
  cases incremental
  case true  => exact fun entry he => h entry (mem_buildExecutionPlanGroups.mp he)
  case false =>
    intro entry he details hd
    simp only [partition, Level.fields, Bool.false_eq_true, if_false, List.flatMap_nil, List.append_nil,
      List.mem_map] at he
    obtain ⟨entry, he, rfl⟩ := he
    obtain ⟨field, hf, rfl⟩ := List.mem_map.mp hd
    exact h entry he field hf

-- The variables that the directives below an operation refer to have the same values.
def Agree (fragments : Fragments A F) (selections : List (SelectionNode A F)) (v v' : List (String × V)) : Prop :=
  ∀ s, Occurs fragments [] selections s → ∀ name ∈ planTimeVariables s.directives,
    v.lookup name = v'.lookup name

theorem partition_congr (ha : Agree fragments selections v v')
    (h : FieldsOccur fragments selections collected.groupedFieldSet) :
    c.partition incremental v collected parents = c.partition incremental v' collected parents := by
  have hf : FieldsOccur fragments selections (Level.fields (c.partition incremental v collected parents).initial
      (c.partition incremental v collected parents).deferPlan) := c.fieldsOccur_partition h
  simp only [partition, Level.mk.injEq, true_and] at hf ⊢
  refine List.map_congr_left fun entry he => ?_
  cases hh : entry.snd.head?
  case none       => simp [streamOf, hh]
  case some first =>
    have hm : first ∈ entry.snd := List.mem_of_head? hh
    have hs := c.stream_congr (ha _ (hf entry he first hm))
    simp only [streamOf, hh, Option.bind_some, hs]

-- The fields of a level occur in the operation, so that it is the same for both assignments.
theorem levelAt_congr (ha : Agree fragments selections v v') (path : List (String × T)) :
    c.levelAt incremental v rootType selections path = c.levelAt incremental v' rootType selections path ∧
      ∀ level, c.levelAt incremental v rootType selections path = some level →
        FieldsOccur fragments selections (Level.fields level.initial level.deferPlan) := by
  induction path
  case nil                =>
    have hr : FieldsOccur fragments selections (c.collectFields v rootType selections).groupedFieldSet :=
      fun entry he details hd => .of_reaches (c.fields_reached entry he details hd)
    have hc : c.collectFields v rootType selections = c.collectFields v' rootType selections :=
      c.fields_congr fun s hs => ha s (.of_reaches hs)
    refine ⟨?_, fun level hl => ?_⟩
    · rw [levelAt, levelAt, rootLevel, rootLevel, ← hc]
      exact congrArg some (c.partition_congr ha hr)
    · obtain rfl := Option.some.inj hl
      exact c.fieldsOccur_partition hr
  case cons entry path hi =>
    obtain ⟨he, ho⟩ := hi
    rw [levelAt, levelAt, ← he]
    cases hl : c.levelAt incremental v rootType selections path
    case none       => exact ⟨rfl, fun level hl => by cases hl⟩
    case some level =>
      simp only [Option.bind_some]
      cases hf : (Level.fields level.initial level.deferPlan).lookup entry.fst
      case none         => exact ⟨rfl, fun level hl => by cases hl⟩
      case some details =>
        have hm : (entry.fst, details) ∈ Level.fields level.initial level.deferPlan := by
          obtain ⟨before, after, he, _⟩ := List.lookup_eq_some_iff.mp hf
          exact he ▸ by simp
        have hocc {s : SelectionNode A F}
            (h : Reaches fragments (details.flatMap (·.node.selectionSet)) s) :
            Occurs fragments [] selections s := by
          obtain ⟨d, hd, h⟩ := reaches_flatMap h
          exact (ho level hl _ hm d hd).trans_field (.of_reaches h)
        have hr : FieldsOccur fragments selections (c.collectSubfields v entry.snd details).groupedFieldSet :=
          fun e he d hd => hocc (c.subfields_reached e he d hd)
        have hc : c.collectSubfields v entry.snd details = c.collectSubfields v' entry.snd details :=
          c.subfields_congr fun s hs => ha s (hocc hs)
        simp only [Option.map_some]
        refine ⟨?_, fun level hl => ?_⟩
        · rw [subfieldsPartitioned, subfieldsPartitioned, ← hc]
          exact congrArg some (c.partition_congr ha hr)
        · obtain rfl := Option.some.inj hl
          exact c.fieldsOccur_partition hr

end Collector

end Collection

-- Two assignments that agree on the variables of the constraints have the same fields collected at every
-- level, in the same groups and with the same arguments of `@stream`.
theorem directiveVariableConstraints_complete (c : Collection.Collector A F V T fragments) (incremental : Bool)
    (rootType : T) (selections : List (SelectionNode A F)) (v v' : List (String × V))
    (h : ∀ name observed, .value .variables [name] observed ∈ directiveVariableConstraints selections fragments v →
      v.lookup name = v'.lookup name) (path : List (String × T)) :
    c.levelAt incremental v rootType selections path = c.levelAt incremental v' rootType selections path := by
  refine (c.levelAt_congr (fun s hs name hn => h name (v.lookup name) ?_) path).left
  exact value_mem_directiveVariableConstraints.mpr (Fragments.mem_scanSelectionSet hs hn)

namespace Hidden

open Collection

variable {fragments : Fragments Bool String} {v v' : List (String × Bool)}
  {selections : List (SelectionNode Bool String)} {s t : SelectionNode Bool String}

def condition (v : List (String × Bool)) : DirectiveValue Bool → Option Bool
  | .var name => v.lookup name
  | .literal value => some value

-- Whether the directives of a selection let it be collected.
def included (v : List (String × Bool)) (directives : List (DirectiveNode Bool)) : Bool :=
  directives.all fun d =>
    let value := (d.arguments.lookup "if").bind (condition v)
    if d.name = "skip" then value != some true else d.name != "include" || value == some true

def ownField : SelectionNode Bool String → List (FieldDetails Bool String)
  | .field node directives selectionSet => [⟨⟨node, directives, selectionSet⟩, none⟩]
  | _                                   => []

def merged (fragments : Fragments Bool String) : SelectionNode Bool String → List (SelectionNode Bool String)
  | .field _ _ _                     => []
  | .inlineFragment _ _ selectionSet => selectionSet
  | .fragmentSpread name _           => (fragments.lookup name).elim [] (·.selectionSet)

-- The fields of a selection set with those of its fragments.
def expand (fragments : Fragments Bool String) (v : List (String × Bool)) :
    Nat → List (SelectionNode Bool String) → List (FieldDetails Bool String)
  | 0,         _          => []
  | depth + 1, selections => (selections.filter (included v ·.directives)).flatMap fun s =>
    ownField s ++ expand fragments v depth (merged fragments s)

def group (fields : List (FieldDetails Bool String)) : CollectedFields Bool String where
  groupedFieldSet := (fields.map (·.node.node)).eraseDups.map fun name =>
    (name, fields.filter (·.node.node = name))
  newDeferUsages  := []

theorem included_congr {directives : List (DirectiveNode Bool)}
    (h : ∀ name ∈ planTimeVariables directives, v.lookup name = v'.lookup name) :
    included v directives = included v' directives := by
  have hd : ∀ d ∈ directives, d.isPlanTime = true →
      (d.arguments.lookup "if").bind (condition v) = (d.arguments.lookup "if").bind (condition v') := by
    intro d hd hp
    cases hl : d.arguments.lookup "if"
    case none     => rfl
    case some arg =>
      cases arg
      case literal value => rfl
      case var name      =>
        obtain ⟨before, after, he, _⟩ := List.lookup_eq_some_iff.mp hl
        refine h name (List.mem_flatMap.mpr ⟨d, List.mem_filter.mpr ⟨hd, hp⟩, ?_⟩)
        exact List.mem_filterMap.mpr ⟨("if", .var name), he ▸ by simp, rfl⟩
  rw [included, included, Bool.eq_iff_iff, List.all_eq_true, List.all_eq_true]
  refine forall₂_congr fun d hm => ?_
  by_cases hp : d.isPlanTime = true
  case pos => rw [hd d hm hp]
  case neg =>
    simp only [DirectiveNode.isPlanTime, List.mem_cons, not_or, decide_eq_true_eq] at hp
    simp [hp.left, hp.right.left]

theorem reaches_merged (hs : s ∈ selections) (h : Reaches fragments (merged fragments s) t) :
    Reaches fragments selections t := by
  cases s
  case field          => exact (Occurs.not_nil (.of_reaches h)).elim
  case inlineFragment => exact .inlineFragment hs h
  case fragmentSpread name _ =>
    rw [merged] at h
    cases hf : fragments.lookup name
    case none          => exact (Occurs.not_nil (.of_reaches (by simpa [hf] using h))).elim
    case some fragment => exact .fragmentSpread hs hf (by simpa [hf] using h)

theorem expand_congr {depth : Nat} (h : ∀ s, Reaches fragments selections s →
    ∀ name ∈ planTimeVariables s.directives, v.lookup name = v'.lookup name) :
    expand fragments v depth selections = expand fragments v' depth selections := by
  induction depth generalizing selections
  case zero          => rfl
  case succ depth hi =>
    have hf : selections.filter (included v ·.directives) = selections.filter (included v' ·.directives) :=
      List.filter_congr fun s hs => included_congr (h s (.here hs))
    rw [expand, expand, hf]
    refine List.flatMap_congr fun s hs => ?_
    rw [hi fun t ht => h t (reaches_merged (List.mem_of_mem_filter hs) ht)]

theorem reaches_of_mem_expand {depth : Nat} {details : FieldDetails Bool String}
    (h : details ∈ expand fragments v depth selections) :
    Reaches fragments selections details.node.selection := by
  induction depth generalizing selections
  case zero          => cases h
  case succ depth hi =>
    obtain ⟨s, hs, h⟩ := List.mem_flatMap.mp h
    have hs := List.mem_of_mem_filter hs
    obtain h | h := List.mem_append.mp h
    · cases s
      case field          => exact List.mem_singleton.mp h ▸ .here hs
      case inlineFragment => cases h
      case fragmentSpread => cases h
    · exact reaches_merged hs (hi h)

theorem mem_group {fields : List (FieldDetails Bool String)}
    {entry : String × List (FieldDetails Bool String)} (he : entry ∈ (group fields).groupedFieldSet)
    {details : FieldDetails Bool String} (hd : details ∈ entry.snd) : details ∈ fields := by
  obtain ⟨name, _, rfl⟩ := List.mem_map.mp he
  exact List.mem_of_mem_filter hd

-- A collector for operations without `@defer`, `@stream` and repeated fragments.
def collector (fragments : Fragments Bool String) : Collector Bool String Bool Unit fragments where
  collectFields v _ selections := group (expand fragments v 10 selections)
  collectSubfields v _ details := group (expand fragments v 10 (details.flatMap (·.node.selectionSet)))
  streamValues _ _             := .ok none
  fields_congr h               := congrArg group (expand_congr h)
  subfields_congr h            := congrArg group (expand_congr h)
  stream_congr _               := rfl
  fields_reached _ he _ hd     := reaches_of_mem_expand (mem_group he hd)
  subfields_reached _ he _ hd  := reaches_of_mem_expand (mem_group he hd)

def hide (name : String) : List (DirectiveNode Bool) :=
  [⟨"skip", [("if", .var name)]⟩]

def userFragment : Fragments Bool String :=
  [("User", ⟨"User", [.field "name" [] [], .field "email" (hide "private") []]⟩)]

def user : List (SelectionNode Bool String) :=
  [.field "user" [] [.fragmentSpread "User" []]]

-- A variable that no directive refers to makes no difference.
theorem user_levels :
    (collector userFragment).levelAt false [("private", true), ("id", true)] () user [("user", ())] =
      (collector userFragment).levelAt false [("private", true), ("id", false)] () user [("user", ())] := by
  refine directiveVariableConstraints_complete (collector userFragment) false () user _ _ ?_ _
  have hscan : userFragment.scanSelectionSet [] user = ["private"] := by
    rw [user, Fragments.scanSelectionSet, Fragments.scanSelectionSet_fragmentSpread List.not_mem_nil rfl]
    simp [hide, Fragments.scanSelectionSet, planTimeVariables, DirectiveNode.isPlanTime,
      DirectiveNode.variableNames, DirectiveValue.variableName?]
  intro name observed h
  simp only [directiveVariableConstraints, hscan] at h
  simp at h
  obtain ⟨rfl, _⟩ := h
  rfl

end Hidden

end Grafast
