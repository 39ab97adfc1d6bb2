import Grafast.Request.Resolver
import Grafast.Request.Theorems.Planning
import Grafast.Request.Theorems.Source
import Grafast.Step.Theorems.Core

namespace Grafast

open PyObject

variable {A V Y P : Type}

-- Dictionaries with keys in one order are the same if they have the same values.
theorem eq_of_lookup {keys : List String} {l l' : List (String × V)} (hd : keys.Nodup)
    (h : (l.map Prod.fst).Sublist keys) (h' : (l'.map Prod.fst).Sublist keys)
    (hl : ∀ key, l'.lookup key = l.lookup key) : l' = l := by
  have hn := hd.sublist h
  have hn' := hd.sublist h'
  have hm (entry : String × V) : entry ∈ l' ↔ entry ∈ l := by
    rw [← Loaders.lookup_eq_some_iff hn, ← Loaders.lookup_eq_some_iff hn', hl]
  have hp : l'.Perm l := (List.perm_ext_iff_of_nodup (.of_map _ hn') (.of_map _ hn)).mpr hm
  have hk : l'.map Prod.fst = l.map Prod.fst := (hd.perm_iff_eq_of_sublist h' h).mp (hp.map _)
  refine List.ext_getElem hp.length_eq fun i hi hi' => ?_
  have he : l'[i].fst = l[i].fst := by
    have := congrArg (·[i]?) hk
    simpa [hi, hi'] using this
  exact List.inj_on_of_nodup_map hn ((hm _).mp (List.getElem_mem hi)) (List.getElem_mem hi') he

section Provenance

variable {arguments : List (String × ValueNode A)} {arg name : String} {value : ValueNode A}

theorem lookup_nestedVariableArgs {names : List String} (h : arguments.lookup arg = some value)
    (hn : nestedVariables? value = some names) :
    (variableProvenance arguments).nestedVariableArgs.lookup arg = some names := by
  induction arguments
  case nil                => cases h
  case cons first rest hi =>
    rw [List.lookup_cons] at h
    simp only [variableProvenance, List.filterMap_cons] at hi ⊢
    cases he : arg == first.fst
    case true  =>
      rw [he] at h
      simp [Option.some.inj h, hn, List.lookup_cons, he]
    case false =>
      rw [he] at h
      cases nestedVariables? first.snd
      case none    => exact hi h
      case some ns => simp [List.lookup_cons, he, hi h]

-- The variables that the value of an argument refers to.
theorem mem_sources (h : arguments.lookup arg = some value) (hn : name ∈ value.nestedVariables) :
    name ∈ ((variableProvenance arguments).variableSources.lookup arg).toList ++
      ((variableProvenance arguments).nestedVariableArgs.lookup arg).getD [] := by
  by_cases hv : (directVariable? value).isSome = true
  case pos =>
    cases value
    case var n =>
      obtain rfl := List.mem_singleton.mp hn
      rw [lookup_variableSources h]
      exact List.mem_append_left _ (List.mem_singleton_self _)
    all_goals cases hv
  case neg =>
    have hs : nestedVariables? value = some value.nestedVariables := by
      rw [nestedVariables?, if_neg]
      rintro (hc | hc)
      · exact hv hc
      · exact List.ne_nil_of_mem hn hc
    rw [lookup_nestedVariableArgs h hs]
    exact List.mem_append_right _ hn

end Provenance

namespace FieldArgs

section

variable {a b : FieldArgs V} {name : String}

theorem isVariable_of_direct {arguments : List (String × ValueNode A)} {arg name : String}
    (h : arguments.lookup arg = some (.var name)) (hp : a.provenance = variableProvenance arguments) :
    a.isVariable arg = true :=
  isVariable_of_lookup (hp ▸ lookup_variableSources h)

theorem isVariable_or_isNested {arguments : List (String × ValueNode A)} {arg name : String} {value : ValueNode A}
    (h : arguments.lookup arg = some value) (hn : name ∈ value.nestedVariables)
    (hp : a.provenance = variableProvenance arguments) : a.isVariable arg = true ∨ a.isNested arg = true := by
  rw [isVariable, isNested, Provenance.variableArgs, hp]
  cases List.mem_append.mp (mem_sources h hn)
  case inl hm =>
    obtain ⟨before, after, he, _⟩ := List.lookup_eq_some_iff.mp (Option.mem_toList.mp hm)
    exact .inl (by simp [he])
  case inr hm =>
    cases hl : (variableProvenance arguments).nestedVariableArgs.lookup arg
    case none       => rw [hl] at hm; cases hm
    case some names =>
      obtain ⟨before, after, he, _⟩ := List.lookup_eq_some_iff.mp hl
      exact .inr (by simp [he])

-- Where no argument is given twice, the ones that are variables are those that provenance knows of.
theorem direct_of_isVariable {arguments : List (String × ValueNode A)} {arg : String}
    (hu : (arguments.map Prod.fst).Nodup) (hp : a.provenance = variableProvenance arguments)
    (h : a.isVariable arg = true) : ∃ name, arguments.lookup arg = some (.var name) := by
  rw [isVariable, Provenance.variableArgs, hp, List.contains_iff_mem] at h
  obtain ⟨source, hs, rfl⟩ := List.mem_map.mp h
  obtain ⟨given, hg, he⟩ := List.mem_filterMap.mp hs
  obtain ⟨name, hv, rfl⟩ := Option.map_eq_some_iff.mp he
  refine ⟨name, (Loaders.lookup_eq_some_iff hu).mpr ?_⟩
  obtain ⟨arg, value⟩ := given
  cases value
  case var n =>
    obtain rfl := Option.some.inj hv
    exact hg
  all_goals cases hv

-- What observing more keeps of what has been observed.
structure Grows (a b : FieldArgs V) : Prop where
  args       : b.args = a.args
  provenance : b.provenance = a.provenance
  reads      : a.literalVariableReads ⊆ b.literalVariableReads
  checks     : a.membershipChecks ⊆ b.membershipChecks
  compared   : a.equalityChecks ⊆ b.equalityChecks

namespace Grows

theorem refl (a : FieldArgs V) : Grows a a where
  args       := rfl
  provenance := rfl
  reads      := fun _ h => h
  checks     := fun _ h => h
  compared   := fun _ h => h

theorem trans {c : FieldArgs V} (h : Grows a b) (h' : Grows b c) : Grows a c where
  args       := h'.args.trans h.args
  provenance := h'.provenance.trans h.provenance
  reads      := List.Subset.trans h.reads h'.reads
  checks     := List.Subset.trans h.checks h'.checks
  compared   := List.Subset.trans h.compared h'.compared

theorem isVariable (h : Grows a b) : b.isVariable name = a.isVariable name := by
  rw [FieldArgs.isVariable, FieldArgs.isVariable, h.provenance]

theorem isNested (h : Grows a b) : b.isNested name = a.isNested name := by
  rw [FieldArgs.isNested, FieldArgs.isNested, h.provenance]

variable [PyObject V Y] [DecidableEq Y]

theorem compare (h : Grows a b) {expected : V} : b.compare name expected = a.compare name expected := by
  rw [FieldArgs.compare, FieldArgs.compare, h.args]

theorem perform (a : FieldArgs V) (read : ArgRead V) : Grows a (a.perform read) := by
  cases read
  case get name             =>
    rw [FieldArgs.perform, noteLiteralRead]
    split
    case isTrue  => exact { refl a with reads := List.subset_cons_self .. }
    case isFalse => exact refl a
  case raw                  => exact { refl a with reads := List.subset_append_right .. }
  case contains name        =>
    rw [FieldArgs.perform, FieldArgs.contains]
    dsimp only
    split
    case isTrue  => exact { refl a with checks := List.subset_cons_self .. }
    case isFalse => exact refl a
  case evalIs name expected =>
    rw [FieldArgs.perform, FieldArgs.evalIs]
    split
    case isTrue  => exact { refl a with compared := List.subset_append_left .. }
    case isFalse =>
      split
      case isTrue  => exact { refl a with reads := List.subset_cons_self .. }
      case isFalse => exact refl a
  case source name          =>
    rw [FieldArgs.perform, FieldArgs.source]
    split
    case isTrue  => exact refl a
    case isFalse =>
      dsimp only
      split
      case isTrue  => exact ⟨rfl, rfl, fun _ h => h, fun _ h => h, fun _ h => h⟩
      case isFalse => exact refl a

theorem performAll (a : FieldArgs V) (uses : List (ArgsUse V)) : Grows a (uses.foldl ArgsUse.perform a) := by
  induction uses generalizing a
  case nil              => exact refl a
  case cons use uses hi =>
    cases use
    case read read => exact (perform a read).trans (hi _)
    case iterate   => exact hi a

end Grows

variable [PyObject V Y] [DecidableEq Y]

theorem contains_snd (a : FieldArgs V) : (a.contains name).snd = (a.args.lookup name).isSome := by
  rw [contains]
  dsimp only
  split <;> rfl

omit [PyObject V Y] [DecidableEq Y] in
theorem source_snd (h : b.provenance = a.provenance) : (b.source name).snd = (a.source name).snd := by
  rw [source, source, isNested, isNested, isVariable, isVariable, h]
  split
  case isTrue  => rfl
  case isFalse => dsimp only; split <;> rfl

theorem evalIs_snd (a : FieldArgs V) {expected : V} : (a.evalIs name expected).snd = a.compare name expected := by
  rw [evalIs]
  split
  case isTrue  => rfl
  case isFalse => split <;> rfl

-- What a read leaves behind, for an argument that comes from variables.
def Noted (a : FieldArgs V) : ArgRead V → Prop
  | .get name             => a.isVariable name = true ∨ a.isNested name = true → name ∈ a.literalVariableReads
  | .raw                  =>
    ∀ name, a.isVariable name = true ∨ a.isNested name = true → name ∈ a.literalVariableReads
  | .contains name        => a.isVariable name = true → name ∈ a.membershipChecks
  | .evalIs name expected =>
    (a.isVariable name = true → (name, expected, a.compare name expected) ∈ a.equalityChecks) ∧
      (a.isVariable name = false → a.isNested name = true → name ∈ a.literalVariableReads)
  | .source _             => True

theorem Noted.grows {read : ArgRead V} (h : a.Noted read) (g : Grows a b) : b.Noted read := by
  cases read
  case get name             =>
    rw [Noted, g.isVariable, g.isNested]
    exact fun hn => g.reads (h hn)
  case raw                  =>
    intro name
    rw [g.isVariable, g.isNested]
    exact fun hn => g.reads (h name hn)
  case contains name        =>
    rw [Noted, g.isVariable]
    exact fun hn => g.checks (h hn)
  case evalIs name expected =>
    rw [Noted, g.isVariable, g.isNested, g.compare]
    exact ⟨fun hn => g.compared (h.left hn), fun hv hn => g.reads (h.right hv hn)⟩
  case source name          => trivial

theorem perform_noted (a : FieldArgs V) (read : ArgRead V) : (a.perform read).Noted read := by
  have g := Grows.perform a read
  cases read
  case get name             =>
    rw [Noted, g.isVariable, g.isNested, perform, noteLiteralRead]
    intro h
    rw [if_pos (by simpa using h)]
    exact List.mem_cons_self
  case raw                  =>
    intro name
    rw [g.isVariable, g.isNested, isVariable, isNested, List.contains_iff_mem, List.contains_iff_mem]
    exact fun h => List.mem_append_left _ (List.mem_append.mpr h)
  case contains name        =>
    rw [Noted, g.isVariable, perform, contains]
    intro h
    rw [if_pos h]
    exact List.mem_cons_self
  case evalIs name expected =>
    rw [Noted, g.isVariable, g.isNested, g.compare, perform, evalIs]
    refine ⟨fun hv => ?_, fun hv hn => ?_⟩
    · rw [if_pos hv]
      exact List.mem_append_right _ List.mem_cons_self
    · rw [if_neg (by simp [hv]), if_pos hn]
      exact List.mem_cons_self
  case source name          => trivial

-- Each read of a run has been noted at its end.
theorem noted_of_mem {uses : List (ArgsUse V)} {read : ArgRead V} (h : .read read ∈ uses) :
    (uses.foldl ArgsUse.perform a).Noted read := by
  induction uses generalizing a
  case nil              => cases h
  case cons use uses hi =>
    cases List.mem_cons.mp h
    case inl h =>
      rw [List.foldl_cons, ← h]
      exact (perform_noted a read).grows (Grows.performAll ..)
    case inr h => exact hi h

-- Just arguments that are variables get placeholders.
theorem placeholdered_isVariable {uses : List (ArgsUse V)}
    (h : ∀ name ∈ a.placeholderedVariableArgs, a.isVariable name = true) :
    ∀ name ∈ (uses.foldl ArgsUse.perform a).placeholderedVariableArgs,
      (uses.foldl ArgsUse.perform a).isVariable name = true := by
  induction uses generalizing a
  case nil              => exact h
  case cons use uses hi =>
    refine hi ?_
    cases use
    case iterate   => exact h
    case read read =>
      intro name hm
      change name ∈ (a.perform read).placeholderedVariableArgs at hm
      change (a.perform read).isVariable name = true
      rw [(Grows.perform a read).isVariable]
      cases read
      case source arg =>
        rw [perform, source] at hm
        split at hm
        case isTrue  => exact h name hm
        case isFalse =>
          dsimp only at hm
          split at hm
          case isTrue hv =>
            cases List.mem_cons.mp hm
            case inl hm => exact hm ▸ hv
            case inr hm => exact h name hm
          case isFalse   => exact h name hm
      case raw             => exact h name hm
      case get arg         =>
        rw [perform, noteLiteralRead] at hm
        split at hm <;> exact h name hm
      case contains arg    =>
        rw [perform, contains] at hm
        dsimp only at hm
        split at hm <;> exact h name hm
      case evalIs arg value =>
        rw [perform, evalIs] at hm
        split at hm
        case isTrue  => exact h name hm
        case isFalse => split at hm <;> exact h name hm

end

end FieldArgs

section Requests

variable [PyObject V Y] [DecidableEq Y] {c : ArgumentCoercion A V} {defs : List (ArgumentDefinition V)}
  {arguments : List (String × ValueNode A)} {facts facts' : RequestFacts V} {args args' : List (String × V)}
  {b : FieldArgs V} {arg name : String}

-- Two requests for a field whose arguments are stored under their own names and are coerced for both of them.
structure Coerced (c : ArgumentCoercion A V) (defs : List (ArgumentDefinition V))
    (arguments : List (String × ValueNode A)) (facts facts' : RequestFacts V) (args args' : List (String × V)) :
    Prop where
  law      : c.Local
  unique   : (arguments.map Prod.fst).Nodup
  nodup    : (defs.map (·.name)).Nodup
  named    : ∀ d ∈ defs, d.outName = d.name
  coerced  : c.getArgumentValues defs arguments facts.variableValues = some args
  coerced' : c.getArgumentValues defs arguments facts'.variableValues = some args'

namespace Coerced

variable (h : Coerced c defs arguments facts facts' args args')
include h

theorem outNames_nodup : (defs.map (·.outName)).Nodup :=
  (List.map_congr_left h.named).symm ▸ h.nodup

-- An argument is the same for both requests if its variables are.
theorem lookup_args (hv : ∀ value, arguments.lookup arg = some value → ∀ name ∈ value.nestedVariables,
    facts'.variableValues.lookup name = facts.variableValues.lookup name) : args'.lookup arg = args.lookup arg := by
  refine h.law.lookup_congr (fun d hd hk value hl => hv value ?_) h.coerced h.coerced'
  rwa [← hk, h.named d hd]

-- An argument that is a variable has its value, or else its default.
theorem lookup_variable {d : ArgumentDefinition V} (hd : d ∈ defs) (ha : arguments.lookup d.name = some (.var name)) :
    args.lookup d.name = (facts.variableValues.lookup name).orElse (fun _ => d.defaultValue) ∧
      args'.lookup d.name = (facts'.variableValues.lookup name).orElse fun _ => d.defaultValue := by
  rw [← h.named d hd]
  exact ⟨c.lookup_var h.outNames_nodup hd ha h.coerced, c.lookup_var h.outNames_nodup hd ha h.coerced'⟩

theorem lookup_undefined (hd : ∀ d ∈ defs, d.name ≠ arg) : args'.lookup arg = args.lookup arg :=
  h.law.lookup_congr (fun d hm hk => absurd ((h.named d hm).symm.trans hk) (hd d hm)) h.coerced h.coerced'

variable (hp : b.provenance = variableProvenance arguments)
  (hd : ∀ name ∈ b.observedVariables, ∀ v, facts.variableValues.lookup name = some v →
    Discerned v (facts'.variableValues.lookup name))
  (hm : constraintsMatch (recordFieldArgsConstraints b facts.variableValues) facts' = true)
include hp hm

omit h hp in
theorem holds_of_mem {constraint : Constraint V}
    (hc : constraint ∈ recordFieldArgsConstraints b facts.variableValues) : constraint.holds facts' = true :=
  List.all_eq_true.mp hm constraint hc

include hd in
-- An argument whose value has been observed is the same for both requests.
theorem lookup_observed (hn : b.isVariable arg = true ∨ b.isNested arg = true → arg ∈ b.literalVariableReads)
    (hf : arg ∉ b.placeholderedVariableArgs) : args'.lookup arg = args.lookup arg := by
  refine h.lookup_args fun value hl name hv => ?_
  have hi : arg ∈ b.inlinedVariableArgs :=
    List.mem_filter.mpr ⟨hn (FieldArgs.isVariable_or_isNested hl hv hp), by simpa using hf⟩
  have ho : name ∈ b.observedVariables :=
    List.mem_flatMap.mpr ⟨arg, hi, hp ▸ mem_sources hl hv⟩
  refine lookup_eq_of_holds (hd name ho) (holds_of_mem hm ?_)
  refine List.mem_append_left _ (List.mem_append_left _ (List.mem_map.mpr ⟨name, ?_, rfl⟩))
  exact List.mem_mergeSort.mpr (List.mem_dedup.mpr ho)

omit h in
theorem present_of_checked (hc : arg ∈ b.membershipChecks) (hl : arguments.lookup arg = some (.var name)) :
    (facts'.variableValues.lookup name).isSome = (facts.variableValues.lookup name).isSome := by
  have hs : b.provenance.variableSources.lookup arg = some name := hp ▸ lookup_variableSources hl
  have hh := holds_of_mem hm (List.mem_append_right _ (List.mem_flatMap.mpr
    ⟨arg, List.mem_mergeSort.mpr (List.mem_dedup.mpr hc), by
      rw [FieldArgs.membershipConstraints, hs]
      exact List.mem_singleton_self _⟩))
  rwa [Constraint.holds, valueAt_variables, beq_iff_eq] at hh

-- Whether an argument is given is the same for both requests.
theorem isSome_args (hn : b.isVariable arg = true → arg ∈ b.membershipChecks) :
    (args'.lookup arg).isSome = (args.lookup arg).isSome := by
  by_cases hdef : ∃ d ∈ defs, d.name = arg
  case neg => rw [h.lookup_undefined fun d hm he => hdef ⟨d, hm, he⟩]
  case pos =>
    obtain ⟨d, hmem, rfl⟩ := hdef
    cases hl : arguments.lookup d.name
    case none       => rw [h.lookup_args fun value hv => absurd (hl.symm.trans hv) (by simp)]
    case some value =>
      cases hv : directVariable? value
      case none      =>
        rw [← h.named d hmem, h.law.isSome_given h.outNames_nodup hmem hl hv h.coerced,
          h.law.isSome_given h.outNames_nodup hmem hl hv h.coerced']
      case some name =>
        cases value
        case var n =>
          obtain ⟨he, he'⟩ := h.lookup_variable hmem hl
          have hc := present_of_checked hp hm (hn (FieldArgs.isVariable_of_direct hl hp)) hl
          rw [he, he']
          cases hv' : facts'.variableValues.lookup n <;> cases hv : facts.variableValues.lookup n
          case none.none => rfl
          case some.some => rfl
          all_goals simp [hv, hv'] at hc
        all_goals cases hv

-- A comparison that has been recorded comes out the same for both requests.
theorem compare_variable {expected : V} {passed : Bool} (hc : (arg, expected, passed) ∈ b.equalityChecks)
    (hl : arguments.lookup arg = some (.var name))
    (hs : passed = valuesEqual (some ((args.lookup arg).getD pyNone)) (some expected)) :
    valuesEqual (some ((args'.lookup arg).getD pyNone)) (some expected) = passed := by
  by_cases hdef : ∃ d ∈ defs, d.name = arg
  case neg => rw [h.lookup_undefined fun d hm he => hdef ⟨d, hm, he⟩, hs]
  case pos =>
    obtain ⟨d, hmem, rfl⟩ := hdef
    obtain ⟨he, he'⟩ := h.lookup_variable hmem hl
    have hsource : b.provenance.variableSources.lookup d.name = some name := hp ▸ lookup_variableSources hl
    have hmatch {constraint : Constraint V}
        (hcc : constraint ∈ b.equalityConstraints facts.variableValues (d.name, expected, passed)) :
        constraint.holds facts' = true :=
      holds_of_mem hm (List.mem_append_left _ (List.mem_append_right _ (List.mem_flatMap.mpr ⟨_, hc, hcc⟩)))
    rw [FieldArgs.equalityConstraints, hsource] at hmatch
    have hpresent : (facts'.variableValues.lookup name).isSome = (facts.variableValues.lookup name).isSome := by
      have hh := hmatch (List.mem_cons_self)
      rwa [Constraint.holds, valueAt_variables, beq_iff_eq] at hh
    cases hv : facts.variableValues.lookup name
    case none   =>
      have hv' : facts'.variableValues.lookup name = none := by simpa [hv] using hpresent
      rw [he', hv', hs, he, hv]
    case some v =>
      obtain ⟨w, hw⟩ : ∃ w, facts'.variableValues.lookup name = some w :=
        Option.isSome_iff_exists.mp (hpresent.trans (by rw [hv]; rfl))
      have hh := hmatch (List.mem_cons_of_mem _ (by rw [hv]; exact List.mem_singleton_self _))
      rw [Constraint.holds, valueAt_variables, beq_iff_eq, hw] at hh
      rw [he', hw]
      exact hh

include hd in
-- What a read has observed is the same for both requests, if its values have been recorded.
theorem observe_eq {read : ArgRead V} (hn : b.Noted read) (hf : ¬read.Netted b) (ha : b.args = args)
    (hv : ∀ name ∈ b.placeholderedVariableArgs, b.isVariable name = true) :
    (ArgsUse.read read).observe (.init args' (variableProvenance arguments)) =
      (ArgsUse.read read).observe (.init args (variableProvenance arguments)) := by
  cases read
  case get arg              => exact congrArg ArgsObservation.item (h.lookup_observed hp hd hm hn hf)
  case raw                  =>
    have hnil : b.placeholderedVariableArgs = [] := by simpa [ArgRead.Netted] using hf
    refine congrArg ArgsObservation.items (eq_of_lookup h.outNames_nodup (h.law.keys_sublist h.coerced)
      (h.law.keys_sublist h.coerced') fun arg => h.lookup_observed hp hd hm (hn arg) (by simp [hnil]))
  case contains arg         =>
    rw [ArgsUse.observe, ArgsUse.observe, FieldArgs.contains_snd, FieldArgs.contains_snd]
    exact congrArg ArgsObservation.outcome (h.isSome_args hp hm hn)
  case evalIs arg expected  =>
    rw [ArgsUse.observe, ArgsUse.observe, FieldArgs.evalIs_snd, FieldArgs.evalIs_snd]
    refine congrArg ArgsObservation.outcome ?_
    cases hvar : b.isVariable arg
    case true  =>
      obtain ⟨name, hl⟩ := FieldArgs.direct_of_isVariable h.unique hp hvar
      refine h.compare_variable hp hm (hn.left hvar) hl (by rw [FieldArgs.compare, ha]) |>.trans ?_
      rw [FieldArgs.compare, ha]
      rfl
    case false =>
      have hpl : arg ∉ b.placeholderedVariableArgs := fun hc => by simp [hv arg hc] at hvar
      have hl := h.lookup_observed hp hd hm (fun hc => hn.right hvar (hc.resolve_left (by simp [hvar]))) hpl
      exact congrArg (valuesEqual · (some expected)) (congrArg (fun v => some (v.getD pyNone)) hl)
  case source arg           =>
    rw [ArgsUse.observe, ArgsUse.observe, FieldArgs.source_snd]
    rfl

end Coerced

-- A plan resolver whose constraints hold for another request does there what it has done: it reads the same, it
-- observes the same of all that is recorded, and it ends in a plan that is the same but for what placeholders are
-- bound to, if it does not branch on the values of arguments whose sources it takes.
theorem Resolver.follows_of_match [Setoid P] {resolver : Resolver V P}
    (h : Coerced c defs arguments facts facts' args args')
    (hs : resolver.Steady (· ≈ ·) (ArgsUse.Netted (resolver.after (.init args (variableProvenance arguments))))
      (ArgsUse.observe (.init args (variableProvenance arguments))))
    (hd : ∀ name ∈ (resolver.after (.init args (variableProvenance arguments))).observedVariables,
      ∀ v, facts.variableValues.lookup name = some v → Discerned v (facts'.variableValues.lookup name))
    (hm : constraintsMatch (resolver.constraints (.init args (variableProvenance arguments)) facts.variableValues)
      facts' = true) :
    (resolver.run (.init args (variableProvenance arguments))).Follows (· ≈ ·)
      (ArgsUse.Netted (resolver.after (.init args (variableProvenance arguments))))
      (resolver.run (.init args' (variableProvenance arguments))) := by
  have hg := FieldArgs.Grows.performAll (.init args (variableProvenance arguments))
    ((resolver.run (.init args (variableProvenance arguments))).reads.map Prod.fst)
  refine Replay.Program.Alike.follows (fun _ _ _ => Setoid.trans) (.refl Setoid.refl resolver) hs ?_
  intro entry he hf
  have hmem := List.mem_map_of_mem (f := Prod.fst) he
  generalize entry.fst = use at hf hmem ⊢
  cases use
  case iterate   => rfl
  case read read =>
    refine h.observe_eq hg.provenance hd hm (FieldArgs.noted_of_mem hmem) hf hg.args ?_
    exact FieldArgs.placeholdered_isVariable fun name hn => absurd hn List.not_mem_nil

end Requests

namespace Catalog

open Grafast.Filter

def isPlain : ValueNode PyData → Bool
  | .var _     => true
  | .literal _ => true
  | _          => false

-- A coercion that takes no lists and no objects.
def plainCoercion : ArgumentCoercion PyData PyData where
  getArgumentValues defs arguments variableValues :=
    if arguments.all (isPlain ·.snd) then coercion.getArgumentValues defs arguments variableValues else none
  lookup_var ho hd ha hc := by
    split at hc
    case isTrue  => exact coercion.lookup_var ho hd ha hc
    case isFalse => cases hc

theorem lookup_coerceAll_congr {arguments : List (String × ValueNode PyData)} {v v' : List (String × PyData)}
    {defs : List (ArgumentDefinition PyData)} {key : String}
    (h : ∀ d ∈ defs, d.outName = key → coerced arguments v' d = coerced arguments v d) :
    (coerceAll arguments v' defs).lookup key = (coerceAll arguments v defs).lookup key := by
  induction defs
  case nil                => rfl
  case cons first rest hi =>
    have hi := hi fun d hd => h d (.tail _ hd)
    rw [coerceAll, coerceAll] at hi ⊢
    rw [List.filterMap_cons, List.filterMap_cons]
    by_cases hk : first.outName = key
    case pos =>
      rw [h first (.head _) hk]
      cases coerced arguments v first
      case none   => exact hi
      case some _ => simp [entry, hk]
    case neg =>
      have hk : (key == first.outName) = false := beq_eq_false_iff_ne.mpr (Ne.symm hk)
      cases coerced arguments v first <;> cases coerced arguments v' first <;>
        simp [entry, List.lookup_cons, hk, hi]

theorem plainCoercion_eq {arguments : List (String × ValueNode PyData)} {v args : List (String × PyData)}
    {defs : List (ArgumentDefinition PyData)} (h : plainCoercion.getArgumentValues defs arguments v = some args) :
    arguments.all (isPlain ·.snd) = true ∧ args = coerceAll arguments v defs := by
  rw [plainCoercion] at h
  dsimp only at h
  split at h
  case isFalse  => cases h
  case isTrue hp =>
    rw [coercion] at h
    dsimp only at h
    split at h
    case isTrue  => cases h
    case isFalse => exact ⟨hp, (Option.some.inj h).symm⟩

theorem plainCoercion_local : plainCoercion.Local where
  keys_sublist h := (plainCoercion_eq h).right ▸ keys_coerceAll ..
  lookup_congr {defs arguments v v' args args' key} h hv hv' := by
    obtain ⟨_, rfl⟩ := plainCoercion_eq hv
    obtain ⟨_, rfl⟩ := plainCoercion_eq hv'
    refine lookup_coerceAll_congr fun d hd hk => ?_
    have h := h d hd hk
    rw [coerced, coerced]
    cases ha : arguments.lookup d.name
    case none       => rfl
    case some value =>
      cases value
      case var name =>
        dsimp only
        rw [h _ ha name (List.mem_singleton_self _)]
      all_goals rfl
  isSome_given {defs arguments variableValues args d value} ho hd hl hv hc := by
    obtain ⟨hp, rfl⟩ := plainCoercion_eq hc
    obtain ⟨before, after, he, _⟩ := List.lookup_eq_some_iff.mp hl
    have hplain : isPlain value = true := List.all_eq_true.mp hp (d.name, value) (he ▸ by simp)
    rw [lookup_coerceAll ho hd, coerced, hl]
    cases value
    case literal _ => rfl
    case var _     => cases hv
    all_goals cases hplain

-- A statement with what its placeholder is bound to.
structure Statement where
  text  : String
  bound : Option PyData

-- Statements are the same but for what they are bound to.
instance : Setoid Statement where
  r a b := a.text = b.text
  iseqv := ⟨fun _ => rfl, Eq.symm, Eq.trans⟩

def shelf : ArgumentDefinition PyData where
  name         := "shelf"
  outName      := "shelf"
  defaultValue := none
  nonNull      := false

def definitions : List (ArgumentDefinition PyData) :=
  [status, shelf]

def given : List (String × ValueNode PyData) :=
  [("status", .var "status"), ("shelf", .literal (.str "top"))]

def requestFor (value : String) : RequestFacts PyData where
  variableValues := [("status", .str value)]
  contextValue   := .none

def argsFor (value : String) : List (String × PyData) :=
  [("status", .str value), ("shelf", .str "top")]

abbrev ShelfResolver := Resolver PyData Statement

def bindValue : ArgsObservation PyData → ShelfResolver
  | .item value => .done ⟨"status = :status", value⟩
  | _           => .done ⟨"status = :status", none⟩

def takeValue (_ : ArgsObservation PyData) : ShelfResolver :=
  .read (.read (.get "status")) bindValue

def takeSource : ArgsObservation PyData → ShelfResolver
  | .outcome true => .done ⟨"is_active", none⟩
  | _             => .read (.read (.source "status")) takeValue

-- A resolver that compares an argument, and that binds its value to a placeholder.
def byStatus : ShelfResolver :=
  .read (.read (.evalIs "status" (.str "active"))) takeSource

theorem coerced_shelf (value value' : String) :
    Coerced plainCoercion definitions given (requestFor value) (requestFor value') (argsFor value)
      (argsFor value') where
  law      := plainCoercion_local
  unique   := by decide
  nodup    := by decide
  named    := by simp [definitions, status, shelf]
  coerced  := rfl
  coerced' := rfl

-- The resolver of a request for banned products does the same for drafts.
theorem byStatus_follows :
    (byStatus.run (.init (argsFor "banned") (variableProvenance given))).Follows (· ≈ ·)
      (ArgsUse.Netted (byStatus.after (.init (argsFor "banned") (variableProvenance given))))
      (byStatus.run (.init (argsFor "draft") (variableProvenance given))) := by
  refine Resolver.follows_of_match (coerced_shelf "banned" "draft") ?_ ?_ (by decide +kernel)
  · refine ⟨fun hf => hf.elim, fun hf => hf.elim, fun _ o => ?_, trivial⟩
    cases o <;> exact .done rfl
  · exact fun name hm => absurd hm List.not_mem_nil

end Catalog

end Grafast
