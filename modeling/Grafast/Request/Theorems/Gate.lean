import Grafast.Request.Data
import Grafast.Request.Document
import Grafast.Request.FieldArgs
import Grafast.Request.Gate

namespace Grafast

open PyObject

variable {A F V Y : Type} [PyObject V Y]

-- Variables are read by their names.
theorem valueAt_variables (facts : RequestFacts V) (name : String) :
    valueAt (facts.scopeValue .variables) [name] = facts.variableValues.lookup name := by
  have hs (v : Option V) : v.bind (valueAt · []) = v := by cases v <;> rfl
  rw [RequestFacts.scopeValue, valueAt, keys_ofItems]
  dsimp only
  split
  case isTrue    => rw [hs, getItem_ofItems]
  case isFalse h =>
    refine (Option.eq_none_iff_forall_ne_some.mpr fun v hv => h ?_).symm
    obtain ⟨before, after, he, _⟩ := List.lookup_eq_some_iff.mp hv
    simp [he]

-- Whether a constraint on the context sees an entry that a read has found.
def Visible (context : V) (key : String) : Prop :=
  match keys context with
  | some names => key ∈ names
  | none       => isNone context = false

theorem isSome_valueAt_context {context : V} {key : String} :
    (valueAt context [key]).isSome = true ↔ Visible context key ∧ (ContextGate.read context key).isSome = true := by
  have hs (v : Option V) : v.bind (valueAt · []) = v := by cases v <;> rfl
  rw [valueAt, Visible, ContextGate.read]
  cases hk : keys context
  case none       => cases hn : isNone context <;> simp [hs]
  case some names =>
    by_cases hm : key ∈ names
    case pos => simp [hs, hm]
    case neg => simp [hm]

theorem valueAt_context {context : V} {key : String} (h : Visible context key) :
    valueAt context [key] = ContextGate.read context key := by
  have hs (v : Option V) : v.bind (valueAt · []) = v := by cases v <;> rfl
  rw [valueAt, ContextGate.read]
  rw [Visible] at h
  cases hk : keys context
  case none       => simp_all
  case some names => simp_all

theorem has_iff {context : V} {key : String} (h : Visible context key) :
    ContextGate.has context key = (valueAt context [key]).isSome := by
  rw [valueAt_context h, ContextGate.has, ContextGate.read]
  rw [Visible] at h
  cases hk : keys context
  case none       => simp
  case some names => simp_all [getItem_of_key context names key hk]

theorem isSome_valueAt_of_not_visible {context : V} {key : String} (h : ¬Visible context key) :
    valueAt context [key] = none :=
  Option.not_isSome_iff_eq_none.mp fun hs => h (isSome_valueAt_context.mp hs).left

variable [DecidableEq Y]

@[simp]
theorem valuesEqual_self (hr : ∀ v : V, eq v v = true) (v : Option V) : valuesEqual v v = true := by
  cases v <;> simp [valuesEqual, hr]

-- A read that a replay on the same request sees as it was.
def GateRead.Stable (facts : RequestFacts V) : GateRead V → Prop
  | .eval key       => (ContextGate.read facts.contextValue key).isSome = true → Visible facts.contextValue key
  | .evalIs key _   => (ContextGate.read facts.contextValue key).isSome = true → Visible facts.contextValue key
  | .evalHas key    => ContextGate.has facts.contextValue key = true → Visible facts.contextValue key
  | .contains name  =>
    (facts.variableValues.any fun item => name.equals item.fst) = (facts.variableValues.lookup name.str).isSome
  | _               => True

variable {facts : RequestFacts V}

-- The constraints that a read has recorded hold for its request just if the read is stable.
theorem GateRead.record_iff (hr : ∀ v : V, eq v v = true) (read : GateRead V) :
    constraintsMatch (read.record facts) facts = true ↔ read.Stable facts := by
  cases read
  case eval key =>
    simp only [record, Stable]
    cases h : ContextGate.read facts.contextValue key
    case none   => simp [constraintsMatch]
    case some v =>
      simp only [constraintsMatch, List.all_cons, List.all_nil, Bool.and_true, Constraint.holds, Option.isSome_some,
        true_imp_iff, RequestFacts.scopeValue]
      by_cases hv : Visible facts.contextValue key
      case pos => simp [valueAt_context hv, h, hr, hv]
      case neg => simp [isSome_valueAt_of_not_visible hv, valuesEqual, hv]
  case evalIs key expected =>
    simp only [record, Stable]
    cases h : ContextGate.read facts.contextValue key
    case none   => simp [constraintsMatch]
    case some v =>
      simp only [constraintsMatch, List.all_cons, List.all_nil, Bool.and_true, Constraint.holds, Option.isSome_some,
        true_imp_iff, RequestFacts.scopeValue]
      by_cases hv : Visible facts.contextValue key
      case pos => simp [valueAt_context hv, h, hv]
      case neg => simp [isSome_valueAt_of_not_visible hv, hv]
  case evalHas key =>
    simp only [record, Stable, constraintsMatch, List.all_cons, List.all_nil, Bool.and_true, Constraint.holds,
      RequestFacts.scopeValue, beq_iff_eq]
    by_cases hv : Visible facts.contextValue key
    case pos => simp [has_iff hv, hv]
    case neg =>
      rw [isSome_valueAt_of_not_visible hv, Option.isSome_none]
      cases ContextGate.has facts.contextValue key <;> simp [hv]
  case getItem name =>
    simp only [record, Stable, iff_true]
    cases h : facts.variableValues.lookup name
    case none   => rfl
    case some v => simp [constraintsMatch, Constraint.holds, valueAt_variables, h, hr]
  case get name      => simp [record, Stable, constraintsMatch, Constraint.holds, valueAt_variables, hr]
  case contains name =>
    simp only [record, Stable, constraintsMatch, List.all_cons, List.all_nil, Bool.and_true, Constraint.holds,
      valueAt_variables, beq_iff_eq]
    exact eq_comm
  case enumerate     =>
    simp [record, Stable, constraintsMatch, Constraint.holds, RequestFacts.scopeValue, valueAt, keys_ofItems]

-- What planning records of a request: the variables of directives, the reads of plan resolvers, what they
-- observe of their arguments, and all arguments of the fields that have no plan resolver.
inductive BuildRead (A F V : Type)
  | directives (selectionSet : List (SelectionNode A F)) (fragments : Fragments A F)
  | gate (read : GateRead V)
  | fieldArgs (arguments : List (String × ValueNode A)) (args : List (String × V)) (reads : List (ArgRead V))
  | plainField (arguments : List (String × ValueNode A))

namespace BuildRead

def argsAfter (arguments : List (String × ValueNode A)) (args : List (String × V)) (reads : List (ArgRead V)) :
    FieldArgs V :=
  reads.foldl FieldArgs.perform (.init args (variableProvenance arguments))

def record (facts : RequestFacts V) : BuildRead A F V → List (Constraint V)
  | .directives selectionSet fragments => directiveVariableConstraints selectionSet fragments facts.variableValues
  | .gate read                         => read.record facts
  | .fieldArgs arguments args reads    =>
    recordFieldArgsConstraints (argsAfter arguments args reads) facts.variableValues
  | .plainField arguments              =>
    ((arguments.flatMap (·.snd.nestedVariables)).dedup.mergeSort).map fun name =>
      .value .variables [name] (facts.variableValues.lookup name)

-- An argument that is a variable compares as the variable does.
def Stable (facts : RequestFacts V) : BuildRead A F V → Prop
  | .gate read                      => read.Stable facts
  | .fieldArgs arguments args reads => ∀ arg expected, .evalIs arg expected ∈ reads →
    ∀ name v, (variableProvenance arguments).variableSources.lookup arg = some name →
      facts.variableValues.lookup name = some v →
        (FieldArgs.init args (variableProvenance arguments)).compare arg expected =
          valuesEqual (some v) (some expected)
  | _                               => True

end BuildRead

section Args

variable {a : FieldArgs V}

-- What a comparison has recorded, for an argument that is a variable.
def ArgRead.check? (a : FieldArgs V) : ArgRead V → Option (String × V × Bool)
  | .evalIs name expected => if a.isVariable name then some (name, expected, a.compare name expected) else none
  | _                     => none

theorem FieldArgs.perform_eq (read : ArgRead V) : (a.perform read).args = a.args ∧
    (a.perform read).provenance = a.provenance ∧
    (a.perform read).equalityChecks = a.equalityChecks ++ (read.check? a).toList := by
  cases read
  case get name             => rw [perform, noteLiteralRead]; split <;> simp [ArgRead.check?]
  case raw                  => simp [perform, FieldArgs.raw, ArgRead.check?]
  case contains name        => rw [perform, FieldArgs.contains]; dsimp only; split <;> simp [ArgRead.check?]
  case evalIs name expected =>
    rw [perform, FieldArgs.evalIs, ArgRead.check?]
    split
    case isTrue  => simp
    case isFalse => split <;> simp
  case source name          =>
    rw [perform, FieldArgs.source]
    split
    case isTrue  => simp [ArgRead.check?]
    case isFalse => dsimp only; split <;> simp [ArgRead.check?]

theorem FieldArgs.foldl_perform_eq (a : FieldArgs V) (reads : List (ArgRead V)) :
    (reads.foldl perform a).args = a.args ∧
    (reads.foldl perform a).provenance = a.provenance ∧
    (reads.foldl perform a).equalityChecks = a.equalityChecks ++ reads.filterMap (·.check? a) := by
  induction reads generalizing a
  case nil                => simp
  case cons read reads hi =>
    obtain ⟨ha, hp, he⟩ := a.perform_eq read
    obtain ⟨ha', hp', he'⟩ := hi (a.perform read)
    have hc : ArgRead.check? (a.perform read) = ArgRead.check? a := by
      funext r
      cases r <;> simp [ArgRead.check?, isVariable, compare, ha, hp]
    refine ⟨ha'.trans ha, hp'.trans hp, ?_⟩
    rw [List.foldl_cons, he', he, hc, List.filterMap_cons]
    cases read.check? a <;> simp

end Args

section Build

variable (hr : ∀ v : V, eq v v = true)

include hr in
theorem holds_value (name : String) :
    Constraint.holds facts (.value .variables [name] (facts.variableValues.lookup name)) = true := by
  rw [Constraint.holds, valueAt_variables, valuesEqual_self hr]

theorem holds_exists (name : String) :
    Constraint.holds facts (.exists .variables [name] (facts.variableValues.lookup name).isSome) = true := by
  rw [Constraint.holds, valueAt_variables, beq_self_eq_true]

include hr in
theorem constraintsMatch_values (names : List String) :
    constraintsMatch (names.map fun name => .value .variables [name] (facts.variableValues.lookup name))
      facts = true := by
  rw [constraintsMatch, List.all_map, List.all_eq_true]
  exact fun name _ => holds_value hr name

-- The check of a comparison holds just if the variable of the argument compares in the same way.
theorem equalityConstraints_iff {a : FieldArgs V} {check : String × V × Bool} :
    constraintsMatch (a.equalityConstraints facts.variableValues check) facts = true ↔
      ∀ name v, a.provenance.variableSources.lookup check.fst = some name →
        facts.variableValues.lookup name = some v →
          check.snd.snd = valuesEqual (some v) (some check.snd.fst) := by
  rw [FieldArgs.equalityConstraints, constraintsMatch]
  cases hs : a.provenance.variableSources.lookup check.fst
  case none      => simp
  case some name =>
    have he : Constraint.holds facts (.exists .variables [name] (facts.variableValues.lookup name).isSome) = true :=
      holds_exists name
    dsimp only
    cases hv : facts.variableValues.lookup name
    case none   =>
      rw [hv] at he
      refine iff_of_true (by simpa using he) fun name' v hn hv' => ?_
      obtain rfl := Option.some.inj hn
      cases hv.symm.trans hv'
    case some v =>
      simp only [Option.isSome_some, if_true, List.all_cons, Bool.true_and, List.all_nil, Bool.and_true,
        Constraint.holds, valueAt_variables, hv, beq_self_eq_true, beq_iff_eq]
      constructor
      case mp  =>
        intro h name' v' hn hv'
        obtain rfl := Option.some.inj hn
        obtain rfl := Option.some.inj (hv.symm.trans hv')
        exact h.symm
      case mpr => exact fun h => (h name v rfl hv).symm

include hr in
theorem recordFieldArgsConstraints_iff {a : FieldArgs V} :
    constraintsMatch (recordFieldArgsConstraints a facts.variableValues) facts = true ↔
      ∀ check ∈ a.equalityChecks, constraintsMatch (a.equalityConstraints facts.variableValues check) facts = true := by
  have hi : constraintsMatch (a.inlineConstraints facts.variableValues) facts = true :=
    constraintsMatch_values hr _
  have hm : ∀ arg, constraintsMatch (a.membershipConstraints facts.variableValues arg) facts = true := by
    intro arg
    rw [FieldArgs.membershipConstraints, constraintsMatch]
    cases a.provenance.variableSources.lookup arg
    case none      => rfl
    case some name => simp [holds_exists]
  simp only [constraintsMatch] at hi hm ⊢
  simp only [recordFieldArgsConstraints, List.all_append, List.all_flatMap, hi, hm, Bool.true_and,
    Bool.and_eq_true, List.all_eq_true, implies_true, and_true]

theorem isVariable_of_lookup {a : FieldArgs V} {arg name : String}
    (h : a.provenance.variableSources.lookup arg = some name) : a.isVariable arg = true := by
  obtain ⟨before, after, he, _⟩ := List.lookup_eq_some_iff.mp h
  simp [FieldArgs.isVariable, Provenance.variableArgs, he]

include hr in
-- What planning has recorded holds for its request just if each of the reads is stable.
theorem BuildRead.record_iff (read : BuildRead A F V) :
    constraintsMatch (read.record facts) facts = true ↔ read.Stable facts := by
  cases read
  case directives               => exact iff_of_true (constraintsMatch_values hr _) trivial
  case gate read                => exact GateRead.record_iff hr read
  case plainField               => exact iff_of_true (constraintsMatch_values hr _) trivial
  case fieldArgs arguments args reads =>
    obtain ⟨-, hp, he⟩ := FieldArgs.foldl_perform_eq (.init args (variableProvenance arguments)) reads
    rw [record, recordFieldArgsConstraints_iff hr, Stable, argsAfter, he]
    simp only [equalityConstraints_iff, hp]
    constructor
    case mp  =>
      intro h arg expected hm name v hs hv
      refine h (arg, expected, (FieldArgs.init args (variableProvenance arguments)).compare arg expected) ?_ name v hs hv
      refine List.mem_append_right _ (List.mem_filterMap.mpr ⟨_, hm, ?_⟩)
      rw [ArgRead.check?, if_pos (isVariable_of_lookup hs)]
    case mpr =>
      intro h check hc name v hs hv
      obtain hc | hc := List.mem_append.mp hc
      · cases hc
      · obtain ⟨read, hm, hr⟩ := List.mem_filterMap.mp hc
        cases read
        case evalIs arg expected =>
          rw [ArgRead.check?] at hr
          split at hr
          case isTrue  =>
            obtain rfl := Option.some.inj hr
            exact h arg expected hm name v hs hv
          case isFalse => cases hr
        all_goals cases hr

include hr in
theorem constraintsMatch_record_iff (reads : List (BuildRead A F V)) :
    constraintsMatch (reads.flatMap (·.record facts)) facts = true ↔ ∀ read ∈ reads, read.Stable facts := by
  rw [constraintsMatch, List.all_flatMap, List.all_eq_true]
  exact forall₂_congr fun read _ => BuildRead.record_iff hr read

end Build

namespace Settings

-- A dictionary that makes up the entries that it does not have, as a class with `__missing__` does.
def withDefaults : PyData :=
  .dict ["tenant"] (fun key => if key = "tenant" then .str "acme" else .str "public") true

def request : RequestFacts PyData where
  variableValues := [("status", .str "active")]
  contextValue   := withDefaults

-- Reads of a context and of an argument that is a variable.
def reads : List (BuildRead Unit Unit PyData) :=
  [.gate (.eval "tenant"), .gate (.evalHas "role"), .gate .enumerate,
    .fieldArgs [("status", .var "status")] [("status", .str "active")]
      [.get "status", .evalIs "status" (.str "active"), .contains "status"]]

-- The plan of a build is found for its request.
theorem reads_match : constraintsMatch (reads.flatMap (·.record request)) request = true := by
  refine (constraintsMatch_record_iff PyData.equals_self reads).mpr ?_
  simp only [reads, List.forall_mem_cons, List.not_mem_nil, false_imp_iff, implies_true, and_true]
  refine ⟨fun _ => List.mem_singleton_self _, fun h => absurd h (by decide), trivial, ?_⟩
  intro arg expected hm name v hs hv
  simp only [List.mem_cons, reduceCtorEq, ArgRead.evalIs.injEq, List.not_mem_nil, or_false, false_or] at hm
  obtain ⟨rfl, rfl⟩ := hm
  obtain rfl : "status" = name := Option.some.inj hs
  obtain rfl : PyData.str "active" = v := Option.some.inj hv
  rfl

-- An entry that is made up is not found again.
theorem region_not_match :
    constraintsMatch ([BuildRead.gate (.eval "region")].flatMap fun read : BuildRead Unit Unit PyData =>
      read.record request) request = false := by
  decide

end Settings

end Grafast
