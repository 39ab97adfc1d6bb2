import Grafast.Request.Data
import Grafast.Request.Source

namespace Grafast

open PyObject

variable {A V Y : Type} [PyObject V Y]

theorem var_append_inj {a b : String} : "var:" ++ a = "var:" ++ b ↔ a = b :=
  String.append_right_inj ..

theorem lookup_map_var (variableValues : List (String × V)) (name : String) :
    (variableValues.map fun item => ("var:" ++ item.fst, item.snd)).lookup ("var:" ++ name) =
      variableValues.lookup name := by
  induction variableValues
  case nil               => rfl
  case cons item rest hi =>
    rw [List.map_cons, List.lookup_cons, List.lookup_cons, hi]
    have he : ("var:" ++ name == "var:" ++ item.fst) = (name == item.fst) := by
      rw [Bool.eq_iff_iff, beq_iff_eq, beq_iff_eq, var_append_inj]
    rw [he]

-- The source of a variable is bound to its value, or to null if it has none.
theorem boundValue_var (variableValues : List (String × V)) (declared : List String) (name : String) :
    boundValue (valuesBySource variableValues declared) ("var:" ++ name) =
      (variableValues.lookup name).getD pyNone := by
  rw [valuesBySource, ← lookup_map_var]
  generalize variableValues.map (fun item => ("var:" ++ item.fst, item.snd)) = mapping
  induction declared generalizing mapping
  case nil                  => rfl
  case cons first rest hi =>
    rw [List.foldl_cons, hi]
    split
    case isTrue    => rfl
    case isFalse h =>
      rw [List.lookup_append]
      cases hm : mapping.lookup ("var:" ++ name)
      case some v => rfl
      case none   =>
        rw [List.lookup_cons]
        cases "var:" ++ name == "var:" ++ first <;> rfl

section Provenance

variable {arguments : List (String × ValueNode A)} {arg name : String}

theorem lookup_variableSources (h : arguments.lookup arg = some (.var name)) :
    (variableProvenance arguments).variableSources.lookup arg = some name := by
  induction arguments
  case nil               => cases h
  case cons first rest hi =>
    rw [List.lookup_cons] at h
    simp only [variableProvenance, List.filterMap_cons] at hi ⊢
    cases he : arg == first.fst
    case true  =>
      rw [he] at h
      simp [Option.some.inj h, directVariable?, List.lookup_cons, he]
    case false =>
      rw [he] at h
      cases directVariable? first.snd
      case none   => exact hi h
      case some n => simp [List.lookup_cons, he, hi h]

theorem not_nested (hu : (arguments.map Prod.fst).Nodup) (h : arguments.lookup arg = some (.var name)) :
    ((variableProvenance arguments).nestedVariableArgs.map Prod.fst).contains arg = false := by
  rw [Bool.eq_false_iff, ne_eq, List.contains_iff_mem]
  intro hm
  obtain ⟨entry, he, rfl⟩ := List.mem_map.mp hm
  obtain ⟨first, hf, hn⟩ := List.mem_filterMap.mp he
  obtain ⟨names, hnn, rfl⟩ := Option.map_eq_some_iff.mp hn
  obtain ⟨before, after, heq, _⟩ := List.lookup_eq_some_iff.mp h
  have hv : first = (first.fst, .var name) :=
    List.inj_on_of_nodup_map hu hf (heq ▸ by simp) rfl
  rw [hv] at hnn
  cases hnn

theorem source_eq {args : List (String × V)} (hu : (arguments.map Prod.fst).Nodup)
    (h : arguments.lookup arg = some (.var name)) :
    ((FieldArgs.init args (variableProvenance arguments)).source arg).snd = some ("var:" ++ name) := by
  have hs := lookup_variableSources h
  have hn : (FieldArgs.init args (variableProvenance arguments)).isNested arg = false := not_nested hu h
  rw [FieldArgs.source, hn]
  simp only [Bool.false_eq_true, if_false]
  split <;> simp [FieldArgs.init, hs]

end Provenance

-- A placeholder is bound to the value that would be inlined, unless the variable is omitted and the argument has a
-- default, or the argument is stored under an out name.
theorem boundAsInlined_iff (c : ArgumentCoercion A V) {defs : List (ArgumentDefinition V)}
    {arguments : List (String × ValueNode A)} {variableValues args : List (String × V)} {declared : List String}
    {d : ArgumentDefinition V} {name : String} (hu : (arguments.map Prod.fst).Nodup) (hn : (defs.map (·.name)).Nodup)
    (ho : (defs.map (·.outName)).Nodup) (hd : d ∈ defs) (ha : arguments.lookup d.name = some (.var name))
    (hc : c.getArgumentValues defs arguments variableValues = some args)
    (hs : ∀ arg ∈ args.map Prod.fst, arg ∈ defs.map (·.outName)) :
    BoundAsInlined arguments args variableValues declared d.name ↔
      StoredAsVariable defs args variableValues d name := by
  simp only [BoundAsInlined, source_eq hu ha, Option.some.injEq, exists_eq_left', boundValue_var, StoredAsVariable]
  cases hf : defs.find? (·.outName = d.name)
  case none       =>
    have hl : args.lookup d.name = none := by
      refine List.lookup_eq_none_iff.mpr fun item hi => ?_
      obtain ⟨e, he, hk⟩ := List.mem_map.mp (hs item.fst (List.mem_map_of_mem hi))
      have hne : ¬e.outName = d.name := fun ho => List.find?_eq_none.mp hf e he (decide_eq_true ho)
      exact bne_iff_ne.mpr fun heq => hne (hk.trans heq.symm)
    simp [hl]
  case some other =>
    have hk : other.outName = d.name := by simpa using List.find?_some hf
    dsimp only
    split
    case isTrue hm  =>
      obtain rfl : other = d := List.inj_on_of_nodup_map hn (List.mem_of_find?_eq_some hf) hd hm
      rw [← hk, c.lookup_var ho hd ha hc]
      cases variableValues.lookup name
      case none   => simp [eq_comm]
      case some v => simp
    case isFalse => rw [hk]

namespace Filter

-- The coercion of arguments that are variables or literals.
def coerced (arguments : List (String × ValueNode PyData)) (variableValues : List (String × PyData))
    (d : ArgumentDefinition PyData) : Option PyData :=
  match arguments.lookup d.name with
  | some (.var name)      => (variableValues.lookup name).orElse fun _ => d.defaultValue
  | some (.literal value) => some value
  | _                     => d.defaultValue

def entry (d : ArgumentDefinition PyData) (value : PyData) : String × PyData :=
  (d.outName, value)

def coerceAll (arguments : List (String × ValueNode PyData)) (variableValues : List (String × PyData))
    (defs : List (ArgumentDefinition PyData)) : List (String × PyData) :=
  defs.filterMap fun d => (coerced arguments variableValues d).map (entry d)

def missing (arguments : List (String × ValueNode PyData)) (variableValues : List (String × PyData))
    (d : ArgumentDefinition PyData) : Bool :=
  d.nonNull && ((coerced arguments variableValues d).getD .none).typeName = "NoneType"

theorem lookup_coerceAll {arguments : List (String × ValueNode PyData)} {variableValues : List (String × PyData)}
    {defs : List (ArgumentDefinition PyData)} {d : ArgumentDefinition PyData}
    (ho : (defs.map (·.outName)).Nodup) (hd : d ∈ defs) :
    (coerceAll arguments variableValues defs).lookup d.outName = coerced arguments variableValues d := by
  induction defs
  case nil                => cases hd
  case cons first rest hi =>
    obtain ⟨hn, ho⟩ := List.nodup_cons.mp ho
    rw [coerceAll, List.filterMap_cons]
    obtain rfl | hd := List.mem_cons.mp hd
    · cases hv : coerced arguments variableValues d
      case some v => simp [entry]
      case none   =>
        refine List.lookup_eq_none_iff.mpr fun item hi => ?_
        obtain ⟨other, hm, ho⟩ := List.mem_filterMap.mp hi
        obtain ⟨v, _, rfl⟩ := Option.map_eq_some_iff.mp ho
        have hne : d.outName ≠ other.outName := fun he => hn (List.mem_map.mpr ⟨other, hm, he.symm⟩)
        simpa [entry] using hne
    · have hne : d.outName ≠ first.outName := fun he => hn (List.mem_map.mpr ⟨d, hd, he⟩)
      have hi := hi ho hd
      cases coerced arguments variableValues first
      case none   => exact hi
      case some v =>
        rw [coerceAll] at hi
        simp [entry, List.lookup_cons, beq_eq_false_iff_ne.mpr hne, hi]

def coercion : ArgumentCoercion PyData PyData where
  getArgumentValues defs arguments variableValues :=
    if defs.any (missing arguments variableValues) then none else some (coerceAll arguments variableValues defs)
  lookup_var {defs arguments variableValues args d name} ho hd ha hc := by
    split at hc
    case isTrue  => cases hc
    case isFalse =>
      obtain rfl := Option.some.inj hc
      rw [lookup_coerceAll ho hd, coerced, ha]

-- Users by a status, which is `active` by default.
def status : ArgumentDefinition PyData where
  name         := "status"
  outName      := "status"
  defaultValue := some (.str "active")
  nonNull      := false

def arguments : List (String × ValueNode PyData) :=
  [("status", .var "status")]

theorem keys_coerceAll (arguments : List (String × ValueNode PyData)) (v : List (String × PyData))
    (defs : List (ArgumentDefinition PyData)) :
    ((coerceAll arguments v defs).map Prod.fst).Sublist (defs.map (·.outName)) := by
  induction defs
  case nil                => exact .slnil
  case cons first rest hi =>
    rw [coerceAll] at hi ⊢
    rw [List.filterMap_cons, List.map_cons]
    cases coerced arguments v first
    case none   => exact hi.cons _
    case some _ => exact hi.cons_cons _

def banned : List (String × PyData) :=
  [("status", .str "banned")]

def active : List (String × PyData) :=
  [("status", .str "active")]

theorem given_boundAsInlined : BoundAsInlined arguments banned banned ["status"] status.name :=
  (boundAsInlined_iff coercion (by decide) (by decide) (by decide) (List.mem_singleton_self status) rfl rfl
    (keys_coerceAll arguments banned [status]).subset).mpr (.inl rfl)

-- The variable is null for the placeholder, where a resolver would filter by the default.
theorem omitted_not_boundAsInlined :
    coercion.getArgumentValues [status] arguments [] = some active ∧
      ¬BoundAsInlined arguments active [] ["status"] status.name := by
  refine ⟨rfl, ?_⟩
  rintro ⟨source, hs, hb⟩
  obtain rfl : "var:status" = source := Option.some.inj hs
  cases hb

end Filter

end Grafast
