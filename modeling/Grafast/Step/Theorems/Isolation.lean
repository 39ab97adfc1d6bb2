import Grafast.Step.Isolation
import Grafast.Step.Theorems.Meaning

namespace Grafast

open Batch

namespace CoreStep

open PyValue Callables

open Text (Str)

variable {V S F : Type} [PyValue V S] {col : List V} {values : List (List V)}

theorem entries_self : entries col.length (col :: values) = some col :=
  mapM_range

theorem poisoned_iff {i : Nat} : Poisoned [col] i ↔ ∃ e, col[i]? = some e ∧ isException e = true := by
  simp [Poisoned]

theorem nodeKeys_restrict {loaders : Loaders F} {keys : List (Except V (Str × V))}
    (h : nodeKeys loaders col = .ok keys) (k : Nat → Bool) :
    nodeKeys loaders (restrict k col) = .ok (restrict k keys) := by
  rw [nodeKeys_eq_ok_iff, ← restrict_map, ← restrict_map, nodeKeys_eq_ok_iff.mp h]

section Node

-- The result of an entry of a node step, when `n` entries of each type come before it.
def scatterAt (load : Str → Option (Except V (List V))) (n : Str → Nat) :
    Except V (Str × V) → Option V
  | .error e          => some e
  | .ok (typename, _) => do
    match ← load typename with
    | .error e   => some e
    | .ok loaded => loaded[n typename]?

def countKey (n : Str → Nat) : Except V (Str × V) → Str → Nat
  | .error _          => n
  | .ok (typename, _) => Function.update n typename (n typename + 1)

def scatterFrom (load : Str → Option (Except V (List V))) :
    (Str → Nat) → List (Except V (Str × V)) → Option (List V)
  | _, []          => some []
  | n, key :: keys =>
    (scatterAt load n key).bind fun v => (scatterFrom load (countKey n key) keys).map (v :: ·)

variable [Callables V F] {loaders : Loaders F}

theorem keysOfType_append {keys keys' : List (Except V (Str × V))} {t : Str} :
    keysOfType (keys ++ keys') t = keysOfType keys t ++ keysOfType keys' t :=
  List.filterMap_append

theorem countKey_eq {keys : List (Except V (Str × V))} {key : Except V (Str × V)} :
    (fun t => (keysOfType (keys ++ [key]) t).length) =
      countKey (fun t => (keysOfType keys t).length) key := by
  funext t
  rw [keysOfType_append, List.length_append]
  cases key
  case error e => rfl
  case ok x    =>
    obtain ⟨t', k⟩ := x
    by_cases h : t' = t
    case pos => simp [countKey, keysOfType, h]
    case neg => simp [countKey, keysOfType, h, Ne.symm h]

theorem mapM_scatterNode (before : List (Except V (Str × V)))
    {keys : List (Except V (Str × V))} :
    (keys.zipIdx before.length).mapM (fun x => scatterNode loaders (before ++ keys) x.snd x.fst) =
      scatterFrom (loadType loaders (before ++ keys)) (fun t => (keysOfType before t).length) keys := by
  induction keys generalizing before
  case nil            => rfl
  case cons key keys hi =>
    have hi := hi (before ++ [key])
    rw [List.length_append, List.length_singleton, List.append_assoc, List.singleton_append,
      countKey_eq] at hi
    have hs : scatterNode loaders (before ++ key :: keys) before.length key =
        scatterAt (loadType loaders (before ++ key :: keys)) (fun t => (keysOfType before t).length) key := by
      cases key
      case error e => rfl
      case ok x    => rw [scatterNode, List.take_left]; rfl
    rw [List.zipIdx_cons, mapM_cons, hi, scatterFrom, hs]

theorem nodeEntries_eq {ids : List V} {keys : List (Except V (Str × V))} (h : nodeKeys loaders ids = .ok keys) :
    nodeEntries loaders ids = scatterFrom (loadType loaders keys) (fun _ => 0) keys := by
  rw [nodeEntries, h]
  exact mapM_scatterNode []

theorem scatterFrom_restrict {load : Str → Option (Except V (List V))} {n : Str → Nat}
    {keys : List (Except V (Str × V))} {out : List V} {k : Nat → Bool}
    (h : scatterFrom load n keys = some out)
    (hk : ∀ i key, keys[i]? = some key → k i = false → ∃ e, key = .error e) :
    scatterFrom load n (restrict k keys) = some (restrict k out) := by
  induction keys generalizing n k out
  case nil            => exact Option.some.inj h ▸ rfl
  case cons key keys hi =>
    simp only [scatterFrom, Option.bind_eq_some_iff, Option.map_eq_some_iff] at h
    obtain ⟨v, hv, out, ho, rfl⟩ := h
    have hi := hi ho (k := (k <| · + 1)) fun i key hm => hk (i + 1) key (by simpa using hm)
    rw [restrict, restrict]
    cases h0 : k 0
    case false =>
      obtain ⟨e, rfl⟩ := hk 0 key rfl h0
      exact hi
    case true => simp [scatterFrom, hv, hi]

-- The loader of a type has a result for each of its keys.
theorem scatterFrom_isSome {load : Str → Option (Except V (List V))} {n : Str → Nat}
    {keys : List (Except V (Str × V))}
    (hs : ∀ t key, .ok (t, key) ∈ keys → (load t).isSome)
    (hl : ∀ t loaded, load t = some (.ok loaded) → loaded.length = n t + (keysOfType keys t).length) :
    (scatterFrom load n keys).isSome := by
  induction keys generalizing n
  case nil            => rfl
  case cons key keys hi =>
    have hi := hi (n := countKey n key) (fun t k hm => hs t k (.tail _ hm)) fun t loaded hm => by
      rw [hl t loaded hm]
      cases key
      case error e => rfl
      case ok x    =>
        obtain ⟨t', k⟩ := x
        by_cases h : t' = t
        case pos => simp [countKey, keysOfType, h, Nat.add_assoc, Nat.add_comm]
        case neg => simp [countKey, keysOfType, h, Ne.symm h]
    obtain ⟨out, ho⟩ := Option.isSome_iff_exists.mp hi
    rw [scatterFrom, ho]
    cases key
    case error e => rfl
    case ok x    =>
      obtain ⟨t, k⟩ := x
      obtain ⟨result, hr⟩ := Option.isSome_iff_exists.mp (hs t k (.head _))
      cases result
      case error e   => simp [scatterAt, hr]
      case ok loaded =>
        have hn : n t < loaded.length := by
          rw [hl t loaded hr]
          simp [keysOfType]
        simp [scatterAt, hr, hn]

theorem loadType_length {keys : List (Except V (Str × V))} {t : Str} {loaded : List V}
    (h : loadType loaders keys t = some (.ok loaded)) : loaded.length = (keysOfType keys t).length := by
  simp only [loadType, Option.bind_eq_bind, Option.bind_eq_some_iff] at h
  obtain ⟨loader, _, h⟩ := h
  split at h
  case h_1 => exact nomatch Option.some.inj h
  case h_2 =>
    split at h
    case isTrue hl => exact Except.ok.inj (Option.some.inj h) ▸ hl
    case isFalse   => exact nomatch h

end Node

variable [Callables V F] {step : CoreStep V S F}

theorem keysOfType_restrict {keys : List (Except V (Str × V))} {t : Str} {k : Nat → Bool}
    (hk : ∀ i key, keys[i]? = some key → k i = false → ∃ e, key = .error e) :
    keysOfType (restrict k keys) t = keysOfType keys t :=
  filterMap_restrict fun i key hm hi => by
    obtain ⟨e, rfl⟩ := hk i key hm hi
    rfl

theorem loadType_restrict {loaders : Loaders F} {keys : List (Except V (Str × V))} {k : Nat → Bool}
    (hk : ∀ i key, keys[i]? = some key → k i = false → ∃ e, key = .error e) :
    loadType loaders (restrict k keys) = loadType loaders keys := by
  funext t
  simp only [loadType, keysOfType_restrict hk]

-- The entries with an exception have no key.
omit [Callables V F] in
theorem nodeKeys_poisoned {l : Loaders F} {keys : List (Except V (Str × V))} (h : nodeKeys l col = .ok keys)
    {k : Nat → Bool} (hk : ∀ i < col.length, k i = false → Poisoned [col] i) :
    ∀ i key, keys[i]? = some key → k i = false → ∃ e, key = .error e := by
  intro i key hm hi
  have hl : i < col.length := nodeKeys_length h ▸ (List.getElem?_eq_some_iff.mp hm).choose
  obtain ⟨e, he, hx⟩ := poisoned_iff.mp (hk i hl hi)
  obtain ⟨key', hm', hn⟩ := nodeKeys_getElem? h he
  obtain rfl := Option.some.inj (hm.symm.trans hm')
  exact ⟨e, Except.ok.inj (hn.symm.trans (nodeEntry_of_exception hx))⟩

-- What a step that passes exceptions on makes of its column.
def answer (col : List V) : CoreStep V S F → Option (List V)
  | access path fallback => col.mapM (accessEntry path fallback)
  | lambda fn            => some (col.map (applyEntry fn))
  | node loaders         => nodeEntries loaders col
  | filter predicate     => some (col.map (filterEntry predicate))
  | _                    => none

theorem execute_eq_answer (hp : step.propagates) : step.execute col.length [col] = step.answer col := by
  cases step <;> first | exact absurd hp Bool.false_ne_true | simp [execute, entries_self, answer]

-- The results for the entries with exceptions are exceptions.
theorem answer_poisoned {out : List V} (ho : step.answer col = some out) {i : Nat} {e : V}
    (hi : col[i]? = some e) (he : isException e = true) : out[i]? = some e := by
  cases step
  case access path fallback =>
    obtain ⟨v, hv, ha⟩ := mapM_getElem? ho hi
    simp only [accessEntry, he, if_true] at ha
    exact hv.trans ha.symm
  case lambda fn =>
    obtain rfl := Option.some.inj ho
    simp [hi, applyEntry, he]
  case node loaders =>
    simp only [answer, nodeEntries] at ho
    split at ho
    case h_1          => cases ho
    case h_2 keys hks =>
      obtain ⟨key, hk, hn⟩ := nodeKeys_getElem? hks hi
      obtain rfl := Except.ok.inj (hn.symm.trans (nodeEntry_of_exception he))
      have hz : keys.zipIdx[i]? = some (.error e, i) := by simp [hk]
      obtain ⟨v, hv, ha⟩ := mapM_getElem? ho hz
      exact hv.trans ha.symm
  case filter predicate =>
    obtain rfl := Option.some.inj ho
    simp [hi, filterEntry, he]
  all_goals exact (Option.some_ne_none _ ho.symm).elim

-- The entries with exceptions make no difference to the results for the others.
theorem answer_restrict {out : List V} (ho : step.answer col = some out) {k : Nat → Bool}
    (hk : ∀ i < col.length, k i = false → Poisoned [col] i) :
    step.answer (restrict k col) = some (restrict k out) := by
  cases step
  case access path fallback => exact mapM_restrict ho
  case lambda fn =>
    obtain rfl := Option.some.inj ho
    exact congrArg some restrict_map.symm
  case node loaders =>
    cases hks : nodeKeys loaders col
    case error error =>
      simp only [answer, nodeEntries, hks] at ho
      cases ho
    case ok keys     =>
      have hn := nodeKeys_poisoned hks hk
      simp only [answer, nodeEntries_eq hks, nodeEntries_eq (nodeKeys_restrict hks k)] at ho ⊢
      rw [loadType_restrict hn]
      exact scatterFrom_restrict ho hn
  case filter predicate =>
    obtain rfl := Option.some.inj ho
    exact congrArg some restrict_map.symm
  all_goals cases ho

theorem calls_restrict (hp : step.propagates) {out : List V} (ho : step.answer col = some out) {k : Nat → Bool}
    (hk : ∀ i < col.length, k i = false → Poisoned [col] i) :
    step.calls (restrict k col).length [restrict k col] = step.calls col.length [col] := by
  have hx (i : Nat) (v : V) (hi : col[i]? = some v) (h : k i = false) : isException v = true := by
    have hl : i < col.length := List.getElem?_eq_some_iff.mp hi |>.choose
    obtain ⟨e, he, hx⟩ := poisoned_iff.mp (hk i hl h)
    exact Option.some.inj (hi.symm.trans he) ▸ hx
  cases step
  case access path fallback => rfl
  case lambda fn =>
    simp only [calls, entries_self, Option.getD_some]
    refine congrArg (List.map _) ?_
    have hf := filterMap_restrict (k := k) (l := col) (f := Option.guard fun v => !isException v)
        fun i v hi h => by
      simp [Option.guard, hx i v hi h]
    rwa [List.filterMap_eq_filter] at hf
  case node loaders =>
    simp only [calls, entries_self, Option.getD_some]
    cases hks : nodeKeys loaders col
    case error error =>
      simp only [answer, nodeEntries, hks] at ho
      cases ho
    case ok keys     =>
      have hn := nodeKeys_poisoned hks hk
      have ht : keyTypes (restrict k keys) = keyTypes keys :=
        congrArg List.eraseDups <| filterMap_restrict fun i key hm hi => by
          obtain ⟨e, rfl⟩ := hn i key hm hi
          rfl
      simp only [nodeCalls, hks, nodeKeys_restrict hks k, keysOfType_restrict hn, ht]
  case filter predicate =>
    simp only [calls, entries_self, Option.getD_some]
    exact flatMap_restrict fun i v hi h => by simp [filterCalls, hx i v hi h]
  all_goals exact absurd hp Bool.false_ne_true

theorem answer_isSome_iff (hp : step.propagates) : (step.answer col).isSome ↔ step.Answers [col] := by
  cases step
  case access path fallback =>
    simp only [answer, Answers, List.forall_mem_singleton, Option.isSome_iff_ne_none, ne_eq,
      mapM_eq_none_iff, not_exists, not_and]
    refine forall₂_congr fun v _ => ?_
    cases hx : isException v <;> simp [accessEntry, hx]
  case lambda fn => simp [answer, Answers]
  case node loaders =>
    simp only [answer, Answers, List.forall_mem_singleton, ← @nodeEntry_isOk_iff _ _ _ _ loaders,
      ← nodeKeys_isOk_iff]
    cases hks : nodeKeys loaders col
    case error error => simp [nodeEntries, hks]
    case ok keys     =>
      simp only [Except.ok.injEq, exists_eq', true_and, forall_eq']
      constructor
      case mp  =>
        intro ho t key hm
        obtain ⟨out, ho⟩ := Option.isSome_iff_exists.mp ho
        obtain ⟨i, hi⟩ := List.mem_iff_getElem?.mp hm
        have hz : keys.zipIdx[i]? = some (.ok (t, key), i) := by simp [hi]
        simp only [nodeEntries, hks] at ho
        obtain ⟨_, _, ha⟩ := mapM_getElem? ho hz
        simp only [scatterNode, Option.bind_eq_bind, Option.bind_eq_some_iff] at ha
        obtain ⟨r, hr, _⟩ := ha
        exact Option.isSome_iff_exists.mpr ⟨r, hr⟩
      case mpr =>
        intro h
        rw [nodeEntries_eq hks]
        refine scatterFrom_isSome h fun t loaded hl => ?_
        rw [loadType_length hl, Nat.zero_add]
  case filter predicate => simp [answer, Answers]
  all_goals exact absurd hp Bool.false_ne_true

-- The result of a step with one dependency, which passes exceptions on.
theorem isolated_of_answer (hp : step.propagates) {out : List V} (ho : step.answer col = some out) :
    Isolated step col.length [col] out where
  result := (execute_eq_answer hp).trans ho
  poisoned i hi h := by
    obtain ⟨e, he, hx⟩ := poisoned_iff.mp h
    exact ⟨e, answer_poisoned ho he hx, hx⟩
  absent k hk := by
    rw [kept_eq, List.map_singleton, execute_eq_answer hp]
    exact answer_restrict ho hk
  calls k hk := by
    rw [kept_eq, List.map_singleton]
    exact calls_restrict hp ho hk

section Leak

variable {count : Nat} {out : List V} {i : Nat}

-- What is known of the coalesced keys of a batch of which some keys have been seen.
structure KeysOf (seen : List V) (c : Coalesced V) : Prop where
  slots     : ∀ x ∈ c.slotForKey, x.fst ∈ c.uniqueKeys
  keys      : ∀ key ∈ c.uniqueKeys, key ∈ seen
  exception : (∃ e ∈ seen, isException e = true) → ∃ e ∈ c.uniqueKeys, isException e = true

theorem KeysOf.add {seen : List V} {c : Coalesced V} {key : V} (h : KeysOf seen c)
    {slots : List (V × Nat)} {entrySlot : List Nat}
    (hs : ∀ x ∈ slots, x ∈ c.slotForKey ∨ x.fst = key) :
    KeysOf (seen ++ [key]) ⟨c.uniqueKeys ++ [key], slots, entrySlot⟩ where
  slots x hx := by
    cases hs x hx
    case inl hm => exact List.mem_append_left _ (h.slots x hm)
    case inr he => exact List.mem_append_right _ (List.mem_singleton.mpr he)
  keys k hk := by
    cases List.mem_append.mp hk
    case inl hm => exact List.mem_append_left _ (h.keys k hm)
    case inr hm => exact List.mem_append_right _ hm
  exception := by
    rintro ⟨e, he, hx⟩
    cases List.mem_append.mp he
    case inl hm =>
      obtain ⟨e, hm, hx⟩ := h.exception ⟨e, hm, hx⟩
      exact ⟨e, List.mem_append_left _ hm, hx⟩
    case inr hm => exact ⟨e, List.mem_append_right _ hm, hx⟩

theorem KeysOf.coalesceKey (hl : PyValue.ExceptionLaws V) {seen : List V} {c : Coalesced V} {key : V}
    (h : KeysOf seen c) : KeysOf (seen ++ [key]) (coalesceKey c key) := by
  unfold CoreStep.coalesceKey
  split
  case isFalse => exact h.add fun x hx => .inl hx
  case isTrue  =>
    split
    case h_2 =>
      refine h.add fun x hx => ?_
      cases List.mem_append.mp hx
      case inl hm => exact .inl hm
      case inr hm => exact .inr (List.mem_singleton.mp hm ▸ rfl)
    case h_1 key' slot hf =>
      refine ⟨h.slots, fun k hk => List.mem_append_left _ (h.keys k hk), ?_⟩
      rintro ⟨e, he, hx⟩
      cases List.mem_append.mp he
      case inl hm => exact h.exception ⟨e, hm, hx⟩
      case inr hm =>
        -- the key is equal to an earlier one, which is an exception if it is
        obtain rfl := List.mem_singleton.mp hm
        have he : keyEq key' e = true := by simpa using List.find?_some hf
        exact ⟨key', h.slots _ (List.mem_of_find?_eq_some hf), hl.keyEq _ _ he hx⟩

theorem coalesce_keysOf (hl : PyValue.ExceptionLaws V) (keys : List V) : KeysOf keys (coalesce keys) := by
  have hf (l seen : List V) (c : Coalesced V) (h : KeysOf seen c) :
      KeysOf (seen ++ l) (l.foldl CoreStep.coalesceKey c) := by
    induction l generalizing seen c
    case nil         => simpa using h
    case cons k l hi => simpa using hi (seen ++ [k]) _ (h.coalesceKey hl)
  exact hf keys [] _ ⟨by simp, by simp, by simp⟩

-- A loader is called with the exceptions among its keys.
theorem loadCalls_leak (hl : PyValue.ExceptionLaws V) {i : Nat} (hi : Poisoned [col] i) :
    (coalesce (restrict (fun i => !(col[i]?.any isException)) col)).uniqueKeys ≠
      (coalesce col).uniqueKeys := by
  intro he
  obtain ⟨e, hi, hx⟩ := poisoned_iff.mp hi
  obtain ⟨e, hm, hx⟩ := (coalesce_keysOf hl col).exception ⟨e, List.mem_of_getElem? hi, hx⟩
  have hm := (coalesce_keysOf hl _).keys e (he ▸ hm)
  obtain ⟨i, hi, hk⟩ := mem_restrict_iff.mp hm
  simp [hi, hx] at hk

theorem regroup_getElem? {lists : List (List V)} (items : List V) (h : i < lists.length) :
    ∃ group : List V, (regroup lists items)[i]? = some (ofList group) := by
  induction lists generalizing items i
  case nil             => exact absurd h (Nat.not_lt_zero i)
  case cons l lists hi =>
    cases i
    case zero   => exact ⟨items.take l.length, rfl⟩
    case succ i => exact hi _ (Nat.lt_of_succ_lt_succ h)

theorem not_poisoned_of_mapM {f : Nat → Option V} (h : (List.range count).mapM f = some out)
    (hi : i < count) (hf : ∀ v, f i = some v → isException v = false) :
    ¬∃ e, out[i]? = some e ∧ isException e = true := by
  rintro ⟨e, he, hx⟩
  obtain ⟨v, hv, ha⟩ := mapM_getElem? h (show (List.range count)[i]? = some i by simp [hi])
  obtain rfl := Option.some.inj (he.symm.trans hv)
  exact absurd hx (by rw [hf e ha]; exact Bool.false_ne_true)

theorem not_isolated (hl : PyValue.ExceptionLaws V) (hc : ∀ col ∈ values, col.length = count)
    (ha : values.length = step.dependencyCount) (hi : i < count) (hx : Poisoned values i)
    (hp : step.propagates = false) : ¬Isolated step count values out := by
  intro h
  have hv (hd : step.dependencyCount = 0) : False := by
    rw [hd, List.length_eq_zero_iff] at ha
    obtain ⟨col, hm, _⟩ := ha ▸ hx
    exact nomatch hm
  have hone (hd : step.dependencyCount = 1) : ∃ col, values = [col] ∧ count = col.length := by
    obtain ⟨col, rfl⟩ := List.length_eq_one_iff.mp (ha.trans hd)
    exact ⟨col, rfl, (hc col (.head _)).symm⟩
  have he := h.poisoned i hi hx
  have hr := h.result
  cases step
  case root identity => exact hv rfl
  case constant data => exact hv rfl
  case list n        =>
    refine not_poisoned_of_mapM hr hi (fun v hv => ?_) he
    obtain ⟨vs, _, rfl⟩ := Option.map_eq_some_iff.mp hv
    exact hl.ofList vs
  case object keys   =>
    refine not_poisoned_of_mapM hr hi (fun v hv => ?_) he
    obtain ⟨vs, _, rfl⟩ := Option.map_eq_some_iff.mp hv
    exact hl.ofDict _
  case each mapper   =>
    obtain ⟨col, rfl, rfl⟩ := hone rfl
    simp only [execute, entries_self, Option.bind_eq_bind, Option.bind_some, Option.bind_eq_some_iff]
      at hr
    obtain ⟨lists, hm, items, _, hr⟩ := hr
    obtain ⟨group, hg⟩ := regroup_getElem? items (mapM_length hm ▸ hi)
    obtain ⟨e, he, hx⟩ := he
    rw [← Option.some.inj hr, hg] at he
    rw [← Option.some.inj he, hl.ofList] at hx
    exact Bool.false_ne_true hx
  case loadOne loadFn | loadMany loadFn =>
    obtain ⟨col, rfl, rfl⟩ := hone rfl
    have hk := h.calls (fun i => !(col[i]?.any isException)) fun i _ hk => by
      rw [Bool.not_eq_false', Option.any_eq_true_iff_get] at hk
      obtain ⟨hs, hx⟩ := hk
      exact poisoned_iff.mpr ⟨_, Option.some_get hs |>.symm, hx⟩
    rw [kept_eq, List.map_singleton] at hk
    simp only [CoreStep.calls, entries_self, Option.getD_some, List.cons.injEq, Prod.mk.injEq,
      true_and, and_true] at hk
    exact loadCalls_leak hl hx hk
  all_goals cases hp

end Leak

-- A step with an exception in a dependency isolates it if and only if it is one that passes exceptions
-- on and finds its answers.
theorem isolated_iff (hl : PyValue.ExceptionLaws V) {count i : Nat}
    (hc : ∀ col ∈ values, col.length = count) (ha : values.length = step.dependencyCount)
    (hi : i < count) (hx : Poisoned values i) :
    (∃ out, Isolated step count values out) ↔ step.propagates ∧ step.Answers values := by
  cases hp : step.propagates
  case false =>
    refine iff_of_false (fun h => ?_) (fun h => absurd h.left Bool.false_ne_true)
    exact h.elim fun _ h => not_isolated hl hc ha hi hx hp h
  case true =>
    have hd : step.dependencyCount = 1 := by cases step <;> first | rfl | cases hp
    obtain ⟨col, rfl⟩ := List.length_eq_one_iff.mp (ha.trans hd)
    obtain rfl := hc col (.head _)
    rw [← answer_isSome_iff hp, Option.isSome_iff_exists, eq_self, true_and]
    constructor
    case mp  => exact fun ⟨out, h⟩ => ⟨out, (execute_eq_answer hp).symm.trans h.result⟩
    case mpr => exact fun ⟨out, h⟩ => ⟨out, isolated_of_answer hp h⟩

theorem regroup_length {lists : List (List V)} {items : List V} :
    (regroup lists items).length = lists.length := by
  induction lists generalizing items
  case nil            => rfl
  case cons l lists hi => rw [regroup, List.length_cons, List.length_cons, hi]

theorem coalesce_length (keys : List V) : (coalesce keys).entrySlot.length = keys.length := by
  have hf (l : List V) (c : Coalesced V) :
      (l.foldl coalesceKey c).entrySlot.length = c.entrySlot.length + l.length := by
    induction l generalizing c
    case nil         => rfl
    case cons k l hi =>
      have hk : (coalesceKey c k).entrySlot.length = c.entrySlot.length + 1 := by
        unfold coalesceKey
        split
        · split <;> simp
        · simp
      rw [List.foldl_cons, hi, hk, List.length_cons, Nat.add_assoc, Nat.add_comm 1]
  exact (hf keys _).trans (Nat.zero_add _)

theorem execute_length {count : Nat} {out : List V} (h : step.execute count values = some out) :
    out.length = count := by
  have he {col} (h : entries count values = some col) : col.length = count := by
    simp only [entries, Option.bind_eq_bind, Option.bind_eq_some_iff] at h
    obtain ⟨_, _, h⟩ := h
    rw [mapM_length h, List.length_range]
  cases step <;> simp only [execute, Option.bind_eq_bind, Option.bind_eq_some_iff] at h
  case root => exact (Option.some_ne_none _ h.symm).elim
  case constant => rw [← Option.some.inj h, List.length_replicate]
  case list | object => rw [mapM_length h, List.length_range]
  case access =>
    obtain ⟨col, hc, h⟩ := h
    rw [mapM_length h, he hc]
  case node =>
    obtain ⟨col, hc, h⟩ := h
    unfold nodeEntries at h
    split at h
    case h_1          => exact (Option.some_ne_none _ h.symm).elim
    case h_2 keys hks => rw [mapM_length h, List.length_zipIdx, nodeKeys_length hks, he hc]
  case lambda | filter =>
    obtain ⟨col, hc, h⟩ := h
    rw [← Option.some.inj h, List.length_map, he hc]
  case each =>
    obtain ⟨col, hc, lists, hm, items, _, h⟩ := h
    rw [← Option.some.inj h, regroup_length, mapM_length hm, he hc]
  case loadOne | loadMany =>
    obtain ⟨col, hc, h⟩ := h
    unfold loadEntries at h
    dsimp only at h
    split at h
    case h_1 => rw [← Option.some.inj h, List.length_replicate]
    case h_2 =>
      split at h
      · rw [mapM_length h, coalesce_length, he hc]
      · exact (Option.some_ne_none _ h.symm).elim

end CoreStep

namespace Plan

open PyValue CoreStep Relation

variable {V S F : Type} [PyValue V S] [Callables V F] {p : Plan (CoreStep V S F)} {bucket : List V}

theorem column_length {r : Ref} {col : List V} (hp : p.WellFormed) (h : p.column bucket r = some col) :
    col.length = bucket.length := by
  rw [column_eq hp.inv] at h
  simp only [Option.bind_eq_bind, Option.bind_eq_some_iff] at h
  obtain ⟨step, _, values, _, h⟩ := h
  cases step
  case root => exact Option.some.inj h ▸ rfl
  all_goals
    simp only [CoreStep.column] at h
    exact execute_length h

-- A column with an exception in an entry.
def Carries (p : Plan (CoreStep V S F)) (bucket : List V) (i : Nat) (r : Ref) : Prop :=
  ∃ col, p.column bucket r = some col ∧ ∃ e, col[i]? = some e ∧ isException e = true

variable {i : Nat} {r d : Ref}

theorem columns_of_mapM (hp : p.WellFormed) {values : List (List V)}
    (hv : (p.dependencies r).mapM (p.column bucket) = some values) (hd : d ∈ p.dependencies r)
    (hc : p.Carries bucket i d) : (∀ col ∈ values, col.length = bucket.length) ∧ Poisoned values i := by
  constructor
  case left =>
    intro col hm
    obtain ⟨j, hj, rfl⟩ := List.mem_iff_getElem.mp hm
    have hf := (mapM_forall₂ hv).get (i := j) (by rw [← mapM_length hv]; exact hj) hj
    exact column_length hp hf
  case right =>
    obtain ⟨col, hc, e, he, hx⟩ := hc
    obtain ⟨j, hj⟩ := List.mem_iff_getElem?.mp hd
    obtain ⟨col', hm, hc'⟩ := mapM_getElem? hv hj
    obtain rfl := Option.some.inj (hc.symm.trans hc')
    exact ⟨col, List.mem_of_getElem? hm, e, he, hx⟩

-- Where a dependency carries an exception, a step isolates it if it passes it on.
theorem isolates_iff_passesOn (hp : p.WellFormed) (hl : PyValue.ExceptionLaws V)
    (hd : d ∈ p.dependencies r) (hc : p.Carries bucket i d) : p.Isolates bucket r ↔ p.PassesOn bucket r := by
  obtain ⟨col, hc, e, he, hx⟩ := hc
  have hi : i < bucket.length := column_length hp hc ▸ (List.getElem?_eq_some_iff.mp he).choose
  have hm {values} (hv : (p.dependencies r).mapM (p.column bucket) = some values) :=
    columns_of_mapM hp hv hd ⟨col, hc, e, he, hx⟩
  constructor
  case mp =>
    rintro ⟨step, values, out, hk, hv, ho⟩
    have ha := hp.arity r step hk
    have hs := (isolated_iff hl (hm hv).left ((mapM_length hv).trans ha) hi (hm hv).right).mp ⟨out, ho⟩
    exact ⟨step, hk, hs.left, fun values' hv' => Option.some.inj (hv.symm.trans hv') ▸ hs.right⟩
  case mpr =>
    rintro ⟨step, hk, hs, ha⟩
    have hone : step.dependencyCount = 1 := by cases step <;> first | rfl | cases hs
    obtain ⟨d', hd'⟩ := List.length_eq_one_iff.mp ((hp.arity r step hk).trans hone)
    obtain rfl := List.mem_singleton.mp (hd' ▸ hd)
    have hv : (p.dependencies r).mapM (p.column bucket) = some [col] := by simp [hd', hc]
    have ⟨out, ho⟩ := (isolated_iff hl (hm hv).left (by simp [hone]) hi (hm hv).right).mpr ⟨hs, ha _ hv⟩
    exact ⟨step, [col], out, hk, hv, ho⟩

-- A step that isolates an exception carries it.
theorem Isolates.carries (hp : p.WellFormed) (hd : d ∈ p.dependencies r)
    (hc : p.Carries bucket i d) (h : p.Isolates bucket r) : p.Carries bucket i r := by
  obtain ⟨step, values, out, hk, hv, ho⟩ := h
  have hm := columns_of_mapM hp hv hd hc
  have hi : i < bucket.length := by
    obtain ⟨col, hc, e, he, _⟩ := hc
    exact column_length hp hc ▸ (List.getElem?_eq_some_iff.mp he).choose
  have hs : step.column bucket values = some out := by
    cases step
    case root => exact nomatch ho.result
    all_goals exact ho.result
  refine ⟨out, ?_, ho.poisoned i hi hm.right⟩
  rw [column_eq hp.inv, hk, hv]
  exact hs

-- The exceptions of a step are isolated downstream if and only if all steps that depend on it pass
-- exceptions on.
theorem isolates_iff (hp : p.WellFormed) (hl : PyValue.ExceptionLaws V) (hc : p.Carries bucket i d) :
    (∀ r, TransGen p.view.DependsOn r d → p.Isolates bucket r) ↔
      ∀ r, TransGen p.view.DependsOn r d → p.PassesOn bucket r := by
  have hstep {r d'} (hd : p.view.DependsOn r d') (hc : p.Carries bucket i d')
      (h : p.Isolates bucket r ∨ p.PassesOn bucket r) :
      p.Isolates bucket r ∧ p.PassesOn bucket r ∧ p.Carries bucket i r := by
    have hi := isolates_iff_passesOn hp hl hd hc
    have hr := h.elim id hi.mpr
    exact ⟨hr, hi.mp hr, hr.carries hp hd hc⟩
  have hall (h : ∀ r, TransGen p.view.DependsOn r d → p.Isolates bucket r ∨ p.PassesOn bucket r) :
      ∀ r, TransGen p.view.DependsOn r d →
        p.Isolates bucket r ∧ p.PassesOn bucket r ∧ p.Carries bucket i r := by
    intro r hr
    induction hr using TransGen.head_induction_on
    case single r hd        => exact hstep hd hc (h r (.single hd))
    case head r d' hd hr hi => exact hstep hd hi.right.right (h r (.head hd hr))
  constructor
  case mp  => exact fun h r hr => (hall (fun r hr => .inl (h r hr)) r hr).right.left
  case mpr => exact fun h r hr => (hall (fun r hr => .inr (h r hr)) r hr).left

end Plan

namespace Poison

inductive Val
  | none
  | error
  | number (n : Nat)
  deriving DecidableEq

instance : PyValue Val String where
  pyNone             := .none
  isNone v           := v = .none
  isException v      := v = .error
  truthy v           := v ≠ .none
  hashable _         := true
  keyEq a b          := a = b
  typeName _         := "object"
  repr _             := "object"
  asDict _           := .none
  getItem _ _        := .missing
  getAttr _ _        := .missing
  iterate _          := .error .error
  ofList _           := .none
  ofTuple _          := .none
  ofDict _           := .none
  decodeGlobalId _   := .valueError .error
  noLoader _         := .error

-- The callable answers what it is given, one by one or as a batch.
instance : Callables Val Unit where
  call _ v     := .ok v
  test _ _     := .ok true
  load _ keys  := .ok keys
  mapItems _ _ := .none

theorem exceptionLaws : PyValue.ExceptionLaws Val where
  ofList _     := rfl
  ofDict _     := rfl
  keyEq a b hk := by
    obtain rfl : a = b := of_decide_eq_true hk
    exact id

abbrev Kind := CoreStep Val String Unit

-- A step that depends on the bucket of root values.
def operations (step : Kind) : List (Operation Kind) :=
  [.construct (.root 0) [], .construct step [0], .addStep 0, .addStep 1]

theorem operations_permitted (step : Kind) : Operation.AllPermitted Plan.empty (operations step) := by
  refine ⟨by simp [Operation.Permitted], fun p hp => ?_⟩
  obtain rfl := Option.some.inj hp
  refine ⟨by simp [Operation.Permitted, Plan.construct, Plan.empty], fun p hp => ?_⟩
  obtain rfl := Option.some.inj hp
  refine ⟨fun _ => ⟨⟨?_, ?_⟩, .new ?_ ?_ ?_⟩, fun p hp => ?_⟩
  · simp [Plan.view, Plan.construct, Plan.empty]
  · simp [Plan.view, Plan.construct, Plan.empty]
  · simp [Plan.view, Plan.construct, Plan.empty]
  · simp [Plan.view, Plan.construct, Plan.empty]
  · simp [Plan.view, Plan.construct, Plan.empty, Plan.dependencies]
  obtain rfl := Option.some.inj hp
  refine ⟨fun _ => ⟨⟨fun r hr n hn => ?_, fun _ hn => ?_⟩, .new ?_ ?_ ?_⟩, fun p hp => trivial⟩
  · obtain rfl := List.mem_singleton.mp hr
    obtain rfl := Option.some.inj hn
    exact Nat.zero_lt_one
  · exact absurd hn List.not_mem_nil
  · exact Nat.lt_add_one 1
  · exact fun h => absurd (List.mem_singleton.mp h) Nat.one_ne_zero
  · intro d hd
    obtain rfl := List.mem_singleton.mp hd
    exact .live ⟨.head _, List.not_mem_nil⟩

def plan (step : Kind) : Plan Kind :=
  ((operations step).foldlM Operation.apply Plan.empty).getD Plan.empty

theorem plan_wellFormed {step : Kind} (hs : step.dependencyCount = 1) : (plan step).WellFormed := by
  obtain ⟨q, hq, hi⟩ := Operation.run_inv Plan.empty_inv rfl (operations_permitted step)
  refine ⟨by simpa [plan, hq] using hi, fun r step' h => ?_⟩
  obtain _ | _ | r := r
  · exact Option.some.inj h ▸ rfl
  · exact Option.some.inj h ▸ hs.symm
  · exact (Option.some_ne_none step' h.symm).elim

theorem carries (step : Kind) : (plan step).Carries [.error, .number 1] 0 0 :=
  ⟨[.error, .number 1], rfl, .error, rfl, rfl⟩

-- A lambda step isolates the exception of the first root value.
theorem isolates : (plan (.lambda ())).Isolates [.error, .number 1] 1 := by
  have hd : 0 ∈ (plan (.lambda ())).dependencies 1 := List.mem_singleton.mpr rfl
  refine (Plan.isolates_iff (plan_wellFormed rfl) exceptionLaws (carries _)).mpr (fun r hr => ?_)
    1 (.single hd)
  obtain ⟨d, hd, _⟩ := Relation.TransGen.head'_iff.mp hr
  match r with
  | 0     => exact absurd hd List.not_mem_nil
  | 1     => exact ⟨.lambda (), rfl, rfl, fun _ _ => trivial⟩
  | r + 2 => exact absurd hd List.not_mem_nil

-- A load step calls its loader with the exception.
theorem not_isolates : ¬∀ r, Relation.TransGen (plan (.loadOne ())).view.DependsOn r 0 →
    (plan (.loadOne ())).Isolates [.error, .number 1] r := by
  intro h
  have hd : 0 ∈ (plan (.loadOne ())).dependencies 1 := List.mem_singleton.mpr rfl
  have hi := Plan.isolates_iff_passesOn (plan_wellFormed rfl) exceptionLaws hd (carries _)
  obtain ⟨step, hk, hp, _⟩ := hi.mp (h 1 (.single hd))
  rw [← Option.some.inj hk] at hp
  exact Bool.false_ne_true hp

end Poison

end Grafast
