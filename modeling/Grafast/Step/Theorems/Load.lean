import Grafast.Step.Load
import Grafast.Step.Theorems.Core
import Grafast.Step.Theorems.GlobalId
import Mathlib.Data.List.Forall2

namespace Grafast

open PyValue

open Text (Str Json Raised joinPairs)

variable {V S F : Type}

section Coalesce

variable [PyValue V S] {c : CoreStep.Coalesced V} {seen : List V} {key : V} {f : V → V}

-- The slot of an entry has its key, or one that is equal to it.
def SlotOf (uniqueKeys : List V) (key : V) (slot : Nat) : Prop :=
  ∃ unique, uniqueKeys[slot]? = some unique ∧ (unique = key ∨ keyEq unique key = true)

-- What is known of the keys when some entries have been seen.
structure Coalesces (seen : List V) (c : CoreStep.Coalesced V) : Prop where
  slots   : ∀ slot ∈ c.slotForKey, c.uniqueKeys[slot.snd]? = some slot.fst
  entries : List.Forall₂ (SlotOf c.uniqueKeys) seen c.entrySlot

theorem getElem?_snoc {l : List V} {i : Nat} {a : V} (h : l[i]? = some a) (b : V) :
    (l ++ [b])[i]? = some a :=
  (List.getElem?_append_left (List.getElem?_eq_some_iff.mp h).choose).trans h

theorem Coalesces.fresh (h : Coalesces seen c) {slots : List (V × Nat)}
    (hs : ∀ slot ∈ slots, slot ∈ c.slotForKey ∨ slot = (key, c.uniqueKeys.length)) :
    Coalesces (seen ++ [key])
      ⟨c.uniqueKeys ++ [key], slots, c.entrySlot ++ [c.uniqueKeys.length]⟩ where
  slots slot hm := by
    obtain hm | rfl := hs slot hm
    · exact getElem?_snoc (h.slots slot hm) key
    · exact List.getElem?_concat_length
  entries := by
    refine List.rel_append (h.entries.imp fun key' slot hk => ?_) (.cons ?_ .nil)
    · obtain ⟨unique, hu, he⟩ := hk
      exact ⟨unique, getElem?_snoc hu key, he⟩
    · exact ⟨key, List.getElem?_concat_length, .inl rfl⟩

theorem Coalesces.coalesceKey (h : Coalesces seen c) (key : V) :
    Coalesces (seen ++ [key]) (CoreStep.coalesceKey c key) := by
  rw [CoreStep.coalesceKey]
  by_cases hh : hashable key = true
  case neg =>
    rw [if_neg hh]
    exact h.fresh fun _ => .inl
  case pos =>
    rw [if_pos hh]
    cases hf : c.slotForKey.find? (keyEq ·.fst key) with
    | none      =>
      exact h.fresh fun slot hm => (List.mem_append.mp hm).imp_right List.mem_singleton.mp
    | some slot =>
      obtain ⟨unique, slot⟩ := slot
      have he : keyEq unique key = true := by simpa using List.find?_some hf
      have hu := h.slots _ (List.mem_of_find?_eq_some hf)
      exact ⟨h.slots, List.rel_append h.entries (.cons ⟨unique, hu, .inr he⟩ .nil)⟩

theorem coalesces (keys : List V) : Coalesces keys (CoreStep.coalesce keys) := by
  have hf (keys seen : List V) {c : CoreStep.Coalesced V} (h : Coalesces seen c) :
      Coalesces (seen ++ keys) (keys.foldl CoreStep.coalesceKey c) := by
    induction keys generalizing seen c
    case nil              => simpa using h
    case cons key keys hi => simpa using hi (seen ++ [key]) (h.coalesceKey key)
  exact hf keys [] ⟨by simp, .nil⟩

-- Functions on keys that do not tell equal keys apart.
def RespectsKeys (f : V → V) : Prop :=
  ∀ a b, keyEq a b = true → f a = f b

-- The results for the unique keys, taken by the slots, are those for the keys of the entries.
theorem Coalesces.mapM (h : Coalesces seen c) (hf : RespectsKeys f) :
    c.entrySlot.mapM ((c.uniqueKeys.map f)[·]?) = some (seen.map f) := by
  have he := h.entries
  clear h
  generalize c.entrySlot = slots at he
  induction he
  case nil                  => rfl
  case cons key slot _ _ hk _ hi =>
    obtain ⟨unique, hu, hk⟩ := hk
    have hk : f unique = f key := hk.elim (congrArg f) (hf unique key)
    rw [Batch.mapM_cons, List.getElem?_map, hu, hi, Option.map_some, hk]
    rfl

end Coalesce

section LoadStep

variable [PyValue V S] [Loading V F] {loadFn : F} {f : V → V}

-- A loader that gives each key a value of its own, at once or later.
def LoadsEach (loadFn : F) (f : V → V) : Prop :=
  ∀ keys, (Loading.load loadFn keys).settled = .ok (keys.map f)

theorem LoadStep.scatter_pointwise (hr : RespectsKeys f) (keys : List V) :
    LoadStep.scatter ((CoreStep.coalesce keys).uniqueKeys.map f) (CoreStep.coalesce keys).entrySlot
      (CoreStep.coalesce keys).uniqueKeys.length = .ok (keys.map f) := by
  rw [LoadStep.scatter, if_neg (by simp), (coalesces keys).mapM hr]

-- One call of the loader gives each entry the value of its own key.
theorem LoadStep.execute_pointwise (hr : RespectsKeys f) (hf : LoadsEach loadFn f) (keys : List V) :
    ∃ out, (LoadStep.execute loadFn keys).run [] = (out, [(loadFn, (CoreStep.coalesce keys).uniqueKeys)]) ∧
      out.settled = .ok (keys.map f) := by
  have hs := LoadStep.scatter_pointwise hr keys
  have hf := hf (CoreStep.coalesce keys).uniqueKeys
  cases hl : Loading.load loadFn (CoreStep.coalesce keys).uniqueKeys with
  | column loaded =>
    obtain rfl : loaded = _ := Except.ok.inj (hl ▸ hf)
    refine ⟨.column (keys.map f), ?_, rfl⟩
    simp [LoadStep.execute, callLoader, hl, hs, Out.ofExcept]
    rfl
  | raised error =>
    rw [hl] at hf
    cases hf
  | awaitable result =>
    obtain rfl : result = _ := hl ▸ hf
    refine ⟨.awaitable (.ok (keys.map f)), ?_, rfl⟩
    simp [LoadStep.execute, callLoader, hl, hs]
    rfl

end LoadStep

section NodeStep

variable [PyValue V S] [Loading V F] {loaders : Loaders F} {record : Str → V → V}

-- Loaders whose results, if they give any, have the record of each key at its place.
def GivesRecords (loaders : Loaders F) (record : Str → V → V) : Prop :=
  ∀ typename loader, loaders.items.lookup typename = some loader → ∀ keys loaded,
    (Loading.load loader keys).settled = .ok loaded → loaded = keys.map (record typename)

namespace NodeStep

-- What the batch of a type ends with.
def typeOutcome (loaders : Loaders F) (entries : List (Except V (Str × V))) (typename : Str) :
    Option (Except V (List V)) :=
  (loaders.items.lookup typename).map fun loader =>
    (Loading.load loader (CoreStep.keysOfType entries typename)).settled

-- What an entry gets by its own id: its error, the error of the batch of its type, or its record.
def ownEntry (loaders : Loaders F) (record : Str → V → V) (entries : List (Except V (Str × V))) :
    Except V (Str × V) → V
  | .error error         => error
  | .ok (typename, key) =>
    match typeOutcome loaders entries typename with
    | some (.error error) => error
    | _                   => record typename key

omit [Loading V F] in
theorem nodeEntry_registered {raw : V} {typename : Str} {key : V}
    (h : CoreStep.nodeEntry loaders raw = .ok (.ok (typename, key))) :
    ∃ loader, loaders.items.lookup typename = some loader := by
  rw [CoreStep.nodeEntry] at h
  split at h
  case isTrue  => cases h
  case isFalse =>
    split at h
    case h_1                       => cases h
    case h_2                       => cases h
    case h_3 decodedType idParts _ =>
      split at h
      case isTrue     => cases h
      case isFalse hn =>
        have ht : decodedType = typename := by
          split at h <;> exact congrArg Prod.fst (Except.ok.inj (Except.ok.inj h))
        rw [← ht]
        exact Option.isSome_iff_exists.mp (by simpa using hn)

theorem keysOfType_eq (entries : List (Except V (Str × V))) (typename : Str) :
    (((entries.filterMap Except.toOption).filter (·.fst = typename)).map (·.snd)) =
      CoreStep.keysOfType entries typename := by
  induction entries
  case nil => rfl
  case cons entry entries hi =>
    cases entry with
    | error error =>
      rw [List.filterMap_cons_none (f := Except.toOption) rfl, hi]
      rfl
    | ok entry    =>
      obtain ⟨entryType, key⟩ := entry
      rw [List.filterMap_cons_some (f := Except.toOption) (b := (entryType, key)) rfl]
      by_cases ht : entryType = typename <;> simpa [CoreStep.keysOfType, ht] using hi

theorem snd_of_mem_keysByType {entries : List (Except V (Str × V))} {batch : Str × List V}
    (h : batch ∈ keysByType entries) : batch.snd = CoreStep.keysOfType entries batch.fst :=
  ((Batch.grouped _).members batch h).trans (keysOfType_eq entries batch.fst)

theorem mem_keysByType {entries : List (Except V (Str × V))} {typename : Str} {key : V}
    (h : .ok (typename, key) ∈ entries) : typename ∈ (keysByType entries).map (·.fst) := by
  have hm : (typename, key) ∈ entries.filterMap Except.toOption := List.mem_filterMap.mpr ⟨_, h, rfl⟩
  exact ((Batch.grouped _).key_mem typename).mpr (List.mem_map_of_mem (f := Prod.fst) hm)

-- Every type that has a loader is called once with its keys.
theorem loadTypes_run (loaders : Loaders F) (batches : List (Str × List V)) (calls : List (F × List V)) :
    (loadTypes loaders batches).run calls =
      (batches.filterMap fun batch => (loaders.items.lookup batch.fst).map
          fun loader => (batch.fst, Loading.load loader batch.snd),
        calls ++ batches.filterMap fun batch => (loaders.items.lookup batch.fst).map (·, batch.snd)) := by
  induction batches generalizing calls
  case nil => rw [loadTypes, List.filterMap_nil, List.filterMap_nil, List.append_nil]; rfl
  case cons batch batches hi =>
    obtain ⟨typename, keys⟩ := batch
    cases hl : loaders.items.lookup typename with
    | none        => simpa [loadTypes, hl] using hi calls
    | some loader =>
      have hi := hi (calls ++ [(loader, keys)])
      simp [loadTypes, hl, callLoader, hi]
      rfl

theorem lookup_filterMap {β : Type} (g : Str → Option β) (types : List Str) (typename : Str) :
    (types.filterMap fun t => (g t).map (t, ·)).lookup typename =
      if typename ∈ types then g typename else none := by
  induction types
  case nil => rfl
  case cons t types hi =>
    by_cases ht : typename = t
    case pos =>
      subst ht
      cases hg : g typename <;> simp [hg, hi]
    case neg =>
      have hb : (typename == t) = false := beq_false_of_ne ht
      cases hg : g t <;> simp [hg, hi, ht, List.lookup_cons, hb]

theorem checkTypes_ok {loaded : List (Str × Except V (List V))} {batches : List (Str × List V)}
    (h : ∀ batch ∈ batches, ∀ results, loaded.lookup batch.fst = some (.ok results) →
      results.length = batch.snd.length) :
    checkTypes loaded batches = .ok () := by
  induction batches
  case nil => rfl
  case cons batch batches hi =>
    obtain ⟨typename, keys⟩ := batch
    have hi := hi fun batch hb => h batch (.tail _ hb)
    rw [checkTypes]
    split
    · rename_i results hl
      rw [if_neg (not_not_intro (h _ (.head _) results hl)), hi]
    · exact hi

-- The cursors stand before the results of the entries that are left.
structure Ahead (loaders : Loaders F) (record : Str → V → V) (entries : List (Except V (Str × V)))
    (loaded : List (Str × Except V (List V))) (nextPos : Str → Nat)
    (rest : List (Except V (Str × V))) : Prop where
  results : ∀ typename results, loaded.lookup typename = some (.ok results) →
    results.drop (nextPos typename) = (CoreStep.keysOfType rest typename).map (record typename)
  outcome : ∀ typename key, .ok (typename, key) ∈ rest →
    loaded.lookup typename = typeOutcome loaders entries typename
  loaded  : ∀ typename key, .ok (typename, key) ∈ rest → (loaded.lookup typename).isSome

variable {entries rest : List (Except V (Str × V))} {loaded : List (Str × Except V (List V))}
  {nextPos nextPos' : Str → Nat}

theorem Ahead.tail {entry : Except V (Str × V)}
    (h : Ahead loaders record entries loaded nextPos (entry :: rest))
    (hr : ∀ typename results, loaded.lookup typename = some (.ok results) →
      results.drop (nextPos' typename) = (CoreStep.keysOfType rest typename).map (record typename)) :
    Ahead loaders record entries loaded nextPos' rest where
  results := hr
  outcome typename key hm := h.outcome typename key (.tail _ hm)
  loaded typename key hm  := h.loaded typename key (.tail _ hm)

theorem scatterFrom_eq (h : Ahead loaders record entries loaded nextPos rest) :
    scatterFrom loaded nextPos rest = some (rest.map (ownEntry loaders record entries)) := by
  induction rest generalizing nextPos
  case nil => rfl
  case cons entry rest hi =>
    cases entry with
    | error error =>
      rw [scatterFrom, hi (h.tail h.results)]
      rfl
    | ok entry    =>
      obtain ⟨typename, key⟩ := entry
      obtain ⟨outcome, hl⟩ := Option.isSome_iff_exists.mp (h.loaded typename key (.head _))
      have ho : typeOutcome loaders entries typename = some outcome :=
        hl ▸ (h.outcome typename key (.head _)).symm
      cases outcome with
      | error error =>
        -- a failed type has no cursor to move
        have hr : Ahead loaders record entries loaded nextPos rest := h.tail fun t results ht => by
          have hne : typename ≠ t := fun he => by
            rw [← he, hl] at ht
            cases ht
          simpa [CoreStep.keysOfType, hne] using h.results t results ht
        simp [scatterFrom, hl, hi hr, ownEntry, ho]
      | ok results =>
        have hd : results.drop (nextPos typename) =
            record typename key :: (CoreStep.keysOfType rest typename).map (record typename) := by
          simpa [CoreStep.keysOfType] using h.results typename results hl
        obtain ⟨hv, hd⟩ : results[nextPos typename]? = some (record typename key) ∧
            results.drop (nextPos typename + 1) =
              (CoreStep.keysOfType rest typename).map (record typename) := by
          rw [← List.head?_drop, ← List.tail_drop, hd]
          exact ⟨rfl, rfl⟩
        have hr : Ahead loaders record entries loaded
            (Function.update nextPos typename (nextPos typename + 1)) rest := h.tail fun t results' ht => by
          by_cases he : t = typename
          case pos =>
            subst he
            obtain rfl : results = results' := Except.ok.inj (Option.some.inj (hl ▸ ht))
            rw [Function.update_self, hd]
          case neg =>
            rw [Function.update_of_ne he]
            simpa [CoreStep.keysOfType, Ne.symm he] using h.results t results' ht
        simp [scatterFrom, hl, hv, hi hr, ownEntry, ho]

-- The results that come back for the batches of a column.
def loadedTypes (loaders : Loaders F) (entries : List (Except V (Str × V))) :
    List (Str × Except V (List V)) :=
  ((keysByType entries).map (·.fst)).filterMap fun typename =>
    (typeOutcome loaders entries typename).map (typename, ·)

theorem lookup_loadedTypes {typename : Str} :
    (loadedTypes loaders entries).lookup typename =
      if typename ∈ (keysByType entries).map (·.fst) then typeOutcome loaders entries typename else none :=
  lookup_filterMap _ _ _

theorem loadedTypes_ok (hg : GivesRecords loaders record) {typename : Str} {results : List V}
    (h : (loadedTypes loaders entries).lookup typename = some (.ok results)) :
    results = (CoreStep.keysOfType entries typename).map (record typename) := by
  rw [lookup_loadedTypes] at h
  split at h
  case isFalse => cases h
  case isTrue  =>
    obtain ⟨loader, hl, hs⟩ := Option.map_eq_some_iff.mp h
    exact hg typename loader hl _ results hs

theorem ahead (hg : GivesRecords loaders record)
    (hr : ∀ typename key, .ok (typename, key) ∈ entries →
      ∃ loader, loaders.items.lookup typename = some loader) :
    Ahead loaders record entries (loadedTypes loaders entries) (fun _ => 0) entries where
  results typename results h := loadedTypes_ok hg h
  outcome typename key hm    := by rw [lookup_loadedTypes, if_pos (mem_keysByType hm)]
  loaded typename key hm     := by
    obtain ⟨loader, hl⟩ := hr typename key hm
    rw [lookup_loadedTypes, if_pos (mem_keysByType hm), typeOutcome, hl]
    rfl

theorem scatterNodes_eq (hg : GivesRecords loaders record)
    (hr : ∀ typename key, .ok (typename, key) ∈ entries →
      ∃ loader, loaders.items.lookup typename = some loader) :
    scatterNodes entries (loadedTypes loaders entries) =
      .ok (entries.map (ownEntry loaders record entries)) := by
  have hc : checkTypes (loadedTypes loaders entries) (keysByType entries) = .ok () :=
    checkTypes_ok fun batch hb results hl => by
      rw [loadedTypes_ok hg hl, List.length_map, snd_of_mem_keysByType hb]
  rw [scatterNodes, hc, scatterFrom_eq (ahead hg hr)]

theorem loadTypes_settled :
    ((keysByType entries).filterMap fun batch => (loaders.items.lookup batch.fst).map
      fun loader => (batch.fst, Loading.load loader batch.snd)).map
        (fun result => (result.fst, result.snd.settled)) = loadedTypes loaders entries := by
  rw [List.map_filterMap, loadedTypes, List.filterMap_map]
  refine List.filterMap_congr fun batch hb => ?_
  rw [snd_of_mem_keysByType hb, Option.map_map, Function.comp_apply, typeOutcome, Option.map_map]
  rfl

theorem execute_run {ids : List V} (hk : CoreStep.nodeKeys loaders ids = .ok entries) :
    (execute loaders ids).run [] =
      (if ((loadTypes loaders (keysByType entries)).run []).fst.any (isAwaitable ·.snd) then
        .awaitable (scatterNodes entries (loadedTypes loaders entries))
      else
        .ofExcept (scatterNodes entries (loadedTypes loaders entries)),
      (keysByType entries).filterMap fun batch => (loaders.items.lookup batch.fst).map (·, batch.snd)) := by
  have hl := loadTypes_run loaders (keysByType entries) []
  rw [List.nil_append] at hl
  rw [execute, hk]
  dsimp only
  rw [StateT.run_bind, hl]
  simp only [← loadTypes_settled]
  rfl

-- What an id gives by itself, where whatever it raises is an error of its own.
def ownKey (loaders : Loaders F) (raw : V) : Except V (Str × V) :=
  match CoreStep.nodeEntry loaders raw with
  | .ok key      => key
  | .error error => .error error

omit [Loading V F] in
theorem nodeKeys_own {ids : List V} (hk : CoreStep.nodeKeys loaders ids = .ok entries) :
    entries = ids.map (ownKey loaders) := by
  have h := CoreStep.nodeKeys_eq_ok_iff.mp hk
  clear hk
  induction ids generalizing entries
  case nil             => exact List.map_eq_nil_iff.mp h.symm
  case cons raw ids hi =>
    cases entries
    case nil                => cases h
    case cons entry entries =>
      obtain ⟨h₁, h₂⟩ := List.cons.inj h
      rw [List.map_cons, ← hi h₂, ownKey, h₁]

-- Each type is loaded at most once, with the keys of its ids, and each entry gets what its own id asks for.
def PerEntry (loaders : Loaders F) (record : Str → V → V) (ids : List V) : Prop :=
  ∃ (out : Out V (LoadError V)) (types : List Str), types.Nodup ∧
    (execute loaders ids).run [] = (out, types.filterMap fun typename =>
      (loaders.items.lookup typename).map (·, CoreStep.keysOfType (ids.map (ownKey loaders)) typename)) ∧
    out.settled = .ok ((ids.map (ownKey loaders)).map (ownEntry loaders record (ids.map (ownKey loaders))))

theorem perEntry_of_nodeKeys (hg : GivesRecords loaders record) {ids : List V}
    (hk : CoreStep.nodeKeys loaders ids = .ok entries) : PerEntry loaders record ids := by
  have hr (typename : Str) (key : V) (hm : .ok (typename, key) ∈ entries) :
      ∃ loader, loaders.items.lookup typename = some loader := by
    have hn : (.ok (.ok (typename, key))) ∈ ids.map (CoreStep.nodeEntry loaders) := by
      rw [CoreStep.nodeKeys_eq_ok_iff.mp hk]
      exact List.mem_map_of_mem hm
    obtain ⟨raw, _, hn⟩ := List.mem_map.mp hn
    exact nodeEntry_registered hn
  have hc : ((keysByType entries).filterMap fun batch => (loaders.items.lookup batch.fst).map (·, batch.snd)) =
      ((keysByType entries).map (·.fst)).filterMap fun typename =>
        (loaders.items.lookup typename).map (·, CoreStep.keysOfType entries typename) := by
    rw [List.filterMap_map]
    exact List.filterMap_congr fun batch hb => by rw [snd_of_mem_keysByType hb]; rfl
  rw [PerEntry, ← nodeKeys_own hk]
  refine ⟨_, (keysByType entries).map (·.fst), (Batch.grouped _).nodup,
    (execute_run hk).trans (congrArg _ hc), ?_⟩
  rw [scatterNodes_eq hg hr]
  split <;> rfl

-- The entries are served just when the walk over the ids comes to its end.
theorem perEntry_iff (hg : GivesRecords loaders record) {ids : List V} :
    PerEntry loaders record ids ↔ ∃ entries, CoreStep.nodeKeys loaders ids = .ok entries := by
  constructor
  case mp  =>
    intro h
    obtain ⟨out, types, _, he, hs⟩ := h
    cases hk : CoreStep.nodeKeys loaders ids
    case ok entries  => exact ⟨entries, rfl⟩
    case error error =>
      have hr : (execute loaders ids).run [] = (.raised (.undecoded error), []) := by
        rw [execute, hk]
        rfl
      obtain rfl : .raised (.undecoded error) = out := congrArg Prod.fst (hr.symm.trans he)
      cases hs
  case mpr =>
    intro h
    obtain ⟨entries, hk⟩ := h
    exact perEntry_of_nodeKeys hg hk

end NodeStep

end NodeStep

section GlobalId

variable [DecodedIds V S] {loaders : Loaders F}

open GlobalIds GlobalId CoreStep

theorem isNone_lookup {items : List (Str × F)} {typename : Str} :
    (items.lookup typename).isNone = !(items.map (·.fst)).contains typename := by
  induction items
  case nil             => rfl
  case cons item items hi =>
    rw [List.lookup_cons, List.map_cons, List.contains_cons]
    cases typename == item.fst
    case false => simpa using hi
    case true  => rfl

-- An entry is decoded as text.
theorem nodeEntry_eq (raw : V) : nodeEntry loaders raw =
    ((decodeEntry python (loaders.items.map (·.fst)) (entry raw)).map keyOrError).mapError raisedValue := by
  rw [nodeEntry, entry]
  split
  case isTrue  => rfl
  case isFalse =>
    rw [decodeEntry, DecodedIds.decode_eq]
    cases decodeGlobalId python (given raw)
    case error error => cases error <;> rfl
    case ok decoded  =>
      simp only [Decoding.ofExcept, isNone_lookup]
      cases (loaders.items.map (·.fst)).contains decoded.fst
      case false => simp [DecodedIds.noLoader_eq]; rfl
      case true  =>
        cases decoded.snd with
        | nil             => rfl
        | cons part parts => cases parts <;> rfl

theorem nodeEntry_readable_iff {raw : V} : (∃ key, nodeEntry loaders raw = .ok key) ↔
    (isException raw = false → Readable python (given raw)) := by
  have hd : (∃ key, decodeEntry python (loaders.items.map (·.fst)) (entry raw) = .ok key) ↔
      ∀ id, entry raw = .value id → Readable python id := decodeEntry_isOk_iff
  have he : (∃ key, nodeEntry loaders raw = .ok key) ↔
      ∃ key, decodeEntry python (loaders.items.map (·.fst)) (entry raw) = .ok key := by
    rw [nodeEntry_eq]
    cases decodeEntry python (loaders.items.map (·.fst)) (entry raw)
    case error error => simp [Except.map, Except.mapError]
    case ok key      => simp [Except.map, Except.mapError]
  rw [he, hd, entry]
  cases isException raw <;> simp

theorem nodeKeys_readable_iff {ids : List V} : (∃ keys, nodeKeys loaders ids = .ok keys) ↔
    ∀ raw ∈ ids, isException raw = false → Readable python (given raw) :=
  nodeKeys_isOk_iff.trans (forall₂_congr fun _ _ => nodeEntry_readable_iff)

-- The key of a record: the part of an id with one part, else the tuple of the parts.
def recordKey (idParts : List V) : V :=
  if idParts.length = 1 then idParts.headD (ofTuple []) else ofTuple idParts

-- The id of a record of a type with a loader is routed to this type, with the key of the record.
theorem nodeEntry_encodeGlobalId {typename id : Str} {parts : List Json.Native} {loader : F}
    (he : encodeGlobalId (python (V := V)) typename parts = .ok id)
    (hl : loaders.items.lookup (joinPairs typename) = some loader) :
    nodeEntry loaders (ofStr id : V) =
      .ok (.ok (joinPairs typename, recordKey (parts.map fun part => ofJson part.joined.toJson))) := by
  have hx : isException (ofStr id : V) = false := not_exception id
  have hc : (loaders.items.map (·.fst)).contains (joinPairs typename) = true := by
    rw [← Bool.not_eq_false', ← isNone_lookup, hl]
    rfl
  have hd : decodeEntry python (loaders.items.map (·.fst)) (entry (ofStr id : V)) =
      .ok (.ok (joinPairs typename, keyOf (parts.map (·.joined.toJson)))) := by
    rw [entry, hx, given_ofStr, if_neg Bool.false_ne_true, decodeEntry, decode_of_encode he]
    simp only [hc, if_true]
  rw [nodeEntry_eq, hd]
  cases parts
  case nil => rfl
  case cons part parts =>
    cases parts
    case nil => rfl
    case cons part' parts =>
      refine congrArg (fun key => Except.ok (Except.ok (joinPairs typename, key))) ?_
      simp [keyOf, keyValue, recordKey, Function.comp_def]

end GlobalId

section Loads

variable [DecodedIds V S] [Loading V F]

open GlobalIds

-- One batched load gives every entry what its own key asks for. One batched load for each type gives every entry what
-- its own id asks for just when no id is nested too deeply, and no other value raises anything but a `ValueError` for
-- its text. Loaders may be awaited.
theorem loads_per_entry_iff {loadFn : F} {f : V → V} (hr : RespectsKeys f) (hf : LoadsEach loadFn f)
    {loaders : Loaders F} {record : Str → V → V} (hg : GivesRecords loaders record) :
    (∀ keys : List V, ∃ out,
      (LoadStep.execute loadFn keys).run [] = (out, [(loadFn, (CoreStep.coalesce keys).uniqueKeys)]) ∧
      out.settled = .ok (keys.map f)) ∧
    (∀ ids : List V, NodeStep.PerEntry loaders record ids ↔
      ∀ raw ∈ ids, isException raw = false → GlobalId.Readable python (given raw)) ∧
    ∀ (typename id : Str) (parts : List Json.Native) (loader : F),
      GlobalId.encodeGlobalId (python (V := V)) typename parts = .ok id →
      loaders.items.lookup (joinPairs typename) = some loader →
        CoreStep.nodeEntry loaders (ofStr id : V) =
          .ok (.ok (joinPairs typename, recordKey (parts.map fun part => ofJson part.joined.toJson))) :=
  ⟨LoadStep.execute_pointwise hr hf, fun _ => (NodeStep.perEntry_iff hg).trans nodeKeys_readable_iff,
    fun _ _ _ _ he hl => nodeEntry_encodeGlobalId he hl⟩

end Loads

namespace Nodes

open GlobalId GlobalIds

inductive Val
  | none
  | text (s : Str)
  | json (value : Json)
  | tuple
  | error (message : String)

def Val.ofJson : Json → Val
  | .null  => none
  | .str s => text s
  | value  => json value

def Val.given : Val → Given Val
  | text s => .str s
  | value  => .other value

def runtime : Python Val Val where
  limits    := .initial
  reprStr _ := "'...'"
  detail _  := "no JSON"
  digits    := "Exceeds the limit (4300 digits) for integer string conversion"
  repr _    := .ok "<object>"
  typeName _ := "object"

def decode (raw : Val) : Decoding Val :=
  match GlobalId.decodeGlobalId runtime raw.given with
  | .ok (typename, idParts)   => .decoded typename (idParts.map Val.ofJson)
  | .error (.valueError text) => .valueError (.error text)
  | .error .recursionError    => .raised (.error "maximum recursion depth exceeded")
  | .error (.other error)     => .raised error

instance : GlobalIds Val String where
  pyNone            := .none
  isNone            := fun | .none => true | _ => false
  isException       := fun | .error _ => true | _ => false
  truthy            := fun | .none => false | _ => true
  hashable _        := true
  keyEq             := fun
    | .none, .none     => true
    | .text a, .text b => a = b
    | _, _             => false
  typeName _        := "object"
  repr _            := "<object>"
  asDict _          := .none
  getItem _ _       := .missing
  getAttr _ _       := .missing
  iterate _         := .error .none
  ofList _          := .none
  ofTuple _         := .tuple
  ofDict _          := .none
  decodeGlobalId    := decode
  noLoader _        := .error "node(id): no loader registered for type '...'"
  python            := runtime
  given             := Val.given
  ofStr             := .text
  ofJson            := Val.ofJson
  valueError        := .error
  keyError          := .error
  recursionError    := .error "maximum recursion depth exceeded"
  given_ofStr _     := rfl
  not_exception _   := rfl

theorem decode_eq (raw : Val) : decode raw = .ofExcept (GlobalId.decodeGlobalId python (GlobalIds.given raw)) := by
  have hr : GlobalId.decodeGlobalId python (GlobalIds.given raw) = GlobalId.decodeGlobalId runtime raw.given := rfl
  rw [decode, hr]
  cases GlobalId.decodeGlobalId runtime raw.given with
  | ok decoded  => rfl
  | error error => cases error <;> rfl

instance : DecodedIds Val String where
  decode_eq     := decode_eq
  noLoader_eq _ := rfl

-- The loader of users answers later with the keys, the loader of posts fails.
inductive Loader
  | users
  | posts
  deriving DecidableEq

instance : Loading Val Loader where
  load
    | .users, keys => .awaitable (.ok keys)
    | .posts, _    => .raised (.error "no posts")

def user : Str := Str.ofString "User"

def post : Str := Str.ofString "Post"

def loaders : Loaders Loader where
  items := [(user, .users), (post, .posts)]
  nodup := by decide

theorem users_respectsKeys : RespectsKeys (id : Val → Val) := by
  intro a b hk
  cases a <;> cases b <;> first | cases hk | skip
  case none.none => rfl
  case text.text => exact congrArg Val.text (of_decide_eq_true hk)

theorem users_loadsEach : LoadsEach Loader.users (id : Val → Val) :=
  fun keys => congrArg Except.ok keys.map_id.symm

theorem givesRecords : GivesRecords loaders fun _ key => (key : Val) := by
  intro typename loader _ keys loaded hs
  cases loader with
  | users => rw [List.map_id', Except.ok.inj hs]
  | posts => cases hs

-- The ids of a user and of a post.
def userId : Str := Str.ofString "WyJVc2VyIiwiMSJd"

def postId : Str := Str.ofString "WyJQb3N0IiwiNyJd"

theorem encode_user : encodeGlobalId (python (V := Val)) user [.str (Str.ofString "1")] = .ok userId := by
  rfl

theorem encode_post : encodeGlobalId (python (V := Val)) post [.str (Str.ofString "7")] = .ok postId := by
  rfl

-- A string that is no base64.
def stray : Str := Str.ofString "!"

theorem decode_stray : GlobalId.decodeGlobalId (python (V := Val)) (.str stray) =
    .error (.valueError "malformed global id '...': no JSON") := by
  rfl

-- A user, a post, an id that is none, an exception, and the user again.
def ids : List Val :=
  [.text userId, .text postId, .text stray, .error "upstream", .text userId]

theorem ids_readable : ∀ raw ∈ ids, isException raw = false → Readable python (GlobalIds.given raw) := by
  have hr {typename id : Str} {parts : List Json.Native}
      (h : encodeGlobalId (python (V := Val)) typename parts = .ok id) :
      Readable (python (V := Val)) (.str id) := by
    have hd := decode_of_encode h
    exact decodeGlobalId_answers_iff.mp (hd ▸ answers_of_ok hd)
  have he : Readable (python (V := Val)) (.str stray) := decodeGlobalId_answers_iff.mp (.inr ⟨_, decode_stray⟩)
  intro raw hm hx
  simp only [ids, List.mem_cons, List.not_mem_nil, or_false] at hm
  obtain rfl | rfl | rfl | rfl | rfl := hm
  · exact hr encode_user
  · exact hr encode_post
  · exact he
  · cases hx
  · exact hr encode_user

theorem ownKeys_ids : ids.map (NodeStep.ownKey loaders) =
    [.ok (user, .text (Str.ofString "1")), .ok (post, .text (Str.ofString "7")),
      .error (.error "malformed global id '...': no JSON"), .error (.error "upstream"),
      .ok (user, .text (Str.ofString "1"))] := by
  have hu : CoreStep.nodeEntry loaders (Val.text userId) = _ := nodeEntry_encodeGlobalId encode_user rfl
  have hp : CoreStep.nodeEntry loaders (Val.text postId) = _ := nodeEntry_encodeGlobalId encode_post rfl
  have hs : CoreStep.nodeEntry loaders (Val.text stray) =
      .ok (.error (.error "malformed global id '...': no JSON")) := by
    rfl
  simp only [ids, List.map_cons, List.map_nil, NodeStep.ownKey]
  rw [hu, hp, hs]
  rfl

theorem users_and_posts :
    (∃ out, (LoadStep.execute Loader.users [Val.text user, .none, .text user]).run [] =
        (out, [(.users, [.text user, .none])]) ∧
      out.settled = .ok [.text user, .none, .text user]) ∧
    ∃ (out : Out Val (LoadError Val)) (types : List Str), types.Nodup ∧
      (NodeStep.execute loaders ids).run [] = (out, types.filterMap fun typename =>
        (loaders.items.lookup typename).map (·, CoreStep.keysOfType (ids.map (NodeStep.ownKey loaders)) typename)) ∧
      out.settled = .ok [.text (Str.ofString "1"), .error "no posts", .error "malformed global id '...': no JSON",
        .error "upstream", .text (Str.ofString "1")] := by
  have h := loads_per_entry_iff users_respectsKeys users_loadsEach givesRecords
  have ⟨out, types, hn, he, hs⟩ := (h.right.left ids).mpr ids_readable
  refine ⟨h.left [.text user, .none, .text user], out, types, hn, he, ?_⟩
  rw [hs, ownKeys_ids]
  rfl

-- An id of more brackets than may be open takes the user beside it along.
theorem not_perEntry :
    ¬NodeStep.PerEntry loaders (fun _ key => key)
      [Val.text userId, .text (Text.wrap Text.Base64.urlSafe (List.replicate (runtime.limits.maxDepth + 1) '['))] := by
  rw [NodeStep.perEntry_iff givesRecords, nodeKeys_readable_iff]
  intro h
  have h := decodeGlobalId_answers_iff.mpr (h _ (.tail _ (.head _)) rfl)
  have hd : GlobalId.decodeGlobalId runtime
      (.str (Text.wrap Text.Base64.urlSafe (List.replicate (runtime.limits.maxDepth + 1) '['))) =
        .error .recursionError := by
    rw [GlobalId.decodeGlobalId, Text.decodeBody_brackets]
  exact not_answers_recursionError (hd ▸ h)

end Nodes

end Grafast
