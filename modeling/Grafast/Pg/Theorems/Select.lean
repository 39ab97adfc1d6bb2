import Grafast.Pg.Select
import Grafast.Pg.Theorems.Keyed

namespace Grafast

open Sql

section Keys

variable {C V : Type} {row : C → Option V} {matchColumns : List C}

variable [DecidableEq V]

theorem mem_coalesceKey {state : List (List (Option V)) × List (Option Nat)} {k : Key V}
    {key : List (Option V)} :
    key ∈ (coalesceKey state k).fst ↔ key ∈ state.fst ∨ some key = k := by
  rw [coalesceKey.eq_def]
  cases k
  case none   => simp
  case some k =>
    cases h : state.fst.idxOf? k
    case none      => simp [h]
    case some slot =>
      have hm : k ∈ state.fst := by
        by_contra hn
        simp [List.idxOf?_eq_none_iff.mpr hn] at h
      simpa [h] using fun he => he ▸ hm

theorem mem_coalesceKeys {keys : List (Key V)} {key : List (Option V)} :
    key ∈ (coalesceKeys keys).fst ↔ some key ∈ keys := by
  have h (state : List (List (Option V)) × List (Option Nat)) :
      key ∈ (keys.foldl coalesceKey state).fst ↔ key ∈ state.fst ∨ some key ∈ keys := by
    induction keys generalizing state
    case nil          => simp
    case cons k ks hi => rw [List.foldl_cons, hi, mem_coalesceKey, List.mem_cons, or_assoc]
  rw [coalesceKeys, h]
  simp

end Keys

section Window

variable {R P : Type} [DecidableEq P] {e : Engine} {part : R → P} {le : R → R → Bool}
variable {first offset : Option Int} {rows : List R} {p : P}

-- The page of some rows in their order.
def window (first offset : Option Int) (rows : List R) : List R :=
  ((rows.zipIdx 1).filter (inPage first offset ·.snd)).map (·.fst)

theorem window_null : window first none rows = [] := by
  simp [window, inPage]

-- Without bounds, all rows are on the page.
theorem window_all : window none (some 0) rows = rows := by
  rw [window, List.filter_eq_self.mpr, List.zipIdx_map_fst]
  intro x hx
  have h := List.le_snd_of_mem_zipIdx hx
  simp only [inPage, decide_eq_true_eq]
  omega

-- The page is what OFFSET and LIMIT leave, where they are bounds.
theorem window_eq_slice {offset : Int} (ho : IsBound (some offset)) (hf : IsBound first) :
    window first (some offset) rows = slice (some offset.toNat) (first.map Int.toNat) rows := by
  obtain ⟨offset, rfl⟩ := Int.eq_ofNat_of_zero_le (ho offset rfl)
  cases first
  case none       =>
    have hp : inPage none (some (offset : Int)) = fun rn => decide (offset < rn) :=
      funext fun rn => decide_eq_decide.mpr Int.ofNat_lt
    rw [window, hp]
    exact zipIdx_filter_drop
  case some first =>
    obtain ⟨first, rfl⟩ := Int.eq_ofNat_of_zero_le (hf first rfl)
    have hp : inPage (some (first : Int)) (some (offset : Int)) =
        fun rn => decide (offset < rn) && decide (rn ≤ offset + first) :=
      funext fun rn => congrArg₂ and (decide_eq_decide.mpr Int.ofNat_lt)
        (decide_eq_decide.mpr Int.ofNat_le)
    rw [window, hp]
    exact zipIdx_filter_slice

-- The page of a part is what it would be without the other parts.
theorem windowSlice_filter : (windowSlice e part le first offset rows).filter (part · = p) =
    window first offset (e.sort le (rows.filter (part · = p))) := by
  rw [windowSlice, List.filter_map]
  refine (congrArg (List.map Prod.fst) (e.filter_sort_rowNumber part le rows p
    (inPage first offset) ?_ ?_ (by simp))).trans ?_
  case refine_1 => exact fun _ _ _ hab hbc => by simp at hab hbc ⊢; omega
  case refine_2 => exact fun _ _ => by simp; omega
  rfl

end Window

namespace PgSelectStep

variable {C A V β : Type} [LinearOrder V] {step : PgSelectStep C A V} {e : Engine}
variable {table : List (C → Option V)} {sourceValues : SourceValues}
variable {uniqueKeys : List (List (Option V))} {key : List (Option V)}

theorem mem_runQuery {row : C → Option V} (h : row ∈ step.runQuery e table uniqueKeys sourceValues) :
    row ∈ step.matched table uniqueKeys := by
  simp only [runQuery] at h
  split at h
  case isTrue =>
    simp only [windowSlice, List.mem_map] at h
    obtain ⟨x, hx, rfl⟩ := h
    exact Engine.mem_rowNumber (List.mem_of_mem_filter (Engine.mem_sort.mp hx))
  case isFalse => exact Engine.mem_sort.mp h

-- What the dictionary of the rows holds for a key: its rows, in the order of the statement.
theorem groupAndDecode_lookup {k : Key V} :
    ((step.groupAndDecode ((step.runQuery e table uniqueKeys sourceValues).map
      step.resource.project)).lookup k).getD [] =
      ((step.runQuery e table uniqueKeys sourceValues).filter
        fun row => some (step.matchColumns.map row) = k).map step.present := by
  have hd {group : Option (List (RowDict C A V))} :
      (group.map step.resource.decodeRows).getD [] = step.resource.decodeRows (group.getD []) := by
    cases group <;> rfl
  rw [groupAndDecode, Batch.lookup_map, hd, PgKeyed.lookup_groupRows, List.filter_map,
    PgResource.decodeRows, List.map_map]
  exact congrArg _ (PgKeyed.filter_groupingKey fun row hrow => mem_runQuery hrow)

omit [LinearOrder V] in
theorem not_isLimited_iff :
    step.isLimited = false ↔ step.first = .literal none ∧ step.offset = .literal (some 0) := by
  simp [isLimited]

-- The rows of a key are the page of its rows in an order that the step asks for.
theorem runQuery_filter (step : PgSelectStep C A V) (e : Engine) (table : List (C → Option V))
    (sourceValues : SourceValues) (hk : key ∈ uniqueKeys) :
    ∃ l : List (C → Option V), l.Perm (step.matched table [key]) ∧
      l.Pairwise (ordered (orderClauses step.orderBy) · · = true) ∧
      (step.runQuery e table uniqueKeys sourceValues).filter (step.matchColumns.map · = key) =
        window (resolvePlaceholder step.first sourceValues.numbers)
          (resolvePlaceholder step.offset sourceValues.numbers) l := by
  rw [← PgKeyed.matched_filter hk]
  have hs (rows : List (C → Option V)) : (e.sort (ordered (orderClauses step.orderBy)) rows).Pairwise
      (ordered (orderClauses step.orderBy) · · = true) :=
    e.sorted rows (fun _ _ _ => ordered_trans) fun _ _ => ordered_total
  by_cases hl : step.isLimited = true
  case pos =>
    rw [runQuery, if_pos hl]
    exact ⟨_, e.perm _ _, hs _, windowSlice_filter⟩
  case neg =>
    obtain ⟨hf, ho⟩ := not_isLimited_iff.mp (Bool.eq_false_iff.mpr hl)
    rw [runQuery, if_neg hl, hf, ho]
    exact ⟨_, (e.perm _ _).filter _, (hs _).filter _, window_all.symm⟩

-- What a separate statement for one key gives an entry: nothing without a full key.
def Separately (step : PgSelectStep C A V) (take : List (RowDict C A V) → β)
    (table : List (C → Option V)) (sourceValues : SourceValues) (value : Key V) (entry : β) :
    Prop :=
  match normalizeLookupKey value step.isComposite with
  | none     => entry = take []
  | some key => ∃ rows, IsAnswer (ordered (orderClauses step.orderBy))
      (resolvePlaceholder step.offset sourceValues.numbers) (resolvePlaceholder step.first sourceValues.numbers)
      (step.matched table [key]) rows ∧
      entry = take (rows.map step.present)

-- OFFSET and LIMIT with the numbers of the request are no error.
def Bounded (step : PgSelectStep C A V) (sourceValues : SourceValues) : Prop :=
  IsBound (resolvePlaceholder step.offset sourceValues.numbers) ∧
    IsBound (resolvePlaceholder step.first sourceValues.numbers)

-- The entry of a key in the result of the statement.
def entryRows (step : PgSelectStep C A V) (e : Engine) (table : List (C → Option V))
    (sourceValues : SourceValues) (values : List (Key V)) (value : Key V) :
    List (RowDict C A V) :=
  ((step.runQuery e table (coalesceKeys (step.normalizedKeys values)).fst sourceValues).filter
    fun row => some (step.matchColumns.map row) = normalizeLookupKey value step.isComposite).map
      step.present

variable {take : List (RowDict C A V) → β} {values : List (Key V)} {value : Key V}

theorem entryRows_of_none (h : normalizeLookupKey value step.isComposite = none) :
    step.entryRows e table sourceValues values value = [] := by
  simp [entryRows, h]

theorem mem_uniqueKeys : key ∈ (coalesceKeys (step.normalizedKeys values)).fst ↔
    ∃ value ∈ values, normalizeLookupKey value step.isComposite = some key := by
  rw [mem_coalesceKeys, PgKeyed.normalizedKeys, List.mem_map]

theorem executeWith_entries : (step.executeWith take e table sourceValues values).entries =
    values.map (take <| step.entryRows e table sourceValues values ·) := by
  simp only [executeWith]
  split
  case isTrue h  =>
    rw [PgKeyed.normalizedKeys, List.map_map]
    refine List.map_congr_left fun value hv => ?_
    have hn : normalizeLookupKey value step.isComposite = none := by
      by_contra hn
      obtain ⟨key, hk⟩ := Option.ne_none_iff_exists'.mp hn
      have hm := mem_uniqueKeys.mpr ⟨value, hv, hk⟩
      rw [List.isEmpty_iff.mp h] at hm
      exact List.not_mem_nil hm
    rw [entryRows_of_none hn]
    rfl
  case isFalse h =>
    rw [PgKeyed.normalizedKeys, List.map_map]
    refine List.map_congr_left fun value _ => congrArg take ?_
    rw [groupAndDecode_lookup]
    rfl

theorem executeWith_statements :
    (step.executeWith take e table sourceValues values).statements ≤ 1 := by
  simp only [executeWith]
  split
  case isTrue  => exact Nat.zero_le 1
  case isFalse => exact Nat.le_refl 1

-- No row that passes the predicates has a key of the bucket.
def Unmatched (step : PgSelectStep C A V) (table : List (C → Option V)) (values : List (Key V)) : Prop :=
  ∀ row ∈ table, step.passes row = true →
    step.matchPredicate (coalesceKeys (step.normalizedKeys values)).fst row = false

theorem unmatched_iff : step.Unmatched table values ↔
    ∀ value ∈ values, ∀ key, normalizeLookupKey value step.isComposite = some key →
      step.matched table [key] = [] := by
  simp only [PgKeyed.matched_eq_nil_iff]
  constructor
  case mp =>
    intro h value hv key hk row hr hp
    have hn := h row hr hp
    rw [Bool.eq_false_iff, ne_eq, PgKeyed.matchPredicate_iff] at hn ⊢
    rintro ⟨hs, hm⟩
    rw [List.mem_singleton] at hm
    exact hn ⟨hs, mem_uniqueKeys.mpr ⟨value, hv, hm ▸ hk⟩⟩
  case mpr =>
    intro h row hr hp
    rw [Bool.eq_false_iff, ne_eq, PgKeyed.matchPredicate_iff]
    rintro ⟨hs, hm⟩
    obtain ⟨value, hv, hk⟩ := mem_uniqueKeys.mp hm
    have hn := h value hv _ hk row hr hp
    rw [Bool.eq_false_iff, ne_eq, PgKeyed.matchPredicate_iff] at hn
    exact hn ⟨hs, List.mem_singleton_self _⟩

-- The rows of a full key are the page of the rows that match it.
theorem entryRows_of_some (step : PgSelectStep C A V) (e : Engine) (table : List (C → Option V))
    (sourceValues : SourceValues) (hv : value ∈ values)
    (hk : normalizeLookupKey value step.isComposite = some key) :
    ∃ l : List (C → Option V), l.Perm (step.matched table [key]) ∧
      l.Pairwise (ordered (orderClauses step.orderBy) · · = true) ∧
      step.entryRows e table sourceValues values value =
        (window (resolvePlaceholder step.first sourceValues.numbers)
          (resolvePlaceholder step.offset sourceValues.numbers) l).map step.present := by
  obtain ⟨l, hp, hs, hl⟩ := step.runQuery_filter e table sourceValues
    (mem_uniqueKeys.mpr ⟨value, hv, hk⟩)
  refine ⟨l, hp, hs, ?_⟩
  rw [← hl]
  simp [entryRows, hk]

-- An entry is an answer of its own statement where that statement has answers, unless its offset is NULL
-- and hides rows.
theorem separately_entryRows_iff (ht : ∀ rows, take rows = take [] → rows = []) (hv : value ∈ values) :
    step.Separately take table sourceValues value (take (step.entryRows e table sourceValues values value)) ↔
      ∀ key, normalizeLookupKey value step.isComposite = some key → step.Bounded sourceValues ∧
        (resolvePlaceholder step.offset sourceValues.numbers = none →
          resolvePlaceholder step.first sourceValues.numbers = some 0 ∨ step.matched table [key] = []) := by
  rw [Separately]
  cases hk : normalizeLookupKey value step.isComposite
  case none     => simp [entryRows_of_none hk]
  case some key =>
    obtain ⟨l, hp, hs, hl⟩ := step.entryRows_of_some e table sourceValues hv hk
    simp only [Option.some.injEq, forall_eq', hl]
    cases ho : resolvePlaceholder step.offset sourceValues.numbers
    case none        =>
      rw [window_null, List.map_nil, Bounded, ho]
      constructor
      case mp  =>
        rintro ⟨rows, ⟨hob, hfb, m, hm, _, rfl⟩, hr⟩
        have hn := List.map_eq_nil_iff.mp (ht _ hr.symm)
        refine ⟨⟨hob, hfb⟩, fun _ => ?_⟩
        exact ((slice_none_eq_nil_iff hfb).mp hn).imp_right fun hl => (hl ▸ hm).nil_eq.symm
      case mpr =>
        rintro ⟨⟨hob, hfb⟩, h⟩
        refine ⟨_, ⟨hob, hfb, l, hp, hs, rfl⟩, ?_⟩
        have hn := (slice_none_eq_nil_iff (l := l) hfb).mpr <|
          (h rfl).imp_right fun hm => (hm ▸ hp).eq_nil
        rw [Option.map_none, hn, List.map_nil]
    case some offset =>
      rw [Bounded, ho]
      constructor
      case mp  =>
        rintro ⟨_, ⟨hob, hfb, _⟩, _⟩
        exact ⟨⟨hob, hfb⟩, fun h => absurd h (Option.some_ne_none offset)⟩
      case mpr =>
        rintro ⟨⟨hob, hfb⟩, _⟩
        exact ⟨_, ⟨hob, hfb, l, hp, hs, rfl⟩, by rw [window_eq_slice hob hfb]; rfl⟩

-- A bucket that asks for some rows.
def Keyed (step : PgSelectStep C A V) (values : List (Key V)) : Prop :=
  ∃ value ∈ values, normalizeLookupKey value step.isComposite ≠ none

-- The entries of a bucket are those of separate statements, unless these are refused or an offset that is
-- NULL hides rows.
theorem executeWith_separately_iff (ht : ∀ rows, take rows = take [] → rows = []) :
    List.Forall₂ (step.Separately take table sourceValues) values
        (step.executeWith take e table sourceValues values).entries ↔
      (step.Keyed values → step.Bounded sourceValues) ∧
      (step.isLimited = true → resolvePlaceholder step.offset sourceValues.numbers = none →
        resolvePlaceholder step.first sourceValues.numbers = some 0 ∨ step.Unmatched table values) := by
  have hl : step.isLimited = false → resolvePlaceholder step.offset sourceValues.numbers ≠ none := by
    intro hl
    rw [(not_isLimited_iff.mp hl).right]
    exact Option.some_ne_none 0
  rw [executeWith_entries, List.forall₂_map_right_iff, List.forall₂_same, unmatched_iff]
  constructor
  case mp  =>
    intro h
    refine ⟨fun ⟨value, hv, hn⟩ => ?_, fun _ ho => ?_⟩
    · obtain ⟨key, hk⟩ := Option.ne_none_iff_exists'.mp hn
      exact ((separately_entryRows_iff ht hv).mp (h value hv) key hk).left
    · by_cases hf : resolvePlaceholder step.first sourceValues.numbers = some 0
      case pos => exact .inl hf
      case neg =>
        refine .inr fun value hv key hk => ?_
        exact (((separately_entryRows_iff ht hv).mp (h value hv) key hk).right ho).resolve_left hf
  case mpr =>
    rintro ⟨hb, h⟩ value hv
    refine (separately_entryRows_iff ht hv).mpr fun key hk => ⟨hb ⟨value, hv, by simp [hk]⟩, fun ho => ?_⟩
    cases hi : step.isLimited
    case false => exact absurd ho (hl hi)
    case true  => exact (h hi ho).imp_right fun hm => hm value hv key hk

section Run

-- The step as it is without the decoders of its resource.
def undecoded (step : PgSelectStep C A V) : PgSelectStep C A V :=
  { step with resource := step.resource.undecoded }

-- What a separate statement for one key gives an entry where its rows are decoded: it raises if one of
-- them has a value that is rejected.
def RunsSeparately (step : PgSelectStep C A V) (take : List (RowDict C A V) → β)
    (table : List (C → Option V)) (sourceValues : SourceValues) (value : Key V) (entry : Option β) :
    Prop :=
  match normalizeLookupKey value step.isComposite with
  | none     => entry = some (take [])
  | some key => ∃ rows, IsAnswer (ordered (orderClauses step.orderBy))
      (resolvePlaceholder step.offset sourceValues.numbers) (resolvePlaceholder step.first sourceValues.numbers)
      (step.matched table [key]) rows ∧
      entry = step.resource.decodedBy take (rows.map step.resource.project)

-- Whether the statement for a key alone has an answer with a row that a decoder rejects.
def MayReject (step : PgSelectStep C A V) (table : List (C → Option V)) (sourceValues : SourceValues)
    (value : Key V) : Prop :=
  ∃ key, normalizeLookupKey value step.isComposite = some key ∧
    ∃ rows, IsAnswer (ordered (orderClauses step.orderBy))
      (resolvePlaceholder step.offset sourceValues.numbers) (resolvePlaceholder step.first sourceValues.numbers)
      (step.matched table [key]) rows ∧
      ∃ row ∈ rows, step.resource.rejects (step.resource.project row) = true

-- No row that the statement of the bucket returns has a value that a decoder rejects.
def Decodes (step : PgSelectStep C A V) (e : Engine) (table : List (C → Option V))
    (sourceValues : SourceValues) (values : List (Key V)) : Prop :=
  ∀ row ∈ step.fetched e table sourceValues values,
    step.resource.rejects (step.resource.project row) = false

theorem runWith_statements : (step.runWith take e table sourceValues values).statements ≤ 1 := by
  simp only [runWith]
  split <;> exact executeWith_statements

theorem mem_fetched {row : C → Option V} : row ∈ step.fetched e table sourceValues values ↔
    row ∈ step.runQuery e table (coalesceKeys (step.normalizedKeys values)).fst sourceValues := by
  simp only [fetched]
  split
  case isTrue h  =>
    refine iff_of_false List.not_mem_nil fun hm => ?_
    have hk := (PgKeyed.matchPredicate_iff.mp
      (Bool.and_eq_true_iff.mp (List.mem_filter.mp (mem_runQuery hm)).right).left).right
    rw [List.isEmpty_iff.mp h] at hk
    exact List.not_mem_nil hk
  case isFalse h => exact Iff.rfl

theorem not_decodes_iff : ¬step.Decodes e table sourceValues values ↔
    ((step.fetched e table sourceValues values).map step.resource.project).any step.resource.rejects =
      true := by
  simp only [Decodes, List.any_map, List.any_eq_true, Function.comp_apply, not_forall, exists_prop,
    Bool.not_eq_false]

-- Rows of an entry are rows that the statement has returned.
theorem mem_fetched_of_entry {row : C → Option V} (h : row ∈
    (step.runQuery e table (coalesceKeys (step.normalizedKeys values)).fst sourceValues).filter
      fun row => some (step.matchColumns.map row) = normalizeLookupKey value step.isComposite) :
    row ∈ step.fetched e table sourceValues values :=
  mem_fetched.mpr (List.mem_of_mem_filter h)

theorem runWith_entries_of_decodes (h : step.Decodes e table sourceValues values) :
    (step.runWith take e table sourceValues values).entries =
      (step.undecoded.executeWith (step.resource.decodedBy take) e table sourceValues values).entries := by
  have hr := mt not_decodes_iff.mpr (not_not.mpr h)
  rw [runWith, if_neg hr, executeWith_entries, executeWith_entries, List.map_map]
  refine List.map_congr_left fun value hv => ?_
  have hd : ((step.undecoded.entryRows e table sourceValues values value).any step.resource.rejects) = false := by
    simp only [entryRows, List.any_map, List.any_eq_false, Function.comp_apply, Bool.not_eq_true]
    exact fun row hrow => h row (mem_fetched_of_entry hrow)
  rw [PgResource.decodedBy, hd, if_neg Bool.false_ne_true]
  refine congrArg (fun rows => some (take rows)) ?_
  rw [PgResource.decodeRows, entryRows, entryRows, List.map_map]
  rfl

theorem runWith_entries_of_not_decodes (h : ¬step.Decodes e table sourceValues values) :
    (step.runWith take e table sourceValues values).entries = values.map fun _ => none := by
  rw [runWith, if_pos (not_decodes_iff.mp h), executeWith_entries, List.map_map]
  rfl

theorem runsSeparately_none_iff :
    step.RunsSeparately take table sourceValues value none ↔ step.MayReject table sourceValues value := by
  rw [RunsSeparately, MayReject]
  cases normalizeLookupKey value step.isComposite
  case none     => simp
  case some key =>
    simp only [Option.some.injEq, exists_eq_left']
    refine exists_congr fun rows => and_congr_right fun _ => ?_
    rw [PgResource.decodedBy]
    cases hr : (rows.map step.resource.project).any step.resource.rejects
    case false =>
      refine iff_of_false (by simp) ?_
      rintro ⟨row, hrow, hj⟩
      have hn := List.any_eq_false.mp hr _ (List.mem_map_of_mem hrow)
      exact hn hj
    case true =>
      obtain ⟨d, hd, hj⟩ := List.any_eq_true.mp hr
      obtain ⟨row, hrow, rfl⟩ := List.mem_map.mp hd
      exact iff_of_true (by simp) ⟨row, hrow, hj⟩

-- The entries of a bucket are those of separate statements where no row of it is rejected and the separate
-- statements are neither refused nor hidden by an offset that is NULL, or where each separate statement
-- raises as well.
theorem runWith_separately_iff (ht : ∀ rows, take rows = take [] → rows = []) :
    List.Forall₂ (step.RunsSeparately take table sourceValues) values
        (step.runWith take e table sourceValues values).entries ↔
      (step.Decodes e table sourceValues values ∧ (step.Keyed values → step.Bounded sourceValues) ∧
        (step.isLimited = true → resolvePlaceholder step.offset sourceValues.numbers = none →
          resolvePlaceholder step.first sourceValues.numbers = some 0 ∨ step.Unmatched table values)) ∨
      (¬step.Decodes e table sourceValues values ∧
        ∀ value ∈ values, step.MayReject table sourceValues value) := by
  by_cases hd : step.Decodes e table sourceValues values
  case pos =>
    have hs (rows) (h : step.resource.decodedBy take rows = step.resource.decodedBy take []) : rows = [] := by
      rw [PgResource.decodedBy, PgResource.decodedBy, List.any_nil, if_neg Bool.false_ne_true] at h
      split at h
      case isTrue  => cases h
      case isFalse => exact List.map_eq_nil_iff.mp (ht _ (Option.some.inj h))
    rw [runWith_entries_of_decodes hd]
    refine Iff.trans ?_ (or_iff_left fun h => h.left hd).symm
    have hw : List.Forall₂ (step.undecoded.Separately (step.resource.decodedBy take) table sourceValues) values
        (step.undecoded.executeWith (step.resource.decodedBy take) e table sourceValues values).entries ↔ _ :=
      executeWith_separately_iff hs
    exact hw.trans (and_iff_right hd).symm
  case neg =>
    rw [runWith_entries_of_not_decodes hd, List.forall₂_map_right_iff, List.forall₂_same]
    simp only [runsSeparately_none_iff, hd, not_false_eq_true, true_and, false_and, false_or]

end Run

-- Both steps run one statement at most, and their entries are those of separate statements.
theorem run_iff (step : PgSelectStep C A V) (e : Engine) (table : List (C → Option V))
    (sourceValues : SourceValues) (values : List (Key V)) :
    ((step.run e table sourceValues values).statements ≤ 1 ∧
      List.Forall₂ (step.RunsSeparately id table sourceValues) values
        (step.run e table sourceValues values).entries ∧
      (PgSelectSingleStep.run step e table sourceValues values).statements ≤ 1 ∧
      List.Forall₂ (step.RunsSeparately List.head? table sourceValues) values
        (PgSelectSingleStep.run step e table sourceValues values).entries) ↔
      (step.Decodes e table sourceValues values ∧ (step.Keyed values → step.Bounded sourceValues) ∧
        (step.isLimited = true → resolvePlaceholder step.offset sourceValues.numbers = none →
          resolvePlaceholder step.first sourceValues.numbers = some 0 ∨ step.Unmatched table values)) ∨
      (¬step.Decodes e table sourceValues values ∧
        ∀ value ∈ values, step.MayReject table sourceValues value) := by
  constructor
  case mp  => exact fun h => (runWith_separately_iff fun _ h => h).mp h.right.left
  case mpr =>
    intro h
    exact ⟨runWith_statements, (runWith_separately_iff fun _ h => h).mpr h, runWith_statements,
      (runWith_separately_iff fun _ h => List.head?_eq_none_iff.mp h).mpr h⟩

end PgSelectStep

-- Posts by author, with an offset that is a variable without a value.
namespace Posts

inductive Column
  | id
  | author
  deriving DecidableEq

def resource : PgResource Column Empty Nat where
  schema        := "public"
  table         := "posts"
  primaryKey    := .id
  names         := [.inl .id, .inl .author]
  attributes _  := ⟨none, some .integer⟩
  expression    := Empty.elim
  columnTypes _ := none
  optOutInline  := false
  hasCustomizer := false

def post (id author : Nat) : Column → Option Nat
  | .id     => some id
  | .author => some author

def byAuthor : PgSelectStep Column Empty Nat :=
  .make resource [.author] none false (.literal none) (.placeholder "var:o") []

theorem not_separately : ¬List.Forall₂
    (byAuthor.RunsSeparately id [post 1 7] ⟨fun _ => none, fun _ => none⟩) [some [some 7]]
    (byAuthor.run .insertion [post 1 7] ⟨fun _ => none, fun _ => none⟩ [some [some 7]]).entries := by
  intro h
  obtain ⟨_, _, h⟩ | ⟨h, _⟩ := (PgSelectStep.runWith_separately_iff fun _ h => h).mp h
  · obtain h | h := h (by decide) rfl
    · exact absurd h (by decide)
    · exact absurd (h (post 1 7) (.head _) (by decide)) (by decide)
  · exact h fun row _ => by rfl

end Posts

end Grafast
