import Grafast.Pg.Binds
import Grafast.Pg.Theorems.Connection
import Grafast.Pg.Theorems.Select
import Grafast.Pg.Theorems.Union
import Grafast.Sql.Engine

namespace Grafast

open Sql

-- A paging argument with the value that a request has for it as a literal. Without a value, the argument is
-- not given.
def PageValue.resolved {α : Type} (value : PageValue α) (sourceValues : String → Option α) : PageValue α :=
  .literal (resolvePlaceholder value sourceValues)

namespace PgSelectStep

variable {C A V β : Type}

-- The same step with the values of a request as literals.
def resolved (step : PgSelectStep C A V) (sourceValues : SourceValues) : PgSelectStep C A V where
  toPgKeyed := step.toPgKeyed
  first     := step.first.resolved sourceValues.numbers
  offset    := .literal (some ((resolvePlaceholder step.offset sourceValues.numbers).getD 0))

variable [LinearOrder V] {step : PgSelectStep C A V} {take : List (RowDict C A V) → β}
variable {table : List (C → Option V)} {sourceValues : SourceValues} {values : List (Key V)}

theorem executeWith_eq {e : Engine} : step.executeWith take e table sourceValues values =
    ⟨if (coalesceKeys (step.normalizedKeys values)).fst.isEmpty then 0 else 1,
      values.map (take <| step.entryRows e table sourceValues values ·)⟩ := by
  rw [← executeWith_entries]
  simp only [executeWith]
  split
  case isTrue  => rfl
  case isFalse => rfl

-- The entries depend on the rows of each key alone.
theorem executeWith_congr (step : PgSelectStep C A V) (first offset : PageValue Int) {e e' : Engine}
    (h : ∀ key, ({ step with first := first, offset := offset }.runQuery e' table
        (coalesceKeys (step.normalizedKeys values)).fst sourceValues).filter (step.matchColumns.map · = key) =
      (step.runQuery e table (coalesceKeys (step.normalizedKeys values)).fst sourceValues).filter
        (step.matchColumns.map · = key)) :
    { step with first := first, offset := offset }.executeWith take e' table sourceValues values =
      step.executeWith take e table sourceValues values := by
  rw [executeWith_eq, executeWith_eq]
  refine congrArg (BatchResult.mk _) (List.map_congr_left fun value _ => congrArg take ?_)
  have hc : ({ step with first := first, offset := offset } : PgSelectStep C A V).isComposite =
      step.isComposite := rfl
  cases hk : normalizeLookupKey value step.isComposite
  case none     => rw [entryRows_of_none hk, entryRows_of_none (hc ▸ hk)]
  case some key =>
    simp only [entryRows, hk, Option.some.injEq]
    exact congrArg _ (h key)

-- Without bounds, the window keeps the order of the statement within each key.
theorem window_of_plain (e : Engine) (rows : List (C → Option V)) :
    ∃ e' : Engine, ∀ key, (windowSlice e' (step.matchColumns.map ·) (ordered (orderClauses step.orderBy))
        none (some 0) rows).filter (step.matchColumns.map · = key) =
      (e.sort (ordered (orderClauses step.orderBy)) rows).filter (step.matchColumns.map · = key) := by
  obtain ⟨e', h⟩ := e.exists_sort_parts (step.matchColumns.map ·)
    (ordered (orderClauses step.orderBy)) rows
  exact ⟨e', fun key => by rw [windowSlice_filter, window_all, h]⟩

theorem plain_of_window (e : Engine) (rows : List (C → Option V)) :
    ∃ e' : Engine, ∀ key, (e'.sort (ordered (orderClauses step.orderBy)) rows).filter
        (step.matchColumns.map · = key) =
      (windowSlice e (step.matchColumns.map ·) (ordered (orderClauses step.orderBy)) none (some 0)
        rows).filter (step.matchColumns.map · = key) := by
  obtain ⟨e', h⟩ := e.exists_sort_rows (step.matchColumns.map ·)
    (ordered (orderClauses step.orderBy)) rows (fun _ _ _ => ordered_trans) fun _ _ => ordered_total
  exact ⟨e', fun key => by rw [windowSlice_filter, window_all, h]⟩

omit [LinearOrder V] in
theorem resolved_isLimited (h : (step.resolved sourceValues).isLimited = true) : step.isLimited = true := by
  by_contra hn
  obtain ⟨hf, ho⟩ := not_isLimited_iff.mp (Bool.eq_false_iff.mpr hn)
  simp [isLimited, resolved, PageValue.resolved, resolvePlaceholder, hf, ho] at h

-- With an offset, the values of a request make the same page as variables and as literals.
theorem resolved_runQuery (table : List (C → Option V)) (e : Engine) (uniqueKeys : List (List (Option V)))
    (ho : resolvePlaceholder step.offset sourceValues.numbers ≠ none) :
    (∃ e', ∀ key, ((step.resolved sourceValues).runQuery e' table uniqueKeys sourceValues).filter
        (step.matchColumns.map · = key) =
      (step.runQuery e table uniqueKeys sourceValues).filter (step.matchColumns.map · = key)) ∧
    ∃ e', ∀ key, (step.runQuery e' table uniqueKeys sourceValues).filter (step.matchColumns.map · = key) =
      ((step.resolved sourceValues).runQuery e table uniqueKeys sourceValues).filter
        (step.matchColumns.map · = key) := by
  obtain ⟨offset, ho'⟩ := Option.ne_none_iff_exists'.mp ho
  have hr : resolvePlaceholder (step.resolved sourceValues).offset sourceValues.numbers = some offset := by
    show some ((resolvePlaceholder step.offset sourceValues.numbers).getD 0) = some offset
    rw [ho', Option.getD_some]
  have hf : resolvePlaceholder (step.resolved sourceValues).first sourceValues.numbers =
      resolvePlaceholder step.first sourceValues.numbers := rfl
  cases hl : (step.resolved sourceValues).isLimited
  case true  =>
    have hq : (step.resolved sourceValues).runQuery e table uniqueKeys sourceValues =
        step.runQuery e table uniqueKeys sourceValues := by
      rw [runQuery, runQuery, if_pos hl, if_pos (resolved_isLimited hl), hr, hf, ho']
      rfl
    exact ⟨⟨e, fun _ => by rw [hq]⟩, e, fun _ => by rw [hq]⟩
  case false =>
    obtain ⟨hn, hz⟩ := not_isLimited_iff.mp hl
    rw [hn] at hf
    rw [hz] at hr
    obtain rfl : 0 = offset := Option.some.inj hr
    have hp (e : Engine) : (step.resolved sourceValues).runQuery e table uniqueKeys sourceValues =
        e.sort (ordered (orderClauses step.orderBy)) (step.matched table uniqueKeys) := by
      rw [runQuery, if_neg (by simp [hl])]
      rfl
    cases hs : step.isLimited
    case false =>
      have hq (e : Engine) : step.runQuery e table uniqueKeys sourceValues =
          e.sort (ordered (orderClauses step.orderBy)) (step.matched table uniqueKeys) := by
        rw [runQuery, if_neg (by simp [hs])]
      exact ⟨⟨e, fun _ => by rw [hp, hq]⟩, e, fun _ => by rw [hp, hq]⟩
    case true  =>
      have hq (e : Engine) : step.runQuery e table uniqueKeys sourceValues =
          windowSlice e (step.matchColumns.map ·) (ordered (orderClauses step.orderBy)) none (some 0)
            (step.matched table uniqueKeys) := by
        rw [runQuery, if_pos hs, ho', ← hf]
        rfl
      simp only [hp, hq]
      exact ⟨plain_of_window e _, window_of_plain e _⟩

-- Without an offset, a step of variables gives no rows.
theorem entryRows_null {e : Engine} {value : Key V}
    (ho : resolvePlaceholder step.offset sourceValues.numbers = none) (hv : value ∈ values) :
    step.entryRows e table sourceValues values value = [] := by
  cases hk : normalizeLookupKey value step.isComposite
  case none     => exact entryRows_of_none hk
  case some key =>
    obtain ⟨l, _, _, hl⟩ := entryRows_of_some _ e table sourceValues hv hk
    rw [hl, ho, window_null, List.map_nil]

theorem window_eq_nil_iff {R : Type} {first : Option Int} {rows : List R} :
    window first (some 0) rows = [] ↔ (∃ n ∈ first, n ≤ 0) ∨ rows = [] := by
  cases first
  case none       => simp [window_all]
  case some first =>
    by_cases hn : first ≤ 0
    case pos =>
      have hw : window (some first) (some 0) rows = [] := by
        rw [window, List.map_eq_nil_iff, List.filter_eq_nil_iff]
        intro x _
        simp only [inPage, Bool.and_eq_true, decide_eq_true_eq]
        omega
      exact iff_of_true hw (.inl ⟨first, rfl, hn⟩)
    case neg =>
      have hz : IsBound (some (0 : Int)) := fun _ h => (Option.some.inj h).le
      have hf : IsBound (some first) := fun n h => Option.some.inj h ▸ by omega
      have hs : first.toNat ≠ 0 := by omega
      rw [window_eq_slice hz hf]
      simp [slice, hs, hn]

omit [LinearOrder V] in
theorem resolved_offset (h : resolvePlaceholder step.offset sourceValues.numbers = none) :
    resolvePlaceholder (step.resolved sourceValues).offset sourceValues.numbers = some 0 := by
  show some ((resolvePlaceholder step.offset sourceValues.numbers).getD 0) = some 0
  rw [h, Option.getD_none]

-- Where the step with the value zero for its offset has no rows, no row has been hidden.
theorem unmatched_of_entryRows {e : Engine} (ho : resolvePlaceholder step.offset sourceValues.numbers = none)
    (h : ∀ value ∈ values, (step.resolved sourceValues).entryRows e table sourceValues values value = []) :
    (∃ n ∈ resolvePlaceholder step.first sourceValues.numbers, n ≤ 0) ∨ step.Unmatched table values := by
  have hr : (step.resolved sourceValues).Unmatched table values ↔ step.Unmatched table values := Iff.rfl
  by_cases hf : ∃ n ∈ resolvePlaceholder step.first sourceValues.numbers, n ≤ 0
  case pos => exact .inl hf
  case neg =>
    refine .inr (hr.mp (unmatched_iff.mpr fun value hv key hk => ?_))
    obtain ⟨l, hp, _, hl⟩ := entryRows_of_some _ e table sourceValues hv hk
    have hn := h value hv
    rw [hl, List.map_eq_nil_iff, resolved_offset ho] at hn
    exact (hp.symm.trans (.of_eq ((window_eq_nil_iff.mp hn).resolve_left hf))).eq_nil

-- The rows of a step of variables are those of the step with their values, unless the offset has none.
theorem execute_sameResults (step : PgSelectStep C A V) (table : List (C → Option V))
    (sourceValues : SourceValues) (values : List (Key V))
    (h : resolvePlaceholder step.offset sourceValues.numbers = none →
      (∃ n ∈ resolvePlaceholder step.first sourceValues.numbers, n ≤ 0) ∨ step.Unmatched table values) :
    SameResults (fun e => step.execute e table sourceValues values)
      (fun e => (step.resolved sourceValues).execute e table sourceValues values) := by
  have hr : (step.resolved sourceValues).Unmatched table values ↔ step.Unmatched table values := Iff.rfl
  cases ho : resolvePlaceholder step.offset sourceValues.numbers
  case none   =>
    refine .of_eq fun e => ?_
    simp only [execute, executeWith_eq]
    refine congrArg (BatchResult.mk _) (List.map_congr_left fun value hv => ?_)
    rw [entryRows_null ho hv]
    cases hk : normalizeLookupKey value step.isComposite
    case none     =>
      have hn : normalizeLookupKey value (step.resolved sourceValues).isComposite = none := hk
      rw [entryRows_of_none hn]
    case some key =>
      obtain ⟨l, hp, _, hl⟩ := (step.resolved sourceValues).entryRows_of_some e table
        sourceValues hv hk
      have hn : window (resolvePlaceholder step.first sourceValues.numbers) (some 0) l = [] := by
        refine window_eq_nil_iff.mpr ((h ho).imp_right fun hu => ?_)
        exact (hp.trans (.of_eq (unmatched_iff.mp (hr.mpr hu) value hv key hk))).eq_nil
      rw [hl, resolved_offset ho]
      exact (congrArg (List.map (step.resolved sourceValues).present) hn).symm
  case some o =>
    have hn := Option.ne_none_iff_exists'.mpr ⟨o, ho⟩
    refine .of_engines (fun e => ?_) fun e => ?_
    · obtain ⟨e', he⟩ := (resolved_runQuery table e _ hn).left
      exact ⟨e', step.executeWith_congr _ _ he⟩
    · obtain ⟨e', he⟩ := (resolved_runQuery table e _ hn).right
      exact ⟨e', (step.executeWith_congr _ _ fun key => (he key).symm).symm⟩

-- The result of a bucket whose rows are decoded.
def decodeResult (step : PgSelectStep C A V) (result : BatchResult (List (RowDict C A V))) :
    BatchResult (Option (List (RowDict C A V))) :=
  if result.entries.any (·.any step.resource.rejects) then
    ⟨result.statements, result.entries.map fun _ => none⟩
  else
    ⟨result.statements, result.entries.map fun rows => some (step.resource.decodeRows rows)⟩

-- All rows of the statement are rows of some entry.
theorem mem_fetched_iff {e : Engine} {row : C → Option V} :
    row ∈ step.fetched e table sourceValues values ↔ ∃ value ∈ values, row ∈
      (step.runQuery e table (coalesceKeys (step.normalizedKeys values)).fst sourceValues).filter
        fun row => some (step.matchColumns.map row) = normalizeLookupKey value step.isComposite := by
  constructor
  case mp  =>
    intro h
    have hq := mem_fetched.mp h
    have hm := (PgKeyed.matchPredicate_iff.mp
      (Bool.and_eq_true_iff.mp (List.mem_filter.mp (mem_runQuery hq)).right).left).right
    obtain ⟨value, hv, hk⟩ := mem_uniqueKeys.mp hm
    exact ⟨value, hv, List.mem_filter.mpr ⟨hq, decide_eq_true hk.symm⟩⟩
  case mpr => exact fun ⟨_, _, h⟩ => mem_fetched_of_entry h

theorem run_eq {e : Engine} : step.run e table sourceValues values =
    step.decodeResult (step.undecoded.execute e table sourceValues values) := by
  have hr : ((step.fetched e table sourceValues values).map step.resource.project).any step.resource.rejects =
      (step.undecoded.execute e table sourceValues values).entries.any (·.any step.resource.rejects) := by
    rw [Bool.eq_iff_iff, execute, executeWith_entries]
    simp only [List.any_map, List.any_eq_true, Function.comp_apply, id, entryRows, mem_fetched_iff]
    constructor
    case mp  =>
      rintro ⟨row, ⟨value, hv, hrow⟩, hj⟩
      exact ⟨value, hv, row, hrow, hj⟩
    case mpr =>
      rintro ⟨value, hv, row, hrow, hj⟩
      exact ⟨row, ⟨value, hv, hrow⟩, hj⟩
  rw [run, runWith, decodeResult, ← hr, execute, executeWith_eq, executeWith_eq]
  split
  case isTrue  =>
    simp only [List.map_map]
    rfl
  case isFalse =>
    simp only [List.map_map]
    refine congrArg (BatchResult.mk _) (List.map_congr_left fun value _ => congrArg some ?_)
    show step.entryRows e table sourceValues values value =
      step.resource.decodeRows (step.undecoded.entryRows e table sourceValues values value)
    rw [PgResource.decodeRows, entryRows, entryRows, List.map_map]
    rfl

-- The decoded rows of a step of variables are those of the step with their values in the same cases.
theorem run_sameResults_iff (step : PgSelectStep C A V) (table : List (C → Option V))
    (sourceValues : SourceValues) (values : List (Key V)) :
    SameResults (fun e => step.run e table sourceValues values)
        (fun e => (step.resolved sourceValues).run e table sourceValues values) ↔
      (resolvePlaceholder step.offset sourceValues.numbers = none →
        (∃ n ∈ resolvePlaceholder step.first sourceValues.numbers, n ≤ 0) ∨ step.Unmatched table values) := by
  constructor
  case mpr =>
    intro h
    simp only [run_eq]
    exact (step.undecoded.execute_sameResults table sourceValues values h).map step.decodeResult
  case mp  =>
    intro h ho
    obtain ⟨e, he⟩ := h.exists_eq .insertion
    refine @unmatched_of_entryRows _ _ _ _ step.undecoded _ _ _ e ho fun value hv => ?_
    have hn : (step.run .insertion table sourceValues values).entries = values.map fun _ => some [] := by
      rw [run_eq, decodeResult, execute, executeWith_entries]
      have hnull : (values.map (id <| step.undecoded.entryRows .insertion table sourceValues values ·)) =
          values.map fun _ => [] :=
        List.map_congr_left fun value hv => entryRows_null ho hv
      rw [hnull, if_neg (by simp), List.map_map]
      rfl
    rw [← he, run_eq, decodeResult] at hn
    split at hn
    case isTrue  =>
      rw [execute, executeWith_entries, List.map_map] at hn
      exact absurd (List.map_inj_left.mp hn value hv) (Option.some_ne_none _).symm
    case isFalse =>
      rw [execute, executeWith_entries, List.map_map] at hn
      exact List.map_eq_nil_iff.mp (Option.some.inj (List.map_inj_left.mp hn value hv))

end PgSelectStep

namespace PgSelectAllStep

variable {C A V : Type}

-- The same step with the values of a request as literals.
def resolved (step : PgSelectAllStep C A V) (sourceValues : SourceValues) : PgSelectAllStep C A V where
  resource        := step.resource
  orderBy         := step.orderBy
  first           := step.first.resolved sourceValues.numbers
  offset          := .literal (some ((resolvePlaceholder step.offset sourceValues.numbers).getD 0))
  wherePredicates := step.wherePredicates

variable {step : PgSelectAllStep C A V} {sourceValues : SourceValues}

theorem limitClause_join : (step.limitClause sourceValues).join =
    resolvePlaceholder step.first sourceValues.numbers := by
  rw [limitClause]
  cases hf : step.first
  case placeholder source => rfl
  case literal value      => cases value <;> rfl

-- An offset of zero is as good as none.
theorem offsetClause_getD : ((step.offsetClause sourceValues).join).getD 0 =
    (resolvePlaceholder step.offset sourceValues.numbers).getD 0 := by
  rw [offsetClause]
  cases ho : step.offset
  case placeholder source => rfl
  case literal value      =>
    cases value
    case none        => rfl
    case some offset =>
      by_cases hz : offset = 0
      case pos => simp [hz, resolvePlaceholder]
      case neg => simp [hz, resolvePlaceholder]

variable [LinearOrder V]

theorem runQuery_eq (e : Engine) (table : List (C → Option V)) : step.runQuery e table sourceValues =
    if (resolvePlaceholder step.offset sourceValues.numbers).getD 0 < 0 then
      .error .negativeOffset
    else if (resolvePlaceholder step.first sourceValues.numbers).any (· < 0) then
      .error .negativeLimit
    else
      .ok (slice (some ((resolvePlaceholder step.offset sourceValues.numbers).getD 0).toNat)
        ((resolvePlaceholder step.first sourceValues.numbers).map Int.toNat)
        (e.sort (ordered (orderClauses step.orderBy)) (table.filter step.passes))) := by
  rw [← offsetClause_getD, ← limitClause_join, runQuery]
  cases (step.offsetClause sourceValues).join
  case none        => rfl
  case some offset => simp only [Option.any_some, Option.getD_some, Option.map_some, decide_eq_true_eq]

theorem execute_eq (e : Engine) (table : List (C → Option V)) (count : Nat) :
    step.execute e table sourceValues count =
    if (resolvePlaceholder step.offset sourceValues.numbers).getD 0 < 0 then
      .error .negativeOffset
    else if (resolvePlaceholder step.first sourceValues.numbers).any (· < 0) then
      .error .negativeLimit
    else
      .ok (step.resource.decodedBy (fun rows => ⟨1, List.replicate count rows⟩)
        ((slice (some ((resolvePlaceholder step.offset sourceValues.numbers).getD 0).toNat)
          ((resolvePlaceholder step.first sourceValues.numbers).map Int.toNat)
          (e.sort (ordered (orderClauses step.orderBy)) (table.filter step.passes))).map
            step.resource.project)) := by
  rw [execute, runQuery_eq]
  split
  case isTrue  => rfl
  case isFalse => split <;> rfl

-- Bounds for which a page has rows, as long as there are enough of them.
def ShowsRows (step : PgSelectAllStep C A V) (sourceValues : SourceValues) : Prop :=
  (∀ n ∈ resolvePlaceholder step.offset sourceValues.numbers, 0 ≤ n) ∧
    ∀ n ∈ resolvePlaceholder step.first sourceValues.numbers, 0 < n

-- The page of enough copies of one row.
theorem slice_replicate {R : Type} {e : Engine} {le : R → R → Bool} {offset : Nat} {limit : Option Nat} {row : R}
    (h : ∀ n ∈ limit, 0 < n) : slice (some offset) limit (e.sort le (List.replicate (offset + 1) row)) = [row] := by
  have hs : e.sort le (List.replicate (offset + 1) row) = List.replicate (offset + 1) row :=
    List.perm_replicate.mp (e.perm le _)
  rw [hs]
  cases limit
  case none       => simp [slice]
  case some limit =>
    have hl : [row].length ≤ limit := h limit rfl
    simp [slice, List.take_of_length_le hl]

omit [LinearOrder V] in
theorem decodedBy_ne {resource : PgResource C A V} {row : RowDict C A V} :
    resource.decodedBy (fun rows => (⟨1, List.replicate 1 rows⟩ : BatchResult (List (RowDict C A V)))) [row] ≠
      resource.decodedBy (fun rows => ⟨1, List.replicate 1 rows⟩) [] := by
  rw [PgResource.decodedBy, PgResource.decodedBy, List.any_nil, if_neg Bool.false_ne_true]
  split
  case isTrue  => simp
  case isFalse => simp [PgResource.decodeRows]

-- Two steps that differ in their predicates alone show a page alike just if their predicates agree.
theorem execute_sameResults_iff (step step' : PgSelectAllStep C A V) (hres : step'.resource = step.resource)
    (hord : step'.orderBy = step.orderBy)
    (hoff : (resolvePlaceholder step'.offset sourceValues.numbers).getD 0 =
      (resolvePlaceholder step.offset sourceValues.numbers).getD 0)
    (hlim : resolvePlaceholder step'.first sourceValues.numbers =
      resolvePlaceholder step.first sourceValues.numbers) :
    (∀ (table : List (C → Option V)) (count : Nat),
      SameResults (fun e => step.execute e table sourceValues count)
        (fun e => step'.execute e table sourceValues count)) ↔
      (step.ShowsRows sourceValues → ∀ row, step.passes row = step'.passes row) := by
  simp only [execute_eq, hres, hord, hoff, hlim]
  constructor
  case mpr =>
    intro h table count
    refine .of_eq fun e => ?_
    by_cases hs : step.ShowsRows sourceValues
    case pos => rw [show step.passes = step'.passes from funext (h hs)]
    case neg =>
      split
      case isTrue  => rfl
      case isFalse ho =>
        split
        case isTrue  => rfl
        case isFalse hl =>
          have hz : resolvePlaceholder step.first sourceValues.numbers = some 0 := by
            rw [ShowsRows, not_and_or] at hs
            cases hf : resolvePlaceholder step.first sourceValues.numbers
            case none       => simp [hf] at hs; grind
            case some first => simp [hf] at hs hl ⊢; grind
          simp [hz, slice]
  case mp  =>
    intro h hs row
    by_contra hne
    have ho : ¬(resolvePlaceholder step.offset sourceValues.numbers).getD 0 < 0 := by
      cases ho : resolvePlaceholder step.offset sourceValues.numbers
      case none   => exact Int.lt_irrefl 0
      case some n => exact Int.not_lt.mpr (hs.left n ho)
    have hl : ¬(resolvePlaceholder step.first sourceValues.numbers).any (· < 0) = true := by
      cases hf : resolvePlaceholder step.first sourceValues.numbers
      case none   => exact Bool.false_ne_true
      case some n =>
        have hn := hs.right n hf
        simp only [Option.any_some, decide_eq_true_eq]
        omega
    have hm : ∀ n ∈ (resolvePlaceholder step.first sourceValues.numbers).map Int.toNat, 0 < n := by
      intro n hn
      obtain ⟨m, hm, rfl⟩ := Option.map_eq_some_iff.mp hn
      have hp := hs.right m hm
      omega
    have hshown (p : (C → Option V) → Bool) (hp : p row = true) (e : Engine) :
        slice (some ((resolvePlaceholder step.offset sourceValues.numbers).getD 0).toNat)
          ((resolvePlaceholder step.first sourceValues.numbers).map Int.toNat)
          (e.sort (ordered (orderClauses step.orderBy)) ((List.replicate
            (((resolvePlaceholder step.offset sourceValues.numbers).getD 0).toNat + 1) row).filter p)) = [row] := by
      rw [List.filter_replicate, if_pos hp, slice_replicate hm]
    have hhidden (p : (C → Option V) → Bool) (hp : p row = false) (e : Engine) :
        slice (some ((resolvePlaceholder step.offset sourceValues.numbers).getD 0).toNat)
          ((resolvePlaceholder step.first sourceValues.numbers).map Int.toNat)
          (e.sort (ordered (orderClauses step.orderBy)) ((List.replicate
            (((resolvePlaceholder step.offset sourceValues.numbers).getD 0).toNat + 1) row).filter p)) = [] := by
      rw [List.filter_replicate, if_neg (by simp [hp]), Engine.sort_nil, slice_nil]
    obtain ⟨e, he⟩ := (h (List.replicate
      (((resolvePlaceholder step.offset sourceValues.numbers).getD 0).toNat + 1) row) 1).exists_eq .insertion
    simp only [if_neg ho, if_neg hl, Except.ok.injEq] at he
    cases hp : step.passes row
    case true  =>
      have hp' : step'.passes row = false := Bool.eq_false_iff.mpr fun hp' => hne (hp.trans hp'.symm)
      rw [hshown _ hp, hhidden _ hp'] at he
      exact decodedBy_ne he.symm
    case false =>
      have hp' : step'.passes row = true := by
        rw [← Bool.not_eq_false]
        exact fun hp' => hne (hp.trans hp'.symm)
      rw [hhidden _ hp, hshown _ hp'] at he
      exact decodedBy_ne he

-- A step of variables shows what the step with their values shows, unless a variable takes the place of a
-- bind of a predicate for which the predicates then hold of other rows.
theorem withPredicates_sameResults_iff (step : PgSelectAllStep C A V) (predicates : List (RowPredicate C V))
    (sourceValues : SourceValues) (resolved : Nat → BindValue V) :
    (∀ (table : List (C → Option V)) (count : Nat),
      SameResults (fun e => (step.withPredicates predicates sourceValues resolved).execute e table sourceValues count)
        (fun e => ((step.resolved sourceValues).withPredicates predicates sourceValues resolved).execute e table
          sourceValues count)) ↔
      (step.ShowsRows sourceValues → ∀ row,
        (step.withPredicates predicates sourceValues resolved).passes row =
          ((step.resolved sourceValues).withPredicates predicates sourceValues resolved).passes row) :=
  execute_sameResults_iff (step.withPredicates predicates sourceValues resolved)
    ((step.resolved sourceValues).withPredicates predicates sourceValues resolved) rfl rfl rfl rfl

end PgSelectAllStep

namespace PgPaging

variable {C V R N : Type} {p : PgPaging} {format : CursorFormat C V} {order : List (OrderTerm C)}
variable {sourceValues : SourceValues}

-- The same arguments with the values of a request as literals.
def resolved (p : PgPaging) (sourceValues : SourceValues) : PgPaging where
  first  := p.first.resolved sourceValues.numbers
  after  := p.after.resolved sourceValues.texts
  last   := p.last.resolved sourceValues.numbers
  before := p.before.resolved sourceValues.texts

def forward (p : PgPaging) : Bool :=
  p.first ≠ .literal none || p.after ≠ .literal none

-- Arguments for both directions at once.
def Ambiguous (p : PgPaging) : Prop :=
  p.forward = true ∧ p.reverse = true

theorem forward_iff : p.forward = true ↔ p.first ≠ .literal none ∨ p.after ≠ .literal none := by
  simp [forward]

theorem reverse_iff : p.reverse = true ↔ p.last ≠ .literal none ∨ p.before ≠ .literal none := by
  simp [reverse]

theorem reverse_eq_false_iff : p.reverse = false ↔ p.last = .literal none ∧ p.before = .literal none := by
  simp [reverse]

theorem check_of_ambiguous (h : p.Ambiguous) : p.check = .error .ambiguousPagination := by
  rw [check, if_pos]
  rw [Bool.and_eq_true]
  exact h

theorem check_of_not_ambiguous (h : ¬p.Ambiguous) : p.check = .ok () := by
  have hn : ¬((p.first ≠ .literal none || p.after ≠ .literal none) && p.reverse) = true :=
    fun hb => h (by simpa [Ambiguous, forward] using hb)
  rw [check]
  exact if_neg hn

-- A variable that has a value is an argument that is given.
theorem resolved_given {α : Type} {value : PageValue α} {values : String → Option α}
    (h : value.resolved values ≠ .literal none) : value ≠ .literal none := by
  rintro rfl
  exact h rfl

theorem resolved_forward (h : (p.resolved sourceValues).forward = true) : p.forward = true := by
  rw [forward_iff] at h ⊢
  exact h.imp resolved_given resolved_given

theorem resolved_reverse (h : (p.resolved sourceValues).reverse = true) : p.reverse = true := by
  rw [reverse_iff] at h ⊢
  exact h.imp resolved_given resolved_given

theorem resolved_ambiguous (h : (p.resolved sourceValues).Ambiguous) : p.Ambiguous :=
  ⟨resolved_forward h.left, resolved_reverse h.right⟩

-- A literal cursor that is rejected when the step is made would be rejected by the request.
theorem decodeLiteralCursor_error (sourceValues : SourceValues) {cursor : PageValue String} {error : PageError}
    (h : decodeLiteralCursor format order cursor = .error error) :
    ∃ e, error = .cursor e ∧ resolveCursor format order cursor sourceValues = .error e := by
  cases cursor
  case placeholder source => cases h
  case literal value      =>
    have hr : resolveCursor format order (.literal value) sourceValues =
        resolveCursor format order (.literal value) ⟨fun _ => none, fun _ => none⟩ := rfl
    rw [hr]
    simp only [decodeLiteralCursor] at h
    cases hc : resolveCursor format order (.literal value) ⟨fun _ => none, fun _ => none⟩
    case ok v    => simp [hc] at h
    case error e => exact ⟨e, by simpa [hc] using h.symm, rfl⟩

-- Unless both directions are asked for, one of the cursors is not given.
theorem after_or_before (h : ¬p.Ambiguous) : p.after = .literal none ∨ p.before = .literal none := by
  by_contra hn
  rw [not_or] at hn
  exact h ⟨by simp [forward, hn.left], by simp [reverse, hn.right]⟩

-- So it is for the literal cursors of one direction.
theorem decodeLiteralCursors_error (sourceValues : SourceValues) {error : PageError} (h : ¬p.Ambiguous)
    (hd : p.decodeLiteralCursors format order = .error error) :
    ∃ e, error = .cursor e ∧ (resolveCursor format order p.after sourceValues = .error e ∨
      resolveCursor format order p.after sourceValues = .ok none ∧
        resolveCursor format order p.before sourceValues = .error e) := by
  simp only [decodeLiteralCursors, bind, Except.bind] at hd
  cases ha : decodeLiteralCursor format order p.after
  case error e =>
    rw [ha] at hd
    cases hd
    obtain ⟨c, rfl, hc⟩ := decodeLiteralCursor_error sourceValues ha
    exact ⟨c, rfl, .inl hc⟩
  case ok      =>
    rw [ha] at hd
    obtain ⟨c, rfl, hc⟩ := decodeLiteralCursor_error sourceValues hd
    have hn : p.before ≠ .literal none := by
      intro hn
      rw [hn] at hc
      cases hc
    rw [(after_or_before h).resolve_right hn]
    exact ⟨c, rfl, .inr ⟨rfl, hc⟩⟩

variable {columns : R → C → Option V} {decode : R → N} {rows : List R} {total : Nat}

-- A connection of all rows shows them in the requested order.
theorem buildConnection_all {p' : PgPaging} {rows' : List R} (hs : p.pageSize sourceValues = none)
    (hs' : p'.pageSize sourceValues = none) (hr : p.reverse = true) (hr' : p'.reverse = false)
    (h : rows.reverse = rows') :
    p.buildConnection format order columns decode rows total sourceValues none none =
      p'.buildConnection format order columns decode rows' total sourceValues none none := by
  simp [buildConnection, hs, hs', hr, hr', ← h]

-- Variables for paging from the end that have no values ask for all rows.
theorem unpaged (ha : ¬p.Ambiguous) (h : p.reverse = true) (h' : (p.resolved sourceValues).reverse = false) :
    p.pageSize sourceValues = none ∧ (p.resolved sourceValues).pageSize sourceValues = none ∧
      resolvePlaceholder p.after sourceValues.texts = none ∧
      resolvePlaceholder p.before sourceValues.texts = none := by
  have hf : ¬(p.first ≠ .literal none ∨ p.after ≠ .literal none) := fun hf => ha ⟨forward_iff.mpr hf, h⟩
  rw [not_or, not_not, not_not] at hf
  obtain ⟨hl, hb⟩ := reverse_eq_false_iff.mp h'
  refine ⟨?_, ?_, by rw [hf.right]; rfl, PageValue.literal.inj hb⟩
  · rw [pageSize, h]
    exact PageValue.literal.inj hl
  · rw [pageSize, h']
    show resolvePlaceholder p.first sourceValues.numbers = none
    rw [hf.left]
    rfl

theorem pageSize_resolved (h : (p.resolved sourceValues).reverse = p.reverse) :
    (p.resolved sourceValues).pageSize sourceValues = p.pageSize sourceValues := by
  rw [pageSize, pageSize, h]
  cases p.reverse
  case false => rfl
  case true  => rfl

-- Unless both directions are asked for, variables page as their values do, in an execution that knows its
-- arguments by their direction and their values, and shows all rows alike from both ends.
theorem sameResults_resolved {β : Type} (exec : PgPaging → Engine → β) (h : ¬p.Ambiguous)
    (hc : (p.resolved sourceValues).reverse = p.reverse → ∀ e, exec (p.resolved sourceValues) e = exec p e)
    (hu : p.reverse = true → (p.resolved sourceValues).reverse = false → p.pageSize sourceValues = none →
      (p.resolved sourceValues).pageSize sourceValues = none →
      resolvePlaceholder p.after sourceValues.texts = none →
      resolvePlaceholder p.before sourceValues.texts = none →
      ∀ e, exec (p.resolved sourceValues) e.flip = exec p e ∧ exec (p.resolved sourceValues) e = exec p e.flip) :
    SameResults (exec p) (exec (p.resolved sourceValues)) := by
  by_cases hr : (p.resolved sourceValues).reverse = p.reverse
  case pos => exact .of_eq fun e => (hc hr e).symm
  case neg =>
    have hp : p.reverse = true := by
      by_contra hp
      rw [Bool.not_eq_true] at hp
      have hn : (p.resolved sourceValues).reverse ≠ true :=
        fun hn => absurd (resolved_reverse hn) (by simp [hp])
      exact hr (hp ▸ Bool.eq_false_iff.mpr hn)
    have hp' : (p.resolved sourceValues).reverse = false :=
      Bool.eq_false_iff.mpr fun hn => hr (hn.trans hp.symm)
    obtain ⟨hs, hs', ha, hb⟩ := unpaged h hp hp'
    have hf := hu hp hp' hs hs' ha hb
    exact .of_engines (fun e => ⟨e.flip, (hf e).left⟩) fun e => ⟨e.flip, (hf e).right.symm⟩

end PgPaging

-- Rows sorted the other way round come the other way round, where an engine leaves equal rows so.
theorem flip_sort {R C V : Type} [LinearOrder V] (e : Engine) (order : List (OrderTerm C)) (columns : R → C → Option V)
    (rows : List R) :
    e.flip.sort (orderedBy (orderClauses order) columns) rows =
        (e.sort (orderedBy (orderClauses (order.map .reverse)) columns) rows).reverse ∧
      e.sort (orderedBy (orderClauses order) columns) rows =
        (e.flip.sort (orderedBy (orderClauses (order.map .reverse)) columns) rows).reverse := by
  have hf : orderedBy (orderClauses (order.map .reverse)) columns =
      fun r s => orderedBy (orderClauses order) columns s r := by
    funext r s
    rw [orderedBy, orderClauses_reverse, ordered_flip]
    rfl
  refine ⟨by rw [hf]; rfl, ?_⟩
  rw [hf]
  exact (List.reverse_reverse _).symm

namespace PgConnectionStep

variable {C A V : Type} [LinearOrder V] {keyed : PgKeyed C A V} {needsTotal : Bool} {p p' : PgPaging}
variable {format : CursorFormat C V} {table : List (C → Option V)} {sourceValues : SourceValues}
variable {values : List (Key V)}

-- An execution knows its paging arguments by their direction and their values.
theorem execute_congr (hr : p'.reverse = p.reverse) (hs : p'.pageSize sourceValues = p.pageSize sourceValues)
    (ha : resolvePlaceholder p'.after sourceValues.texts = resolvePlaceholder p.after sourceValues.texts)
    (hb : resolvePlaceholder p'.before sourceValues.texts = resolvePlaceholder p.before sourceValues.texts)
    (e : Engine) :
    execute ⟨keyed, p', needsTotal⟩ e format table sourceValues values =
      execute ⟨keyed, p, needsTotal⟩ e format table sourceValues values := by
  have hl : p'.pageLimit sourceValues = p.pageLimit sourceValues := by
    rw [PgPaging.pageLimit, PgPaging.pageLimit, hs]
  simp only [execute, pageRows, resolveCursor, PgPaging.cursorPredicate, PgPaging.effectiveOrder,
    PgPaging.buildConnection, hr, hs, hl, ha, hb]
  rfl

-- Without a size and a cursor, the page of a parent has all its rows.
theorem pageRows_all (step : PgConnectionStep C A V) (e : Engine) (table : List (C → Option V))
    {uniqueKeys : List (List (Option V))} {key : List (Option V)} (hs : step.pageSize sourceValues = none)
    (hk : key ∈ uniqueKeys) :
    (step.pageRows e table uniqueKeys sourceValues none none).filter (step.matchColumns.map · = key) =
      e.sort (ordered (orderClauses (step.effectiveOrder step.orderBy))) (step.matched table [key]) := by
  have hb : (step.matched table [key]).filter (step.beyondCursor none none) = step.matched table [key] := by
    refine List.filter_eq_self.mpr fun row _ => ?_
    simp [beyondCursor, PgPaging.cursorPredicate]
  rw [pageRows_filter hk, hb, PgPaging.pageLimit, hs]
  rfl

-- Without a size and a cursor, both directions show all rows.
theorem execute_unpaged {e e' : Engine} (hr : p.reverse = true) (hr' : p'.reverse = false)
    (hs : p.pageSize sourceValues = none) (hs' : p'.pageSize sourceValues = none)
    (ha : resolvePlaceholder p.after sourceValues.texts = none)
    (hb : resolvePlaceholder p.before sourceValues.texts = none)
    (ha' : resolvePlaceholder p'.after sourceValues.texts = none)
    (hb' : resolvePlaceholder p'.before sourceValues.texts = none)
    (he : ∀ rows : List (C → Option V), e'.sort (ordered (orderClauses keyed.orderBy)) rows =
      (e.sort (ordered (orderClauses (keyed.orderBy.map .reverse))) rows).reverse) :
    execute ⟨keyed, p', needsTotal⟩ e' format table sourceValues values =
      execute ⟨keyed, p, needsTotal⟩ e format table sourceValues values := by
  have hrows (uniqueKeys : List (List (Option V))) {k : Key V} (hk : ∀ key, k = some key → key ∈ uniqueKeys) :
      (((keyed.groupRows id (pageRows ⟨keyed, p, needsTotal⟩ e table uniqueKeys sourceValues none none)).lookup
        k).getD []).reverse =
      ((keyed.groupRows id (pageRows ⟨keyed, p', needsTotal⟩ e' table uniqueKeys sourceValues none none)).lookup
        k).getD [] := by
    have hl := lookup_pageRows ⟨keyed, p, needsTotal⟩ e table uniqueKeys sourceValues none none k
    have hl' := lookup_pageRows ⟨keyed, p', needsTotal⟩ e' table uniqueKeys sourceValues none none k
    rw [hl, hl']
    cases k
    case none     => simp
    case some key =>
      have h := pageRows_all ⟨keyed, p, needsTotal⟩ e table hs (hk key rfl)
      have h' := pageRows_all ⟨keyed, p', needsTotal⟩ e' table hs' (hk key rfl)
      simp only [PgPaging.effectiveOrder, hr, hr', Bool.false_eq_true, if_true, if_false] at h h'
      simp only [Option.some.injEq]
      rw [h, h', he]
  simp only [execute, resolveCursor, ha, hb, ha', hb', bind, Except.bind]
  split
  case isTrue  =>
    refine congrArg pure (congrArg (BatchResult.mk 0) (List.map_congr_left fun key _ => ?_))
    exact (PgPaging.buildConnection_all hs hs' hr hr' List.reverse_nil).symm
  case isFalse =>
    refine congrArg pure (congrArg (BatchResult.mk _) (List.map_congr_left fun key hkey => ?_))
    refine (PgPaging.buildConnection_all hs hs' hr hr' (hrows _ fun k hk => ?_)).symm
    simpa using hk ▸ hkey

end PgConnectionStep

-- What the constructor of a connection takes, apart from the paging arguments.
structure PgConnectionArgs (C A V : Type) where
  resource        : PgResource C A V
  matchColumns    : List C
  orderBy         : Option (List (OrderEntry C))
  orderIsUnique   : Bool
  needsTotal      : Bool
  wherePredicates : List ((C → Option V) → Truth)

namespace PgConnectionArgs

variable {C A V : Type} [DecidableEq C] [LinearOrder V]

def step (args : PgConnectionArgs C A V) (paging : PgPaging) : PgConnectionStep C A V where
  resource        := args.resource
  matchColumns    := args.matchColumns
  orderBy         := normalizeOrder args.orderBy args.resource.primaryKey args.orderIsUnique
  wherePredicates := args.wherePredicates
  toPgPaging      := paging
  needsTotal      := args.needsTotal

-- A connection is made, and then executed over a bucket.
def run (args : PgConnectionArgs C A V) (format : CursorFormat C V) (table : List (C → Option V))
    (sourceValues : SourceValues) (values : List (Key V)) (paging : PgPaging) (e : Engine) :
    Except PageError (BatchResult (Connection (RowDict C A V))) :=
  match PgConnectionStep.make format args.resource args.matchColumns args.orderBy args.orderIsUnique paging
      args.needsTotal args.wherePredicates with
  | .error error => .error error
  | .ok step     => (step.execute e format table sourceValues values).mapError .cursor

variable {args : PgConnectionArgs C A V} {format : CursorFormat C V} {table : List (C → Option V)}
variable {sourceValues : SourceValues} {values : List (Key V)} {paging : PgPaging}

theorem run_of_ambiguous (h : paging.Ambiguous) (e : Engine) :
    args.run format table sourceValues values paging e = .error .ambiguousPagination := by
  simp only [run, PgConnectionStep.make, PgPaging.check_of_ambiguous h, bind, Except.bind]

-- Otherwise, the only errors are those of cursors, whenever they are found.
theorem run_of_not_ambiguous (h : ¬paging.Ambiguous) (e : Engine) :
    args.run format table sourceValues values paging e =
      ((args.step paging).execute e format table sourceValues values).mapError .cursor := by
  have hm : PgConnectionStep.make format args.resource args.matchColumns args.orderBy args.orderIsUnique paging
      args.needsTotal args.wherePredicates =
        (paging.decodeLiteralCursors format
          (normalizeOrder args.orderBy args.resource.primaryKey args.orderIsUnique)).map fun _ => args.step paging := by
    simp only [PgConnectionStep.make, PgPaging.check_of_not_ambiguous h, PgPaging.decodeLiteralCursors, bind,
      Except.bind]
    cases PgPaging.decodeLiteralCursor format _ paging.after
    case error e => rfl
    case ok      =>
      cases PgPaging.decodeLiteralCursor format _ paging.before
      case error e => rfl
      case ok      => rfl
  rw [run, hm]
  cases hd : paging.decodeLiteralCursors format
    (normalizeOrder args.orderBy args.resource.primaryKey args.orderIsUnique)
  case ok          => rfl
  case error error =>
    obtain ⟨c, rfl, hc⟩ := PgPaging.decodeLiteralCursors_error sourceValues h hd
    have hc : resolveCursor format (args.step paging).orderBy (args.step paging).after sourceValues = .error c ∨
        resolveCursor format (args.step paging).orderBy (args.step paging).after sourceValues = .ok none ∧
          resolveCursor format (args.step paging).orderBy (args.step paging).before sourceValues = .error c := hc
    obtain hc | ⟨ha, hc⟩ := hc
    · simp only [PgConnectionStep.execute, hc, bind, Except.bind]
      rfl
    · simp only [PgConnectionStep.execute, ha, hc, bind, Except.bind]
      rfl

theorem mapError_ne {α : Type} {result : Except CursorError α} :
    result.mapError PageError.cursor ≠ .error .ambiguousPagination := by
  cases result
  case error e => exact fun h => nomatch h
  case ok a    => exact fun h => nomatch h

theorem step_sameResults (h : ¬paging.Ambiguous) : SameResults
    (fun e => (args.step paging).execute e format table sourceValues values)
    (fun e => (args.step (paging.resolved sourceValues)).execute e format table sourceValues values) := by
  apply PgPaging.sameResults_resolved
    (fun p e => (args.step p).execute e format table sourceValues values) h
  case hc => exact fun hr e => PgConnectionStep.execute_congr hr (PgPaging.pageSize_resolved hr) rfl rfl e
  case hu =>
    intro hr hr' hs hs' ha hb e
    constructor
    · exact PgConnectionStep.execute_unpaged hr hr' hs hs' ha hb ha hb
        fun rows => (flip_sort e _ id rows).left
    · exact PgConnectionStep.execute_unpaged hr hr' hs hs' ha hb ha hb
        fun rows => (flip_sort e _ id rows).right

-- A connection with variables gives what the connection with their values gives, unless it rejects
-- variables for both directions of which the request does not use both.
theorem run_sameResults_iff (args : PgConnectionArgs C A V) (format : CursorFormat C V)
    (table : List (C → Option V)) (sourceValues : SourceValues) (values : List (Key V)) (paging : PgPaging) :
    SameResults (args.run format table sourceValues values paging)
        (args.run format table sourceValues values (paging.resolved sourceValues)) ↔
      (paging.Ambiguous → (paging.resolved sourceValues).Ambiguous) := by
  constructor
  case mp  =>
    intro h ha
    by_contra hn
    obtain ⟨e, he⟩ := h.exists_eq .insertion
    rw [run_of_ambiguous ha, run_of_not_ambiguous hn] at he
    exact mapError_ne he
  case mpr =>
    intro h
    by_cases ha : paging.Ambiguous
    case pos => exact .of_eq fun e => by rw [run_of_ambiguous ha, run_of_ambiguous (h ha)]
    case neg =>
      have hn : ¬(paging.resolved sourceValues).Ambiguous := fun hn => ha (PgPaging.resolved_ambiguous hn)
      rw [funext (run_of_not_ambiguous ha), funext (run_of_not_ambiguous hn)]
      exact (step_sameResults ha).map _

-- A connection whose rows are decoded when it is built.
def runDecoded (args : PgConnectionArgs C A V) (format : CursorFormat C V) (table : List (C → Option V))
    (sourceValues : SourceValues) (values : List (Key V)) (paging : PgPaging) (e : Engine) :
    Except PageError (Option (BatchResult (Connection (RowDict C A V)))) :=
  (run { args with resource := args.resource.undecoded } format table sourceValues values paging e).map
    (·.decoded args.resource.rejects args.resource.decodeRow)

theorem runDecoded_sameResults_iff (args : PgConnectionArgs C A V) (format : CursorFormat C V)
    (table : List (C → Option V)) (sourceValues : SourceValues) (values : List (Key V)) (paging : PgPaging) :
    SameResults (args.runDecoded format table sourceValues values paging)
        (args.runDecoded format table sourceValues values (paging.resolved sourceValues)) ↔
      (paging.Ambiguous → (paging.resolved sourceValues).Ambiguous) := by
  constructor
  case mp  =>
    intro h ha
    by_contra hn
    obtain ⟨e, he⟩ := h.exists_eq .insertion
    rw [runDecoded, runDecoded, run_of_ambiguous ha, run_of_not_ambiguous hn] at he
    cases hx : (step { args with resource := args.resource.undecoded } (paging.resolved sourceValues)).execute e
      format table sourceValues values
    case error c => simp [hx, Except.mapError, Except.map] at he
    case ok r    => simp [hx, Except.mapError, Except.map] at he
  case mpr => exact fun h => ((run_sameResults_iff _ format table sourceValues values paging).mpr h).map _

end PgConnectionArgs

namespace PgUnionAllStep

variable {C A V : Type} [LinearOrder V] [DecidableEq C] {union : PgUnion C A V} {needsTotal : Bool}
variable {p p' : PgPaging} {format : CursorFormat (UnionColumn C) V} {text : String → V}
variable {types : SqlTypes C} {database : Database C V} {sourceValues : SourceValues} {values : List (Key V)}

theorem connections_congr (hr : p'.reverse = p.reverse) (hs : p'.pageSize sourceValues = p.pageSize sourceValues)
    (ha : resolvePlaceholder p'.after sourceValues.texts = resolvePlaceholder p.after sourceValues.texts)
    (hb : resolvePlaceholder p'.before sourceValues.texts = resolvePlaceholder p.before sourceValues.texts)
    (e : Engine) :
    connections ⟨union, p', needsTotal⟩ e format text types database sourceValues values =
      connections ⟨union, p, needsTotal⟩ e format text types database sourceValues values := by
  have hl : p'.pageLimit sourceValues = p.pageLimit sourceValues := by
    rw [PgPaging.pageLimit, PgPaging.pageLimit, hs]
  have hc (afterValues beforeValues : Option (List (Option V))) :
      union.beyondCursor text p' afterValues beforeValues = union.beyondCursor text p afterValues beforeValues := by
    funext member row
    simp only [PgUnion.beyondCursor, PgPaging.cursorPredicate, hr]
  have hu (uniqueKeys : List (List (Option V))) (afterValues beforeValues : Option (List (Option V))) :
      union.unionRows text database uniqueKeys p' afterValues beforeValues =
        union.unionRows text database uniqueKeys p afterValues beforeValues := by
    rw [PgUnion.unionRows, PgUnion.unionRows]
    refine List.flatMap_congr fun member _ => ?_
    rw [PgUnion.branchSelect, PgUnion.branchSelect, hc]
  have hra : resolveCursor format union.orderBy p'.after sourceValues =
      resolveCursor format union.orderBy p.after sourceValues := by
    simp only [resolveCursor, ha]
  have hrb : resolveCursor format union.orderBy p'.before sourceValues =
      resolveCursor format union.orderBy p.before sourceValues := by
    simp only [resolveCursor, hb]
  have hp (uniqueKeys : List (List (Option V))) (afterValues beforeValues : Option (List (Option V))) :
      pageRows ⟨union, p', needsTotal⟩ e text database uniqueKeys sourceValues afterValues beforeValues =
        pageRows ⟨union, p, needsTotal⟩ e text database uniqueKeys sourceValues afterValues beforeValues := by
    simp only [pageRows, PgPaging.effectiveOrder, hu, hr, hl]
  have hw (rows : List (UnionRow union.members)) (total : Nat)
      (afterValues beforeValues : Option (List (Option V))) :
      build ⟨union, p', needsTotal⟩ format text rows total sourceValues afterValues beforeValues =
        build ⟨union, p, needsTotal⟩ format text rows total sourceValues afterValues beforeValues := by
    simp only [build, PgPaging.buildConnection, hr, hs]
  have hn : normalizedKeys ⟨union, p', needsTotal⟩ values = normalizedKeys ⟨union, p, needsTotal⟩ values := rfl
  have ht (uniqueKeys : List (List (Option V))) :
      totals ⟨union, p', needsTotal⟩ database uniqueKeys = totals ⟨union, p, needsTotal⟩ database uniqueKeys := rfl
  simp only [connections, hra, hrb, hp, hw, hn, ht, hl]

-- Without a cursor, no row is beyond it.
theorem unionRows_all (union : PgUnion C A V) (text : String → V) (database : Database C V)
    (uniqueKeys : List (List (Option V))) (p : PgPaging) :
    union.unionRows text database uniqueKeys p none none = (union.sources database uniqueKeys).map union.row := by
  rw [PgUnion.unionRows_eq, List.filter_eq_self.mpr]
  intro x _
  simp [PgUnion.beyond, PgUnion.beyondCursor, PgPaging.cursorPredicate]

-- Without a size and a cursor, the page of a parent has all its rows, and so has the page of the root.
theorem pageRows_all (step : PgUnionAllStep C A V) (e : Engine) (text : String → V) (database : Database C V)
    {uniqueKeys : List (List (Option V))} {key : List (Option V)} (hp : step.isPerParent = true)
    (hl : step.pageLimit sourceValues = none) (hk : key ∈ uniqueKeys) :
    (step.pageRows e text database uniqueKeys sourceValues none none).filter
        (step.matchColumns.map ·.columns = key) =
      e.sort (orderedBy (orderClauses (step.effectiveOrder step.orderBy)) (UnionRow.value text))
        ((step.sources database [key]).map step.row) := by
  rw [pageRows_filter hp hk, ← unionRows_all step.toPgUnion text database [key] step.toPgPaging,
    PgUnion.unionRows_eq, hl]
  rfl

theorem pageRows_root (step : PgUnionAllStep C A V) (e : Engine) (text : String → V) (database : Database C V)
    (uniqueKeys : List (List (Option V))) (hp : step.isPerParent = false)
    (hl : step.pageLimit sourceValues = none) :
    step.pageRows e text database uniqueKeys sourceValues none none =
      e.sort (orderedBy (orderClauses (step.effectiveOrder step.orderBy)) (UnionRow.value text))
        ((step.sources database uniqueKeys).map step.row) := by
  simp only [pageRows, hp, hl, unionRows_all, Bool.false_eq_true, if_false]
  rfl

-- Without a size and a cursor, both directions show all rows.
theorem connections_unpaged {e e' : Engine} (hr : p.reverse = true) (hr' : p'.reverse = false)
    (hs : p.pageSize sourceValues = none) (hs' : p'.pageSize sourceValues = none)
    (ha : resolvePlaceholder p.after sourceValues.texts = none)
    (hb : resolvePlaceholder p.before sourceValues.texts = none)
    (ha' : resolvePlaceholder p'.after sourceValues.texts = none)
    (hb' : resolvePlaceholder p'.before sourceValues.texts = none)
    (he : ∀ rows : List (UnionRow union.members),
      e'.sort (orderedBy (orderClauses union.orderBy) (UnionRow.value text)) rows =
        (e.sort (orderedBy (orderClauses (union.orderBy.map .reverse)) (UnionRow.value text)) rows).reverse) :
    connections ⟨union, p', needsTotal⟩ e' format text types database sourceValues values =
      connections ⟨union, p, needsTotal⟩ e format text types database sourceValues values := by
  have hl : p.pageLimit sourceValues = none := by rw [PgPaging.pageLimit, hs]; rfl
  have hl' : p'.pageLimit sourceValues = none := by rw [PgPaging.pageLimit, hs']; rfl
  have ho : p.effectiveOrder union.orderBy = union.orderBy.map .reverse := by rw [PgPaging.effectiveOrder, hr]; rfl
  have ho' : p'.effectiveOrder union.orderBy = union.orderBy := by rw [PgPaging.effectiveOrder, hr']; rfl
  have hw {rows rows' : List (UnionRow union.members)} (total : Nat) (h : rows.reverse = rows') :
      build ⟨union, p', needsTotal⟩ format text rows' total sourceValues none none =
        build ⟨union, p, needsTotal⟩ format text rows total sourceValues none none :=
    (PgPaging.buildConnection_all hs hs' hr hr' h).symm
  have hn : normalizedKeys ⟨union, p', needsTotal⟩ values = normalizedKeys ⟨union, p, needsTotal⟩ values := rfl
  have ht (uniqueKeys : List (List (Option V))) :
      totals ⟨union, p', needsTotal⟩ database uniqueKeys = totals ⟨union, p, needsTotal⟩ database uniqueKeys := rfl
  simp only [connections, resolveCursor, ha, hb, ha', hb', hn, ht, hl, hl', Option.any_none, Bool.and_false,
    Bool.false_eq_true, if_false]
  split
  case isTrue  =>
    exact congrArg Except.ok (congrArg (BatchResult.mk 0) (List.map_congr_left fun _ _ => hw 0 List.reverse_nil))
  case isFalse =>
    by_cases hc : (!union.columnsStored) = true
    case pos => rw [if_pos hc, if_pos hc]
    case neg =>
      rw [if_neg hc, if_neg hc]
      by_cases hm : (!union.typesMatch types) = true
      case pos => rw [if_pos hm, if_pos hm]
      case neg =>
      rw [if_neg hm, if_neg hm]
      refine congrArg Except.ok (congrArg (BatchResult.mk _) (List.map_congr_left fun k hk => ?_))
      cases hp : union.isPerParent
      case false =>
        have h := pageRows_root ⟨union, p, needsTotal⟩ e text database
          (((normalizedKeys ⟨union, p, needsTotal⟩ values).eraseDups).filterMap id) hp hl
        have h' := pageRows_root ⟨union, p', needsTotal⟩ e' text database
          (((normalizedKeys ⟨union, p, needsTotal⟩ values).eraseDups).filterMap id) hp hl'
        exact hw _ (by rw [h, h', ho, ho', he])
      case true  =>
        refine hw _ ?_
        have h := lookup_pageRows ⟨union, p, needsTotal⟩ e text database
          (((normalizedKeys ⟨union, p, needsTotal⟩ values).eraseDups).filterMap id) sourceValues none none k hp
        have h' := lookup_pageRows ⟨union, p', needsTotal⟩ e' text database
          (((normalizedKeys ⟨union, p, needsTotal⟩ values).eraseDups).filterMap id) sourceValues none none k hp
        rw [h, h']
        cases k
        case none     => simp
        case some key =>
          have hm : key ∈ ((normalizedKeys ⟨union, p, needsTotal⟩ values).eraseDups).filterMap id := by
            simpa using hk
          have h := pageRows_all ⟨union, p, needsTotal⟩ e text database hp hl hm
          have h' := pageRows_all ⟨union, p', needsTotal⟩ e' text database hp hl' hm
          simp only [Option.some.injEq]
          rw [h, h', ho, ho', he]

end PgUnionAllStep

-- An error of a union, when it is made or when it is executed. A cursor is rejected alike at both times.
def UnionQueryError.report {C : Type} : UnionQueryError → UnionError C ⊕ UnionQueryError
  | cursor e        => .inl (.page (.cursor e))
  | undefinedColumn => .inr undefinedColumn
  | mismatchedTypes => .inr mismatchedTypes
  | negativeLimit   => .inr negativeLimit
  | rejectedValue   => .inr rejectedValue

-- What the constructor of a union takes, apart from the paging arguments.
structure PgUnionArgs (C A V : Type) where
  members       : List (PgUnionMember C A V)
  sharedColumns : List C
  orderBy       : Option (List (OrderEntry (UnionColumn C)))
  orderIsUnique : Bool
  perParent     : Bool
  needsTotal    : Bool

namespace PgUnionArgs

variable {C A V : Type} [DecidableEq C]

def make (args : PgUnionArgs C A V) (format : CursorFormat (UnionColumn C) V) (paging : PgPaging) :
    Except (UnionError C) (PgUnionAllStep C A V) :=
  PgUnionAllStep.make format args.members args.sharedColumns args.orderBy args.orderIsUnique args.perParent paging
    args.needsTotal

-- What is wrong with the members, the shared columns or the order, before the paging is looked at.
def refused (args : PgUnionArgs C A V) : Option (UnionError C) :=
  match args.members with
  | []         => some .noMembers
  | first :: _ =>
    if args.sharedColumns.isEmpty then
      some .noSharedColumns
    else
      ((PgUnionAllStep.orderOf first args.orderBy args.orderIsUnique).find?
        (!PgUnionAllStep.isShared args.sharedColumns ·.column)).map (.orderColumnNotShared ·.column)

def order (args : PgUnionArgs C A V) : List (OrderTerm (UnionColumn C)) :=
  match args.members with
  | []         => []
  | first :: _ => PgUnionAllStep.orderOf first args.orderBy args.orderIsUnique

-- The match columns that the members agree on, which are looked at last.
def matching (args : PgUnionArgs C A V) : Except (UnionError C) (List C) :=
  match args.members with
  | []            => .error .noMembers
  | first :: rest =>
    PgUnionAllStep.matchColumnsOf (first :: rest) first args.sharedColumns args.perParent

section Make

variable {args : PgUnionArgs C A V} {format : CursorFormat (UnionColumn C) V} {paging : PgPaging}

theorem make_of_refused {error : UnionError C} (h : args.refused = some error) :
    args.make format paging = .error error := by
  obtain ⟨members, sharedColumns, orderBy, orderIsUnique, perParent, needsTotal⟩ := args
  simp only [refused] at h
  simp only [make, PgUnionAllStep.make]
  cases members
  case nil             => simpa using h
  case cons first rest =>
    simp only at h ⊢
    split at h
    case isTrue hs  =>
      rw [if_pos hs]
      exact congrArg Except.error (Option.some.inj h)
    case isFalse hs =>
      rw [if_neg hs]
      obtain ⟨term, ht, rfl⟩ := Option.map_eq_some_iff.mp h
      split
      case h_1 t ho => rw [Option.some.inj (ho.symm.trans ht)]
      case h_2 ho   => rw [ho] at ht; cases ht

-- What is done behind the check of the paging arguments.
def behind (format : CursorFormat (UnionColumn C) V) (args : PgUnionArgs C A V) (paging : PgPaging)
    (rest : Except (UnionError C) (PgUnionAllStep C A V)) : Except (UnionError C) (PgUnionAllStep C A V) :=
  match paging.check, paging.decodeLiteralCursors format args.order with
  | .error e, _     => .error (.page e)
  | .ok _, .error e => .error (.page e)
  | .ok _, .ok _    => rest

-- The members and their match columns do not depend on the paging arguments.
theorem make_of_accepted (format : CursorFormat (UnionColumn C) V) (hr : args.refused = none) :
    (∃ error, args.matching = .error error ∧
      ∀ paging, args.make format paging = behind format args paging (.error error)) ∨
    ∃ (columns : List C) (union : PgUnion C A V), args.matching = .ok columns ∧ union.orderBy = args.order ∧
      ∀ paging, args.make format paging = behind format args paging (.ok ⟨union, paging, args.needsTotal⟩) := by
  obtain ⟨members, sharedColumns, orderBy, orderIsUnique, perParent, needsTotal⟩ := args
  cases members
  case nil             => cases hr
  case cons first rest =>
    simp only [refused] at hr
    split at hr
    case isTrue     => cases hr
    case isFalse hs =>
      have ho := Option.map_eq_none_iff.mp hr
      simp only [make, PgUnionAllStep.make, behind, order, matching, if_neg hs]
      split
      case h_1 t ht => rw [ht] at ho; cases ho
      case h_2      =>
        have hm : (∃ error, PgUnionAllStep.matchColumnsOf (first :: rest) first sharedColumns perParent =
            .error error) ∨ ∃ columns,
              PgUnionAllStep.matchColumnsOf (first :: rest) first sharedColumns perParent = .ok columns := by
          cases PgUnionAllStep.matchColumnsOf (first :: rest) first sharedColumns perParent
          case error error => exact .inl ⟨error, rfl⟩
          case ok columns  => exact .inr ⟨columns, rfl⟩
        obtain ⟨error, hm⟩ | ⟨columns, hm⟩ := hm
        · refine .inl ⟨error, hm, fun paging => ?_⟩
          cases paging.check
          case error => rfl
          case ok    =>
            cases paging.decodeLiteralCursors format (PgUnionAllStep.orderOf first orderBy orderIsUnique)
            case error => rfl
            case ok    =>
              dsimp only
              split
              case h_1 e he => rw [Except.error.inj (he.symm.trans hm)]
              case h_2 _ he => rw [he] at hm; cases hm
        · refine .inr ⟨columns, {
            members       := first :: rest
            sharedColumns := sharedColumns
            orderBy       := PgUnionAllStep.orderOf first orderBy orderIsUnique
            isPerParent   := perParent
            matchColumns  := columns
            order_ne      := by simp [PgUnionAllStep.orderOf]
            order_shared  := fun t ht c hc => by simpa [PgUnionAllStep.isShared, hc] using List.find?_eq_none.mp ho t ht
            match_eq      := (PgUnionAllStep.matchColumnsOf_ok hm).left
            match_shared  := (PgUnionAllStep.matchColumnsOf_ok hm).right }, hm, rfl, fun paging => ?_⟩
          cases paging.check
          case error => rfl
          case ok    =>
            cases paging.decodeLiteralCursors format (PgUnionAllStep.orderOf first orderBy orderIsUnique)
            case error => rfl
            case ok    =>
              dsimp only
              split
              case h_1 _ he  => rw [he] at hm; cases hm
              case h_2 cs he =>
                obtain rfl := Except.ok.inj (he.symm.trans hm)
                rfl

theorem behind_of_ambiguous {rest : Except (UnionError C) (PgUnionAllStep C A V)} (h : paging.Ambiguous) :
    behind format args paging rest = .error (.page .ambiguousPagination) := by
  rw [behind, PgPaging.check_of_ambiguous h]

theorem behind_of_not_ambiguous {rest : Except (UnionError C) (PgUnionAllStep C A V)} (h : ¬paging.Ambiguous) :
    behind format args paging rest =
      match paging.decodeLiteralCursors format args.order with
      | .error e => .error (.page e)
      | .ok _    => rest := by
  rw [behind, PgPaging.check_of_not_ambiguous h]
  cases paging.decodeLiteralCursors format args.order
  case error e => rfl
  case ok      => rfl

-- The errors of the members say nothing of the page.
theorem matching_error {error : UnionError C} (h : args.matching = .error error) (e : PageError) :
    error ≠ .page e := by
  rintro rfl
  rw [matching] at h
  split at h
  case h_1 => cases h
  case h_2 =>
    simp only [PgUnionAllStep.matchColumnsOf, PgUnionAllStep.assertMembersHaveMatch,
      PgUnionAllStep.assertMembersHaveNoMatch] at h
    split at h
    case isTrue  => split at h <;> grind
    case isFalse => split at h <;> grind

end Make

-- The result of a union that has been made.
def outcome {members : List (PgUnionMember C A V)}
    (result : Except UnionQueryError (BatchResult (Connection (UnionRow members)))) :
    Except (UnionError C ⊕ UnionQueryError)
      ((members : List (PgUnionMember C A V)) × BatchResult (Connection (UnionRow members))) :=
  match result with
  | .error error => .error error.report
  | .ok result   => .ok ⟨members, result⟩

variable [LinearOrder V]

-- A union is made, and then executed over a bucket.
def run (args : PgUnionArgs C A V) (format : CursorFormat (UnionColumn C) V) (text : String → V)
    (types : SqlTypes C) (database : Database C V) (sourceValues : SourceValues) (values : List (Key V))
    (paging : PgPaging) (e : Engine) : Except (UnionError C ⊕ UnionQueryError)
      ((members : List (PgUnionMember C A V)) × BatchResult (Connection (UnionRow members))) :=
  match args.make format paging with
  | .error error => .error (.inl error)
  | .ok step     => outcome (step.execute e format text types database sourceValues values)

variable {args : PgUnionArgs C A V} {format : CursorFormat (UnionColumn C) V} {text : String → V}
variable {types : SqlTypes C} {database : Database C V} {sourceValues : SourceValues} {values : List (Key V)}
variable {paging : PgPaging}

theorem run_of_made {union : PgUnion C A V} (ho : union.orderBy = args.order)
    (hm : args.make format paging = behind format args paging (.ok ⟨union, paging, args.needsTotal⟩))
    (h : ¬paging.Ambiguous) (e : Engine) :
    args.run format text types database sourceValues values paging e =
      outcome (PgUnionAllStep.execute ⟨union, paging, args.needsTotal⟩ e format text types database sourceValues
        values) := by
  rw [run, hm, behind_of_not_ambiguous h]
  cases hd : paging.decodeLiteralCursors format args.order
  case ok          => rfl
  case error error =>
    obtain ⟨c, rfl, hc⟩ := PgPaging.decodeLiteralCursors_error sourceValues h hd
    rw [← ho] at hc
    obtain hc | ⟨ha, hc⟩ := hc
    · simp only [PgUnionAllStep.execute, PgUnionAllStep.connections, hc]
      rfl
    · simp only [PgUnionAllStep.execute, PgUnionAllStep.connections, ha, hc]
      rfl

omit [DecidableEq C] [LinearOrder V] in
theorem outcome_ne {members : List (PgUnionMember C A V)}
    {result : Except UnionQueryError (BatchResult (Connection (UnionRow members)))} :
    outcome result ≠ .error (.inl (.page .ambiguousPagination)) := by
  cases result
  case ok r    => exact fun h => nomatch h
  case error e =>
    cases e
    case cursor c        => exact fun h => nomatch h
    case undefinedColumn => exact fun h => nomatch h
    case mismatchedTypes => exact fun h => nomatch h
    case negativeLimit   => exact fun h => nomatch h
    case rejectedValue   => exact fun h => nomatch h

theorem run_of_ambiguous (hr : args.refused = none) (h : paging.Ambiguous) (e : Engine) :
    args.run format text types database sourceValues values paging e = .error (.inl (.page .ambiguousPagination)) := by
  obtain ⟨error, _, hm⟩ | ⟨columns, union, _, _, hm⟩ := make_of_accepted format hr
  · rw [run, hm, behind_of_ambiguous h]
  · rw [run, hm, behind_of_ambiguous h]

-- Members that do not match are rejected behind the literal cursors.
theorem run_of_unmatched {error : UnionError C} (h : ¬paging.Ambiguous)
    (hm : args.make format paging = behind format args paging (.error error)) (e : Engine) :
    args.run format text types database sourceValues values paging e =
      match paging.decodeLiteralCursors format args.order with
      | .error e => .error (.inl (.page e))
      | .ok _    => .error (.inl error) := by
  rw [run, hm, behind_of_not_ambiguous h]
  cases paging.decodeLiteralCursors format args.order
  case error e => rfl
  case ok      => rfl

theorem run_ne (hr : args.refused = none) (h : ¬paging.Ambiguous) (e : Engine) :
    args.run format text types database sourceValues values paging e ≠
      .error (.inl (.page .ambiguousPagination)) := by
  obtain ⟨error, hn, hm⟩ | ⟨columns, union, _, ho, hm⟩ := make_of_accepted format hr
  · rw [run_of_unmatched h (hm paging)]
    cases hd : paging.decodeLiteralCursors format args.order
    case ok          =>
      intro he
      exact matching_error hn _ (Sum.inl.inj (Except.error.inj he))
    case error error =>
      obtain ⟨c, rfl, _⟩ := PgPaging.decodeLiteralCursors_error sourceValues h hd
      exact fun he => nomatch he
  · rw [run_of_made ho (hm paging) h]
    exact outcome_ne

theorem step_sameResults (union : PgUnion C A V) (needsTotal : Bool) (h : ¬paging.Ambiguous) : SameResults
    (fun e => PgUnionAllStep.execute ⟨union, paging, needsTotal⟩ e format text types database sourceValues values)
    (fun e => PgUnionAllStep.execute ⟨union, paging.resolved sourceValues, needsTotal⟩ e format text types database
      sourceValues values) := by
  let exec (p : PgPaging) (e : Engine) :
      Except UnionQueryError (BatchResult (Connection (UnionRow union.members))) :=
    PgUnionAllStep.connections ⟨union, p, needsTotal⟩ e format text types database sourceValues values
  have hs : SameResults (exec paging) (exec (paging.resolved sourceValues)) := by
    apply PgPaging.sameResults_resolved exec h
    case hc => exact fun hr e => PgUnionAllStep.connections_congr hr (PgPaging.pageSize_resolved hr) rfl rfl e
    case hu =>
      intro hr hr' hs hs' ha hb e
      constructor
      · exact PgUnionAllStep.connections_unpaged hr hr' hs hs' ha hb ha hb
          fun rows => (flip_sort e _ (UnionRow.value text) rows).left
      · exact PgUnionAllStep.connections_unpaged hr hr' hs hs' ha hb ha hb
          fun rows => (flip_sort e _ (UnionRow.value text) rows).right
  exact hs.map union.decodeConnections

-- A union with variables gives what the union with their values gives, unless it rejects variables for both
-- directions of which the request does not use both, or a cursor of the request is rejected behind members
-- that do not match.
theorem run_sameResults_iff (args : PgUnionArgs C A V) (format : CursorFormat (UnionColumn C) V)
    (text : String → V) (types : SqlTypes C) (database : Database C V) (sourceValues : SourceValues)
    (values : List (Key V)) (paging : PgPaging) :
    SameResults (args.run format text types database sourceValues values paging)
        (args.run format text types database sourceValues values (paging.resolved sourceValues)) ↔
      (args.refused = none → (paging.Ambiguous → (paging.resolved sourceValues).Ambiguous) ∧
        (¬paging.Ambiguous → (∃ columns, args.matching = .ok columns) ∨
          (paging.resolved sourceValues).decodeLiteralCursors format args.order =
            paging.decodeLiteralCursors format args.order)) := by
  cases hr : args.refused
  case some error =>
    have hm (paging : PgPaging) (e : Engine) :
        args.run format text types database sourceValues values paging e = .error (.inl error) := by
      rw [run, make_of_refused hr]
    exact iff_of_true (.of_eq fun e => by rw [hm, hm]) fun hn => nomatch hn
  case none       =>
    rw [imp_iff_right rfl]
    by_cases ha : paging.Ambiguous
    case pos =>
      constructor
      case mp  =>
        refine fun h => ⟨fun _ => ?_, fun hn => absurd ha hn⟩
        by_contra hn
        obtain ⟨e, he⟩ := h.exists_eq .insertion
        rw [run_of_ambiguous hr ha] at he
        exact run_ne hr hn e he
      case mpr =>
        exact fun h => .of_eq fun e => by rw [run_of_ambiguous hr ha, run_of_ambiguous hr (h.left ha)]
    case neg =>
      have hn : ¬(paging.resolved sourceValues).Ambiguous := fun hn => ha (PgPaging.resolved_ambiguous hn)
      obtain ⟨error, hu, hm⟩ | ⟨columns, union, hu, ho, hm⟩ := make_of_accepted format hr
      · constructor
        case mp  =>
          refine fun h => ⟨fun h => absurd h ha, fun _ => .inr ?_⟩
          obtain ⟨e, he⟩ := h.exists_eq .insertion
          rw [run_of_unmatched ha (hm _), run_of_unmatched hn (hm _)] at he
          cases hd : paging.decodeLiteralCursors format args.order <;>
            cases hd' : (paging.resolved sourceValues).decodeLiteralCursors format args.order <;>
            simp only [hd, hd', Except.error.injEq, Sum.inl.injEq, UnionError.page.injEq] at he ⊢
          case error.error e e' => rw [he]
          case error.ok e _     => exact absurd he (matching_error hu _)
          case ok.error _ e     => exact absurd he.symm (matching_error hu _)
        case mpr =>
          rintro ⟨_, h⟩
          obtain ⟨columns, hc⟩ | hd := h ha
          · rw [hc] at hu
            cases hu
          · exact .of_eq fun e => by rw [run_of_unmatched ha (hm _), run_of_unmatched hn (hm _), hd]
      · refine iff_of_true ?_ ⟨fun h => absurd h ha, fun _ => .inl ⟨columns, hu⟩⟩
        rw [funext (run_of_made ho (hm _) ha), funext (run_of_made ho (hm _) hn)]
        exact (step_sameResults union args.needsTotal ha).map outcome

end PgUnionArgs

-- A step with variables for its paging arguments, and the step with the values that a request has for them
-- as literals, for each step that pages.
theorem placeholders_iff {C A V : Type} [DecidableEq C] [LinearOrder V] (sourceValues : SourceValues) :
    (∀ (step : PgSelectStep C A V) (table : List (C → Option V)) (values : List (Key V)),
      SameResults (fun e => step.run e table sourceValues values)
          (fun e => (step.resolved sourceValues).run e table sourceValues values) ↔
        (resolvePlaceholder step.offset sourceValues.numbers = none →
          (∃ n ∈ resolvePlaceholder step.first sourceValues.numbers, n ≤ 0) ∨ step.Unmatched table values)) ∧
    (∀ (step : PgSelectAllStep C A V) (predicates : List (RowPredicate C V)) (resolved : Nat → BindValue V),
      (∀ (table : List (C → Option V)) (count : Nat),
        SameResults
          (fun e => (step.withPredicates predicates sourceValues resolved).execute e table sourceValues count)
          (fun e => ((step.resolved sourceValues).withPredicates predicates sourceValues resolved).execute e table
            sourceValues count)) ↔
        (step.ShowsRows sourceValues → ∀ row,
          (step.withPredicates predicates sourceValues resolved).passes row =
            ((step.resolved sourceValues).withPredicates predicates sourceValues resolved).passes row)) ∧
    (∀ (args : PgConnectionArgs C A V) (format : CursorFormat C V) (table : List (C → Option V))
        (values : List (Key V)) (paging : PgPaging),
      SameResults (args.runDecoded format table sourceValues values paging)
          (args.runDecoded format table sourceValues values (paging.resolved sourceValues)) ↔
        (paging.Ambiguous → (paging.resolved sourceValues).Ambiguous)) ∧
    (∀ (args : PgUnionArgs C A V) (format : CursorFormat (UnionColumn C) V) (text : String → V)
        (types : SqlTypes C) (database : Database C V) (values : List (Key V)) (paging : PgPaging),
      SameResults (args.run format text types database sourceValues values paging)
          (args.run format text types database sourceValues values (paging.resolved sourceValues)) ↔
        (args.refused = none → (paging.Ambiguous → (paging.resolved sourceValues).Ambiguous) ∧
          (¬paging.Ambiguous → (∃ columns, args.matching = .ok columns) ∨
            (paging.resolved sourceValues).decodeLiteralCursors format args.order =
              paging.decodeLiteralCursors format args.order))) :=
  ⟨fun step table values => step.run_sameResults_iff table sourceValues values,
    fun step predicates resolved => step.withPredicates_sameResults_iff predicates sourceValues resolved,
    fun args format table values paging =>
      args.runDecoded_sameResults_iff format table sourceValues values paging,
    fun args format text types database values paging =>
      args.run_sameResults_iff format text types database sourceValues values paging⟩

namespace Posts

-- The posts of an author with an offset that the request leaves out.
theorem omitted_offset : ¬SameResults
    (fun e => byAuthor.run e [post 1 7] ⟨fun _ => none, fun _ => none⟩ [some [some 7]])
    (fun e => (byAuthor.resolved ⟨fun _ => none, fun _ => none⟩).run e [post 1 7]
      ⟨fun _ => none, fun _ => none⟩ [some [some 7]]) := by
  intro h
  obtain ⟨n, hn, _⟩ | h := (PgSelectStep.run_sameResults_iff _ _ _ _).mp h rfl
  · cases hn
  · exact absurd (h (post 1 7) (.head _) (by decide)) (by decide)

end Posts

end Grafast
