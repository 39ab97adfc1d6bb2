import Grafast.Pg.Keyed

namespace Grafast

open Sql

section Keys

variable {C V : Type} {row : C → Option V} {matchColumns : List C}

-- The key of a row without a NULL in it consists of the columns of the match.
theorem groupingKey_eq (h : (matchColumns.map row).all (·.isSome) = true) :
    groupingKey row matchColumns = some (matchColumns.map row) := by
  rw [groupingKey.eq_def]
  split
  case h_1 column =>
    obtain ⟨v, hv⟩ := Option.isSome_iff_exists.mp (show (row column).isSome = true by simpa using h)
    simp [hv]
  case h_2 => rfl

-- What the dictionary of some rows without NULLs in their keys holds for a key.
theorem lookup_groupingKey {R : Type} [DecidableEq V] {columns : R → C → Option V} {rows : List R}
    {k : Key V} (h : ∀ r ∈ rows, (matchColumns.map (columns r)).all (·.isSome) = true) :
    (((rows.map fun r => (groupingKey (columns r) matchColumns, r)).foldl Batch.addToGroup []).lookup
      k).getD [] = rows.filter fun r => some (matchColumns.map (columns r)) = k := by
  rw [Batch.lookup_grouped, List.filter_map, List.map_map]
  refine (List.map_id' _).trans (List.filter_congr fun r hr => ?_)
  exact decide_eq_decide.mpr (iff_of_eq (congrArg (· = k) (groupingKey_eq (h r hr))))

end Keys

namespace PgKeyed

variable {C A V : Type} [LinearOrder V] {step : PgKeyed C A V} {table : List (C → Option V)}
variable {uniqueKeys : List (List (Option V))} {key : List (Option V)}

theorem matchPredicate_iff {row : C → Option V} : step.matchPredicate uniqueKeys row = true ↔
    (step.matchColumns.map row).all (·.isSome) = true ∧ step.matchColumns.map row ∈ uniqueKeys := by
  simp [matchPredicate]

-- Of the rows that match some keys, those of one key are the ones that match it alone.
theorem matched_filter (h : key ∈ uniqueKeys) :
    (step.matched table uniqueKeys).filter (step.matchColumns.map · = key) =
      step.matched table [key] := by
  rw [matched, matched, List.filter_filter]
  refine List.filter_congr fun row _ => ?_
  rw [Bool.eq_iff_iff]
  simp only [Bool.and_eq_true, matchPredicate_iff, decide_eq_true_eq, List.mem_singleton]
  constructor
  case mp  => exact fun ⟨hk, ⟨hs, _⟩, hp⟩ => ⟨⟨hs, hk⟩, hp⟩
  case mpr => exact fun ⟨⟨hs, hk⟩, hp⟩ => ⟨hk, ⟨hs, hk ▸ h⟩, hp⟩

theorem matched_eq_nil_iff : step.matched table [key] = [] ↔
    ∀ row ∈ table, step.passes row = true → step.matchPredicate [key] row = false := by
  rw [matched, List.filter_eq_nil_iff]
  exact forall₂_congr fun row _ => by cases step.passes row <;> simp

-- The rows of one parent.
def rowsOf (step : PgKeyed C A V) (table : List (C → Option V)) (value : Key V) : List (C → Option V) :=
  match normalizeLookupKey value step.isComposite with
  | none     => []
  | some key => step.matched table [key]

omit [LinearOrder V] in
theorem mem_normalizedKeys {values : List (Key V)} : some key ∈ step.normalizedKeys values ↔
    ∃ value ∈ values, normalizeLookupKey value step.isComposite = some key := by
  rw [normalizedKeys, List.mem_map]

-- What the dictionary of the rows holds for a key.
theorem lookup_groupRows {R : Type} {columns : R → C → Option V} {rows : List R} {k : Key V} :
    ((step.groupRows columns rows).lookup k).getD [] =
      rows.filter fun row => groupingKey (columns row) step.matchColumns = k := by
  rw [groupRows, Batch.lookup_grouped, List.filter_map, List.map_map]
  exact List.map_id' _

-- Among rows that match some keys, those of a key are the ones with its columns.
theorem filter_groupingKey {R : Type} {columns : R → C → Option V} {rows : List R} {k : Key V}
    (h : ∀ row ∈ rows, columns row ∈ step.matched table uniqueKeys) :
    (rows.filter fun row => groupingKey (columns row) step.matchColumns = k) =
      rows.filter fun row => some (step.matchColumns.map (columns row)) = k := by
  refine List.filter_congr fun row hrow => ?_
  have hm := (List.mem_filter.mp (h row hrow)).right
  simp only [Bool.and_eq_true, matchPredicate_iff] at hm
  have hk := groupingKey_eq hm.left.left
  exact decide_eq_decide.mpr (iff_of_eq (congrArg (· = k) hk))

end PgKeyed

end Grafast
