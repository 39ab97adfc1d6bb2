import Grafast.Sql.Sorting
import Mathlib.Data.List.Perm.Basic

namespace Sql

-- What an engine does to the rows of one type.
structure Sorter (R : Type) where
  sort (le : R → R → Bool) (rows : List R) : List R
  perm (le : R → R → Bool) (rows : List R) : (sort le rows).Perm rows
  sorted {le : R → R → Bool} (rows : List R)
    (trans : ∀ a b c, le a b = true → le b c = true → le a c = true)
    (total : ∀ a b, (le a b || le b a) = true) : (sort le rows).Pairwise (le · · = true)

-- Two computations may give the same results, whatever the engine decides.
def SameResults {β : Type} (run run' : Engine → β) : Prop :=
  ∀ result, (∃ e, run e = result) ↔ ∃ e, run' e = result

namespace SameResults

variable {β : Type} {run run' : Engine → β}

theorem of_engines (h : ∀ e, ∃ e', run' e' = run e) (h' : ∀ e, ∃ e', run e' = run' e) : SameResults run run' := by
  intro result
  constructor
  case mp  => exact fun ⟨e, he⟩ => he ▸ h e
  case mpr => exact fun ⟨e, he⟩ => he ▸ h' e

theorem of_eq (h : ∀ e, run e = run' e) : SameResults run run' :=
  of_engines (fun e => ⟨e, (h e).symm⟩) fun e => ⟨e, h e⟩

theorem map {γ : Type} (f : β → γ) (h : SameResults run run') :
    SameResults (fun e => f (run e)) (fun e => f (run' e)) := by
  refine of_engines (fun e => ?_) fun e => ?_
  · obtain ⟨e', he⟩ := (h (run e)).mp ⟨e, rfl⟩
    exact ⟨e', congrArg f he⟩
  · obtain ⟨e', he⟩ := (h (run' e)).mpr ⟨e, rfl⟩
    exact ⟨e', congrArg f he⟩

theorem exists_eq (h : SameResults run run') (e : Engine) : ∃ e', run' e' = run e :=
  (h (run e)).mp ⟨e, rfl⟩

end SameResults

namespace Engine

def sorter (e : Engine) (R : Type) : Sorter R :=
  ⟨e.sort, e.perm, e.sorted⟩

def ofSorters (sorters : (R : Type) → Sorter R) : Engine where
  sort   := (sorters _).sort
  perm   := (sorters _).perm
  sorted := (sorters _).sorted

open Classical in
-- An engine that decides for the rows of one type as it is told.
noncomputable def override (e : Engine) {S : Type} (s : Sorter S) : Engine :=
  ofSorters fun R => if h : S = R then h ▸ s else e.sorter R

theorem override_sort (e : Engine) {S : Type} (s : Sorter S) (le : S → S → Bool) (rows : List S) :
    (e.override s).sort le rows = s.sort le rows := by
  simp [override, ofSorters]

-- An engine that leaves equal rows the other way round.
def flip (e : Engine) : Engine where
  sort le rows   := (e.sort (fun a b => le b a) rows).reverse
  perm le rows   := (List.reverse_perm _).trans (e.perm _ rows)
  sorted {_ le} rows trans total := by
    rw [List.pairwise_reverse]
    exact e.sorted rows (fun a b c hab hbc => trans c b a hbc hab) fun a b => total b a

variable {R P : Type} [DecidableEq P] {part : R → P} {le : R → R → Bool} {rows : List R}

-- Rows by their parts are the rows.
theorem flatMap_parts_perm {parts : List P} (hn : parts.Nodup) (h : ∀ r ∈ rows, part r ∈ parts) :
    (parts.flatMap fun p => rows.filter (part · = p)).Perm rows := by
  induction rows
  case nil            => simp
  case cons r rows hi =>
    rw [List.forall_mem_cons] at h
    obtain ⟨before, after, rfl⟩ := List.append_of_mem h.left
    have hf (parts : List P) (hp : part r ∉ parts) :
        (parts.flatMap fun p => (r :: rows).filter (part · = p)) =
          parts.flatMap fun p => rows.filter (part · = p) := by
      refine List.flatMap_congr fun p hm => List.filter_cons_of_neg ?_
      rw [decide_eq_true_eq]
      exact fun he => hp (he ▸ hm)
    have hb : part r ∉ before := fun hm =>
      (List.nodup_append.mp hn).right.right _ hm _ (.head _) rfl
    have ha : part r ∉ after := (List.nodup_cons.mp (List.nodup_append.mp hn).right.left).left
    have hi := hi h.right
    rw [List.flatMap_append, List.flatMap_cons] at hi ⊢
    rw [hf before hb, hf after ha, List.filter_cons_of_pos (by simp), List.cons_append]
    exact List.perm_middle.trans (hi.cons r)

theorem map_rowNumber_perm (e : Engine) : ((e.rowNumber part le rows).map (·.fst)).Perm rows := by
  have hm : ∀ r ∈ rows, part r ∈ (rows.map part).dedup :=
    fun r hr => List.mem_dedup.mpr (List.mem_map_of_mem hr)
  refine .trans ?_ (flatMap_parts_perm (List.nodup_dedup _) hm)
  rw [rowNumber, List.map_flatMap]
  refine List.Perm.flatMap_left _ fun p _ => ?_
  rw [List.zipIdx_map_fst]
  exact e.perm le _

-- Some engine sorts the rows so that those of each part come as this engine sorts the part alone.
theorem exists_sort_rows (e : Engine) (part : R → P) (le : R → R → Bool) (rows : List R)
    (trans : ∀ a b c, le a b = true → le b c = true → le a c = true)
    (total : ∀ a b, (le a b || le b a) = true) :
    ∃ e' : Engine, ∀ p, (e'.sort le rows).filter (part · = p) = e.sort le (rows.filter (part · = p)) := by
  have hf (p : P) : ((e.rowNumber part le rows).map (·.fst)).filter (part · = p) =
      e.sort le (rows.filter (part · = p)) := by
    rw [List.filter_map, ← List.zipIdx_map_fst 1 (e.sort le _), ← rowNumber_filter]
    rfl
  -- Insertion is stable, and the parts of what it sorts are sorted already.
  let s : Sorter R := {
    sort le rows             := insertion.sort le ((e.rowNumber part le rows).map (·.fst))
    perm le rows             := (insertion.perm le _).trans e.map_rowNumber_perm
    sorted {_} _ trans total := insertion.sorted _ trans total }
  refine ⟨e.override s, fun p => ?_⟩
  rw [override_sort, ← hf]
  have : Std.Total (le · · = true) := ⟨fun a b => by simpa using total a b⟩
  have : IsTrans _ (le · · = true) := ⟨trans⟩
  have hp : (((e.rowNumber part le rows).map (·.fst)).filter (part · = p)).Pairwise (le · · = true) :=
    hf p ▸ e.sorted _ trans total
  have hs := (List.sublist_insertionSort hp List.filter_sublist).filter (part · = p)
  rw [List.filter_filter, funext fun r => Bool.and_self _] at hs
  exact (hs.eq_of_length ((insertion.perm le _).filter _).length_eq.symm).symm

-- Some engine sorts each part alone as this engine sorts it among all rows.
theorem exists_sort_parts (e : Engine) (part : R → P) (le : R → R → Bool) (rows : List R) :
    ∃ e' : Engine, ∀ p, e'.sort le (rows.filter (part · = p)) = (e.sort le rows).filter (part · = p) := by
  classical
  have hp {le' : R → R → Bool} {rows' : List R}
      (h : le' = le ∧ ∃ p, rows' = rows.filter (part · = p)) :
      ((e.sort le rows).filter (part · = h.right.choose)).Perm rows' :=
    ((e.perm le rows).filter _).trans (.of_eq h.right.choose_spec.symm)
  let s : Sorter R := {
    sort le' rows' :=
      if h : le' = le ∧ ∃ p, rows' = rows.filter (part · = p) then
        (e.sort le rows).filter (part · = h.right.choose)
      else
        e.sort le' rows'
    perm le' rows' := by
      split
      case isTrue h  => exact hp h
      case isFalse   => exact e.perm le' rows'
    sorted {_} rows' trans total := by
      split
      case isTrue h  =>
        obtain ⟨rfl, _⟩ := h
        exact (e.sorted rows trans total).filter _
      case isFalse   => exact e.sorted rows' trans total }
  refine ⟨e.override s, fun p => ?_⟩
  have h : le = le ∧ ∃ q, rows.filter (part · = p) = rows.filter (part · = q) := ⟨rfl, p, rfl⟩
  rw [override_sort]
  show (if h : le = le ∧ ∃ q, rows.filter (part · = p) = rows.filter (part · = q) then _ else _) = _
  rw [dif_pos h]
  by_cases hq : h.right.choose = p
  case pos => rw [hq]
  case neg =>
    -- Two parts with the same rows have none.
    have hn : rows.filter (part · = p) = [] := by
      refine List.eq_nil_iff_forall_not_mem.mpr fun r hr => ?_
      have hr' := h.right.choose_spec ▸ hr
      exact hq ((of_decide_eq_true (List.mem_filter.mp hr').right).symm.trans
        (of_decide_eq_true (List.mem_filter.mp hr).right))
    have hs := ((e.perm le rows).filter (part · = p)).trans (.of_eq hn)
    rw [((hp h).trans (.of_eq hn)).eq_nil, hs.eq_nil]

end Engine

end Sql
