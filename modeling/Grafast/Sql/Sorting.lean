import Mathlib.Data.List.Dedup
import Mathlib.Data.List.Sort

namespace Sql

-- What an engine decides where a statement leaves it open: in which order ORDER BY puts equal rows.
structure Engine where
  sort {R : Type} (le : R → R → Bool) (rows : List R) : List R
  perm {R : Type} (le : R → R → Bool) (rows : List R) : (sort le rows).Perm rows
  sorted {R : Type} {le : R → R → Bool} (rows : List R)
    (trans : ∀ a b c, le a b = true → le b c = true → le a c = true)
    (total : ∀ a b, (le a b || le b a) = true) : (sort le rows).Pairwise (le · · = true)

-- An engine that sorts by insertion.
def Engine.insertion : Engine where
  sort le rows := rows.insertionSort (le · · = true)
  perm le rows := List.perm_insertionSort _ rows
  sorted {_ le} rows trans total :=
    have : Std.Total (le · · = true) := ⟨fun a b => by simpa using total a b⟩
    have : IsTrans _ (le · · = true) := ⟨trans⟩
    List.pairwise_insertionSort _ rows

theorem flatMap_ite {α β : Type} [DecidableEq α] {l : List α} {a : α} {f : α → List β}
    (h : l.Nodup) : (l.flatMap fun b => if b = a then f b else []) = if a ∈ l then f a else [] := by
  induction l
  case nil         => rfl
  case cons b l hi =>
    rw [List.nodup_cons] at h
    rw [List.flatMap_cons, hi h.right]
    by_cases hb : b = a
    case pos => simp [hb, hb ▸ h.left]
    case neg => simp [hb, Ne.symm hb]

section Answer

variable {R : Type} {le : R → R → Bool} {offset limit : Option Int} {rows l m : List R}

-- OFFSET NULL and LIMIT NULL are as if they were left out.
def slice (offset limit : Option Nat) (rows : List R) : List R :=
  match limit with
  | none   => rows.drop (offset.getD 0)
  | some n => (rows.drop (offset.getD 0)).take n

theorem slice_sublist {offset limit : Option Nat} : (slice offset limit rows).Sublist rows := by
  cases limit
  case none   => exact List.drop_sublist _ _
  case some n => exact (List.take_sublist _ _).trans (List.drop_sublist _ _)

theorem slice_nil {offset limit : Option Nat} : slice offset limit ([] : List R) = [] :=
  List.sublist_nil.mp slice_sublist

-- A negative OFFSET or LIMIT is an error.
def IsBound (bound : Option Int) : Prop :=
  ∀ n ∈ bound, 0 ≤ n

-- The answers of a statement with ORDER BY, OFFSET and LIMIT. Equal rows may come in any order.
def IsAnswer (le : R → R → Bool) (offset limit : Option Int) (rows result : List R) : Prop :=
  IsBound offset ∧ IsBound limit ∧ ∃ l : List R, l.Perm rows ∧ l.Pairwise (le · · = true) ∧
    result = slice (offset.map Int.toNat) (limit.map Int.toNat) l

theorem slice_none_eq_nil_iff (h : IsBound limit) :
    slice none (limit.map Int.toNat) l = [] ↔ limit = some 0 ∨ l = [] := by
  cases limit
  case none   => simp [slice]
  case some n =>
    have hn : n ≤ 0 ↔ n = 0 := ⟨fun h' => le_antisymm h' (h n rfl), le_of_eq⟩
    simp [slice, hn]

end Answer

section ZipIdx

variable {α : Type} {l : List α} {k n : Nat}

theorem zipIdx_filter_lt : (l.zipIdx k).filter (fun x => x.snd < k + n) = (l.take n).zipIdx k := by
  induction l generalizing k n
  case nil         => simp
  case cons a l hi =>
    cases n
    case zero   =>
      rw [List.take_zero, List.zipIdx_nil, List.filter_eq_nil_iff]
      intro x hx
      simp [List.le_snd_of_mem_zipIdx hx]
    case succ n =>
      have hk : k + (n + 1) = k + 1 + n := by omega
      rw [List.zipIdx_cons, List.filter_cons_of_pos (by simp), List.take_succ_cons,
        List.zipIdx_cons, hk, hi]

theorem zipIdx_filter_le :
    (l.zipIdx k).filter (fun x => k + n ≤ x.snd) = (l.drop n).zipIdx (k + n) := by
  induction l generalizing k n
  case nil         => simp
  case cons a l hi =>
    cases n
    case zero   =>
      rw [List.drop_zero, Nat.add_zero, List.filter_eq_self]
      intro x hx
      simpa using List.le_snd_of_mem_zipIdx hx
    case succ n =>
      have hk : k + (n + 1) = k + 1 + n := by omega
      rw [List.zipIdx_cons, List.filter_cons_of_neg (by simp), List.drop_succ_cons, hk, hi]

theorem zipIdx_pairwise : (l.zipIdx k).Pairwise (·.snd < ·.snd) := by
  induction l generalizing k
  case nil         => exact .nil
  case cons a l hi =>
    rw [List.zipIdx_cons, List.pairwise_cons]
    exact ⟨fun x hx => List.le_snd_of_mem_zipIdx hx, hi⟩

theorem zipIdx_snd_inj {x y : α × Nat} (hx : x ∈ l.zipIdx k) (hy : y ∈ l.zipIdx k)
    (h : x.snd = y.snd) : x = y := by
  rw [List.mem_zipIdx_iff_le_and_getElem?_sub] at hx hy
  exact Prod.ext (Option.some.inj (hx.right.symm.trans (h ▸ hy.right))) h

-- The rows after an offset, by their numbers from one on.
theorem zipIdx_filter_drop :
    ((l.zipIdx 1).filter (n < ·.snd)).map (·.fst) = l.drop n := by
  have hn : (fun x : α × Nat => decide (n < x.snd)) = fun x => decide (1 + n ≤ x.snd) := by
    funext x
    exact decide_eq_decide.mpr (by omega)
  rw [hn, zipIdx_filter_le, List.zipIdx_map_fst]

-- The rows up to a limit.
theorem zipIdx_filter_take :
    ((l.zipIdx 1).filter (·.snd ≤ n)).map (·.fst) = l.take n := by
  have hn : (fun x : α × Nat => decide (x.snd ≤ n)) = fun x => decide (x.snd < 1 + n) := by
    funext x
    exact decide_eq_decide.mpr (by omega)
  rw [hn, zipIdx_filter_lt, List.zipIdx_map_fst]

-- The rows up to a limit that may be NULL, and may be negative.
theorem zipIdx_filter_limit {limit : Option Int} :
    ((l.zipIdx 1).filter fun x : α × Nat => limit.all ((x.snd : Int) ≤ ·)).map (·.fst) =
      slice none (limit.map Int.toNat) l := by
  cases limit
  case none   => simp [slice]
  case some n =>
    have hn : (l.zipIdx 1).filter (fun x => (some n).all ((x.snd : Int) ≤ ·)) =
        (l.zipIdx 1).filter (·.snd ≤ n.toNat) :=
      List.filter_congr fun x hx => by
        have h := List.le_snd_of_mem_zipIdx hx
        exact decide_eq_decide.mpr (by omega)
    rw [hn, zipIdx_filter_take]
    rfl

-- The rows after an offset, up to a limit.
theorem zipIdx_filter_slice {offset : Nat} :
    ((l.zipIdx 1).filter fun x : α × Nat => offset < x.snd && x.snd ≤ offset + n).map (·.fst) =
      (l.drop offset).take n := by
  have ho : (fun x : α × Nat => decide (offset < x.snd)) = fun x => decide (1 + offset ≤ x.snd) := by
    funext x
    exact decide_eq_decide.mpr (by omega)
  have hn : (fun x : α × Nat => decide (x.snd ≤ offset + n)) =
      fun x => decide (x.snd < 1 + (offset + n)) := by
    funext x
    exact decide_eq_decide.mpr (by omega)
  rw [← List.filter_filter, ho, hn, zipIdx_filter_lt, zipIdx_filter_le, List.zipIdx_map_fst,
    List.drop_take, Nat.add_sub_cancel_left]

end ZipIdx

namespace Engine

variable {R P : Type} {e : Engine} {le : R → R → Bool} {rows l : List R}

theorem sort_nil : e.sort le [] = [] :=
  (e.perm le []).eq_nil

theorem mem_sort {a : R} : a ∈ e.sort le rows ↔ a ∈ rows :=
  (e.perm le rows).mem_iff

-- There is only one way to sort rows no two of which are equal.
theorem sort_eq (hl : l.Perm rows) (hs : l.Pairwise (le · · = true))
    (trans : ∀ a b c, le a b = true → le b c = true → le a c = true)
    (total : ∀ a b, (le a b || le b a) = true)
    (antisymm : ∀ a ∈ rows, ∀ b ∈ rows, le a b = true → le b a = true → a = b) :
    e.sort le rows = l :=
  List.Perm.eq_of_pairwise
    (fun a b ha hb => antisymm a (mem_sort.mp ha) b (hl.mem_iff.mp hb))
    (e.sorted rows trans total) hs ((e.perm le rows).trans hl.symm)

theorem filter_sort {p : R → Bool}
    (trans : ∀ a b c, le a b = true → le b c = true → le a c = true)
    (total : ∀ a b, (le a b || le b a) = true)
    (antisymm : ∀ a ∈ rows, ∀ b ∈ rows, le a b = true → le b a = true → a = b) :
    e.sort le (rows.filter p) = (e.sort le rows).filter p :=
  sort_eq ((e.perm le rows).filter p) ((e.sorted rows trans total).filter p) trans total
    fun a ha b hb => antisymm a (List.mem_of_mem_filter ha) b (List.mem_of_mem_filter hb)

variable [DecidableEq P]

-- row_number() OVER (PARTITION BY … ORDER BY …)
def rowNumber (e : Engine) (part : R → P) (le : R → R → Bool) (rows : List R) : List (R × Nat) :=
  (rows.map part).dedup.flatMap fun p => (e.sort le (rows.filter (part · = p))).zipIdx 1

variable {part : R → P} {p : P}

theorem part_of_mem_zipIdx {x : R × Nat}
    (h : x ∈ (e.sort le (rows.filter (part · = p))).zipIdx 1) : part x.fst = p := by
  have hm := mem_sort.mp (List.fst_mem_of_mem_zipIdx h)
  simpa using (List.mem_filter.mp hm).right

theorem mem_rowNumber {x : R × Nat} (h : x ∈ e.rowNumber part le rows) : x.fst ∈ rows := by
  simp only [rowNumber, List.mem_flatMap] at h
  obtain ⟨p, _, hx⟩ := h
  exact List.mem_of_mem_filter (mem_sort.mp (List.fst_mem_of_mem_zipIdx hx))

theorem rowNumber_filter : (e.rowNumber part le rows).filter (part ·.fst = p) =
    (e.sort le (rows.filter (part · = p))).zipIdx 1 := by
  have hf (q : P) : ((e.sort le (rows.filter (part · = q))).zipIdx 1).filter (part ·.fst = p) =
      if q = p then (e.sort le (rows.filter (part · = q))).zipIdx 1 else [] := by
    split
    case isTrue h  => exact List.filter_eq_self.mpr fun x hx => by simp [part_of_mem_zipIdx hx, h]
    case isFalse h => exact List.filter_eq_nil_iff.mpr fun x hx => by simp [part_of_mem_zipIdx hx, h]
  rw [rowNumber, List.filter_flatMap]
  simp only [hf]
  rw [flatMap_ite (List.nodup_dedup _)]
  split
  case isTrue h  => rfl
  case isFalse h =>
    have hn : rows.filter (part · = p) = [] := by
      rw [List.filter_eq_nil_iff]
      intro r hr he
      exact h (List.mem_dedup.mpr (of_decide_eq_true he ▸ List.mem_map_of_mem hr))
    rw [hn, sort_nil, List.zipIdx_nil]

-- Numbered rows of a part stand in the order of their numbers, wherever the other parts go.
theorem filter_sort_rowNumber (e : Engine) (part : R → P) (le : R → R → Bool) (rows : List R) (p : P)
    {le' : R × Nat → R × Nat → Bool} (keep : Nat → Bool)
    (trans : ∀ a b c, le' a b = true → le' b c = true → le' a c = true)
    (total : ∀ a b, (le' a b || le' b a) = true)
    (h : ∀ a b, part a.fst = part b.fst → (le' a b = true ↔ a.snd ≤ b.snd)) :
    (e.sort le' ((e.rowNumber part le rows).filter (keep ·.snd))).filter (part ·.fst = p) =
      ((e.sort le (rows.filter (part · = p))).zipIdx 1).filter (keep ·.snd) := by
  have hm {x : R × Nat}
      (hx : x ∈ ((e.sort le (rows.filter (part · = p))).zipIdx 1).filter (keep ·.snd)) :
      x ∈ (e.sort le (rows.filter (part · = p))).zipIdx 1 :=
    List.mem_of_mem_filter hx
  have hp : ((e.sort le' ((e.rowNumber part le rows).filter (keep ·.snd))).filter
      (part ·.fst = p)).Perm
        (((e.sort le (rows.filter (part · = p))).zipIdx 1).filter (keep ·.snd)) := by
    rw [← rowNumber_filter, List.filter_comm]
    exact (e.perm le' _).filter _
  have hr : ((e.sort le (rows.filter (part · = p))).zipIdx 1).Pairwise (le' · · = true) :=
    zipIdx_pairwise.imp_of_mem fun {x y} hx hy hlt => by
      rw [h x y ((part_of_mem_zipIdx hx).trans (part_of_mem_zipIdx hy).symm)]
      exact Nat.le_of_lt hlt
  refine hp.eq_of_pairwise (fun x y hx hy hxy hyx => ?_) ((e.sorted _ trans total).filter _)
    (hr.filter _)
  have hx := hm (hp.mem_iff.mp hx)
  have hy := hm hy
  have he := (part_of_mem_zipIdx hx).trans (part_of_mem_zipIdx hy).symm
  exact zipIdx_snd_inj hx hy (Nat.le_antisymm ((h x y he).mp hxy) ((h y x he.symm).mp hyx))

end Engine

end Sql
