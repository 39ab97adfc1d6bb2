import Mathlib.Order.Lattice
import Mathlib.Order.Basic
import Mathlib.Tactic.ByContra

namespace Sql

inductive Nulls
  | first
  | last
  deriving DecidableEq

def Nulls.flip : Nulls → Nulls
  | first => last
  | last  => first

-- One element of an ORDER BY clause.
structure SortKey (C : Type) where
  column     : C
  descending : Bool
  nulls      : Option Nulls
  deriving DecidableEq

variable {C V : Type}

namespace SortKey

-- Without a placement, NULL counts as the largest value.
def placement (k : SortKey C) : Nulls :=
  k.nulls.getD (if k.descending then .first else .last)

def flip (k : SortKey C) : SortKey C where
  column     := k.column
  descending := !k.descending
  nulls      := some k.placement.flip

variable [LinearOrder V]

def precedes (k : SortKey C) : Option V → Option V → Bool
  | none, none     => false
  | none, some _   => k.placement = .first
  | some _, none   => k.placement = .last
  | some a, some b => if k.descending then b < a else a < b

variable {k : SortKey C} {a b c : Option V}

@[simp]
theorem placement_flip : k.flip.placement = k.placement.flip :=
  rfl

@[simp]
theorem descending_flip : k.flip.descending = !k.descending :=
  rfl

@[simp]
theorem column_flip : k.flip.column = k.column :=
  rfl

theorem precedes_flip : k.flip.precedes a b = k.precedes b a := by
  cases a <;> cases b <;> cases hp : k.placement <;> cases hd : k.descending <;>
    simp [precedes, hp, hd, Nulls.flip]

theorem precedes_irrefl : k.precedes a a = false := by
  cases a <;> simp [precedes]

theorem precedes_total (h : a ≠ b) : k.precedes a b = true ∨ k.precedes b a = true := by
  cases hp : k.placement <;> cases a <;> cases b <;> grind [precedes]

-- Of two values with another between them, the first comes before that one or that one before the second.
theorem precedes_split (h : k.precedes a c = true) : k.precedes a b = true ∨ k.precedes b c = true := by
  cases hp : k.placement <;> cases a <;> cases b <;> cases c <;> grind [precedes]

theorem precedes_asymm (h : k.precedes a b = true) : k.precedes b a = false := by
  cases hp : k.placement <;> cases a <;> cases b <;> grind [precedes]

end SortKey

variable [LinearOrder V]

-- Whether a row comes before another under an ORDER BY clause.
def before : List (SortKey C) → (C → Option V) → (C → Option V) → Bool
  | [], _, _      => false
  | k :: ks, r, s => k.precedes (r k.column) (s k.column) ||
      (r k.column = s k.column && before ks r s)

-- Whether a row may stand before another under an ORDER BY clause.
def ordered (keys : List (SortKey C)) (r s : C → Option V) : Bool :=
  !before keys s r

variable {keys : List (SortKey C)} {r s t : C → Option V}

theorem before_cons {k : SortKey C} : before (k :: keys) r s = true ↔
    k.precedes (r k.column) (s k.column) = true ∨
      r k.column = s k.column ∧ before keys r s = true := by
  simp [before]

theorem before_irrefl : before keys r r = false := by
  induction keys
  case nil          => rfl
  case cons k ks hi => simp [before, SortKey.precedes_irrefl, hi]

theorem before_asymm (h : before keys r s = true) : before keys s r = false := by
  induction keys
  case nil          => rfl
  case cons k ks hi =>
    rw [Bool.eq_false_iff, ne_eq, before_cons]
    obtain h | ⟨he, h⟩ := before_cons.mp h
    · have hn : r k.column ≠ s k.column := fun he => by simp [he, SortKey.precedes_irrefl] at h
      simp [SortKey.precedes_asymm h, hn.symm]
    · simp [he, SortKey.precedes_irrefl, hi h]

theorem before_split (h : before keys r t = true) :
    before keys r s = true ∨ before keys s t = true := by
  induction keys
  case nil          => simp [before] at h
  case cons k ks hi =>
    simp only [before_cons] at h ⊢
    obtain h | ⟨he, h⟩ := h
    · obtain h | h := SortKey.precedes_split (b := s k.column) h
      · exact .inl (.inl h)
      · exact .inr (.inl h)
    · by_cases hs : r k.column = s k.column
      case pos =>
        obtain h | h := hi h
        · exact .inl (.inr ⟨hs, h⟩)
        · exact .inr (.inr ⟨hs ▸ he, h⟩)
      case neg =>
        obtain h | h := SortKey.precedes_total (k := k) hs
        · exact .inl (.inl h)
        · exact .inr (.inl (he ▸ h))

theorem before_trans (hr : before keys r s = true) (hs : before keys s t = true) :
    before keys r t = true := by
  obtain h | h := before_split (s := t) hr
  · exact h
  · exact absurd h (by simp [before_asymm hs])

-- Rows neither of which comes before the other agree on all columns of the clause.
theorem before_total (h : ∃ k ∈ keys, r k.column ≠ s k.column) :
    before keys r s = true ∨ before keys s r = true := by
  induction keys
  case nil          => simp at h
  case cons k ks hi =>
    simp only [before_cons]
    by_cases he : r k.column = s k.column
    case pos =>
      have h : ∃ k ∈ ks, r k.column ≠ s k.column := by simpa [he] using h
      obtain h | h := hi h
      · exact .inl (.inr ⟨he, h⟩)
      · exact .inr (.inr ⟨he.symm, h⟩)
    case neg =>
      obtain h | h := SortKey.precedes_total (k := k) he
      · exact .inl (.inl h)
      · exact .inr (.inl h)

theorem before_flip : before (keys.map .flip) r s = before keys s r := by
  induction keys
  case nil          => rfl
  case cons k ks hi =>
    rw [Bool.eq_iff_iff, List.map_cons, before_cons, before_cons, SortKey.precedes_flip, hi]
    rw [SortKey.column_flip, eq_comm (a := r k.column)]

theorem before_congr {r' s' : C → Option V} (hr : ∀ k ∈ keys, r k.column = r' k.column)
    (hs : ∀ k ∈ keys, s k.column = s' k.column) : before keys r s = before keys r' s' := by
  induction keys
  case nil          => rfl
  case cons k ks hi =>
    rw [List.forall_mem_cons] at hr hs
    simp only [before, hr.left, hs.left, hi hr.right hs.right]

-- Further keys decide between the rows that agree on all columns of the first ones.
theorem before_append {keys' : List (SortKey C)} : before (keys ++ keys') r s = true ↔
    before keys r s = true ∨
      (∀ k ∈ keys, r k.column = s k.column) ∧ before keys' r s = true := by
  induction keys
  case nil          => simp [before]
  case cons k ks hi =>
    rw [List.cons_append, before_cons, before_cons, hi, List.forall_mem_cons]
    grind

theorem before_append_of_eq {keys' : List (SortKey C)} (h : ∀ k ∈ keys, r k.column = s k.column) :
    before (keys ++ keys') r s = before keys' r s := by
  have hb : before keys r s = false := (before_congr h fun _ _ => rfl).trans before_irrefl
  rw [Bool.eq_iff_iff, before_append, hb, and_iff_right h]
  exact or_iff_right Bool.false_ne_true

-- Keys that come after a column that sets two rows apart do not matter to them.
theorem before_append_of_ne {keys' : List (SortKey C)} (h : ∃ k ∈ keys, r k.column ≠ s k.column) :
    before (keys ++ keys') r s = before keys r s := by
  rw [Bool.eq_iff_iff, before_append]
  obtain ⟨k, hk, hn⟩ := h
  exact or_iff_left fun ⟨he, _⟩ => hn (he k hk)

-- Whether a tuple of values comes before another one, where each position has its key.
def beforeValues : List (SortKey C) → List (Option V) → List (Option V) → Bool
  | k :: ks, a :: as, b :: bs => k.precedes a b || (a = b && beforeValues ks as bs)
  | _, _, _                   => false

section Values

variable {as bs : List (Option V)}

theorem beforeValues_cons {k : SortKey C} {a b : Option V} :
    beforeValues (k :: keys) (a :: as) (b :: bs) = true ↔
      k.precedes a b = true ∨ a = b ∧ beforeValues keys as bs = true := by
  simp [beforeValues]

theorem beforeValues_flip : beforeValues (keys.map .flip) as bs = beforeValues keys bs as := by
  induction keys generalizing as bs
  case nil          => simp [beforeValues]
  case cons k ks hi =>
    cases as <;> cases bs <;> simp [beforeValues, SortKey.precedes_flip, hi, eq_comm]

theorem beforeValues_irrefl : beforeValues keys as as = false := by
  induction keys generalizing as
  case nil          => simp [beforeValues]
  case cons k ks hi => cases as <;> simp [beforeValues, SortKey.precedes_irrefl, hi]

theorem beforeValues_asymm (h : beforeValues keys as bs = true) : beforeValues keys bs as = false := by
  induction keys generalizing as bs
  case nil          => simp [beforeValues]
  case cons k ks hi =>
    cases as
    case nil       => simp [beforeValues] at h
    case cons a as =>
      cases bs
      case nil       => simp [beforeValues] at h
      case cons b bs =>
        rw [Bool.eq_false_iff, ne_eq, beforeValues_cons]
        obtain h | ⟨rfl, hs⟩ := beforeValues_cons.mp h
        · have hn : b ≠ a := fun he => by simp [he, SortKey.precedes_irrefl] at h
          simp [SortKey.precedes_asymm h, hn]
        · simp [SortKey.precedes_irrefl, hi hs]

-- Different tuples of values have one order.
theorem beforeValues_total (ha : as.length = keys.length) (hb : bs.length = keys.length) (h : as ≠ bs) :
    beforeValues keys as bs = true ∨ beforeValues keys bs as = true := by
  induction keys generalizing as bs
  case nil          => simp_all
  case cons k ks hi =>
    obtain ⟨a, as, rfl⟩ := List.exists_cons_of_length_eq_add_one ha
    obtain ⟨b, bs, rfl⟩ := List.exists_cons_of_length_eq_add_one hb
    simp only [beforeValues_cons]
    by_cases he : a = b
    case pos =>
      have ha : as.length = ks.length := by simpa using ha
      have hb : bs.length = ks.length := by simpa using hb
      obtain h | h := hi ha hb (by simpa [he] using h)
      · exact .inl (.inr ⟨he, h⟩)
      · exact .inr (.inr ⟨he.symm, h⟩)
    case neg =>
      obtain h | h := SortKey.precedes_total (k := k) he
      · exact .inl (.inl h)
      · exact .inr (.inl h)

end Values

theorem ordered_trans (hr : ordered keys r s = true) (hs : ordered keys s t = true) :
    ordered keys r t = true := by
  simp only [ordered, Bool.not_eq_true'] at hr hs ⊢
  rw [Bool.eq_false_iff]
  intro h
  obtain h | h := before_split (s := s) h
  · exact absurd h (by simp [hs])
  · exact absurd h (by simp [hr])

theorem ordered_total : (ordered keys r s || ordered keys s r) = true := by
  simp only [ordered, ← Bool.not_and, Bool.not_eq_true', Bool.and_eq_false_iff]
  by_cases h : before keys s r = true
  case pos => exact .inr (before_asymm h)
  case neg => exact .inl (by simpa using h)

-- Rows either of which may stand before the other agree on all columns of the clause.
theorem ordered_antisymm (hr : ordered keys r s = true) (hs : ordered keys s r = true) :
    ∀ k ∈ keys, r k.column = s k.column := by
  simp only [ordered, Bool.not_eq_true'] at hr hs
  by_contra h
  obtain h | h := before_total (by simpa using h)
  · exact absurd h (by simp [hs])
  · exact absurd h (by simp [hr])

-- Rows that agree on all columns of the clause may stand either way.
theorem ordered_of_eq (h : ∀ k ∈ keys, r k.column = s k.column) :
    ordered keys r s = true ∧ ordered keys s r = true := by
  have hb : before keys r s = false := (before_congr h fun _ _ => rfl).trans before_irrefl
  have hb' : before keys s r = false := (before_congr (fun _ _ => rfl) h).trans before_irrefl
  simp [ordered, hb, hb']

theorem ordered_flip : ordered (keys.map .flip) r s = ordered keys s r := by
  rw [ordered, ordered, before_flip]

-- ORDER BY some columns and then a number.
def orderedThen (keys : List (SortKey C)) (x y : (C → Option V) × Nat) : Bool :=
  before keys x.fst y.fst || (ordered keys x.fst y.fst && x.snd ≤ y.snd)

theorem orderedThen_iff {x y : (C → Option V) × Nat} : orderedThen keys x y = true ↔
    before keys x.fst y.fst = true ∨ ordered keys x.fst y.fst = true ∧ x.snd ≤ y.snd := by
  simp [orderedThen]

theorem orderedThen_trans {x y z : (C → Option V) × Nat} (hx : orderedThen keys x y = true)
    (hy : orderedThen keys y z = true) : orderedThen keys x z = true := by
  rw [orderedThen_iff] at hx hy ⊢
  obtain hx | ⟨hx, hn⟩ := hx
  · obtain hb | hb := before_split (s := z.fst) hx
    · exact .inl hb
    · obtain hy | ⟨hy, _⟩ := hy
      · exact .inl (before_trans hx hy)
      · exact absurd hb (by simpa [ordered] using hy)
  · obtain hy | ⟨hy, hm⟩ := hy
    · obtain hb | hb := before_split (s := x.fst) hy
      · exact absurd hb (by simpa [ordered] using hx)
      · exact .inl hb
    · exact .inr ⟨ordered_trans hx hy, Nat.le_trans hn hm⟩

theorem orderedThen_total {x y : (C → Option V) × Nat} :
    (orderedThen keys x y || orderedThen keys y x) = true := by
  rw [Bool.or_eq_true, orderedThen_iff, orderedThen_iff]
  simp only [ordered, Bool.not_eq_true']
  cases hx : before keys x.fst y.fst
  case true  => simp
  case false =>
    cases hy : before keys y.fst x.fst
    case true  => simp
    case false => simpa using Nat.le_total x.snd y.snd

-- Rows that agree on the columns are ordered by their numbers.
theorem orderedThen_of_eq {x y : (C → Option V) × Nat}
    (h : ∀ k ∈ keys, x.fst k.column = y.fst k.column) :
    orderedThen keys x y = true ↔ x.snd ≤ y.snd := by
  have hb : before keys x.fst y.fst = false :=
    (before_congr h fun _ _ => rfl).trans before_irrefl
  have hb' : before keys y.fst x.fst = false :=
    (before_congr (fun _ _ => rfl) h).trans before_irrefl
  simp [orderedThen, ordered, hb, hb']

end Sql
