import Mathlib.Data.List.Nodup
import Mathlib.Data.List.Induction

namespace Naming

variable {N : Type} [DecidableEq N] {numbered : N → Nat → N} {names : List N} {name y : N} {i k : Nat}

-- The name to use for a thing: its own one, or if that is used already, its own one with a number.
def pick (numbered : N → Nat → N) (used : List N) (name : N) : N :=
  if used.contains name then numbered name used.length else name

-- Adds a name to a set of names.
def addUsed (used : List N) (name : N) : List N :=
  if used.contains name then used else used ++ [name]

-- The names of things that get them one after another.
def pickAll (numbered : N → Nat → N) (used : List N) : List N → List N
  | []            => []
  | name :: names =>
    let picked := pick numbered used name
    picked :: pickAll numbered (addUsed used picked) names

omit [DecidableEq N] in
-- The name of a thing is taken if a thing before it has the same one, or gets the same one with a number.
inductive Taken (numbered : N → Nat → N) (names : List N) : Nat → Prop
  | repeated {i j : Nat} {name : N} :
    j < i → names[j]? = some name → names[i]? = some name → Taken numbered names i
  | numbered {i k : Nat} {name : N} :
    k < i → Taken numbered names k → names[k]? = some name → names[i]? = some (numbered name k) →
      Taken numbered names i

section AddUsed

variable {used l : List N}

-- Different names make a set of as many.
theorem foldl_addUsed_of_nodup (h : (used ++ l).Nodup) : l.foldl addUsed used = used ++ l := by
  induction l generalizing used
  case nil            => simp
  case cons name l hi =>
    have hn : name ∉ used := fun hm => (List.nodup_append.mp h).right.right name hm name (.head _) rfl
    rw [List.append_cons] at h
    rw [List.foldl_cons, addUsed, if_neg (mt List.contains_iff_mem.mp hn), hi h, ← List.append_cons]

theorem pickAll_append :
    pickAll numbered used (names ++ l) = pickAll numbered used names ++
      pickAll numbered ((pickAll numbered used names).foldl addUsed used) l := by
  induction names generalizing used
  case nil             => rfl
  case cons name _ hi => rw [List.cons_append, pickAll, pickAll, hi]; rfl

theorem length_pickAll : (pickAll numbered used names).length = names.length := by
  induction names generalizing used
  case nil             => rfl
  case cons name _ hi => rw [pickAll, List.length_cons, List.length_cons, hi]

end AddUsed

-- The names of a list with one more.
theorem pickAll_concat (h : (pickAll numbered [] names).Nodup) :
    pickAll numbered [] (names ++ [name]) = pickAll numbered [] names ++
      [if name ∈ pickAll numbered [] names then numbered name names.length else name] := by
  have hu : (pickAll numbered [] names).foldl addUsed [] = pickAll numbered [] names := foldl_addUsed_of_nodup h
  rw [pickAll_append, hu, pickAll, pickAll, pick, length_pickAll]
  simp only [List.contains_iff_mem]

omit [DecidableEq N] in
-- What is taken is told by the things up to it.
theorem Taken.congr {names' : List N} (h : Taken numbered names i) (hn : ∀ j ≤ i, names[j]? = names'[j]?) :
    Taken numbered names' i := by
  induction h
  case repeated i j name hj hname hi =>
    exact .repeated hj (hn j (by omega) ▸ hname) (hn i (by omega) ▸ hi)
  case numbered i k name hk _ hname hi ih =>
    exact .numbered hk (ih fun j hj => hn j (by omega)) (hn k (by omega) ▸ hname) (hn i (by omega) ▸ hi)

omit [DecidableEq N] in
theorem taken_append_iff (hi : i < names.length) :
    Taken numbered (names ++ [name]) i ↔ Taken numbered names i := by
  have hn : ∀ j ≤ i, (names ++ [name])[j]? = names[j]? := fun j hj => List.getElem?_append_left (by omega)
  exact ⟨fun h => h.congr hn, fun h => h.congr fun j hj => (hn j hj).symm⟩

omit [DecidableEq N] in
theorem taken_length_iff :
    Taken numbered (names ++ [name]) names.length ↔ name ∈ names ∨
      ∃ k other, Taken numbered names k ∧ names[k]? = some other ∧ name = numbered other k := by
  have hlast : (names ++ [name])[names.length]? = some name := List.getElem?_concat_length
  have hleft {j : Nat} (hj : j < names.length) : (names ++ [name])[j]? = names[j]? :=
    List.getElem?_append_left hj
  constructor
  case mp  =>
    intro h
    cases h
    case repeated j other ho hj hi   =>
      obtain rfl := Option.some.inj (hlast.symm.trans hi)
      exact .inl (List.mem_of_getElem? (hleft hj ▸ ho))
    case numbered k other ht ho hk hi =>
      exact .inr ⟨k, other, (taken_append_iff hk).mp ht, hleft hk ▸ ho, Option.some.inj (hlast.symm.trans hi)⟩
  case mpr =>
    intro h
    cases h
    case inl h =>
      obtain ⟨j, hj, hname⟩ := List.getElem_of_mem h
      exact .repeated hj ((hleft hj).trans (List.getElem?_eq_some_iff.mpr ⟨hj, hname⟩)) hlast
    case inr h =>
      obtain ⟨k, other, ht, ho, rfl⟩ := h
      have hk : k < names.length := (List.getElem?_eq_some_iff.mp ho).fst
      exact .numbered hk ((taken_append_iff hk).mpr ht) ((hleft hk).trans ho) hlast

-- As long as the names are different, they are the own ones and those with numbers.
theorem mem_pickAll_iff (h : (pickAll numbered [] names).Nodup) :
    y ∈ pickAll numbered [] names ↔ y ∈ names ∨
      ∃ k other, Taken numbered names k ∧ names[k]? = some other ∧ y = numbered other k := by
  induction names using List.reverseRecOn generalizing y
  case nil                           => simp [pickAll]
  case append_singleton names name hi =>
    have hn : (pickAll numbered [] names).Nodup := by
      rw [pickAll_append] at h
      exact h.of_append_left
    have hmem {y : N} := hi (y := y) hn
    have htaken : Taken numbered (names ++ [name]) names.length ↔ name ∈ pickAll numbered [] names := by
      rw [taken_length_iff, hmem]
    have hlast : (names ++ [name])[names.length]? = some name := List.getElem?_concat_length
    rw [pickAll_concat hn, List.mem_append, List.mem_singleton, hmem, List.mem_append, List.mem_singleton]
    constructor
    case mp  =>
      intro hy
      rcases hy with (hy | ⟨k, other, ht, ho, hy⟩) | hy
      · exact .inl (.inl hy)
      · have hk : k < names.length := (List.getElem?_eq_some_iff.mp ho).fst
        exact .inr ⟨k, other, (taken_append_iff hk).mpr ht, (List.getElem?_append_left hk).trans ho, hy⟩
      · split at hy
        case isTrue hm => exact .inr ⟨names.length, name, htaken.mpr hm, hlast, hy⟩
        case isFalse   => exact .inl (.inr hy)
    case mpr =>
      intro hy
      rcases hy with (hy | rfl) | ⟨k, other, ht, ho, hy⟩
      · exact .inl (.inl hy)
      · by_cases hm : y ∈ pickAll numbered [] names
        case pos => exact .inl (hmem.mp hm)
        case neg => exact .inr (if_neg hm).symm
      · by_cases hk : k < names.length
        case pos =>
          exact .inl (.inr ⟨k, other, (taken_append_iff hk).mp ht, List.getElem?_append_left hk ▸ ho, hy⟩)
        case neg =>
          have hlen := (List.getElem?_eq_some_iff.mp ho).fst
          obtain rfl : k = names.length := by rw [List.length_append, List.length_singleton] at hlen; omega
          obtain rfl := Option.some.inj (hlast.symm.trans ho)
          exact .inr (hy.trans (if_pos (htaken.mp ht)).symm)

-- No thing has an own name that is reserved. One whose name is taken has no number under which its name is
-- reserved or the own one of a thing before it.
def Free (numbered : N → Nat → N) (reserved names : List N) : Prop :=
  ∀ i name, names[i]? = some name → name ∉ reserved ∧
    (Taken numbered names i → numbered name i ∉ reserved ∧ numbered name i ∉ names.take i)

omit [DecidableEq N] in
theorem free_concat_iff {reserved : List N} :
    Free numbered reserved (names ++ [name]) ↔ Free numbered reserved names ∧ name ∉ reserved ∧
      (Taken numbered (names ++ [name]) names.length →
        numbered name names.length ∉ reserved ∧ numbered name names.length ∉ names) := by
  have hleft {j : Nat} (hj : j < names.length) : (names ++ [name])[j]? = names[j]? :=
    List.getElem?_append_left hj
  have htake {j : Nat} (hj : j < names.length) : (names ++ [name]).take j = names.take j :=
    List.take_append_of_le_length (by omega)
  have hlast : (names ++ [name])[names.length]? = some name := List.getElem?_concat_length
  constructor
  case mp  =>
    intro h
    refine ⟨fun i other ho => ?_, ?_⟩
    · have hi : i < names.length := (List.getElem?_eq_some_iff.mp ho).fst
      have := h i other ((hleft hi).trans ho)
      rwa [taken_append_iff hi, htake hi] at this
    · have := h names.length name hlast
      rwa [List.take_left] at this
  case mpr =>
    intro h i other ho
    by_cases hi : i < names.length
    case pos =>
      rw [taken_append_iff hi, htake hi]
      exact h.left i other (hleft hi ▸ ho)
    case neg =>
      have hlen := (List.getElem?_eq_some_iff.mp ho).fst
      obtain rfl : i = names.length := by rw [List.length_append, List.length_singleton] at hlen; omega
      obtain rfl := Option.some.inj (hlast.symm.trans ho)
      rw [List.take_left]
      exact h.right

-- The names are different from each other and from the reserved ones just when they are free.
theorem pickAll_distinct_iff
    (hinj : ∀ {a b : N} {i j : Nat}, numbered a i = numbered b j → a = b ∧ i = j) {reserved : List N} :
    (pickAll numbered [] names).Nodup ∧ (∀ y ∈ pickAll numbered [] names, y ∉ reserved) ↔
      Free numbered reserved names := by
  induction names using List.reverseRecOn
  case nil                           => simp [pickAll, Free]
  case append_singleton names name hi =>
    rw [free_concat_iff, ← hi]
    by_cases hp : (pickAll numbered [] names).Nodup ∧ ∀ y ∈ pickAll numbered [] names, y ∉ reserved
    case neg =>
      refine iff_of_false (fun h => hp ?_) fun h => hp h.left
      rw [pickAll_append] at h
      exact ⟨h.left.of_append_left, fun y hy => h.right y (List.mem_append_left _ hy)⟩
    case pos =>
      have hmem {y : N} := mem_pickAll_iff (y := y) hp.left
      have htaken : Taken numbered (names ++ [name]) names.length ↔ name ∈ pickAll numbered [] names := by
        rw [taken_length_iff, hmem]
      -- no number but its own leads to the name that the last thing gets
      have hnum : numbered name names.length ∈ pickAll numbered [] names ↔
          numbered name names.length ∈ names := by
        refine hmem.trans (or_iff_left ?_)
        rintro ⟨k, other, _, ho, he⟩
        have hk : k < names.length := (List.getElem?_eq_some_iff.mp ho).fst
        exact absurd (hinj he).right (by omega)
      have hadd {z : N} : (pickAll numbered [] names ++ [z]).Nodup ∧
          (∀ y ∈ pickAll numbered [] names ++ [z], y ∉ reserved) ↔
            z ∉ pickAll numbered [] names ∧ z ∉ reserved := by
        rw [← List.concat_eq_append, List.nodup_concat, List.concat_eq_append, List.forall_mem_append,
          List.forall_mem_singleton]
        exact ⟨fun h => ⟨h.left.left, h.right.right⟩, fun h => ⟨⟨h.left, hp.left⟩, hp.right, h.right⟩⟩
      rw [pickAll_concat hp.left, hadd, htaken, and_iff_right hp]
      by_cases hm : name ∈ pickAll numbered [] names
      case pos =>
        rw [if_pos hm, hnum]
        exact ⟨fun h => ⟨hp.right name hm, fun _ => h.symm⟩, fun h => (h.right hm).symm⟩
      case neg =>
        rw [if_neg hm]
        exact ⟨fun h => ⟨h.right, fun hm' => absurd hm' hm⟩, fun h => ⟨hm, h.left⟩⟩

end Naming
