import Mathlib.Data.List.Nodup
import Mathlib.Data.List.Perm.Basic

-- A dictionary that keeps its keys in an order, the least recently used one first.
structure OrderedDict (K V : Type) where
  items : List (K × V)
  nodup : (items.map Prod.fst).Nodup

namespace OrderedDict

variable {K V : Type}

def empty : OrderedDict K V where
  items := []
  nodup := List.nodup_nil

def length (d : OrderedDict K V) : Nat :=
  d.items.length

def keys (d : OrderedDict K V) : List K :=
  d.items.map Prod.fst

variable [DecidableEq K]

def get? (d : OrderedDict K V) (key : K) : Option V :=
  (d.items.find? (·.fst = key)).map (·.snd)

def others (d : OrderedDict K V) (key : K) : List (K × V) :=
  d.items.filter (·.fst ≠ key)

-- A key that is present keeps its place.
def set (d : OrderedDict K V) (key : K) (value : V) : OrderedDict K V :=
  if h : key ∈ d.keys then {
    items := d.items.map fun item => if item.fst = key then (key, value) else item
    nodup := by
      have hk : (d.items.map fun item => if item.fst = key then (key, value) else item).map Prod.fst =
          d.items.map Prod.fst := by
        rw [List.map_map]
        refine List.map_congr_left fun item _ => ?_
        by_cases h : item.fst = key <;> simp [h]
      exact hk ▸ d.nodup }
  else {
    items := d.items ++ [(key, value)]
    nodup := by
      rw [List.map_append]
      exact List.nodup_append.mpr ⟨d.nodup, List.nodup_singleton _, fun a ha b hb => by
        obtain rfl : b = key := List.mem_singleton.mp hb
        exact fun he => h (he ▸ ha)⟩ }

def moveToEnd (d : OrderedDict K V) (key : K) : OrderedDict K V where
  items := d.others key ++ d.items.filter (·.fst = key)
  nodup := by
    have hp : (d.others key ++ d.items.filter (·.fst = key)).Perm d.items := by
      refine List.perm_append_comm.trans ?_
      simpa [others] using List.filter_append_perm (·.fst = key) d.items
    exact (hp.map Prod.fst).nodup_iff.mpr d.nodup

-- Drops the least recently used key.
def popFirst (d : OrderedDict K V) : OrderedDict K V where
  items := d.items.tail
  nodup := d.nodup.sublist ((List.tail_sublist _).map Prod.fst)

section

variable {d : OrderedDict K V} {key k : K} {value v : V}

theorem get?_eq_some_iff : d.get? key = some value ↔ (key, value) ∈ d.items := by
  rw [get?, Option.map_eq_some_iff]
  constructor
  case mp =>
    rintro ⟨⟨k, v⟩, hf, rfl⟩
    have hk : k = key := by simpa using List.find?_some hf
    exact hk ▸ List.mem_of_find?_eq_some hf
  case mpr =>
    intro hm
    cases hf : d.items.find? (·.fst = key)
    case none =>
      have hn := List.find?_eq_none.mp hf _ hm
      simp at hn
    case some item =>
      have hk : item.fst = key := by simpa using List.find?_some hf
      refine ⟨item, rfl, ?_⟩
      exact congrArg Prod.snd (List.inj_on_of_nodup_map d.nodup (List.mem_of_find?_eq_some hf) hm hk)

theorem get?_eq_none_iff : d.get? key = none ↔ key ∉ d.keys := by
  rw [Option.eq_none_iff_forall_ne_some]
  simp only [ne_eq, get?_eq_some_iff, keys, List.mem_map, not_exists, not_and]
  constructor
  case mp  => rintro h ⟨k, v⟩ hm rfl; exact h v hm
  case mpr => exact fun h v hm => h (key, v) hm rfl

@[simp]
theorem get?_empty : (empty : OrderedDict K V).get? key = none :=
  rfl

theorem get?_set : (d.set key value).get? k = if k = key then some value else d.get? k := by
  apply Option.ext
  intro v
  rw [get?_eq_some_iff, set]
  split
  case isTrue h =>
    have ⟨⟨j, w⟩, hm, hj⟩ := List.mem_map.mp h
    obtain rfl : j = key := hj
    by_cases hk : k = j
    · subst hk
      simp only [List.mem_map, if_true, Option.some.injEq]
      constructor
      case mp =>
        rintro ⟨⟨i, u⟩, _, he⟩
        by_cases hi : i = k
        · rw [if_pos hi] at he; exact congrArg Prod.snd he
        · rw [if_neg hi] at he; exact absurd (congrArg Prod.fst he) hi
      case mpr =>
        rintro rfl
        exact ⟨(k, w), hm, if_pos rfl⟩
    · simp only [List.mem_map, if_neg hk, get?_eq_some_iff]
      constructor
      case mp =>
        rintro ⟨⟨i, u⟩, hm, he⟩
        by_cases hi : i = j
        · rw [if_pos hi] at he; exact absurd (congrArg Prod.fst he).symm hk
        · rw [if_neg hi] at he; exact he ▸ hm
      case mpr => exact fun hm => ⟨(k, v), hm, if_neg hk⟩
  case isFalse h =>
    by_cases hk : k = key
    · subst hk
      have hn : (k, v) ∉ d.items := fun hm => h (List.mem_map.mpr ⟨_, hm, rfl⟩)
      simp [hn, eq_comm]
    · simp [hk, get?_eq_some_iff]

@[simp]
theorem get?_set_self : (d.set key value).get? key = some value := by
  rw [get?_set, if_pos rfl]

theorem length_set_of_isSome (h : (d.get? key).isSome) : (d.set key value).length = d.length := by
  have hk : key ∈ d.keys := by
    by_contra hk
    rw [get?_eq_none_iff.mpr hk] at h
    cases h
  rw [set, dif_pos hk]
  exact List.length_map _

@[simp]
theorem get?_moveToEnd : (d.moveToEnd key).get? k = d.get? k := by
  apply Option.ext
  intro v
  rw [get?_eq_some_iff, get?_eq_some_iff]
  by_cases hk : k = key <;> simp [moveToEnd, others, hk]

theorem get?_of_popFirst (h : d.popFirst.get? key = some value) : d.get? key = some value :=
  get?_eq_some_iff.mpr (List.mem_of_mem_tail (get?_eq_some_iff.mp h))

omit [DecidableEq K] in
@[simp]
theorem length_popFirst : d.popFirst.length = d.length - 1 :=
  List.length_tail

@[simp]
theorem length_moveToEnd : (d.moveToEnd key).length = d.length := by
  have hp := List.filter_append_perm (fun item : K × V => decide (item.fst = key)) d.items
  have hl := hp.length_eq
  simp only [List.length_append] at hl
  simp only [length, moveToEnd, others, List.length_append, ne_eq, decide_not]
  omega

end

end OrderedDict
