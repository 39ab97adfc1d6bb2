import Mathlib.Data.List.Nodup

namespace Batch

universe u

variable {α β γ : Type u}

theorem mapM_cons {f : α → Option β} {a : α} {l : List α} :
    (a :: l).mapM f = (f a).bind fun b => (l.mapM f).map (b :: ·) := by
  rw [List.mapM_cons]
  cases f a <;> cases l.mapM f <;> rfl

theorem mapM_some (f : α → β) (l : List α) : l.mapM (fun a => some (f a)) = some (l.map f) := by
  induction l
  case nil          => rfl
  case cons a l hi => simp [List.mapM_cons, hi]

theorem mapM_congr {f g : α → Option β} {l : List α} (h : ∀ a ∈ l, f a = g a) :
    l.mapM f = l.mapM g := by
  induction l
  case nil          => rfl
  case cons a l hi =>
    rw [List.mapM_cons, List.mapM_cons, h a (.head _), hi fun a ha => h a (.tail _ ha)]

theorem mapM_eq_none_iff {f : α → Option β} {l : List α} :
    l.mapM f = none ↔ ∃ v ∈ l, f v = none := by
  induction l
  case nil => simp
  case cons v l hi =>
    have hn : (v :: l).mapM f = none ↔ f v = none ∨ l.mapM f = none := by
      rw [List.mapM_cons]
      cases f v <;> cases l.mapM f <;> simp
    rw [hn, hi, List.exists_mem_cons_iff]

-- Two partial maps that fail on the same entries agree on a list if they fail somewhere in it, or if
-- they agree on each of its entries.
theorem mapM_eq_mapM_iff {f g : α → Option β} {l : List α}
    (h : ∀ v, f v = none ↔ g v = none) :
    l.mapM f = l.mapM g ↔ (∃ v ∈ l, f v = none) ∨ ∀ v ∈ l, f v = g v := by
  induction l
  case nil => simp
  case cons v l hi =>
    have hn : l.mapM f = none ↔ l.mapM g = none := by simp only [mapM_eq_none_iff, h]
    have hv := h v
    rw [List.exists_mem_cons_iff, List.forall_mem_cons, List.mapM_cons, List.mapM_cons]
    rw [← mapM_eq_none_iff] at hi ⊢
    cases hf : f v <;> cases hg : g v <;> cases hl : l.mapM f <;> cases hl' : l.mapM g <;> simp_all

theorem mapM_length {f : α → Option β} {l : List α} {bs : List β} (h : l.mapM f = some bs) :
    bs.length = l.length := by
  induction l generalizing bs
  case nil         => exact Option.some.inj h ▸ rfl
  case cons a l hi =>
    simp only [List.mapM_cons, Option.bind_eq_bind, Option.bind_eq_some_iff] at h
    obtain ⟨b, _, bs', hbs, h⟩ := h
    rw [← Option.some.inj h, List.length_cons, List.length_cons, hi hbs]

theorem mapM_eq_some_map_iff {f : α → Option β} {g : α → β} {l : List α} :
    l.mapM f = some (l.map g) ↔ ∀ a ∈ l, f a = some (g a) := by
  induction l
  case nil         => simp
  case cons a l hi =>
    rw [List.forall_mem_cons, ← hi, List.mapM_cons, List.map_cons]
    cases f a <;> cases l.mapM f <;> simp

theorem mapM_eq_some_iff {f : α → Option β} {P : α → Prop} {g : α → β} {l : List α}
    (h : ∀ a ∈ l, ∀ b, f a = some b ↔ P a ∧ g a = b) {b : List β} :
    l.mapM f = some b ↔ (∀ a ∈ l, P a) ∧ l.map g = b := by
  induction l generalizing b
  case nil         => simp
  case cons a l hi =>
    have hi {b} := hi (fun a ha => h a (.tail _ ha)) (b := b)
    simp only [List.mapM_cons, Option.bind_eq_bind, Option.bind_eq_some_iff, hi, h a (.head _),
      List.forall_mem_cons, List.map_cons]
    constructor
    case mp =>
      intro ⟨b, ⟨hp, hb⟩, bs', ⟨hl, hbs⟩, he⟩
      exact ⟨⟨hp, hl⟩, hb ▸ hbs ▸ Option.some.inj he⟩
    case mpr =>
      intro ⟨⟨hp, hl⟩, he⟩
      exact ⟨_, ⟨hp, rfl⟩, _, ⟨hl, rfl⟩, congrArg some he⟩

-- Two passes over a list fail if and only if one pass does.
theorem mapM_bind {f : α → Option β} {g : α → β → Option γ} {l : List α} :
    l.mapM (fun a => (f a).bind (g a)) =
      (l.mapM f).bind fun bs => (l.zip bs).mapM fun x => g x.fst x.snd := by
  induction l
  case nil         => rfl
  case cons a l hi =>
    simp only [List.mapM_cons, Option.bind_eq_bind, hi]
    cases f a
    case none   => rfl
    case some b =>
      cases l.mapM f
      case none    => simp
      case some bs => simp [List.mapM_cons]

theorem mapM_map {f : α → Option β} {g : α → β → γ} {l : List α} :
    l.mapM (fun a => (f a).map (g a)) = (l.mapM f).map fun bs => List.zipWith g l bs := by
  induction l
  case nil         => rfl
  case cons a l hi =>
    rw [mapM_cons, mapM_cons, hi]
    cases f a <;> cases l.mapM f <;> simp

theorem mapM_map_const {f : α → Option β} {g : β → γ} {l : List α} :
    l.mapM (fun a => (f a).map g) = (l.mapM f).map (List.map g) := by
  induction l
  case nil         => rfl
  case cons a l hi =>
    rw [mapM_cons, mapM_cons, hi]
    cases f a <;> cases l.mapM f <;> simp

theorem mapM_map_fst {f : α → Option β} {l : List α} {bs : List β} (h : l.mapM f = some bs) :
    ∀ x ∈ l.zip bs, f x.fst = some x.snd := by
  induction l generalizing bs
  case nil         => simp
  case cons a l hi =>
    simp only [List.mapM_cons, Option.bind_eq_bind, Option.bind_eq_some_iff] at h
    obtain ⟨b, hb, bs', hbs, h⟩ := h
    obtain rfl := Option.some.inj h
    rw [List.zip_cons_cons, List.forall_mem_cons]
    exact ⟨hb, hi hbs⟩

theorem mapM_append {f : α → Option β} {l m : List α} :
    (l ++ m).mapM f = l.mapM f >>= fun bs => (m.mapM f).map (bs ++ ·) := by
  induction l
  case nil         => simp
  case cons a l hi =>
    simp only [List.cons_append, List.mapM_cons, hi, Option.bind_eq_bind]
    cases f a <;> cases l.mapM f <;> cases m.mapM f <;> simp

-- A pass over concatenated lists passes over each of the lists.
theorem mapM_flatMap {f : β → Option γ} {g : α → List β} {l : List α} :
    (l.flatMap g).mapM f = (l.mapM fun a => (g a).mapM f).map List.flatten := by
  induction l
  case nil         => rfl
  case cons a l hi =>
    rw [List.flatMap_cons, mapM_append, hi, List.mapM_cons]
    cases (g a).mapM f <;> cases l.mapM (fun a => (g a).mapM f) <;> simp

theorem mapM_ite {c : α → Bool} {g : α → β} {l : List α} :
    l.mapM (fun a => if c a then some (g a) else none) =
      if l.all c then some (l.map g) else none := by
  induction l
  case nil         => rfl
  case cons a l hi =>
    rw [mapM_cons, hi]
    cases h : c a <;> cases h' : l.all c <;> simp [h, h']

theorem map_of_mapM {f : α → Option β} {l : List α} {bs : List β} (h : l.mapM f = some bs) :
    l.map f = bs.map some := by
  induction l generalizing bs
  case nil         => exact Option.some.inj h ▸ rfl
  case cons a l hi =>
    rw [mapM_cons] at h
    obtain ⟨b, hb, h⟩ := Option.bind_eq_some_iff.mp h
    obtain ⟨bs, hbs, rfl⟩ := Option.map_eq_some_iff.mp h
    rw [List.map_cons, List.map_cons, hb, hi hbs]

theorem mapM_forall₂ {f : α → Option β} {l : List α} {bs : List β} (h : l.mapM f = some bs) :
    List.Forall₂ (fun a b => f a = some b) l bs := by
  induction l generalizing bs
  case nil         => exact Option.some.inj h ▸ .nil
  case cons a l hi =>
    simp only [List.mapM_cons, Option.bind_eq_bind, Option.bind_eq_some_iff] at h
    obtain ⟨b, hb, bs', hbs, h⟩ := h
    exact Option.some.inj h ▸ .cons hb (hi hbs)

theorem mapM_getElem? {f : α → Option β} {l : List α} {bs : List β} (h : l.mapM f = some bs)
    {i : Nat} {a : α} (ha : l[i]? = some a) : ∃ b, bs[i]? = some b ∧ f a = some b := by
  induction l generalizing i bs
  case nil         => simp at ha
  case cons c l hi =>
    simp only [List.mapM_cons, Option.bind_eq_bind, Option.bind_eq_some_iff] at h
    obtain ⟨b, hb, bs', hbs, h⟩ := h
    obtain rfl := Option.some.inj h
    cases i
    case zero   => exact ⟨b, rfl, Option.some.inj ha ▸ hb⟩
    case succ i => exact hi hbs (by simpa using ha)

theorem mapM_range' {b l : List α} :
    (List.range' b.length l.length).mapM ((b ++ l)[·]?) = some l := by
  induction l generalizing b
  case nil         => rfl
  case cons a l hi =>
    have hi := hi (b := b ++ [a])
    rw [List.length_append, List.length_singleton, List.append_assoc, List.singleton_append] at hi
    rw [List.length_cons, List.range'_succ, List.mapM_cons, hi]
    simp

theorem mapM_range {l : List α} : (List.range l.length).mapM (l[·]?) = some l := by
  rw [List.range_eq_range']
  exact mapM_range' (b := [])

theorem nodup_eraseDups [BEq α] [LawfulBEq α] (l : List α) : l.eraseDups.Nodup := by
  generalize hn : l.length = n
  induction n using Nat.strongRecOn generalizing l with
  | ind n ih =>
    cases l with
    | nil       => simp
    | cons a as =>
      rw [List.eraseDups_cons, List.nodup_cons]
      constructor
      · rw [List.mem_eraseDups, List.mem_filter]
        simp
      · apply ih _ _ _ rfl
        rw [← hn, List.length_cons]
        exact Nat.lt_succ_of_le (List.length_filter_le _ _)

end Batch
