import Mathlib.Data.List.Perm.Basic
import Mathlib.Data.List.Pairwise

namespace Batch

variable {α β γ : Type}

-- Two lists of events that hold the same, where each observer sees what it can see in the same order.
structure SameTrace (sees : β → α → Bool) (l₁ l₂ : List α) : Prop where
  perm : l₁.Perm l₂
  seen : ∀ b, l₁.filter (sees b) = l₂.filter (sees b)

-- No observer sees events of both lists.
def Independent (sees : β → α → Bool) (l₁ l₂ : List α) : Prop :=
  ∀ x ∈ l₁, ∀ y ∈ l₂, ∀ b, sees b x = true → sees b y = false

variable {sees : β → α → Bool} {l₁ l₂ l₃ l₄ : List α}

theorem Independent.symm (h : Independent sees l₁ l₂) : Independent sees l₂ l₁ := by
  intro y hy x hx b hs
  rw [← Bool.not_eq_true]
  intro hx'
  rw [h x hx y hy b hx'] at hs
  cases hs

theorem Independent.flatMap_right {f : γ → List α} {cs : List γ} (h : ∀ c ∈ cs, Independent sees l₁ (f c)) :
    Independent sees l₁ (cs.flatMap f) := by
  intro x hx y hy
  obtain ⟨c, hc, hy⟩ := List.mem_flatMap.mp hy
  exact h c hc x hx y hy

namespace SameTrace

theorem refl (l : List α) : SameTrace sees l l :=
  ⟨.refl _, fun _ => rfl⟩

theorem symm (h : SameTrace sees l₁ l₂) : SameTrace sees l₂ l₁ :=
  ⟨h.perm.symm, fun b => (h.seen b).symm⟩

theorem trans (h : SameTrace sees l₁ l₂) (h' : SameTrace sees l₂ l₃) : SameTrace sees l₁ l₃ :=
  ⟨h.perm.trans h'.perm, fun b => (h.seen b).trans (h'.seen b)⟩

theorem append (h : SameTrace sees l₁ l₂) (h' : SameTrace sees l₃ l₄) :
    SameTrace sees (l₁ ++ l₃) (l₂ ++ l₄) where
  perm   := h.perm.append h'.perm
  seen b := by rw [List.filter_append, List.filter_append, h.seen, h'.seen]

theorem comm (h : Independent sees l₁ l₂) : SameTrace sees (l₁ ++ l₂) (l₂ ++ l₁) where
  perm   := List.perm_append_comm
  seen b := by
    rw [List.filter_append, List.filter_append]
    by_cases hx : ∃ x ∈ l₁, sees b x = true
    · obtain ⟨x, hx, hs⟩ := hx
      have hl : l₂.filter (sees b) = [] :=
        List.filter_eq_nil_iff.mpr fun y hy => by simp [h x hx y hy b hs]
      rw [hl, List.append_nil, List.nil_append]
    · have hl : l₁.filter (sees b) = [] :=
        List.filter_eq_nil_iff.mpr fun x hx' hs => hx ⟨x, hx', hs⟩
      rw [hl, List.append_nil, List.nil_append]

theorem flatMap {f g : γ → List α} {cs : List γ} (h : ∀ c ∈ cs, SameTrace sees (f c) (g c)) :
    SameTrace sees (cs.flatMap f) (cs.flatMap g) := by
  induction cs with
  | nil          => exact refl _
  | cons c cs ih =>
    rw [List.flatMap_cons, List.flatMap_cons]
    exact (h c (.head _)).append (ih fun c hc => h c (.tail _ hc))

-- Two rounds over the same members are one round, if a member's second round is independent of the first
-- rounds that come after it.
theorem flatMap_append {f g : γ → List α} {cs : List γ}
    (h : cs.Pairwise fun c d => Independent sees (g c) (f d)) :
    SameTrace sees (cs.flatMap f ++ cs.flatMap g) (cs.flatMap fun c => f c ++ g c) := by
  induction cs with
  | nil          => exact refl _
  | cons c cs ih =>
    obtain ⟨hc, hcs⟩ := List.pairwise_cons.mp h
    have hswap := comm (Independent.flatMap_right hc).symm
    have hfirst : SameTrace sees (f c) (f c) := refl _
    have hboth : SameTrace sees (f c ++ g c) (f c ++ g c) := refl _
    have hmid := hfirst.append (hswap.append (refl (cs.flatMap g)))
    have hih := hboth.append (ih hcs)
    simp only [List.flatMap_cons, List.append_assoc] at hmid hih ⊢
    exact hmid.trans hih

end SameTrace

theorem flatMap_filter {p : α → Bool} {g : α → List β} {l : List α} :
    (l.filter p).flatMap g = l.flatMap fun a => if p a then g a else [] := by
  induction l with
  | nil         => rfl
  | cons a l ih => cases hp : p a <;> simp [hp, ih]

section Route

variable {is : List γ} {f : γ → List α}

theorem flatMap_eq_of_routed {g : γ → List β} (hn : is.Nodup) {m : γ} (hm : m ∈ is)
    (h : ∀ i ∈ is, i ≠ m → g i = []) : is.flatMap g = g m := by
  obtain ⟨before, after, rfl⟩ := List.append_of_mem hm
  obtain ⟨hb, ha⟩ : m ∉ before ∧ m ∉ after := by
    rw [List.nodup_append] at hn
    exact ⟨fun hb => hn.2.2 m hb m (.head _) rfl, (List.nodup_cons.mp hn.2.1).1⟩
  have hbefore : before.flatMap g = [] :=
    List.flatMap_eq_nil_iff.mpr fun i hi => h i (by simp [hi]) (fun he => hb (he ▸ hi))
  have hafter : after.flatMap g = [] :=
    List.flatMap_eq_nil_iff.mpr fun i hi => h i (by simp [hi]) (fun he => ha (he ▸ hi))
  rw [List.flatMap_append, List.flatMap_cons, hbefore, hafter, List.append_nil, List.nil_append]

theorem flatMap_perm_cons {g : γ → List β} {m : γ} (hm : m ∈ is) :
    ∃ rest : List γ, (is.flatMap g).Perm (g m ++ rest.flatMap g) ∧ ∀ i ∈ is, i ≠ m → i ∈ rest := by
  obtain ⟨before, after, rfl⟩ := List.append_of_mem hm
  refine ⟨before ++ after, ?_, fun i hi hne => by simpa [hne] using hi⟩
  rw [List.flatMap_append, List.flatMap_cons, List.flatMap_append, ← List.append_assoc, ← List.append_assoc]
  exact List.perm_append_comm.append_right _

-- A member gets what is its own, picked out of what there is of all of them, just when the picking is right for each
-- of the members.
theorem filter_perm_iff (hn : is.Nodup) {m : γ} (hm : m ∈ is) (p : α → Bool) :
    (is.flatMap fun i => (f i).filter p).Perm (f m) ↔ ∀ i ∈ is, ∀ x ∈ f i, (p x = true ↔ i = m) := by
  constructor
  · intro h
    have hown : (f m).filter p = f m := by
      refine List.filter_eq_self.mpr fun x hx => ?_
      obtain ⟨i, -, hx⟩ := List.mem_flatMap.mp (h.symm.subset hx)
      exact (List.mem_filter.mp hx).2
    obtain ⟨rest, hrest, hothers⟩ := flatMap_perm_cons (g := fun i => (f i).filter p) hm
    have hlen := (hrest.symm.trans h).length_eq
    rw [hown, List.length_append] at hlen
    have hnil : rest.flatMap (fun i => (f i).filter p) = [] := List.eq_nil_of_length_eq_zero (by omega)
    intro i hi x hx
    constructor
    · intro hp
      by_contra hne
      have := List.flatMap_eq_nil_iff.mp hnil i (hothers i hi hne)
      exact List.filter_eq_nil_iff.mp this x hx hp
    · rintro rfl
      exact List.filter_eq_self.mp hown x hx
  · intro h
    have hown : (f m).filter p = f m := List.filter_eq_self.mpr fun x hx => (h m hm x hx).mpr rfl
    have hall : is.flatMap (fun i => (f i).filter p) = (f m).filter p := flatMap_eq_of_routed hn hm fun i hi hne =>
      List.filter_eq_nil_iff.mpr fun x hx hp => hne ((h i hi x hx).mp hp)
    rw [hall, hown]

theorem length_flatMap_filter_le (p : α → Bool) (g : α → List β) (l : List α) :
    ((l.filter p).flatMap g).length ≤ (l.flatMap g).length := by
  induction l with
  | nil         => exact Nat.le_refl _
  | cons a l ih =>
    cases hp : p a <;> simp [hp] <;> simp only [List.length_flatMap] at ih <;> omega

-- What is left out of a list is empty, if the length stays.
theorem eq_nil_of_length_eq {p : α → Bool} {g : α → List β} {l : List α}
    (h : ((l.filter p).flatMap g).length = (l.flatMap g).length) : ∀ x ∈ l, p x = false → g x = [] := by
  induction l with
  | nil         => exact fun x hx => absurd hx List.not_mem_nil
  | cons a l ih =>
    have hle := length_flatMap_filter_le p g l
    intro x hx hp
    cases hpa : p a with
    | true  =>
      rw [List.filter_cons, hpa, if_pos rfl, List.flatMap_cons, List.flatMap_cons, List.length_append,
        List.length_append] at h
      rcases List.mem_cons.mp hx with rfl | hx
      · cases hpa.symm.trans hp
      · exact ih (by omega) x hx hp
    | false =>
      rw [List.filter_cons, hpa, if_neg Bool.false_ne_true, List.flatMap_cons, List.length_append] at h
      rcases List.mem_cons.mp hx with rfl | hx
      · exact List.eq_nil_of_length_eq_zero (by omega)
      · exact ih (by omega) x hx hp

theorem flatMap_filter_eq {p : α → Bool} {g : α → List β} {l : List α} (h : ∀ x ∈ l, g x ≠ [] → p x = true) :
    (l.filter p).flatMap g = l.flatMap g := by
  induction l with
  | nil         => rfl
  | cons x l ih =>
    have ih := ih fun y hy => h y (.tail _ hy)
    cases hp : p x with
    | true  => rw [List.filter_cons, hp, if_pos rfl, List.flatMap_cons, List.flatMap_cons, ih]
    | false =>
      have hg : g x = [] := by
        by_contra hg
        cases hp.symm.trans (h x (.head _) hg)
      rw [List.filter_cons, hp, if_neg Bool.false_ne_true, List.flatMap_cons, hg, ih, List.nil_append]

-- The same of what comes of the things that are picked, which tells whether it is the member's own.
theorem flatMap_filter_perm_iff (hn : is.Nodup) {m : γ} (hm : m ∈ is) (p : α → Bool) (g : α → List β)
    (own : β → Bool) (hown : ∀ x ∈ f m, ∀ y ∈ g x, own y = true)
    (hothers : ∀ i ∈ is, i ≠ m → ∀ x ∈ f i, ∀ y ∈ g x, own y = false) :
    (is.flatMap fun i => ((f i).filter p).flatMap g).Perm ((f m).flatMap g) ↔
      ∀ i ∈ is, ∀ x ∈ f i, g x ≠ [] → (p x = true ↔ i = m) := by
  have hm' : ∀ y ∈ ((f m).filter p).flatMap g, own y = true := by
    intro y hy
    obtain ⟨x, hx, hy⟩ := List.mem_flatMap.mp hy
    exact hown x (List.mem_filter.mp hx).1 y hy
  constructor
  · intro h
    have hnil : ∀ i ∈ is, i ≠ m → ((f i).filter p).flatMap g = [] := by
      intro i hi hne
      rw [List.eq_nil_iff_forall_not_mem]
      intro y hy
      obtain ⟨x, hx, hyx⟩ := List.mem_flatMap.mp hy
      have hy' := h.subset (List.mem_flatMap.mpr ⟨i, hi, hy⟩)
      obtain ⟨x', hx', hy'⟩ := List.mem_flatMap.mp hy'
      have := hothers i hi hne x (List.mem_filter.mp hx).1 y hyx
      rw [hown x' hx' y hy'] at this
      cases this
    have hall := flatMap_eq_of_routed hn hm hnil
    have hlen := (hall ▸ h).length_eq
    intro i hi x hx hg
    constructor
    · intro hp
      by_contra hne
      exact hg (List.flatMap_eq_nil_iff.mp (hnil i hi hne) x (List.mem_filter.mpr ⟨hx, hp⟩))
    · rintro rfl
      by_contra hp
      exact hg (eq_nil_of_length_eq hlen x hx (Bool.not_eq_true _ ▸ hp))
  · intro h
    have hall : (is.flatMap fun i => ((f i).filter p).flatMap g) = ((f m).filter p).flatMap g :=
      flatMap_eq_of_routed hn hm fun i hi hne => by
        refine List.flatMap_eq_nil_iff.mpr fun x hx => ?_
        obtain ⟨hx, hp⟩ := List.mem_filter.mp hx
        by_contra hg
        exact hne ((h i hi x hx hg).mp hp)
    rw [hall, flatMap_filter_eq fun x hx hg => (h m hm x hx hg).mpr rfl]

end Route

-- Replaces the members that satisfy a condition by means of as many results, in their order.
def refill (p : α → Bool) (f : α → β → α) : List α → List β → List α
  | [],      _       => []
  | a :: as, []      => a :: as
  | a :: as, b :: bs => if p a then f a b :: refill p f as bs else a :: refill p f as (b :: bs)

theorem refill_filterMap {p : α → Bool} {k : α → Option β} (hp : ∀ a, p a = (k a).isSome) (f : α → β → α)
    (as : List α) : refill p f as (as.filterMap k) = as.map fun a => (k a).elim a (f a) := by
  induction as with
  | nil          => rfl
  | cons a as ih =>
    cases hk : k a with
    | some b => simp [refill, hp, hk, ih]
    | none   =>
      rw [List.filterMap_cons_none hk, List.map_cons, hk]
      cases hm : as.filterMap k with
      | nil       =>
        rw [← ih, hm]
        cases as <;> rfl
      | cons b bs => rw [refill, if_neg (by simp [hp, hk]), ← ih, hm, Option.elim_none]

theorem refill_map (p : α → Bool) (f : α → β → α) (g : α → β) (as : List α) :
    refill p f as ((as.filter p).map g) = as.map fun a => if p a then f a (g a) else a := by
  have hk : (as.filter p).map g = as.filterMap fun a => if p a then some (g a) else none := by
    rw [← List.filterMap_eq_map, List.filterMap_filter]
    rfl
  rw [hk, refill_filterMap fun a => by cases p a <;> rfl]
  congr
  funext a
  cases p a <;> rfl

theorem zip_map_self (g : α → β) (as : List α) : as.zip (as.map g) = as.map fun a => (a, g a) := by
  induction as with
  | nil          => rfl
  | cons a as ih => rw [List.map_cons, List.zip_cons_cons, ih, List.map_cons]

end Batch
