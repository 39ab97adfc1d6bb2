import Grafast.Planner.Theorems.Survivors

namespace Grafast

open Relation (TransGen ReflTransGen)

section Best

variable {α β : Type}

-- The first one of the deepest candidates of a list.
structure FirstDeepest (candidate : α → Bool) (depth : α → Nat) (l : List α) (i : Nat) (x : α) : Prop where
  here    : l[i]? = some x
  holds   : candidate x = true
  deepest : ∀ y ∈ l, candidate y = true → depth y ≤ depth x
  first   : ∀ j y, l[j]? = some y → candidate y = true → depth y = depth x → i ≤ j

-- A search that keeps the deepest candidate so far finds the first one of the deepest candidates.
theorem foldl_best (candidate : α → Bool) (depth : α → Nat) (key : α → β) (l : List α) :
    let best := l.foldl (fun best x =>
      if candidate x && best.all (·.snd < depth x) then some (key x, depth x) else best) none
    best = none ∧ (∀ x ∈ l, candidate x = false) ∨
      ∃ i x, best = some (key x, depth x) ∧ FirstDeepest candidate depth l i x := by
  induction l using List.reverseRecOn
  case nil            => exact .inl ⟨rfl, by simp⟩
  case append_singleton l x hi =>
    simp only [List.foldl_append, List.foldl_cons, List.foldl_nil] at hi ⊢
    have hlast {j : Nat} {y : α} (h : (l ++ [x])[j]? = some y) : l[j]? = some y ∨ j = l.length ∧ y = x := by
      rw [List.getElem?_append] at h
      split at h
      case isTrue  => exact .inl h
      case isFalse => grind
    have hmem : ∀ y ∈ l ++ [x], y ∈ l ∨ y = x := by simp
    obtain ⟨hb, hn⟩ | ⟨i, b, hb, hf⟩ := hi
    case inl =>
      rw [hb]
      cases hx : candidate x
      case false =>
        refine .inl ⟨by simp, fun y hy => ?_⟩
        obtain hy | rfl := hmem y hy
        · exact hn y hy
        · exact hx
      case true  =>
        refine .inr ⟨l.length, x, by simp, by simp, hx, fun y hy hc => ?_, fun j y hj hc _ => ?_⟩
        · obtain hy | rfl := hmem y hy
          · exact absurd hc (by simp [hn y hy])
          · exact le_refl _
        · obtain hj | ⟨rfl, _⟩ := hlast hj
          · exact absurd hc (by simp [hn y (List.mem_of_getElem? hj)])
          · exact le_refl _
    case inr =>
      rw [hb]
      by_cases hx : candidate x = true ∧ depth b < depth x
      case pos =>
        refine .inr ⟨l.length, x, by simp [hx], by simp, hx.left, fun y hy hc => ?_, fun j y hj hc he => ?_⟩
        · obtain hy | rfl := hmem y hy
          · exact (hf.deepest y hy hc).trans hx.right.le
          · exact le_refl _
        · obtain hj | ⟨rfl, _⟩ := hlast hj
          · exact absurd (hf.deepest y (List.mem_of_getElem? hj) hc) (by omega)
          · exact le_refl _
      case neg =>
        have hi : i < l.length := (List.getElem?_eq_some_iff.mp hf.here).choose
        refine .inr ⟨i, b, by simpa using fun hc hd => absurd ⟨hc, hd⟩ hx, ?_, hf.holds, fun y hy hc => ?_,
          fun j y hj hc he => ?_⟩
        · rw [List.getElem?_append_left hi, hf.here]
        · obtain hy | rfl := hmem y hy
          · exact hf.deepest y hy hc
          · exact not_lt.mp fun hd => hx ⟨hc, hd⟩
        · obtain hj | ⟨rfl, _⟩ := hlast hj
          · exact hf.first j y hj hc he
          · exact hi.le

end Best

variable {T K : Type}

namespace ObjectPlan

-- The effect steps of the buckets of a tree.
def effectSteps (t : OutputPlan T) : List (List Ref) :=
  (t.scopes []).map (·.snd.layer.effectSteps)

-- A tree without the effect steps of its buckets.
def withoutEffects (t : OutputPlan T) : OutputPlan T :=
  t.rebuild id fun _ layer => { layer with effectSteps := [] }

-- Whether a step depends on the boundary of a bucket.
def DescendsFrom (p : Plan K) (effect : Ref) (bucket : List Ref × OutputPlan T) : Prop :=
  TransGen p.DependsOn effect bucket.snd.layer.parentStep

-- A bucket whose boundary an effect depends on, where it depends on that of no deeper one, or the root
-- bucket where it depends on none.
def OwnedBy (p : Plan K) (t : OutputPlan T) (effect : Ref) (i : Nat) : Prop :=
  (∃ b, (t.scopes [])[i]? = some b ∧ DescendsFrom p effect b ∧
    ∀ b' ∈ t.scopes [], DescendsFrom p effect b' → b'.fst.length ≤ b.fst.length) ∨
  i = 0 ∧ ∀ b ∈ t.scopes [], ¬DescendsFrom p effect b

-- The orphaned effects are attached to the buckets that own them, each to one, and nothing else changes.
structure OneOwner (p : Plan K) (effects : List Ref) (t : OutputPlan T) (owner : Ref → Nat) : Prop where
  owned    : ∀ effect ∈ effects, OwnedBy p t effect (owner effect)
  attached : (t.attachEffectSteps p effects).effectSteps =
    t.effectSteps.mapIdx fun i own => own ++ effects.filter (owner · == i)
  others   : (t.attachEffectSteps p effects).withoutEffects = t.withoutEffects

-- The first one of the buckets that could own an effect has its boundary to itself.
def Unshared (p : Plan K) (t : OutputPlan T) (effect : Ref) : Prop :=
  ∀ i b, (t.scopes [])[i]? = some b → OwnedBy p t effect i → (∀ j < i, ¬OwnedBy p t effect j) →
    ∀ j b', (t.scopes [])[j]? = some b' → b'.snd.layer.parentStep = b.snd.layer.parentStep → j = i

variable {p : Plan K} {t : OutputPlan T} {effects : List Ref} {effect : Ref} {b : List Ref × OutputPlan T}

theorem parentStep_mem_consumptionRootSteps (h : b ∈ t.scopes []) :
    b.snd.layer.parentStep ∈ t.consumptionRootSteps :=
  List.mem_flatMap.mpr ⟨b, h, List.mem_cons_self ..⟩

theorem root_scope : (t.scopes [])[0]? = some ([], t) := by
  cases t
  rfl

-- Effects of a plan that no field of a tree over the plan consumes.
structure Orphaned (p : Plan K) (t : OutputPlan T) (effects : List Ref) : Prop where
  inv     : p.view.Inv
  roots   : ∀ r ∈ t.consumptionRootSteps, r ∈ p.steps
  known   : ∀ effect ∈ effects, effect ∈ p.steps
  orphans : ∀ effect ∈ effects, effect ∉ t.consumptionRootSteps

namespace Orphaned

variable (h : Orphaned p t effects)
include h

-- The search finds the boundaries that the effect depends on.
theorem contains_iff (he : effect ∈ effects) (hb : b ∈ t.scopes []) :
    ((p.orderSteps [effect]).snd.map p.stepId).contains (p.stepId b.snd.layer.parentStep) = true ↔
      DescendsFrom p effect b := by
  have hm := parentStep_mem_consumptionRootSteps hb
  have hr : ∀ r ∈ [effect], r ∈ p.steps := by simpa using h.known effect he
  rw [List.contains_iff_mem, stepId_mem_orderSteps h.inv hr (h.roots _ hm)]
  simp only [List.mem_singleton, exists_eq_left, Relation.reflTransGen_iff_eq_or_transGen]
  exact or_iff_right fun heq => h.orphans effect he (heq ▸ hm)

-- An effect is given to the boundary step of the first bucket that could own it.
theorem deepestOwnerParentId_eq (he : effect ∈ effects) :
    ∃ i b, (t.scopes [])[i]? = some b ∧ OwnedBy p t effect i ∧ (∀ j < i, ¬OwnedBy p t effect j) ∧
      t.deepestOwnerParentId p ((p.orderSteps [effect]).snd.map p.stepId) =
        p.stepId b.snd.layer.parentStep := by
  have hbest := foldl_best
    (fun b => ((p.orderSteps [effect]).snd.map p.stepId).contains (p.stepId b.snd.layer.parentStep))
    (fun b => b.fst.length) (fun b => p.stepId b.snd.layer.parentStep) (t.scopes [])
  obtain ⟨hb, hn⟩ | ⟨i, b, hb, hf⟩ := hbest
  case inl =>
    refine ⟨0, ([], t), root_scope, .inr ⟨rfl, fun b hm hd => ?_⟩, by simp, ?_⟩
    · exact absurd ((h.contains_iff he hm).mpr hd) (Bool.eq_false_iff.mp (hn b hm))
    · exact congrArg (·.elim (p.stepId t.layer.parentStep) Prod.fst) hb
  case inr =>
    have hm := List.mem_of_getElem? hf.here
    have hd := (h.contains_iff he hm).mp hf.holds
    have hle : ∀ b' ∈ t.scopes [], DescendsFrom p effect b' → b'.fst.length ≤ b.fst.length :=
      fun b' hm' hd' => hf.deepest b' hm' ((h.contains_iff he hm').mpr hd')
    refine ⟨i, b, hf.here, .inl ⟨b, hf.here, hd, hle⟩, fun j hj ho => ?_, ?_⟩
    · obtain ⟨b', hb', hd', hle'⟩ | ⟨_, hn⟩ := ho
      · have hm' := List.mem_of_getElem? hb'
        have hij := hf.first j b' hb' ((h.contains_iff he hm').mpr hd') ((hle b' hm' hd').antisymm (hle' b hm hd))
        exact absurd hij hj.not_ge
      · exact hn b hm hd
    · exact congrArg (·.elim (p.stepId t.layer.parentStep) Prod.fst) hb

omit h in
theorem withoutEffects_attachEffectSteps :
    (t.attachEffectSteps p effects).withoutEffects = t.withoutEffects :=
  rebuild_rebuild _ t

omit h in
-- What a bucket is given.
theorem effectSteps_attachEffectSteps : (t.attachEffectSteps p effects).effectSteps =
    (t.scopes []).map fun b => b.snd.layer.effectSteps ++ effects.filter fun effect =>
      t.deepestOwnerParentId p ((p.orderSteps [effect]).snd.map p.stepId) ==
        p.stepId b.snd.layer.parentStep := by
  have h : (t.attachEffectSteps p effects).scopes (List.map id []) = _ :=
    scopes_rebuild (fun _ _ => rfl) [] t
  rw [effectSteps, ← List.map_nil (f := id), h, List.map_map]
  refine List.map_congr_left fun b _ => ?_
  simp

omit h in
theorem attached_iff {owner : Ref → Nat} :
    (t.attachEffectSteps p effects).effectSteps =
        t.effectSteps.mapIdx (fun i own => own ++ effects.filter (owner · == i)) ↔
      ∀ i b, (t.scopes [])[i]? = some b → ∀ effect ∈ effects,
        (t.deepestOwnerParentId p ((p.orderSteps [effect]).snd.map p.stepId) =
          p.stepId b.snd.layer.parentStep ↔ owner effect = i) := by
  rw [effectSteps_attachEffectSteps, List.ext_getElem?_iff]
  refine forall_congr' fun i => ?_
  rw [List.getElem?_mapIdx, List.getElem?_map, effectSteps, List.getElem?_map, Option.map_map]
  cases hb : (t.scopes [])[i]?
  case none   => simp
  case some b =>
    simp only [Option.map_some, Option.some.injEq, Function.comp_apply, List.append_cancel_left_eq, forall_eq']
    constructor
    case mp  =>
      intro hf effect he
      have hm : effect ∈ List.filter _ effects ↔ effect ∈ List.filter _ effects := iff_of_eq (congrArg (effect ∈ ·) hf)
      simpa [List.mem_filter, he] using hm
    case mpr =>
      intro hf
      refine List.filter_congr fun effect he => ?_
      rw [Bool.eq_iff_iff, beq_iff_eq, beq_iff_eq]
      exact hf effect he

end Orphaned

-- Each orphaned effect gets one owner just if its boundary is not shared with another bucket.
theorem attachEffectSteps_oneOwner_iff (h : Orphaned p t effects) :
    (∃ owner, OneOwner p effects t owner) ↔ ∀ effect ∈ effects, Unshared p t effect := by
  constructor
  case mp  =>
    rintro ⟨owner, ho⟩ effect he i b hb hown hfirst j b' hb' heq
    obtain ⟨k, c, hc, hownk, hfirstk, hid⟩ := h.deepestOwnerParentId_eq he
    obtain rfl : k = i := by
      by_contra hne
      obtain hlt | hlt := Nat.lt_or_gt_of_ne hne
      · exact hfirst k hlt hownk
      · exact hfirstk i hlt hown
    obtain rfl := Option.some.inj (hc.symm.trans hb)
    have ha := Orphaned.attached_iff.mp ho.attached
    have hk := (ha k c hc effect he).mp hid
    have hj := (ha j b' hb' effect he).mp (heq ▸ hid)
    exact hj.symm.trans hk
  case mpr =>
    intro hu
    choose! owner c hc hown hfirst hid using fun (effect : Ref) he => h.deepestOwnerParentId_eq he
    refine ⟨owner, fun effect he => hown effect he, Orphaned.attached_iff.mpr fun i b hb effect he => ?_,
      Orphaned.withoutEffects_attachEffectSteps⟩
    constructor
    case mp  =>
      intro heq
      have hroot {b : List Ref × OutputPlan T} {i : Nat} (hb : (t.scopes [])[i]? = some b) :=
        h.roots _ (parentStep_mem_consumptionRootSteps (List.mem_of_getElem? hb))
      have hids := h.inv.ids _ (hroot hb) _ (hroot (hc effect he)) (heq.symm.trans (hid effect he))
      exact (hu effect he _ _ (hc effect he) (hown effect he) (hfirst effect he) i b hb hids).symm
    case mpr =>
      rintro rfl
      rw [hid effect he, Option.some.inj ((hc effect he).symm.trans hb)]

-- Buckets whose boundaries are different steps.
theorem unshared_of_nodup (hn : ((t.scopes []).map (·.snd.layer.parentStep)).Nodup) : Unshared p t effect := by
  intro i b hb _ _ j b' hb' heq
  have hi : ((t.scopes []).map (·.snd.layer.parentStep))[i]? = some b.snd.layer.parentStep := by simp [hb]
  have hj : ((t.scopes []).map (·.snd.layer.parentStep))[j]? = some b.snd.layer.parentStep := by simp [hb', heq]
  exact (List.getElem?_inj (List.getElem?_eq_some_iff.mp hj).choose hn).mp (hj.trans hi.symm)

end ObjectPlan

namespace Aliases

open Columns (Kind)

open ObjectPlan

-- A viewer with a name, and a write that depends on the viewer.
def plan : Plan Kind :=
  (Plan.build [(.root, []), (.read 0, [0]), (.read 1, [1]), (.write, [1])]).getD .empty

-- The viewer under some names. Its steps are one after deduplication.
def tree (names : List String) : OutputPlan Unit :=
  ⟨names.map fun name => ⟨name, name, 1, .object () ⟨[⟨"name", "name", 2, .leaf (), none⟩], planLayer 1⟩, none⟩,
    planLayer 0⟩

theorem plan_inv : plan.view.Inv := by
  obtain ⟨p, hp, hi, _⟩ := Plan.build_inv [(Kind.root, []), (.read 0, [0]), (.read 1, [1]), (.write, [1])]
    (by decide)
  have hp : plan = p := by rw [plan, hp]; rfl
  exact hp ▸ hi

-- The write of a single viewer has one owner.
theorem viewer_oneOwner : ∃ owner, OneOwner plan [3] (tree ["viewer"]) owner :=
  (attachEffectSteps_oneOwner_iff ⟨plan_inv, by decide, by decide, by decide⟩).mpr fun _ _ =>
    unshared_of_nodup (by decide)

-- Two viewers that have been merged both run the write.
theorem aliases_not_oneOwner : ¬∃ owner, OneOwner plan [3] (tree ["a", "b"]) owner := by
  rintro ⟨owner, h⟩
  have ha : ((tree ["a", "b"]).attachEffectSteps plan [3]).effectSteps = [[], [3], [3]] := by decide
  have ho : (tree ["a", "b"]).effectSteps = [[], [], []] := by decide
  have h := h.attached
  rw [ha, ho] at h
  have h₁ : [3] = [3].filter (owner · == 1) := (List.cons.inj (List.cons.inj h).right).left
  have h₂ : [3] = [3].filter (owner · == 2) := (List.cons.inj (List.cons.inj (List.cons.inj h).right).right).left
  have h₁ : owner 3 = 1 := by simpa using h₁.symm
  have h₂ : owner 3 = 2 := by simpa using h₂.symm
  exact absurd (h₁.symm.trans h₂) (by decide)

end Aliases

end Grafast
