import Grafast.Dag.Theorems.Complete
import Grafast.Dag.Theorems.Registry
import Grafast.Graph.Chain

namespace Grafast

open Relation (ReflTransGen)

open Graph (Link Ends)

variable {K Key : Type} [StepClass K Key]

namespace Plan

-- The replacement of a step, if it has one.
def next (p : Plan K) (merged : Remap) (r : Ref) : Option Ref :=
  merged (p.stepId r)

-- Whether a chain of replacements stops at a step.
def Collapsed (p : Plan K) (merged : Remap) (r : Ref) : Prop :=
  ∀ s, p.next merged r = some s → s = r

end Plan

namespace Pass

-- What the caller of a rewriting pass relies on: the chains of replacements collapse, and the resulting
-- remap leads from just the steps that are removed to steps that are left.
structure Sound (s : Pass K) : Prop where
  collapses : ∀ id r, s.merged id = some r →
    ∃ fuel, s.plan.Collapsed s.merged (s.plan.follow s.merged fuel r)
  removed   : ∀ r ∈ s.plan.steps, r ∉ s.plan.sweepDead.steps →
    ∃ e ∈ s.plan.sweepDead.steps, s.plan.resolveMerged s.merged (s.plan.stepId r) = some e
  left      : ∀ r ∈ s.plan.sweepDead.steps, s.plan.resolveMerged s.merged (s.plan.stepId r) = none

-- A replacement of a registered step by a step object that it has not itself replaced, be it directly or
-- through other replacements.
structure Admits (s : Pass K) (old new : Ref) : Prop where
  old_seen : old ∈ s.plan.seen
  new_lt   : new < s.plan.heap.length
  unmade   : ¬ReflTransGen (Link (s.plan.next s.merged)) new old

def AllAdmit : Pass K → List (Ref × Ref) → Prop
  | _, []     => True
  | s, e :: l => s.Admits e.fst e.snd ∧ ∀ s', Plan.replaceIn s e.fst e.snd = some s' → AllAdmit s' l

end Pass

-- An action that refers to existing step objects, and that does not remove a step behind the back of the
-- pass.
def HookAction.Proper (p : Plan K) : HookAction K → Prop
  | construct _ deps        => ∀ d ∈ deps, d < p.heap.length
  | addStep step            => step < p.heap.length
  | eradicate dead survivor => dead = survivor
  | recordReplacement _ _   => True

namespace Plan

def AllProper : Plan K → List (HookAction K) → Prop
  | _, []      => True
  | p, a :: as => a.Proper p ∧ ∀ q, p.perform a = some q → AllProper q as

end Plan

namespace Pass

-- The end of the chain of replacements of a step.
structure Leads (s : Pass K) (r e : Ref) : Prop where
  chain : ReflTransGen (Link (s.plan.next s.merged)) r e
  stop  : s.plan.next s.merged e = none

-- The conditions on one call of a hook.
structure CallAdmits (s : Pass K) (step : Ref) (call : List (HookAction K) × Ref) : Prop where
  actions  : s.plan.AllProper call.fst
  side     : ∀ q, call.fst.foldlM Plan.perform s.plan = some q →
    AllAdmit { s with plan := q } q.sideReplacements
  returned : ∀ q s', call.fst.foldlM Plan.perform s.plan = some q → Plan.drain { s with plan := q } = some s' →
    call.snd = step ∨ s'.Admits step call.snd

-- The state of a run that meets the conditions.
structure Chained (s : Pass K) : Prop where
  registry : s.plan.view.Registry
  target   : ∀ id r, s.merged id = some r → r ∈ s.plan.seen
  removed  : ∀ id, (s.merged id).isSome = true ↔ id ∈ s.plan.deadIds
  ends     : ∀ r ∈ s.plan.seen, Ends (s.plan.next s.merged) r

end Pass

omit [StepClass K Key] in
theorem Plan.eradicate_sideReplacements (p : Plan K) (dead survivor : Ref) :
    (p.eradicate dead survivor).sideReplacements = p.sideReplacements := by
  rw [Plan.eradicate]
  split
  case isTrue  => rfl
  case isFalse =>
    refine (congrArg View.replacements (foldl_unlink dead _)).trans ?_
    exact congrArg View.replacements (foldl_repoint survivor _)

omit [StepClass K Key] in
theorem Plan.replaceIn_eq {s : Pass K} {q : Plan K} {old new : Ref}
    (h : s.plan.registerFresh new = some q) : Plan.replaceIn s old new = some ⟨q.eradicate old new,
      Function.update s.merged ((q.eradicate old new).stepId old) (some new), true⟩ := by
  simp [Plan.replaceIn, Plan.replace, h]

namespace Pass

variable {s : Pass K} {r old new : Ref}

namespace Chained

theorem closed (h : s.Chained) (x y : Ref) (_ : x ∈ s.plan.seen) (e : Link (s.plan.next s.merged) x y) :
    y ∈ s.plan.seen :=
  h.target _ y e

theorem next_eq_none_iff (h : s.Chained) : s.plan.next s.merged r = none ↔ s.plan.stepId r ∉ s.plan.deadIds := by
  rw [← h.removed, Plan.next, Bool.not_eq_true, Option.isSome_eq_false_iff, Option.isNone_iff_eq_none]

-- A plan with other steps besides, none of which has been removed.
theorem adds {q : Plan K} {n : Nat} (h : s.Chained) (ha : Plan.View.Adds s.plan.view q.view n) :
    Chained { s with plan := q } where
  registry := ha.registry
  target   := fun id r hr => ha.retains.seen r (h.target id r hr)
  removed  := fun id => (h.removed id).trans (by rw [show q.deadIds = s.plan.deadIds from ha.deadIds])
  ends     := by
    intro r hr
    by_cases hs : r ∈ s.plan.seen
    case pos =>
      refine (h.ends r hs).congr fun y hy => congrArg s.merged (ha.retains.stepId y ?_)
      exact Graph.closed_of_link h.closed hs hy
    case neg =>
      refine ⟨r, .refl, Option.eq_none_iff_forall_ne_some.mpr fun x hx => hs ?_⟩
      have hd := (h.removed _).mp (Option.isSome_of_eq_some hx)
      obtain ⟨t, ht, he⟩ := h.registry.dead _ hd
      have hq : q.stepId t = q.stepId r := (ha.retains.stepId t ht).trans he
      exact ha.registry.ids t (ha.retains.seen t ht) r hr hq ▸ ht

theorem construct {kind : K} {deps : List Ref} (h : s.Chained)
    (hd : ∀ d ∈ deps, d < s.plan.heap.length) : Chained { s with plan := s.plan.construct kind deps } := by
  have hv : (s.plan.construct kind deps).view = s.plan.view.construct kind deps := Plan.construct_view
  have hid : (s.plan.construct kind deps).stepId = s.plan.stepId := congrArg Plan.View.stepId hv
  refine ⟨hv ▸ h.registry.construct hd, h.target, h.removed, fun r hr => ?_⟩
  exact (h.ends r hr).congr fun y _ => congrArg s.merged (congrFun hid y)

theorem replacements (h : s.Chained) (l : List (Ref × Ref)) :
    Chained { s with plan := { s.plan with sideReplacements := l } } :=
  ⟨h.registry.replacements l, h.target, h.removed, h.ends⟩

-- A registered step is replaced by another one.
theorem eradicate {c : Bool} (h : s.Chained) (ho : old ∈ s.plan.seen) (hn : new ∈ s.plan.seen)
    (hu : ¬ReflTransGen (Link (s.plan.next s.merged)) new old) :
    Chained ⟨s.plan.eradicate old new,
      Function.update s.merged ((s.plan.eradicate old new).stepId old) (some new), c⟩ := by
  have hne : old ≠ new := fun he => hu (he ▸ .refl)
  have hv : (s.plan.eradicate old new).view = s.plan.view.eradicate old new :=
    Plan.eradicate_view hne fun he => hne (h.registry.ids old ho new hn he)
  have hid : (s.plan.eradicate old new).stepId = s.plan.stepId := congrArg Plan.View.stepId hv
  have hseen : (s.plan.eradicate old new).seen = s.plan.seen := congrArg Plan.View.seen hv
  have hdead : (s.plan.eradicate old new).deadIds = s.plan.stepId old :: s.plan.deadIds :=
    congrArg Plan.View.deadIds hv
  have hold {x : Ref} (hx : x ∈ s.plan.seen) (hxo : x ≠ old) : s.plan.stepId x ≠ s.plan.stepId old :=
    fun he => hxo (h.registry.ids x hx old ho he)
  rw [hid]
  refine ⟨hv ▸ h.registry.eradicate ho hn, fun id r hr => ?_, fun id => ?_, fun r hr => ?_⟩
  · dsimp only at hr ⊢
    rw [Function.update_apply] at hr
    split at hr
    case isTrue  => exact Option.some.inj hr ▸ hseen.symm ▸ hn
    case isFalse => exact hseen.symm ▸ h.target id r hr
  · dsimp only
    rw [hdead, Function.update_apply, List.mem_cons]
    split
    case isTrue he  => simp [he]
    case isFalse he => simp [he, h.removed]
  · dsimp only at hr ⊢
    rw [hseen] at hr
    refine Ends.redirect h.closed ?_ (fun x hx hxo => ?_) hn hu (h.ends new hn) hr (h.ends r hr)
    · rw [Plan.next, hid, Function.update_self]
    · rw [Plan.next, hid, Function.update_of_ne (hold hx hxo), Plan.next]

theorem replaceIn (h : s.Chained) (ha : s.Admits old new) :
    ∃ s', Plan.replaceIn s old new = some s' ∧ s'.Chained ∧
      s'.plan.sideReplacements = s.plan.sideReplacements := by
  by_cases hn : s.plan.stepId new = none
  case pos =>
    have hs : new ∉ s.plan.seen := fun hc => h.registry.seen_id hc hn
    obtain ⟨q, hq, hadd, hm⟩ := Plan.addStep_adds h.registry ha.new_lt
    refine ⟨_, Plan.replaceIn_eq (by simp [Plan.registerFresh, hn, hq]), ?_,
      (Plan.eradicate_sideReplacements ..).trans hadd.replacements⟩
    refine (h.adds hadd).eradicate (hadd.retains.seen old ha.old_seen) hm fun hc => ?_
    -- A step that has just been registered has no replacement.
    have hnext : q.next s.merged new = none := by
      rw [(h.adds hadd).next_eq_none_iff]
      intro hd
      rw [show q.deadIds = s.plan.deadIds from hadd.deadIds] at hd
      obtain ⟨t, ht, he⟩ := h.registry.dead _ hd
      have he : q.stepId t = q.stepId new := (hadd.retains.stepId t ht).trans he
      exact hs (hadd.registry.ids t (hadd.retains.seen t ht) new hm he ▸ ht)
    obtain rfl | ⟨x, hx, _⟩ := ReflTransGen.cases_head hc
    · exact hs ha.old_seen
    · cases hnext.symm.trans hx
  case neg =>
    have hs : new ∈ s.plan.seen := by
      by_contra hc
      exact hn (h.registry.unseen_id new hc)
    exact ⟨_, Plan.replaceIn_eq (by simp [Plan.registerFresh, hn]),
      h.eradicate ha.old_seen hs ha.unmade, Plan.eradicate_sideReplacements ..⟩

theorem replaceAll {l : List (Ref × Ref)} (h : s.Chained) (ha : s.AllAdmit l) :
    ∃ s', l.foldlM (fun s (old, new) => Plan.replaceIn s old new) s = some s' ∧ s'.Chained := by
  induction l generalizing s
  case nil         => exact ⟨s, rfl, h⟩
  case cons e l hi =>
    obtain ⟨s₁, h₁, hc, _⟩ := h.replaceIn ha.left
    obtain ⟨s₂, h₂, hc⟩ := hi hc (ha.right s₁ h₁)
    exact ⟨s₂, by simp [List.foldlM_cons, h₁, h₂], hc⟩

theorem drain (h : s.Chained) (ha : s.AllAdmit s.plan.sideReplacements) :
    ∃ s', Plan.drain s = some s' ∧ s'.Chained ∧ s'.plan.sideReplacements = [] := by
  obtain ⟨s', hs, hc⟩ := h.replaceAll ha
  exact ⟨_, by rw [Plan.drain, hs]; rfl, hc.replacements [], rfl⟩

theorem perform {a : HookAction K} (h : s.Chained) (ha : a.Proper s.plan) :
    ∃ q, s.plan.perform a = some q ∧ Chained { s with plan := q } := by
  cases a
  case construct kind deps       => exact ⟨_, rfl, h.construct ha⟩
  case addStep step              =>
    obtain ⟨q, hq, hadd, _⟩ := Plan.addStep_adds h.registry ha
    exact ⟨q, hq, h.adds hadd⟩
  case eradicate dead survivor   =>
    obtain rfl : dead = survivor := ha
    exact ⟨_, rfl, (Plan.eradicate_self s.plan dead).symm ▸ h⟩
  case recordReplacement old new => exact ⟨_, rfl, h.replacements _⟩

theorem performAll {as : List (HookAction K)} (h : s.Chained) (ha : s.plan.AllProper as) :
    ∃ q, as.foldlM Plan.perform s.plan = some q ∧ Chained { s with plan := q } := by
  induction as generalizing s
  case nil          => exact ⟨s.plan, rfl, h⟩
  case cons a as hi =>
    obtain ⟨q, hq, hc⟩ := h.perform ha.left
    obtain ⟨q', hq', hc⟩ := hi hc (ha.right q hq)
    exact ⟨q', by simp [List.foldlM_cons, hq, hq'], hc⟩

theorem optimizeStep {hook : Optimizer K} {step : Ref} (h : s.Chained) (ha : s.StepMeets CallAdmits hook step) :
    ∃ s', Plan.optimizeStep hook s step = some s' ∧ s'.Chained ∧
      (s.plan.sideReplacements = [] → s'.plan.sideReplacements = []) := by
  rw [Plan.optimizeStep]
  split
  case isTrue     => exact ⟨s, rfl, h, id⟩
  case isFalse hd =>
    obtain ⟨q, hq, hc⟩ := h.performAll (ha hd).actions
    obtain ⟨s₁, h₁, hc₁, he₁⟩ := hc.drain ((ha hd).side q hq)
    simp only [hq, h₁, Option.bind_eq_bind, Option.bind_some]
    split
    case isTrue      => exact ⟨s₁, rfl, hc₁, fun _ => he₁⟩
    case isFalse hne =>
      obtain ⟨s₂, h₂, hc₂, he₂⟩ := hc₁.replaceIn (((ha hd).returned q s₁ hq h₁).resolve_left hne)
      exact ⟨s₂, h₂, hc₂, fun _ => he₂.trans he₁⟩

theorem optimizeSteps {hook : Optimizer K} {steps : List Ref} (h : s.Chained) (ha : s.RunMeets CallAdmits hook steps) :
    ∃ s', steps.foldlM (Plan.optimizeStep hook) s = some s' ∧ s'.Chained := by
  induction steps generalizing s
  case nil                => exact ⟨s, rfl, h⟩
  case cons step steps hi =>
    obtain ⟨s₁, h₁, hc, _⟩ := h.optimizeStep ha.left
    obtain ⟨s₂, h₂, hc⟩ := hi hc (ha.right s₁ h₁)
    exact ⟨s₂, by simp [List.foldlM_cons, h₁, h₂], hc⟩

theorem optimize_loop {hook : Optimizer K} {loops : Nat} (h : s.Chained) (ha : s.LoopMeets CallAdmits hook loops) :
    ∃ s', Plan.optimize.loop hook loops s = some s' ∧ s'.Chained := by
  induction loops generalizing s
  case zero          => exact ⟨s, rfl, h⟩
  case succ loops hi =>
    have hf : (s.plan.orderSteps s.plan.steps).fst = s.plan := h.registry.orderSteps_fst
    simp only [LoopMeets, hf] at ha
    obtain ⟨s₁, h₁, hc⟩ := optimizeSteps (s := { s with changed := false })
      ⟨h.registry, h.target, h.removed, h.ends⟩ ha.left
    simp only [Plan.optimize.loop, hf, h₁, Option.bind_eq_bind, Option.bind_some]
    split
    case isTrue hx => exact hi hc (ha.right s₁ h₁ hx)
    case isFalse   => exact ⟨s₁, rfl, hc⟩

omit [StepClass K Key] in
-- The chains of such a state lead to steps that are left.
theorem follow_eq (h : s.Chained) (hr : r ∈ s.plan.seen) :
    ∃ e ∈ s.plan.seen, s.plan.stepId e ∉ s.plan.deadIds ∧
      s.plan.follow s.merged (s.plan.heap.length + 1) r = e ∧
      ReflTransGen (Link (s.plan.next s.merged)) r e := by
  have hf (fuel : Nat) {x : Ref} (hx : x ∈ s.plan.seen) :
      s.plan.follow s.merged fuel x = Graph.chase (s.plan.next s.merged) fuel x := by
    induction fuel generalizing x
    case zero         => rfl
    case succ fuel hi =>
      rw [Plan.follow, Graph.chase, Plan.next]
      cases hm : s.merged (s.plan.stepId x)
      case none   => rfl
      case some y =>
        have hne : y ≠ x := fun he => (h.ends x hx).acyclic (.single (he ▸ hm))
        dsimp only
        rw [if_neg hne]
        exact hi (h.target _ y hm)
  obtain ⟨e, hp, he, hc⟩ := (h.ends r hr).chase_eq (u := Finset.range s.plan.heap.length) fun y hy =>
    Finset.mem_range.mpr (h.registry.seen_lt y (Graph.closed_of_link h.closed hr hy))
  refine ⟨e, Graph.closed_of_link h.closed hr hp, h.next_eq_none_iff.mp he, ?_, hp⟩
  rw [hf _ hr]
  exact hc _ (by simp)

omit [StepClass K Key] in
-- The remap sends a step to the end of its chain.
theorem leads (h : s.Chained) (hr : r ∈ s.plan.seen) :
    ∃ e ∈ s.plan.sweepDead.steps, s.Leads r e ∧
      (s.plan.resolveMerged s.merged (s.plan.stepId r)).getD r = e := by
  have hleft {e : Ref} (he : e ∈ s.plan.seen) (hd : s.plan.stepId e ∉ s.plan.deadIds) :
      e ∈ s.plan.sweepDead.steps :=
    List.mem_filter.mpr ⟨(h.registry.steps e).mpr he, decide_eq_true hd⟩
  cases hx : s.plan.next s.merged r
  case none   =>
    refine ⟨r, hleft hr (h.next_eq_none_iff.mp hx), ⟨.refl, hx⟩, ?_⟩
    rw [Plan.resolveMerged, show s.merged (s.plan.stepId r) = none from hx]
    rfl
  case some x =>
    obtain ⟨e, hm, he, hf, hp⟩ := h.follow_eq (h.target _ x hx)
    refine ⟨e, hleft hm he, ⟨.head hx hp, h.next_eq_none_iff.mpr he⟩, ?_⟩
    rw [Plan.resolveMerged, show s.merged (s.plan.stepId r) = some x from hx, Option.map_some, hf]
    rfl

omit [StepClass K Key] in
theorem sound (h : s.Chained) : s.Sound where
  collapses id r hr := by
    obtain ⟨e, _, he, hf, _⟩ := h.follow_eq (h.target id r hr)
    refine ⟨s.plan.heap.length + 1, fun x hx => ?_⟩
    rw [hf, h.next_eq_none_iff.mpr he] at hx
    cases hx
  removed r hr hn := by
    have hd : s.plan.stepId r ∈ s.plan.deadIds := by simpa [Plan.sweepDead, hr] using hn
    obtain ⟨x, hx⟩ := Option.isSome_iff_exists.mp ((h.removed _).mpr hd)
    obtain ⟨e, hm, he, hf, _⟩ := h.follow_eq (h.target _ x hx)
    refine ⟨e, List.mem_filter.mpr ⟨(h.registry.steps e).mpr hm, decide_eq_true he⟩, ?_⟩
    rw [Plan.resolveMerged, hx, Option.map_some, hf]
  left r hr := by
    have hd : s.plan.stepId r ∉ s.plan.deadIds := of_decide_eq_true (List.mem_filter.mp hr).right
    rw [Plan.resolveMerged, Option.map_eq_none_iff]
    exact h.next_eq_none_iff.mpr hd

end Chained

-- Conditions that a hook meets in all states are met in a run.
theorem Chained.loopMeets {hook : Optimizer K} {loops : Nat}
    (hh : ∀ s : Pass K, s.Chained → s.plan.sideReplacements = [] → ∀ r, s.StepMeets CallAdmits hook r)
    (h : s.Chained) (hs : s.plan.sideReplacements = []) : s.LoopMeets CallAdmits hook loops := by
  apply loopMeets_of_inv (I := fun _ s => s.Chained ∧ s.plan.sideReplacements = [])
  · exact fun s h => ⟨h.left.registry.orderSteps_fst, ⟨h.left.registry, h.left.target, h.left.removed, h.left.ends⟩,
      h.right⟩
  · exact fun _ _ h => h
  · exact fun s _ r h _ => hh s h.left h.right r
  · intro s _ _ h _ hm
    obtain ⟨s', he, hc, hn⟩ := h.left.optimizeStep hm
    exact ⟨s', he, hc, hn h.right⟩
  · exact ⟨h, hs⟩

-- A call that leaves its step alone.
theorem keep_admits (hs : s.plan.sideReplacements = []) : s.CallAdmits r ([], r) where
  actions          := trivial
  side q hq        := by
    obtain rfl := Option.some.inj hq
    exact hs ▸ trivial
  returned _ _ _ _ := .inl rfl

-- A call that replaces its step by a fresh one.
theorem Chained.fresh_admits {kind : K} {deps : List Ref} (h : s.Chained) (hs : s.plan.sideReplacements = [])
    (hd : ∀ d ∈ deps, d < s.plan.heap.length) (hr : r ∈ s.plan.seen) :
    s.CallAdmits r ([.construct kind deps], s.plan.heap.length) := by
  have hc : Chained { s with plan := s.plan.construct kind deps } := h.construct hd
  have hns : (s.plan.construct kind deps).sideReplacements = [] := hs
  refine ⟨⟨hd, fun _ _ => trivial⟩, fun q hq => ?_, fun q s' hq hd => .inr ?_⟩
  · obtain rfl := Option.some.inj hq
    exact hns ▸ trivial
  · obtain rfl := Option.some.inj hq
    obtain rfl := Option.some.inj ((Plan.drain_of_nil hns).symm.trans hd)
    refine ⟨hr, by simp [Plan.construct], fun hp => ?_⟩
    have hu : s.plan.heap.length ∉ s.plan.seen := fun hm => lt_irrefl _ (h.registry.seen_lt _ hm)
    obtain he | ⟨x, hx, _⟩ := ReflTransGen.cases_head hp
    · have he : s.plan.heap.length = r := he
      exact hu (he ▸ hr)
    · have hd := (hc.removed _).mp (Option.isSome_of_eq_some hx)
      obtain ⟨t, ht, he⟩ := hc.registry.dead _ hd
      exact hc.registry.seen_id ht (he.trans (hc.registry.unseen_id _ hu))

end Pass

namespace Plan

-- A run of `optimize` with its hooks ends, and its remap leads from removed steps to steps that are left.
def OptimizeSound (hook : Optimizer K) (p : Plan K) : Prop :=
  ∃ s, optimize.loop hook maxOptimizationLoops ⟨p, fun _ => none, true⟩ = some s ∧
    p.optimize hook = some (s.plan.sweepDead, s.plan.resolveMerged s.merged) ∧ s.Sound

theorem chained_init {p : Plan K} (h : p.view.Registry) (hs : p.Swept) :
    Pass.Chained ⟨p, fun _ => none, true⟩ where
  registry     := h
  target _ _ h := by cases h
  removed id   := by simp [show p.deadIds = [] from hs]
  ends r _     := ⟨r, .refl, rfl⟩

-- Where no step is replaced by one that it has replaced before, the remap of `optimize` leads from the
-- steps that are removed to steps that are left.
theorem optimize_sound {hook : Optimizer K} {p : Plan K} (h : p.view.Registry) (hs : p.Swept)
    (ha : Pass.LoopMeets Pass.CallAdmits hook maxOptimizationLoops ⟨p, fun _ => none, true⟩) : p.OptimizeSound hook := by
  obtain ⟨s, hl, hc⟩ := (chained_init h hs).optimize_loop ha
  exact ⟨s, hl, by simp [optimize, hl], hc.sound⟩

end Plan

namespace Runaway

open Wrap

def plan : Plan Kind :=
  (Plan.build [(.source, []), (.source, [])]).getD .empty

-- Never settles: each registered step is replaced by a fresh one.
def hook : Optimizer Kind := fun p r =>
  if p.stepId r = none then ([], r) else ([.construct .folded []], p.heap.length)

-- Replaces each of the two steps by the other one.
def swap : Optimizer Kind := fun _ r => ([], 1 - r)

theorem hook_admits {s : Pass Kind} (h : s.Chained) (hs : s.plan.sideReplacements = []) (r : Ref) :
    s.StepMeets Pass.CallAdmits hook r := by
  intro _
  rw [hook]
  split
  case isTrue      => exact Pass.keep_admits hs
  case isFalse hid =>
    refine h.fresh_admits hs (by simp) ?_
    by_contra hc
    exact hid (h.registry.unseen_id r hc)

theorem plan_registry : plan.view.Registry := by
  obtain ⟨p, hp, hi, hv, _⟩ := Plan.build_inv [(Kind.source, []), (Kind.source, [])] (by decide)
  have hp : plan = p := by rw [plan, hp]; rfl
  exact Plan.View.Inv.registry (hp ▸ hi) (hp ▸ hv) (by decide) rfl

-- A hook that never settles is stopped by the cap.
theorem hook_sound : plan.OptimizeSound hook :=
  Plan.optimize_sound plan_registry rfl
    (Pass.Chained.loopMeets (fun _ => hook_admits) (Plan.chained_init plan_registry rfl) rfl)

-- Two steps that replace each other make a chain that never stops.
theorem swap_not_sound : ¬plan.OptimizeSound swap := by
  rintro ⟨s, hs, _, hsound⟩
  have hv : (Plan.optimize.loop swap Plan.maxOptimizationLoops ⟨plan, fun _ => none, true⟩).map (fun s =>
      (s.merged (some 0), s.plan.next s.merged 0, s.plan.next s.merged 1)) = some (some 1, some 1, some 0) := by
    rfl
  rw [hs, Option.map_some, Option.some.injEq, Prod.mk.injEq, Prod.mk.injEq] at hv
  obtain ⟨hm, h0, h1⟩ := hv
  have hnever (fuel : Nat) {r : Ref} (hr : r = 0 ∨ r = 1) :
      ¬s.plan.Collapsed s.merged (s.plan.follow s.merged fuel r) := by
    induction fuel generalizing r
    case zero         =>
      intro hc
      obtain rfl | rfl := hr
      · exact absurd (hc 1 h0) Nat.one_ne_zero
      · exact absurd (hc 0 h1) Nat.zero_ne_one
    case succ fuel hi =>
      obtain rfl | rfl := hr
      · rw [Plan.follow, show s.merged (s.plan.stepId 0) = some 1 from h0]
        exact hi (.inr rfl)
      · rw [Plan.follow, show s.merged (s.plan.stepId 1) = some 0 from h1]
        exact hi (.inl rfl)
  obtain ⟨fuel, hc⟩ := hsound.collapses (some 0) 1 hm
  exact hnever fuel (.inr rfl) hc

end Runaway

end Grafast
