import Grafast.Dag.Theorems.Optimize
import Grafast.Planner.Theorems.Operation

namespace Grafast

open Relation (ReflTransGen)

open Graph (Link)

variable {T K Key : Type}

-- A tree with its steps sent elsewhere, and without the annotations of its layers.
def ObjectPlan.shape (σ : Ref → Ref) (t : OutputPlan T) : OutputPlan T :=
  t.rebuild σ fun _ layer => planLayer (σ layer.parentStep)

section Shape

variable {σ : Ref → Ref} {onLayer : List Ref → LayerPlan → LayerPlan}

theorem ObjectPlan.shape_rebuild (h : ∀ steps layer, (onLayer steps layer).parentStep = σ layer.parentStep)
    (t : OutputPlan T) : (t.rebuild σ onLayer).shape id = t.shape σ := by
  rw [shape, rebuild_rebuild]
  simp only [id_eq, h]
  rfl

variable {t : OutputPlan T}

-- The steps that the executor consumes are those of the shape.
theorem ObjectPlan.consumptionRootSteps_shape :
    (t.shape σ).consumptionRootSteps = t.consumptionRootSteps.map σ := by
  have h : (t.shape σ).scopes (List.map σ []) = _ :=
    ObjectPlan.scopes_rebuild (fun _ _ => rfl) [] t
  rw [consumptionRootSteps, consumptionRootSteps, ← List.map_nil (f := σ), h, List.flatMap_map,
    List.map_flatMap]
  congr 1
  funext x
  simp [planLayer]

theorem ObjectPlan.consumptionRootSteps_of_shape {t' : OutputPlan T} (h : t'.shape id = t.shape σ) :
    t'.consumptionRootSteps = t.consumptionRootSteps.map σ := by
  rw [← consumptionRootSteps_shape, ← h, consumptionRootSteps_shape, List.map_id]

end Shape

section Hoist

variable [PlanStep K Key] {p : Plan K}

mutual

-- Hoisting changes nothing but the annotations of layers.
theorem hoistLayer_shape (availableAbove : List (Option Nat)) (isTop : Bool) : (t : OutputPlan T) →
    (hoistLayer p availableAbove isTop t).fst.shape id = t.shape id
  | ⟨fields, layer⟩ => by
    simp only [hoistLayer, ObjectPlan.shape, ObjectPlan.rebuild, id_eq, ObjectPlan.mk.injEq, and_true]
    exact hoistFields_shape _ _ _ fields

theorem hoistFields_shape (availableHere : List (Option Nat)) (ownSteps hoistedIn : List Ref) :
    (fields : List (FieldPlan T LayerPlan Ref)) →
      rebuildFields id (fun _ layer => planLayer layer.parentStep)
          (hoistFields p availableHere ownSteps hoistedIn fields).fst =
        rebuildFields id (fun _ layer => planLayer layer.parentStep) fields
  | []                                      => rfl
  | ⟨_, _, _, completer, _⟩ :: fields => by
    have hc := hoistCompleter_shape availableHere completer
    have hf := fun own hoisted => hoistFields_shape availableHere own hoisted fields
    simp only [hoistFields, rebuildFields, FieldPlan.rebuild, id_eq, hc, hf]

theorem hoistCompleter_shape (availableHere : List (Option Nat)) :
    (completer : Completer T LayerPlan Ref) →
      (hoistCompleter p availableHere completer).fst.rebuild id (fun _ layer => planLayer layer.parentStep) =
        completer.rebuild id fun _ layer => planLayer layer.parentStep
  | .leaf _         => rfl
  | .object _ child => by
    have hc := hoistLayer_shape (availableHere.filter (· != p.stepId child.layer.parentStep)) false child
    simp only [ObjectPlan.shape, id_eq] at hc
    simp only [hoistCompleter, Completer.rebuild, hc]
  | .abstract _ _   => rfl
  | .list item      => by
    simp only [hoistCompleter, Completer.rebuild, hoistCompleter_shape availableHere item]
  | .nonNull inner  => by
    simp only [hoistCompleter, Completer.rebuild, hoistCompleter_shape availableHere inner]

end

end Hoist

section Loop

variable [StepClass K Key]

-- The conditions on a call of a hook that keeps both the remap and the graph of the plan sound.
def Pass.CallSettles : CallCondition K :=
  fun s step call => s.CallAdmits step call ∧ s.plan.HookPermitted step call

variable {hook : Optimizer K} {s : Pass K} {ordered : List Ref}

theorem optimizeSteps_settled {steps : List Ref} (hc : s.Chained) (ho : Plan.OptimizeInv True ordered s)
    (hs : steps ⊆ ordered) (ha : s.RunMeets Pass.CallSettles hook steps) :
    ∃ s', steps.foldlM (Plan.optimizeStep hook) s = some s' ∧ s'.Chained ∧
      Plan.OptimizeInv True ordered s' := by
  induction steps generalizing s
  case nil                => exact ⟨s, rfl, hc, ho⟩
  case cons step steps hi =>
    obtain ⟨hm, hs⟩ := List.cons_subset.mp hs
    obtain ⟨s₁, h₁, hc₁, _⟩ := hc.optimizeStep fun hd => (ha.left hd).left
    obtain ⟨s', h', ho₁⟩ := Plan.optimizeStep_ok ho hm fun hl => (ha.left hl.right).right
    obtain rfl := Option.some.inj (h₁.symm.trans h')
    obtain ⟨s₂, h₂, hc₂, ho₂⟩ := hi hc₁ ho₁ hs (ha.right s₁ h₁)
    exact ⟨s₂, by simp [List.foldlM_cons, h₁, h₂], hc₂, ho₂⟩

theorem optimize_loop_settled {loops : Nat} {kept : List Ref} (hc : s.Chained)
    (ho : Plan.OptimizeInv True kept s) (ha : s.LoopMeets Pass.CallSettles hook loops) :
    ∃ s', Plan.optimize.loop hook loops s = some s' ∧ s'.Chained ∧ Plan.OptimizeInv True kept s' := by
  induction loops generalizing s
  case zero          => exact ⟨s, rfl, hc, ho⟩
  case succ loops hi =>
    have hf : (s.plan.orderSteps s.plan.steps).fst = s.plan := hc.registry.orderSteps_fst
    have hm : ∀ r ∈ kept ++ (s.plan.orderSteps s.plan.steps).snd, r ∈ s.plan.steps := fun r hr =>
      (List.mem_append.mp hr).elim (ho.mem r) fun hr =>
        Plan.orderSteps_subset ho.inv.plan_acyclic (fun _ h => h) ho.inv.steps_dep hr
    simp only [Pass.LoopMeets, hf] at ha
    obtain ⟨s₁, h₁, hc₁, ho₁⟩ := optimizeSteps_settled (s := { s with changed := false })
      ⟨hc.registry, hc.target, hc.removed, hc.ends⟩ ⟨ho.inv, ho.dense, ho.side, hm⟩
      (List.subset_append_right ..) ha.left
    have ho₁ : Plan.OptimizeInv True kept s₁ :=
      ⟨ho₁.inv, ho₁.dense, ho₁.side, fun r hr => ho₁.mem r (List.mem_append_left _ hr)⟩
    simp only [Plan.optimize.loop, hf, h₁, Option.bind_eq_bind, Option.bind_some]
    split
    case isTrue hx => exact hi hc₁ ho₁ (ha.right s₁ h₁ hx)
    case isFalse   => exact ⟨s₁, rfl, hc₁, ho₁⟩

-- Conditions that a hook meets in all states are met in a run.
theorem loopMeets_settles {loops : Nat}
    (hh : ∀ s : Pass K, s.Chained → Plan.OptimizeInv True [] s → ∀ r, s.plan.view.Live r →
      Pass.CallSettles s r (hook s.plan r))
    (hc : s.Chained) (ho : Plan.OptimizeInv True [] s) : s.LoopMeets Pass.CallSettles hook loops := by
  apply Pass.loopMeets_of_inv (I := fun ordered s => s.Chained ∧ Plan.OptimizeInv True ordered s)
  · exact fun s h => ⟨h.right.start.left,
      ⟨h.left.registry, h.left.target, h.left.removed, h.left.ends⟩, h.right.start.right⟩
  · exact fun _ _ h => ⟨h.left, h.right.forget⟩
  · exact fun s _ r h hr hd => hh s h.left h.right.forget r ⟨h.right.mem r hr, hd⟩
  · intro s _ r h hr hm
    obtain ⟨s₁, h₁, hc₁, _⟩ := h.left.optimizeStep fun hd => (hm hd).left
    obtain ⟨s', h', ho₁⟩ := Plan.optimizeStep_ok h.right hr fun hl => (hm hl.right).right
    obtain rfl := Option.some.inj (h₁.symm.trans h')
    exact ⟨s₁, h₁, hc₁, ho₁⟩
  · exact ⟨hc, ho⟩

end Loop

section Shake

variable [StepClass K Key] {p : Plan K} {roots : List Ref} {r : Ref}

omit [StepClass K Key] in
theorem mem_orderSteps (hi : p.view.Inv) :
    r ∈ (p.orderSteps roots).snd ↔ ∃ root ∈ roots, ReflTransGen p.DependsOn root r := by
  have he : Graph.Edge p.dependencies (fun _ => false) = p.DependsOn := by
    funext x y
    simp [Graph.Edge, Plan.DependsOn]
  rw [Plan.mem_orderSteps_iff hi.plan_acyclic, Graph.Region, he]
  simp

omit [StepClass K Key] in
-- Ids tell apart the steps that are reached from steps of the plan.
theorem stepId_mem_orderSteps (hi : p.view.Inv) (hr : ∀ r ∈ roots, r ∈ p.steps) (h : r ∈ p.steps) :
    p.stepId r ∈ (p.orderSteps roots).snd.map p.stepId ↔
      ∃ root ∈ roots, ReflTransGen p.DependsOn root r := by
  rw [← mem_orderSteps hi, List.mem_map]
  constructor
  case mp  =>
    rintro ⟨s, hs, he⟩
    have hm : s ∈ p.steps := Plan.orderSteps_subset hi.plan_acyclic hr hi.steps_dep hs
    exact hi.ids s hm r h he ▸ hs
  case mpr => exact fun hr => ⟨r, hr, rfl⟩

-- What is left of a plan is what its roots and its side effects depend on.
theorem treeShake_steps (hi : p.view.Inv) (hr : ∀ r ∈ roots, r ∈ p.steps) :
    (p.treeShake roots).fst.dependencies = p.dependencies ∧
      (p.treeShake roots).fst.stepId = p.stepId ∧
      ∀ r, r ∈ (p.treeShake roots).fst.steps ↔
        ∃ root, (root ∈ roots ∨ root ∈ p.steps ∧ p.dedupable root = false) ∧
          ReflTransGen p.DependsOn root r := by
  have hs {r : Ref} (h : r ∈ p.steps.filter (¬ p.dedupable ·)) : r ∈ p.steps := List.mem_of_mem_filter h
  have h₁ := Plan.orderSteps_fst hi fun t h => hi.steps_seen t (hr t h)
  have h₂ := Plan.orderSteps_fst hi fun t h => hi.steps_seen t (hs h)
  simp only [Plan.treeShake, h₁, h₂]
  refine ⟨rfl, rfl, fun r => ?_⟩
  simp only [List.mem_filter, List.mem_append, decide_eq_true_eq]
  constructor
  case mp  =>
    rintro ⟨hm, hk | hk⟩
    · obtain ⟨root, hroot, hp⟩ := (stepId_mem_orderSteps hi hr hm).mp hk
      exact ⟨root, .inl hroot, hp⟩
    · obtain ⟨root, hroot, hp⟩ := (stepId_mem_orderSteps hi (fun _ => hs) hm).mp hk
      exact ⟨root, .inr (by simpa using List.mem_filter.mp hroot), hp⟩
  case mpr =>
    rintro ⟨root, hroot, hp⟩
    have hm : root ∈ p.steps := hroot.elim (hr root) And.left
    have hrm : r ∈ p.steps := by
      induction hp
      case refl        => exact hm
      case tail _ e ih => exact hi.steps_dep _ ih _ e
    obtain hroot | hroot := hroot
    · exact ⟨hrm, .inl ((stepId_mem_orderSteps hi hr hrm).mpr ⟨root, hroot, hp⟩)⟩
    · have hroot : root ∈ p.steps.filter (¬ p.dedupable ·) := by simpa using hroot
      exact ⟨hrm, .inr ((stepId_mem_orderSteps hi (fun _ => hs) hrm).mpr ⟨root, hroot, hp⟩)⟩

end Shake

section Merge

variable [StepClass K Key] {p q : Plan K} {k fuel : Nat} {m : Remap} {r : Ref}

omit [StepClass K Key] in
theorem follow_chain : ReflTransGen (Link (p.next m)) r (p.follow m fuel r) := by
  induction fuel generalizing r
  case zero         => exact .refl
  case succ fuel hi =>
    rw [Plan.follow]
    cases hm : m (p.stepId r)
    case none   => exact .refl
    case some s =>
      dsimp only
      split
      case isTrue  => exact .refl
      case isFalse => exact .head hm hi

-- The survivor of a step is the end of the chain of its merges.
theorem Plan.Merges.leads {c : Bool} (hp : p.view.Inv) (h : Plan.Merges p k q m) (hr : p.view.Live r) :
    Pass.Leads ⟨q, m, c⟩ r (p.follow m k r) where
  chain := by
    rw [← Plan.follow_congr (h.stepId hp)]
    exact follow_chain
  stop  := h.merged_live hp (h.follow_live hp hr)

-- What `deduplicate` does to the steps of a plan.
theorem Plan.deduplicate_leads [DecidableEq Key] {p : Plan K} (hp : p.view.Inv) (hs : p.Swept) :
    ∃ q m, Plan.deduplicate.loop (p.steps.length + 1) ⟨p, fun _ => none, true⟩ = ⟨q, m, false⟩ ∧
      p.deduplicate.fst = q.sweepDead ∧ q.view.Inv ∧ q.stepId = p.stepId ∧ q.kind = p.kind ∧
      (∀ r ∈ q.sweepDead.steps, r ∈ p.steps) ∧ ∀ r ∈ p.steps,
        ∃ e ∈ q.sweepDead.steps, p.deduplicate.snd (p.stepId r) = some e ∧ Pass.Leads ⟨q, m, false⟩ r e ∧
          (e = r ∨ p.dedupable r = true ∧ p.dedupable e = true) := by
  obtain ⟨k, q, m, hm, -, hl⟩ := Plan.deduplicate_loop_eq hp
  have hl := hl _ (Nat.lt_succ_self _)
  refine ⟨q, m, hl, by simp only [Plan.deduplicate, hl], hm.inv hp, hm.stepId hp, hm.kind hp,
    fun r hr => hm.steps hp ▸ List.mem_of_mem_filter hr, fun r hr => ?_⟩
  have hr' : p.view.Live r := hs.live_iff.mpr hr
  refine ⟨p.follow m k r, ?_, ?_, hm.leads hp hr', hm.follow_dedupable hp hr'⟩
  · exact Plan.sweepDead_swept.live_iff.mp (Plan.sweepDead_live_iff.mpr (hm.follow_live hp hr'))
  · simp only [Plan.deduplicate, hl, Plan.stepOf_stepId hp hr, Option.map_some]
    exact congrArg some (hm.follow_eq hp hr' (Nat.lt_succ_self _))

end Merge

variable [PlanStep K Key] [DecidableEq Key] {p q : Plan K} {t t' : OutputPlan T} {hook : Optimizer K}

-- A plan and a tree that are finalized: the tree has its shape but for its steps, which are the survivors
-- of those that it had before; the plan has just what these steps and the side effects depend on; and the
-- side effects that the optimizer has left are there. `s` and `s'` are the states in which `optimize` and
-- `deduplicate` end.
structure Finalized (t : OutputPlan T) (s s' : Pass K) (q : Plan K) (t' : OutputPlan T) : Prop where
  retargeted : ∃ σ : Ref → Ref, t'.shape id = t.shape σ ∧ ∀ r ∈ t.consumptionRootSteps,
    σ r ∈ q.steps ∧ ∃ mid, s.Leads r mid ∧ s'.Leads mid (σ r)
  kept       : ∀ r, r ∈ q.steps ↔ ∃ root,
    (root ∈ t'.consumptionRootSteps ∨ root ∈ s.plan.sweepDead.steps ∧ s.plan.dedupable root = false) ∧
      ReflTransGen q.DependsOn root r
  effects    : ∀ r ∈ s.plan.sweepDead.steps, s.plan.dedupable r = false → r ∈ q.steps

def FinalizeSound (hook : Optimizer K) (hoist : Bool) (p : Plan K) (t : OutputPlan T) : Prop :=
  ∃ s q t', Plan.optimize.loop hook Plan.maxOptimizationLoops ⟨p, fun _ => none, true⟩ = some s ∧
    finalizePlan hook hoist p t = some (q, t') ∧
    Finalized t s
      (Plan.deduplicate.loop (s.plan.sweepDead.steps.length + 1) ⟨s.plan.sweepDead, fun _ => none, true⟩) q t'

-- What follows the removal of steps.
def annotate (p : Plan K) (hoist : Bool) (effects : List Ref) (t : OutputPlan T) : OutputPlan T :=
  let t := if effects.isEmpty then t else t.attachEffectSteps p effects
  (if hoist then hoistSteps p t else t).populateLayers p

omit [DecidableEq Key] in
-- It changes nothing but the annotations of layers.
theorem shape_annotate {hoist : Bool} {effects : List Ref} :
    (annotate p hoist effects t).shape id = t.shape id := by
  have ha : (if effects.isEmpty then t else t.attachEffectSteps p effects).shape id = t.shape id := by
    split
    case isTrue  => rfl
    case isFalse => exact ObjectPlan.shape_rebuild (fun _ _ => rfl) t
  simp only [annotate]
  rw [ObjectPlan.populateLayers, ObjectPlan.shape_rebuild (fun _ _ => rfl)]
  split
  case isTrue  => exact (hoistLayer_shape ..).trans ha
  case isFalse => exact ha

-- The plan that is finalized, and the shape of its tree, from the end of the optimization on.
theorem finalizePlan_eq {hoist : Bool} {s : Pass K} {remap : Remap}
    (hl : Plan.optimize.loop hook Plan.maxOptimizationLoops ⟨p, fun _ => none, true⟩ = some s)
    (hq : s.plan.sweepDead.deduplicate.fst = q)
    (hr : q.composeRemaps (s.plan.resolveMerged s.merged) s.plan.sweepDead.deduplicate.snd = remap) :
    ∃ t', finalizePlan hook hoist p t =
        some ((q.treeShake (t.remap q remap).consumptionRootSteps).fst, t') ∧
      t'.shape id = t.shape fun r => (remap (q.stepId r)).getD r := by
  refine ⟨annotate (q.treeShake (t.remap q remap).consumptionRootSteps).fst hoist
    (q.treeShake (t.remap q remap).consumptionRootSteps).snd (t.remap q remap), ?_, ?_⟩
  case refine_1 =>
    simp only [finalizePlan, arrangePlan, Plan.optimize, hl, Option.bind_eq_bind, Option.bind_some,
      Option.pure_def, hq, hr]
    rfl
  case refine_2 => exact shape_annotate.trans (ObjectPlan.shape_rebuild (fun _ _ => rfl) t)

-- Where `finalizePlan` sends the steps of a tree.
def finalRemap (s : Pass K) (q : Plan K) : Remap :=
  q.composeRemaps (s.plan.resolveMerged s.merged) s.plan.sweepDead.deduplicate.snd

-- What is left after the optimization and the deduplication of a plan: each step has a survivor.
structure Settled (hook : Optimizer K) (p : Plan K) (s : Pass K) (q : Plan K) (m : Remap) : Prop where
  optimized    : Plan.optimize.loop hook Plan.maxOptimizationLoops ⟨p, fun _ => none, true⟩ = some s
  deduplicated : Plan.deduplicate.loop (s.plan.sweepDead.steps.length + 1)
    ⟨s.plan.sweepDead, fun _ => none, true⟩ = ⟨q, m, false⟩
  final        : s.plan.sweepDead.deduplicate.fst = q.sweepDead
  inv          : q.sweepDead.view.Inv
  effects      : ∀ r, r ∈ q.sweepDead.steps ∧ q.sweepDead.dedupable r = false ↔
    r ∈ s.plan.sweepDead.steps ∧ s.plan.dedupable r = false
  survivor     : ∀ r ∈ p.steps, (finalRemap s q.sweepDead (q.sweepDead.stepId r)).getD r ∈ q.sweepDead.steps ∧
    ∃ mid, s.Leads r mid ∧
      Pass.Leads ⟨q, m, false⟩ mid ((finalRemap s q.sweepDead (q.sweepDead.stepId r)).getD r)

theorem settled (hp : p.Growing) (hs : p.Swept)
    (ha : Pass.LoopMeets Pass.CallSettles hook Plan.maxOptimizationLoops ⟨p, fun _ => none, true⟩) :
    ∃ s q m, Settled hook p s q m := by
  have hreg : p.view.Registry := hp.inv.registry hp.dense (fun r hr => (hp.live r hr).left) hs
  obtain ⟨s, hl, hc, ho⟩ := optimize_loop_settled (Plan.chained_init hreg hs)
    ⟨hp.inv, fun _ => hp.dense, hp.side, fun _ => id⟩ ha
  obtain ⟨q, m, hd, hq, hi, hid, hk, hsub, hlead⟩ := Plan.deduplicate_leads (Plan.sweepDead_inv ho.inv)
    Plan.sweepDead_swept
  have hid : q.sweepDead.stepId = s.plan.stepId := hid
  have hdd (r : Ref) : q.sweepDead.dedupable r = s.plan.dedupable r :=
    congrArg (·.elim false StepClass.dedupable) (congrFun hk r)
  refine ⟨s, q, m, hl, hd, hq, Plan.sweepDead_inv hi, fun r => ?_, fun r hr => ?_⟩
  case refine_1 =>
    rw [hdd]
    refine and_congr_left fun hn => ⟨hsub r, fun hr => ?_⟩
    obtain ⟨e, he, _, _, rfl | ⟨hd, _⟩⟩ := hlead r hr
    · exact he
    · exact absurd (hn.symm.trans hd) Bool.noConfusion
  case refine_2 =>
    -- The two remaps together send each step to its final survivor.
    obtain ⟨e, he, hse, hre⟩ := hc.leads ((hc.registry.steps r).mp (ho.mem r hr))
    obtain ⟨e', he', hee, hqe, _⟩ := hlead e he
    have hσe : (finalRemap s q.sweepDead (q.sweepDead.stepId r)).getD r = e' := by
      simp only [finalRemap, Plan.composeRemaps, hid]
      cases hx : s.plan.resolveMerged s.merged (s.plan.stepId r)
      case none   =>
        rw [hx, Option.getD_none] at hre
        exact congrArg (·.getD r) (hre ▸ hee)
      case some x =>
        rw [hx, Option.getD_some] at hre
        exact congrArg (·.getD x) (hre ▸ hee)
    exact ⟨hσe ▸ he', e, hse, hσe ▸ hqe⟩

omit [DecidableEq Key] in
-- The remapped tree consumes the survivors.
theorem consumptionRootSteps_remap (q : Plan K) (remap : Remap) : (t.remap q remap).consumptionRootSteps =
    t.consumptionRootSteps.map fun r => (remap (q.stepId r)).getD r :=
  ObjectPlan.consumptionRootSteps_of_shape (ObjectPlan.shape_rebuild (fun _ _ => rfl) t)

theorem Settled.roots {s : Pass K} {m : Remap} (h : Settled hook p s q m)
    (ht : ∀ r ∈ t.consumptionRootSteps, r ∈ p.steps) :
    ∀ r ∈ (t.remap q.sweepDead (finalRemap s q.sweepDead)).consumptionRootSteps, r ∈ q.sweepDead.steps := by
  intro r hr
  obtain ⟨x, hx, rfl⟩ := List.mem_map.mp (consumptionRootSteps_remap q.sweepDead (finalRemap s q.sweepDead) ▸ hr)
  exact (h.survivor x (ht x hx)).left

theorem finalizePlan_sound {hoist : Bool} (hp : p.Growing) (hs : p.Swept)
    (ht : ∀ r ∈ t.consumptionRootSteps, r ∈ p.steps)
    (ha : Pass.LoopMeets Pass.CallSettles hook Plan.maxOptimizationLoops ⟨p, fun _ => none, true⟩) :
    FinalizeSound hook hoist p t := by
  obtain ⟨s, q, m, h⟩ := settled hp hs ha
  have hroots := consumptionRootSteps_remap (t := t) q.sweepDead (finalRemap s q.sweepDead)
  obtain ⟨hdep, -, hsteps⟩ := treeShake_steps h.inv (h.roots ht)
  obtain ⟨t', hfin, hshape⟩ : ∃ t', finalizePlan hook hoist p t = some (_, t') ∧ t'.shape id = t.shape _ :=
    finalizePlan_eq h.optimized h.final (show _ = finalRemap s q.sweepDead from rfl)
  refine ⟨s, _, t', h.optimized, hfin, ?_⟩
  rw [h.deduplicated]
  refine ⟨⟨_, hshape, fun r hr => ?_⟩, fun r => ?_, fun r hr hn => ?_⟩
  case refine_1 =>
    have hr' : _ ∈ (t.remap q.sweepDead (finalRemap s q.sweepDead)).consumptionRootSteps :=
      hroots ▸ List.mem_map_of_mem hr
    exact ⟨(hsteps _).mpr ⟨_, .inl hr', .refl⟩, (h.survivor r (ht r hr)).right⟩
  case refine_2 =>
    have hdo : (q.sweepDead.treeShake
        (t.remap q.sweepDead (finalRemap s q.sweepDead)).consumptionRootSteps).fst.DependsOn =
          q.sweepDead.DependsOn := by
      funext x y
      simp only [Plan.DependsOn, hdep]
    rw [hsteps, hdo, ObjectPlan.consumptionRootSteps_of_shape hshape, hroots]
    simp only [h.effects]
  case refine_3 => exact (hsteps r).mpr ⟨r, .inr ((h.effects r).mpr ⟨hr, hn⟩), .refl⟩

namespace Columns

inductive Kind
  | root
  | read (column : Nat)
  | write
  deriving DecidableEq

instance : PlanStep Kind Kind where
  key       := id
  dedupable := (· ≠ .write)
  isUnary _ := false
  hoistable := (· ≠ .write)
  isRoot    := (· = .root)
  isItem _  := false

def plan : Plan Kind :=
  (Plan.build [(.root, []), (.read 0, [0]), (.read 1, [0]), (.read 2, [0]), (.read 3, [3]), (.write, [1])]).getD
    .empty

def tree (fields : List Ref) : OutputPlan Unit :=
  ⟨fields.map fun step => ⟨"", "", step, .leaf (), none⟩, planLayer 0⟩

-- Reads another column in the place of the first one.
def fold : Optimizer Kind := fun p r =>
  if p.kind r = some (.read 0) then ([.construct (.read 1) (p.dependencies r)], p.heap.length) else ([], r)

-- Replaces a step by one that has been replaced already.
def stale : Optimizer Kind := fun _ r => ([], if r = 1 then 2 else if r = 3 then 1 else r)

theorem plan_growing : plan.Growing := by
  obtain ⟨p, hp, hi, hv, hl, hlive⟩ := Plan.build_inv [(Kind.root, []), (.read 0, [0]), (.read 1, [0]),
    (.read 2, [0]), (.read 3, [3]), (.write, [1])] (by decide)
  have hp : plan = p := by rw [plan, hp]; rfl
  exact ⟨hp ▸ hi, hp ▸ hv, rfl, fun r hr => hp ▸ hlive r (hl ▸ hi.seen_lt r (hp ▸ hr))⟩

theorem fold_settles {s : Pass Kind} (hc : s.Chained) (ho : Plan.OptimizeInv True [] s) (r : Ref)
    (hr : s.plan.view.Live r) : Pass.CallSettles s r (fold s.plan r) := by
  rw [fold]
  split
  case isTrue  =>
    exact ⟨hc.fresh_admits ho.side (ho.inv.dep_lt r) (ho.inv.steps_seen r hr.left),
      Plan.fresh_permitted ho.inv (ho.dense trivial) ho.side hr⟩
  case isFalse => exact ⟨Pass.keep_admits ho.side, Plan.keep_permitted ho.side⟩

-- The first column is replaced by a fresh read of the second one, which is merged with the other read.
theorem fold_finalized : FinalizeSound fold true plan (tree [1, 2]) :=
  finalizePlan_sound plan_growing rfl (by decide) <|
    loopMeets_settles (fun _ => fold_settles)
      (Plan.chained_init (plan_growing.inv.registry plan_growing.dense (by decide) rfl) rfl)
      ⟨plan_growing.inv, fun _ => plan_growing.dense, rfl, by simp⟩

-- The field of the tree depends on a step that is no longer in the plan.
theorem stale_not_finalized : ¬FinalizeSound stale false plan (tree [4]) := by
  rintro ⟨s, q, t', _, hf, hs⟩
  have hv : (finalizePlan stale false plan (tree [4])).map (fun x =>
      (x.fst.steps, x.fst.dependencies 4, x.snd.consumptionRootSteps)) =
        some ([0, 2, 4, 5], [1], [0, 4]) := by
    decide +kernel
  rw [hf, Option.map_some, Option.some.injEq, Prod.mk.injEq, Prod.mk.injEq] at hv
  obtain ⟨hq, hd, ht⟩ := hv
  have hd : q.DependsOn 4 1 := by simp only [Plan.DependsOn, hd, List.mem_singleton]
  have hm : 1 ∈ q.steps := (hs.kept 1).mpr ⟨4, .inl (ht ▸ by decide), .single hd⟩
  exact absurd (hq ▸ hm) (by decide)

end Columns

end Grafast
