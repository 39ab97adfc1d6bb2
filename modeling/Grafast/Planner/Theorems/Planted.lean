import Grafast.Planner.Theorems.Hoist
import Grafast.Planner.Theorems.Survivors

namespace Grafast

variable {T K Key : Type} {S S' E E' : Ref → Prop} {onStep : Ref → Ref}
  {onLayer : List Ref → LayerPlan → LayerPlan}

namespace ObjectPlan

-- A layer before it is hoisted, whose steps and effects are of the given sets.
structure Plain (S E : Ref → Prop) (op : OutputPlan T) : Prop where
  hoistedIn  : op.layer.hoistedIn = []
  hoistedOut : op.layer.hoistedOutIds = []
  parent     : S op.layer.parentStep
  fields     : ∀ f ∈ op.fields, S f.step
  effects    : ∀ s ∈ op.layer.effectSteps, E s
  child      : ∀ f ∈ op.fields, ∀ child, f.completer.findObject = some child → child.layer.parentStep = f.step

-- A tree of such layers.
inductive Planted (S E : Ref → Prop) : OutputPlan T → Prop
  | intro {op : OutputPlan T} : Plain S E op →
    (∀ f ∈ op.fields, ∀ child, f.completer.findObject = some child → Planted S E child) → Planted S E op

theorem Planted.plain {t : OutputPlan T} (h : t.Planted S E) : t.Plain S E := by
  cases h
  case intro h _ => exact h

theorem Planted.mono {t : OutputPlan T} (h : t.Planted S E) (hs : ∀ s, S s → S' s) (he : ∀ s, E s → E' s) :
    t.Planted S' E' := by
  induction h
  case intro hp _ ih =>
    exact .intro ⟨hp.hoistedIn, hp.hoistedOut, hs _ hp.parent, fun f hf => hs _ (hp.fields f hf),
      fun s hm => he s (hp.effects s hm), hp.child⟩ ih

theorem planted_of_has {t : OutputPlan T} (h : ∀ above op, t.Has above op → op.Plain S E) : t.Planted S E := by
  have hall : ∀ op : OutputPlan T, ∀ above, t.Has above op → op.Planted S E :=
    child_induction fun op ih above hp =>
      .intro (h above op hp) fun f hf child hc => ih f hf child hc _ (.child hp hf hc)
  exact hall t [] .top

-- A tree that is rebuilt over steps of another set.
theorem Planted.rebuild {t : OutputPlan T} (h : t.Planted S E) (hs : ∀ s, S s → S' (onStep s))
    (hp : ∀ steps layer, (onLayer steps layer).parentStep = onStep layer.parentStep)
    (hi : ∀ steps layer, (onLayer steps layer).hoistedIn = layer.hoistedIn)
    (ho : ∀ steps layer, (onLayer steps layer).hoistedOutIds = layer.hoistedOutIds)
    (he : ∀ steps layer, (∀ s ∈ layer.effectSteps, E s) → ∀ s ∈ (onLayer steps layer).effectSteps, E' s) :
    (t.rebuild onStep onLayer).Planted S' E' := by
  induction h
  case intro op hop _ ih =>
    have hf {f : FieldPlan T LayerPlan Ref} (hf : f ∈ (op.rebuild onStep onLayer).fields) : ∃ g ∈ op.fields,
        f.step = onStep g.step ∧ ∀ child, f.completer.findObject = some child →
          ∃ c, g.completer.findObject = some c ∧ c.rebuild onStep onLayer = child := by
      obtain ⟨g, hg, rfl⟩ := List.mem_map.mp (rebuild_fields op ▸ hf)
      exact ⟨g, hg, g.rebuild_step, fun child hc => Option.map_eq_some_iff.mp (g.rebuild_findObject ▸ hc)⟩
    refine .intro ⟨?_, ?_, ?_, ?_, ?_, ?_⟩ ?_
    case refine_1 => exact op.rebuild_layer ▸ (hi ..).trans hop.hoistedIn
    case refine_2 => exact op.rebuild_layer ▸ (ho ..).trans hop.hoistedOut
    case refine_3 => exact op.rebuild_layer ▸ hp .. ▸ hs _ hop.parent
    case refine_4 =>
      intro f hfm
      obtain ⟨g, hg, hstep, _⟩ := hf hfm
      exact hstep ▸ hs _ (hop.fields g hg)
    case refine_5 => exact op.rebuild_layer ▸ he _ _ hop.effects
    case refine_6 =>
      intro f hfm child hc
      obtain ⟨g, hg, hstep, hfc⟩ := hf hfm
      obtain ⟨c, hgc, rfl⟩ := hfc child hc
      rw [rebuild_layer, hp, hop.child g hg c hgc, hstep]
    case refine_7 =>
      intro f hfm child hc
      obtain ⟨g, hg, _, hfc⟩ := hf hfm
      obtain ⟨c, hgc, rfl⟩ := hfc child hc
      exact ih g hg c hgc

theorem Planted.path {t op : OutputPlan T} {above : List (OutputPlan T)} (h : t.Planted S E)
    (hp : t.Path (op :: above)) : op.Planted S E := by
  generalize hpath : op :: above = path at hp
  induction hp generalizing op above
  case top                     => exact (List.cons.inj hpath).left ▸ h
  case child outer _ _ _ hf hc ih =>
    cases ih rfl
    case intro ih => exact (List.cons.inj hpath).left ▸ ih _ hf _ hc

end ObjectPlan

variable [PlanStep K Key]

namespace Plan

-- What the planner makes of a plan: it adds steps.
structure Grows (p q : Plan K) : Prop where
  growing : q.Growing
  swept   : q.Swept
  length  : p.heap.length ≤ q.heap.length
  steps   : ∀ r ∈ p.steps, r ∈ q.steps

variable {p q : Plan K}

theorem Grows.trans {q' : Plan K} (h : Grows p q) (h' : Grows q q') : Grows p q' :=
  ⟨h'.growing, h'.swept, h.length.trans h'.length, fun r hr => h'.steps r (h.steps r hr)⟩

theorem constructAll_keeps (p : Plan K) (cs : List (K × List Ref)) :
    (p.constructAll cs).steps = p.steps ∧ (p.constructAll cs).deadIds = p.deadIds := by
  induction cs generalizing p
  case nil          => exact ⟨rfl, rfl⟩
  case cons c cs hi => exact ⟨(hi _).left.trans rfl, (hi _).right.trans rfl⟩

theorem Growing.grows_addStep {r : Ref} (h : p.Growing) (hs : p.Swept) (hr : r < p.heap.length)
    (hq : p.addStep r = some q) : Grows p q ∧ r ∈ q.steps := by
  obtain ⟨_, he, hg, hl, hlive⟩ := h.addStep hr
  obtain rfl := Option.some.inj (he.symm.trans hq)
  obtain ⟨_, he, hx, _⟩ := addStep_registers h.inv h.dense (h.sound hr)
  obtain rfl := Option.some.inj (he.symm.trans hq)
  have hreg : p.view.Registry := h.inv.registry h.dense (fun r hr => (h.live r hr).left) hs
  obtain ⟨_, he, ha, _⟩ := addStep_adds hreg hr
  obtain rfl := Option.some.inj (he.symm.trans hq)
  exact ⟨⟨hg, ha.deadIds.trans hs, hl.ge, hx.extends_v.steps⟩, hlive.left⟩

end Plan

section PlanOutput

variable {p q : Plan K} {parentStep step : Ref} {planFn : PlanFn K} {abstractChildPlan : T → T → OutputPlan T}

theorem planField_grows (h : p.Growing) (hs : p.Swept) (hp : parentStep < p.heap.length)
    (hf : planFn.Permitted) (hq : planField planFn p parentStep = some (q, step)) :
    p.Grows q ∧ step < q.heap.length ∧ step ∈ q.steps := by
  simp only [planField, Option.bind_eq_bind, Option.bind_eq_some_iff] at hq
  obtain ⟨q', hq', hq⟩ := hq
  obtain ⟨rfl, rfl⟩ := Prod.ext_iff.mp (Option.some.inj hq)
  obtain ⟨hc, hl⟩ := hf p parentStep hp
  obtain ⟨hg, hlen⟩ := h.constructAll hc
  obtain ⟨hsteps, hdead⟩ := p.constructAll_keeps (planFn p parentStep).fst
  have hl := hlen ▸ hl
  obtain ⟨hgrow, hm⟩ := hg.grows_addStep (hdead.trans hs) hl hq'
  refine ⟨⟨hgrow.growing, hgrow.swept, ?_, fun r hr => hgrow.steps r (hsteps ▸ hr)⟩,
    hl.trans_le hgrow.length, hm⟩
  exact (Nat.le_add_right ..).trans (hlen ▸ hgrow.length)

theorem OutputType.buildCompleter_findObject {type : OutputType T} {child c : OutputPlan T}
    {abstractChildPlan : T → T → OutputPlan T}
    (h : (type.buildCompleter child abstractChildPlan).findObject = some c) : c = child := by
  induction type
  case leaf           => cases h
  case object         => exact (Option.some.inj h).symm
  case abstract       => cases h
  case list _ hi      => exact hi h
  case nonNull _ hi   => exact hi h

-- The fields of an object plan, as they are planned.
def FieldsPlanted (S : Ref → Prop) (fields : List (FieldPlan T LayerPlan Ref)) : Prop :=
  ∀ f ∈ fields, S f.step ∧ ∀ child, f.completer.findObject = some child →
    child.layer.parentStep = f.step ∧ child.Planted S fun _ => False

omit [PlanStep K Key] in
theorem FieldsPlanted.object {fields : List (FieldPlan T LayerPlan Ref)} (h : FieldsPlanted S fields)
    (hp : S parentStep) : (⟨fields, planLayer parentStep⟩ : OutputPlan T).Planted S fun _ => False :=
  .intro ⟨rfl, rfl, hp, fun f hf => (h f hf).left, fun _ hs => absurd hs List.not_mem_nil,
      fun f hf child hc => ((h f hf).right child hc).left⟩
    fun f hf child hc => ((h f hf).right child hc).right

theorem FieldsPlanted.mono {fields : List (FieldPlan T LayerPlan Ref)} (h : FieldsPlanted S fields)
    (hs : ∀ s, S s → S' s) : FieldsPlanted S' fields :=
  fun f hf => ⟨hs _ (h f hf).left, fun child hc =>
    ⟨((h f hf).right child hc).left, ((h f hf).right child hc).right.mono hs fun _ => id⟩⟩

mutual

theorem planFields_planted {p q : Plan K} {parentStep : Ref} (h : p.Growing) (hs : p.Swept)
    (hp : parentStep < p.heap.length) : (fields : List (Selection T K)) → SelectionsPermitted fields →
    {fs : List (FieldPlan T LayerPlan Ref)} → planFields abstractChildPlan p parentStep fields = some (q, fs) →
    p.Grows q ∧ FieldsPlanted (· ∈ q.steps) fs
  | [], _, _, hq      => by
    obtain ⟨rfl, rfl⟩ := Prod.ext_iff.mp (Option.some.inj hq)
    exact ⟨⟨h, hs, le_rfl, fun _ hr => hr⟩, fun f hf => absurd hf List.not_mem_nil⟩
  | f :: fs, hf, _, hq => by
    simp only [planFields, Option.bind_eq_bind, Option.bind_eq_some_iff] at hq
    obtain ⟨⟨p₁, field⟩, h₁, ⟨p₂, fields⟩, h₂, hq⟩ := hq
    obtain ⟨rfl, rfl⟩ := Prod.ext_iff.mp (Option.some.inj hq)
    obtain ⟨hg₁, hf₁⟩ := planSelection_planted h hs hp f hf.left h₁
    obtain ⟨hg₂, hf₂⟩ := planFields_planted hg₁.growing hg₁.swept (hp.trans_le hg₁.length) fs hf.right h₂
    refine ⟨hg₁.trans hg₂, fun g hg => ?_⟩
    cases List.mem_cons.mp hg
    case inl he => exact hf₁.mono hg₂.steps g (List.mem_singleton.mpr he)
    case inr hm => exact hf₂ g hm

theorem planSelection_planted {p q : Plan K} {parentStep : Ref} (h : p.Growing) (hs : p.Swept)
    (hp : parentStep < p.heap.length) : (f : Selection T K) → f.Permitted →
    {field : FieldPlan T LayerPlan Ref} → planSelection abstractChildPlan p parentStep f = some (q, field) →
    p.Grows q ∧ FieldsPlanted (· ∈ q.steps) [field]
  | .field _ _ type planFn adapter _ subfields, hf, _, hq => by
    have hfn : PlanFn.Permitted (planFn.getD (resolveStep adapter)) := by
      cases hp : planFn
      case none   => exact resolveStep_permitted
      case some f => exact hf.left f hp
    have hfield {p₁ p₂ : Plan K} {step : Ref} {fields : List (FieldPlan T LayerPlan Ref)}
        (hg : p.Grows p₁) (hm : step ∈ p₁.steps) (h : p₁.Grows p₂ ∧ FieldsPlanted (· ∈ p₂.steps) fields)
        {name label : String} {stream : Option StreamDirective} : p.Grows p₂ ∧ FieldsPlanted (· ∈ p₂.steps)
          [⟨name, label, step, type.buildCompleter ⟨fields, planLayer step⟩ abstractChildPlan, stream⟩] := by
      refine ⟨hg.trans h.left, fun f hf => ?_⟩
      obtain rfl := List.mem_singleton.mp hf
      refine ⟨h.left.steps _ hm, fun child hc => ?_⟩
      obtain rfl := OutputType.buildCompleter_findObject hc
      exact ⟨rfl, h.right.object (h.left.steps _ hm)⟩
    by_cases ho : type.isObject
    case pos =>
      simp only [planSelection, ho, if_true, Option.bind_eq_bind, Option.bind_eq_some_iff] at hq
      obtain ⟨⟨p₁, step⟩, h₁, ⟨p₂, fields⟩, h₂, hq⟩ := hq
      obtain ⟨rfl, rfl⟩ := Prod.ext_iff.mp (Option.some.inj hq)
      obtain ⟨hg₁, hl₁, hm₁⟩ := planField_grows h hs hp hfn h₁
      exact hfield hg₁ hm₁ (planFields_planted hg₁.growing hg₁.swept hl₁ subfields hf.right h₂)
    case neg =>
      simp only [planSelection, ho, Bool.false_eq_true, if_false, Option.bind_eq_bind,
        Option.bind_eq_some_iff] at hq
      obtain ⟨⟨p₁, step⟩, h₁, _, he, hq⟩ := hq
      cases he
      obtain ⟨rfl, rfl⟩ := Prod.ext_iff.mp (Option.some.inj hq)
      obtain ⟨hg₁, _, hm₁⟩ := planField_grows h hs hp hfn h₁
      exact hfield hg₁ hm₁ ⟨⟨hg₁.growing, hg₁.swept, le_rfl, fun _ hr => hr⟩, fun f hf => absurd hf List.not_mem_nil⟩

end

-- What the planner puts out is a planted tree over a plan in which nothing has been removed.
theorem OperationDefinition.planOutput_planted {o : OperationDefinition T K} {t : OutputPlan T}
    (ho : o.Permitted) (h : o.planOutput = some (p, t)) :
    p.Growing ∧ p.Swept ∧ t.Planted (· ∈ p.steps) fun _ => False := by
  have he : (Plan.empty.construct o.rootStep []).Growing := Plan.Growing.empty.construct (by simp)
  simp only [planOutput, Option.bind_eq_bind, Option.bind_eq_some_iff, planObject] at h
  obtain ⟨p₀, h₀, ⟨p₁, fields⟩, h₁, h⟩ := h
  obtain ⟨rfl, rfl⟩ := Prod.ext_iff.mp (Option.some.inj h)
  obtain ⟨hg, hm⟩ := he.grows_addStep rfl (r := 0) (by simp [Plan.construct]) h₀
  have hl : 0 < p₀.heap.length := hg.length.trans_lt' (by simp [Plan.construct])
  obtain ⟨hg₁, hf⟩ := planFields_planted hg.growing hg.swept hl o.rootFields ho h₁
  exact ⟨hg₁.growing, hg₁.swept, hf.object (hg₁.steps 0 hm)⟩

end PlanOutput

section Arrange

variable {p q : Plan K} {t : OutputPlan T} {hook : Optimizer K}

omit [PlanStep K Key] in
theorem ObjectPlan.Planted.has {op : OutputPlan T} {above : List Ref} (h : t.Planted S E)
    (hp : t.Has above op) : op.Planted S E := by
  induction hp
  case top            => exact h
  case child hf hc ih =>
    cases ih
    case intro ih => exact ih _ hf _ hc

-- The executor consumes the parent steps and the field steps of the layers of a tree.
omit [PlanStep K Key] in
theorem ObjectPlan.Has.consumed {op : OutputPlan T} {above : List Ref} (h : t.Has above op) :
    op.layer.parentStep ∈ t.consumptionRootSteps ∧ ∀ f ∈ op.fields, f.step ∈ t.consumptionRootSteps := by
  have hm := ObjectPlan.mem_scopes_iff.mpr h
  exact ⟨List.mem_flatMap.mpr ⟨_, hm, .head _⟩,
    fun f hf => List.mem_flatMap.mpr ⟨_, hm, .tail _ (List.mem_map_of_mem hf)⟩⟩

omit [PlanStep K Key] in
theorem ObjectPlan.Planted.roots (h : t.Planted S E) : ∀ r ∈ t.consumptionRootSteps, S r := by
  intro r hr
  obtain ⟨⟨above, op⟩, hm, hr⟩ := List.mem_flatMap.mp hr
  have hp := (h.has (ObjectPlan.mem_scopes_iff.mp hm)).plain
  obtain rfl | hr := List.mem_cons.mp hr
  · exact hp.parent
  · obtain ⟨f, hf, rfl⟩ := List.mem_map.mp hr
    exact hp.fields f hf

-- The steps of a tree are steps of any set that holds those that the executor consumes.
omit [PlanStep K Key] in
theorem ObjectPlan.Planted.consumed (h : t.Planted S E) (hs : ∀ r ∈ t.consumptionRootSteps, S' r) :
    t.Planted S' E := by
  refine planted_of_has fun above op hp => ?_
  have hop := (h.has hp).plain
  exact ⟨hop.hoistedIn, hop.hoistedOut, hs _ hp.consumed.left, fun f hf => hs _ (hp.consumed.right f hf),
    hop.effects, hop.child⟩

-- The effects that are attached are steps of the plan that is left.
theorem mem_treeShake_effects {roots : List Ref} (hi : p.view.Inv) (hr : ∀ r ∈ roots, r ∈ p.steps) {effect : Ref}
    (h : effect ∈ (p.treeShake roots).snd) : effect ∈ (p.treeShake roots).fst.steps := by
  have hs {r : Ref} (h : r ∈ p.steps.filter (¬ p.dedupable ·)) : r ∈ p.steps := List.mem_of_mem_filter h
  have h₁ := Plan.orderSteps_fst hi fun t h => hi.steps_seen t (hr t h)
  have h₂ := Plan.orderSteps_fst hi fun t h => hi.steps_seen t (hs h)
  refine ((treeShake_steps hi hr).right.right effect).mpr ⟨effect, .inr ?_, .refl⟩
  simp only [Plan.treeShake, h₁, h₂] at h
  simpa using List.mem_filter.mp (List.mem_of_mem_filter h)

variable [DecidableEq Key]

-- The plan and the tree that an operation arrives at before hoisting.
theorem arrangePlan_planted (hp : p.Growing) (hs : p.Swept) (ht : t.Planted (· ∈ p.steps) fun _ => False)
    (ha : Pass.LoopMeets Pass.CallSettles hook Plan.maxOptimizationLoops ⟨p, fun _ => none, true⟩) :
    ∃ q t', q.view.Inv ∧ t'.Planted (· ∈ q.steps) (· ∈ q.steps) ∧
      ∀ hoist, arrangePlan hook hoist p t = some (q, if hoist then hoistSteps q t' else t') := by
  obtain ⟨s, q, m, h⟩ := settled hp hs ha
  let remapped := t.remap q.sweepDead (finalRemap s q.sweepDead)
  let shaken := q.sweepDead.treeShake remapped.consumptionRootSteps
  have hr : ∀ r ∈ remapped.consumptionRootSteps, r ∈ q.sweepDead.steps := h.roots ht.roots
  have hplanted : remapped.Planted (· ∈ shaken.fst.steps) fun _ => False := by
    have hremap : remapped.Planted (· ∈ q.sweepDead.steps) fun _ => False :=
      ht.rebuild (fun r hr => (h.survivor r hr).left) (fun _ _ => rfl) (fun _ _ => rfl) (fun _ _ => rfl)
        fun _ _ he => he
    exact hremap.consumed fun r hm => ((treeShake_steps h.inv hr).right.right r).mpr ⟨r, .inl hm, .refl⟩
  refine ⟨shaken.fst, if shaken.snd.isEmpty then remapped else remapped.attachEffectSteps shaken.fst shaken.snd,
    (Plan.treeShake_inv h.inv hr).left, ?_, fun hoist => ?_⟩
  case refine_1 =>
    split
    case isTrue  => exact hplanted.mono (fun _ => id) fun _ => False.elim
    case isFalse =>
      refine hplanted.rebuild (fun _ => id) (fun _ _ => rfl) (fun _ _ => rfl) (fun _ _ => rfl) ?_
      intro _ layer he effect hm
      obtain hm | hm := List.mem_append.mp hm
      · exact (he effect hm).elim
      · exact mem_treeShake_effects h.inv hr (List.mem_of_mem_filter hm)
  case refine_2 =>
    have ho : p.optimize hook = some (s.plan.sweepDead, s.plan.resolveMerged s.merged) := by
      simp only [Plan.optimize, h.optimized, Option.bind_eq_bind, Option.bind_some, Option.pure_def]
    simp only [arrangePlan, ho, Option.bind_eq_bind, Option.bind_some, h.final, Option.pure_def]
    rfl

end Arrange

end Grafast
