import Grafast.Dag.Theorems.Deduplicate

namespace Grafast

open Relation (TransGen ReflTransGen)

namespace Plan

variable {K Key : Type} [StepClass K Key]

-- What an operation preserves on the way from `p` to `q`.
structure Keeps (p q : Plan K) : Prop where
  inv   : q.view.Inv
  dense : p.view.Dense → q.view.Dense
  steps : ∀ r ∈ p.steps, r ∈ q.steps

-- A step that is not registered yet can be registered.
def Registrable (p : Plan K) (r : Ref) : Prop :=
  p.view.Dense ∧ p.view.Sound r

-- The conditions under which one action of a hook keeps the invariant.
def Permitted (p : Plan K) : HookAction K → Prop
  | .construct _ deps        => ∀ d ∈ deps, d < p.heap.length
  | .addStep r               => r ∉ p.seen → p.Registrable r
  | .eradicate dead survivor => dead = survivor ∨ p.view.Replaceable dead survivor
  | .recordReplacement _ _   => True

-- Every action of a sequence is permitted in the plan that it finds.
def AllPermitted : Plan K → List (HookAction K) → Prop
  | _, []      => True
  | p, a :: as => p.Permitted a ∧ ∀ q, p.perform a = some q → AllPermitted q as

-- `new` can take the place of `old`, be it a step of the plan or a fresh one.
def ReplacePermitted (p : Plan K) (old new : Ref) : Prop :=
  (p.stepId new = none → p.Registrable new) ∧
    ∀ q, p.registerFresh new = some q → old = new ∨ q.view.Replaceable old new

def AllReplacePermitted : Plan K → List (Ref × Ref) → Prop
  | _, []              => True
  | p, (old, new) :: l => p.ReplacePermitted old new ∧
    ∀ q, p.replace old new = some q → AllReplacePermitted q l

-- What one call of a hook may do: permitted actions, side replacements that are permitted when they
-- are drained, and the return of the step itself or of a permitted replacement.
structure HookPermitted (p : Plan K) (step : Ref) (call : List (HookAction K) × Ref) : Prop where
  actions  : p.AllPermitted call.fst
  side     : ∀ q, call.fst.foldlM perform p = some q → q.AllReplacePermitted q.sideReplacements
  returned : ∀ q m c s, call.fst.foldlM perform p = some q → drain ⟨q, m, c⟩ = some s →
    call.snd = step ∨ s.plan.ReplacePermitted step call.snd

namespace Keeps

variable {p q q' : Plan K} {r : Ref}

omit [StepClass K Key] in
theorem refl (hi : p.view.Inv) : Keeps p p where
  inv       := hi
  dense h   := h
  steps _ h := h

omit [StepClass K Key] in
theorem replacements (hi : p.view.Inv) (l : List (Ref × Ref)) :
    Keeps p { p with sideReplacements := l } where
  inv       := View.Inv.replacements hi l
  dense h   := ⟨h.steps, h.dead⟩
  steps _ h := h

omit [StepClass K Key] in
theorem trans (h : Keeps p q) (h' : Keeps q q') : Keeps p q' where
  inv       := h'.inv
  dense     := h'.dense ∘ h.dense
  steps r   := h'.steps r ∘ h.steps r

omit [StepClass K Key] in
theorem addStep (hi : p.view.Inv) (hr : r ∉ p.seen → p.Registrable r) :
    ∃ q, p.addStep r = some q ∧ Keeps p q ∧ q.sideReplacements = p.sideReplacements := by
  by_cases h : r ∈ p.seen
  case pos => exact ⟨p, addStep_of_seen h, .refl hi, rfl⟩
  case neg =>
    have ⟨hv, hs⟩ := hr h
    have ⟨q, hq, hreg, _⟩ := addStep_registers hi hv hs
    exact ⟨q, hq, ⟨hreg.inv, fun _ => hreg.dense, hreg.extends_v.steps⟩, hreg.extends_v.replacements⟩

omit [StepClass K Key] in
theorem eradicate {dead survivor : Ref} (hi : p.view.Inv)
    (h : dead = survivor ∨ p.view.Replaceable dead survivor) :
    Keeps p (p.eradicate dead survivor) ∧
      (p.eradicate dead survivor).sideReplacements = p.sideReplacements := by
  cases h
  case inl h =>
    rw [← h, eradicate_self]
    exact ⟨.refl hi, rfl⟩
  case inr h =>
    have hv := eradicate_view_eq hi h
    refine ⟨⟨eradicate_view_inv hi h, fun hd => ?_, fun r hr => ?_⟩, congrArg View.replacements hv⟩
    · rw [hv]
      refine ⟨hd.steps, fun n hn => ?_⟩
      cases List.mem_cons.mp hn
      case inl hn => exact hd.steps dead h.mem n hn.symm
      case inr hn => exact hd.dead n hn
    · exact (eradicate_steps hi h).symm ▸ hr

theorem construct {kind : K} {deps : List Ref} (hi : p.view.Inv)
    (hd : ∀ d ∈ deps, d < p.heap.length) : Keeps p (p.construct kind deps) := by
  have hv : (p.construct kind deps).view = p.view.construct kind deps := construct_view
  constructor
  case inv   => exact hv ▸ View.construct_inv hi hd
  case dense => exact fun h => hv ▸ ⟨h.steps, h.dead⟩
  case steps => exact fun _ h => h

theorem perform {a : HookAction K} (hi : p.view.Inv) (h : p.Permitted a) :
    ∃ q, p.perform a = some q ∧ Keeps p q := by
  cases a
  case construct kind deps         => exact ⟨_, rfl, .construct hi h⟩
  case addStep r                   =>
    have ⟨q, hq, hk, _⟩ := addStep hi h
    exact ⟨q, hq, hk⟩
  case eradicate dead survivor     => exact ⟨_, rfl, (eradicate hi h).left⟩
  case recordReplacement old new   => exact ⟨_, rfl, .replacements hi _⟩

theorem performAll {as : List (HookAction K)} (hi : p.view.Inv) (h : p.AllPermitted as) :
    ∃ q, as.foldlM Plan.perform p = some q ∧ Keeps p q := by
  induction as generalizing p
  case nil => exact ⟨p, rfl, .refl hi⟩
  case cons a as ih =>
    have ⟨q, hq, hk⟩ := perform hi h.left
    have ⟨q', hq', hk'⟩ := ih hk.inv (h.right q hq)
    exact ⟨q', by simp [List.foldlM_cons, hq, hq'], hk.trans hk'⟩

omit [StepClass K Key] in
theorem replace {old new : Ref} (hi : p.view.Inv) (h : p.ReplacePermitted old new) :
    ∃ q, p.replace old new = some q ∧ Keeps p q ∧ q.sideReplacements = p.sideReplacements := by
  have ⟨q, hq, hk, hs⟩ : ∃ q, p.registerFresh new = some q ∧ Keeps p q ∧
      q.sideReplacements = p.sideReplacements := by
    unfold registerFresh
    split
    case isTrue hn => exact addStep hi fun _ => h.left hn
    case isFalse   => exact ⟨p, rfl, .refl hi, rfl⟩
  have ⟨he, hs'⟩ := eradicate hk.inv (h.right q hq)
  exact ⟨_, by simp [Plan.replace, hq], hk.trans he, hs'.trans hs⟩

end Keeps

-- The state of an `optimize` pass over the steps `ordered`. `D` says that the plan has to be dense.
structure OptimizeInv (D : Prop) (ordered : List Ref) (s : Pass K) : Prop where
  inv   : s.plan.view.Inv
  dense : D → s.plan.view.Dense
  side  : s.plan.sideReplacements = []
  mem   : ∀ r ∈ ordered, r ∈ s.plan.steps

omit [StepClass K Key] in
theorem foldlM_replaceIn {s : Pass K} {l : List (Ref × Ref)} (hi : s.plan.view.Inv)
    (h : s.plan.AllReplacePermitted l) :
    ∃ s', l.foldlM (fun s (old, new) => replaceIn s old new) s = some s' ∧ Keeps s.plan s'.plan := by
  induction l generalizing s
  case nil => exact ⟨s, rfl, .refl hi⟩
  case cons e l ih =>
    have ⟨q, hq, hk, _⟩ := Keeps.replace hi h.left
    let m := Function.update s.merged (q.stepId e.fst) (some e.snd)
    have ⟨s', hs', hk'⟩ := ih (s := ⟨q, m, true⟩) hk.inv (h.right q hq)
    refine ⟨s', ?_, hk.trans hk'⟩
    simp only [List.foldlM_cons, replaceIn, hq]
    exact hs'

omit [StepClass K Key] in
theorem drain_ok {s : Pass K} (hi : s.plan.view.Inv)
    (h : s.plan.AllReplacePermitted s.plan.sideReplacements) :
    ∃ s', drain s = some s' ∧ Keeps s.plan s'.plan ∧ s'.plan.sideReplacements = [] := by
  have ⟨s', hs', hk⟩ := foldlM_replaceIn hi h
  exact ⟨_, by simp [drain, hs']; rfl, hk.trans (.replacements hk.inv []), rfl⟩

variable {hook : Optimizer K} {D : Prop} {ordered : List Ref} {s : Pass K} {r : Ref}

theorem optimizeStep_ok (h : OptimizeInv D ordered s) (hr : r ∈ ordered)
    (hh : s.plan.view.Live r → s.plan.HookPermitted r (hook s.plan r)) :
    ∃ s', optimizeStep hook s r = some s' ∧ OptimizeInv D ordered s' := by
  unfold optimizeStep
  split
  case isTrue => exact ⟨s, rfl, h⟩
  case isFalse hd =>
    have hp := hh ⟨h.mem r hr, hd⟩
    have ⟨q, hq, hk⟩ := Keeps.performAll h.inv hp.actions
    have ⟨s₁, hs₁, hk₁, he₁⟩ := drain_ok (s := { s with plan := q }) hk.inv (hp.side q hq)
    have hk' := hk.trans hk₁
    have hi₁ : OptimizeInv D ordered s₁ :=
      ⟨hk'.inv, fun hD => hk'.dense (h.dense hD), he₁, fun t ht => hk'.steps t (h.mem t ht)⟩
    simp only [hq, hs₁, Option.bind_eq_bind, Option.bind_some]
    split
    case isTrue => exact ⟨s₁, rfl, hi₁⟩
    case isFalse hne =>
      have hret := (hp.returned q _ _ s₁ hq hs₁).resolve_left hne
      have ⟨q₂, hq₂, hk₂, he₂⟩ := Keeps.replace hi₁.inv hret
      refine ⟨_, by simp [replaceIn, hq₂]; rfl, ⟨hk₂.inv, ?_, he₂.trans he₁, ?_⟩⟩
      · exact fun hD => hk₂.dense (hi₁.dense hD)
      · exact fun t ht => hk₂.steps t (hi₁.mem t ht)

end Plan

namespace Pass

variable {K Key : Type} [StepClass K Key]

-- Conditions on a run of `optimize`: each call of the hook meets them in the state that it finds.
abbrev CallCondition (K : Type) := Pass K → Ref → List (HookAction K) × Ref → Prop

def StepMeets (c : CallCondition K) (hook : Optimizer K) (s : Pass K) (step : Ref) : Prop :=
  s.plan.stepId step ∉ s.plan.deadIds → c s step (hook s.plan step)

def RunMeets (c : CallCondition K) (hook : Optimizer K) : Pass K → List Ref → Prop
  | _, []            => True
  | s, step :: steps => s.StepMeets c hook step ∧
    ∀ s', Plan.optimizeStep hook s step = some s' → RunMeets c hook s' steps

def LoopMeets (c : CallCondition K) (hook : Optimizer K) : Nat → Pass K → Prop
  | 0,         _ => True
  | loops + 1, s =>
    let (plan, ordered) := s.plan.orderSteps s.plan.steps
    RunMeets c hook { s with plan, changed := false } ordered ∧
      ∀ s', ordered.foldlM (Plan.optimizeStep hook) { s with plan, changed := false } = some s' →
        s'.changed = true → LoopMeets c hook loops s'

-- The conditions on a call of a hook that keeps the graph of the plan sound.
def CallPermitted : CallCondition K :=
  fun s step call => s.plan.HookPermitted step call

section

variable {c : CallCondition K} {I : List Ref → Pass K → Prop} {hook : Optimizer K} {ordered : List Ref}
  {s : Pass K}

-- Conditions that a hook meets in the states of an invariant are met in a run that keeps the invariant.
theorem runMeets_of_inv {steps : List Ref} (hm : ∀ s r, I ordered s → r ∈ ordered → s.StepMeets c hook r)
    (hk : ∀ s r, I ordered s → r ∈ ordered → s.StepMeets c hook r →
      ∃ s', Plan.optimizeStep hook s r = some s' ∧ I ordered s')
    (hs : steps ⊆ ordered) (h : I ordered s) :
    s.RunMeets c hook steps ∧
      ∀ s', steps.foldlM (Plan.optimizeStep hook) s = some s' → I ordered s' := by
  induction steps generalizing s
  case nil                =>
    refine ⟨trivial, fun s' he => ?_⟩
    obtain rfl := Option.some.inj he
    exact h
  case cons step steps hi =>
    have ⟨hr, hs⟩ := List.cons_subset.mp hs
    have hstep := hm s step h hr
    have ⟨s₁, h₁, hi₁⟩ := hk s step h hr hstep
    refine ⟨⟨hstep, fun s' he => ?_⟩, fun s' he => ?_⟩
    · obtain rfl := Option.some.inj (h₁.symm.trans he)
      exact (hi hs hi₁).left
    · rw [List.foldlM_cons, h₁] at he
      exact (hi hs hi₁).right s' he

theorem loopMeets_of_inv {loops : Nat}
    (hb : ∀ s, I [] s → (s.plan.orderSteps s.plan.steps).fst = s.plan ∧
      I (s.plan.orderSteps s.plan.steps).snd { s with changed := false })
    (he : ∀ s ordered, I ordered s → I [] s)
    (hm : ∀ s ordered r, I ordered s → r ∈ ordered → s.StepMeets c hook r)
    (hk : ∀ s ordered r, I ordered s → r ∈ ordered → s.StepMeets c hook r →
      ∃ s', Plan.optimizeStep hook s r = some s' ∧ I ordered s')
    (h : I [] s) : s.LoopMeets c hook loops := by
  induction loops generalizing s
  case zero          => trivial
  case succ loops hi =>
    have ⟨hf, hb⟩ := hb s h
    have ⟨ha, hn⟩ := runMeets_of_inv (fun s r => hm s _ r) (fun s r => hk s _ r) (List.Subset.refl _) hb
    simp only [LoopMeets, hf]
    exact ⟨ha, fun s' hs _ => hi (he s' _ (hn s' hs))⟩

end

end Pass

namespace Plan

variable {K Key : Type} [StepClass K Key] {hook : Optimizer K} {D : Prop} {ordered : List Ref} {s : Pass K}

theorem foldlM_optimizeStep (h : OptimizeInv D ordered s) {rs : List Ref} (hr : rs ⊆ ordered)
    (hh : s.RunMeets Pass.CallPermitted hook rs) :
    ∃ s', rs.foldlM (optimizeStep hook) s = some s' ∧ OptimizeInv D ordered s' := by
  induction rs generalizing s
  case nil => exact ⟨s, rfl, h⟩
  case cons r rs ih =>
    have ⟨hm, hs⟩ := List.cons_subset.mp hr
    have ⟨s₁, hs₁, h₁⟩ := optimizeStep_ok h hm fun hl => hh.left hl.right
    have ⟨s₂, hs₂, h₂⟩ := ih h₁ hs (hh.right s₁ hs₁)
    exact ⟨s₂, by simp [List.foldlM_cons, hs₁, hs₂], h₂⟩

-- Each iteration starts from the steps of the plan in dependency order.
theorem OptimizeInv.start (h : OptimizeInv D [] s) :
    (s.plan.orderSteps s.plan.steps).fst = s.plan ∧
      OptimizeInv D (s.plan.orderSteps s.plan.steps).snd { s with changed := false } :=
  have hm : ∀ r ∈ (s.plan.orderSteps s.plan.steps).snd, r ∈ s.plan.steps := fun _ hr =>
    orderSteps_subset h.inv.plan_acyclic (fun _ h => h) h.inv.steps_dep hr
  ⟨orderSteps_fst h.inv h.inv.steps_seen, h.inv, h.dense, h.side, hm⟩

theorem OptimizeInv.forget (h : OptimizeInv D ordered s) : OptimizeInv D [] s :=
  ⟨h.inv, h.dense, h.side, fun _ hr => absurd hr List.not_mem_nil⟩

theorem optimize_loop_ok (loops : Nat) (h : OptimizeInv D [] s)
    (hh : s.LoopMeets Pass.CallPermitted hook loops) :
    ∃ s', optimize.loop hook loops s = some s' ∧ OptimizeInv D [] s' := by
  induction loops generalizing s
  case zero => exact ⟨s, rfl, h⟩
  case succ loops ih =>
    have ⟨hf, hb⟩ := h.start
    simp only [Pass.LoopMeets, hf] at hh
    have ⟨s₁, hs₁, h₁⟩ := foldlM_optimizeStep hb (List.Subset.refl _) hh.left
    simp only [optimize.loop, hf, hs₁, Option.bind_eq_bind, Option.bind_some]
    split
    case isTrue hc => exact ih h₁.forget (hh.right s₁ hs₁ hc)
    case isFalse   => exact ⟨s₁, rfl, h₁.forget⟩

-- Conditions that a hook meets in all plans with the invariant are met in a run.
theorem OptimizeInv.loopMeets {loops : Nat} (h : OptimizeInv D [] s)
    (hh : ∀ s : Pass K, OptimizeInv D [] s → ∀ r, s.plan.view.Live r →
      s.plan.HookPermitted r (hook s.plan r)) : s.LoopMeets Pass.CallPermitted hook loops := by
  have hm (s : Pass K) (ordered : List Ref) (r : Ref) (h : OptimizeInv D ordered s) (hr : r ∈ ordered) :
      s.StepMeets Pass.CallPermitted hook r :=
    fun hd => hh s h.forget r ⟨h.mem r hr, hd⟩
  apply Pass.loopMeets_of_inv (I := OptimizeInv D) (fun _ => OptimizeInv.start) (fun _ _ => OptimizeInv.forget) hm
  · exact fun _ _ _ h hr hs => optimizeStep_ok h hr fun hl => hs hl.right
  · exact h

theorem optimize_inv {p : Plan K} (hi : p.view.Inv) (hs : p.sideReplacements = [])
    (h : Pass.LoopMeets Pass.CallPermitted hook maxOptimizationLoops ⟨p, fun _ => none, true⟩) :
    ∃ q m, p.optimize hook = some (q, m) ∧ q.view.Inv ∧ q.sideReplacements = [] := by
  have ⟨s, hl, ho⟩ := optimize_loop_ok (D := False) maxOptimizationLoops
    ⟨hi, False.elim, hs, by simp⟩ h
  exact ⟨_, _, by simp [optimize, hl]; rfl, sweepDead_inv ho.inv, ho.side⟩

theorem deduplicate_inv [DecidableEq Key] {p : Plan K} (hi : p.view.Inv) :
    p.deduplicate.fst.view.Inv ∧ p.deduplicate.fst.sideReplacements = p.sideReplacements := by
  have ⟨_, q, _, hm, _, he, _⟩ := deduplicate_merges hi
  have hs : q.sideReplacements = p.sideReplacements := hm.replacements hi
  exact he ▸ ⟨sweepDead_inv (hm.inv hi), hs⟩

omit [StepClass K Key] in
theorem empty_inv : (empty : Plan K).view.Inv := by
  have hd (r : Ref) : (empty : Plan K).dependencies r = [] := by simp [empty, dependencies]
  have hs (r : Ref) : (empty : Plan K).stepId r = none := by simp [empty, stepId]
  constructor
  case acyclic =>
    intro r hc
    cases hc
    all_goals exact absurd ‹_› (by simp [View.DependsOn, view, hd])
  all_goals simp [view, View.Live, hd, hs]
  all_goals simp [empty]

end Plan

namespace Operation

variable {K Key : Type} [StepClass K Key] [DecidableEq Key]

-- The conditions under which an operation keeps the graph invariant.
def Permitted (p : Plan K) : Operation K → Prop
  | construct _ deps        => ∀ d ∈ deps, d < p.heap.length
  | addStep r               => r ∉ p.seen → p.Registrable r
  | eradicate dead survivor => dead = survivor ∨ p.view.Replaceable dead survivor
  | optimize hook           =>
    Pass.LoopMeets Pass.CallPermitted hook Plan.maxOptimizationLoops ⟨p, fun _ => none, true⟩
  | deduplicate             => True
  | treeShake roots         => ∀ r ∈ roots, r ∈ p.steps

def AllPermitted : Plan K → List (Operation K) → Prop
  | _, []      => True
  | p, o :: os => o.Permitted p ∧ ∀ q, o.apply p = some q → AllPermitted q os

theorem apply_inv {p : Plan K} {o : Operation K} (hi : p.view.Inv) (hs : p.sideReplacements = [])
    (h : o.Permitted p) : ∃ q, o.apply p = some q ∧ q.view.Inv ∧ q.sideReplacements = [] := by
  cases o
  case construct kind deps     => exact ⟨_, rfl, (Plan.Keeps.construct hi h).inv, hs⟩
  case addStep r               =>
    have ⟨q, hq, hk, he⟩ := Plan.Keeps.addStep hi h
    exact ⟨q, hq, hk.inv, he.trans hs⟩
  case eradicate dead survivor =>
    have ⟨hk, he⟩ := Plan.Keeps.eradicate hi h
    exact ⟨_, rfl, hk.inv, he.trans hs⟩
  case optimize hook           =>
    have ⟨q, m, hq, hi', hs'⟩ := Plan.optimize_inv hi hs h
    exact ⟨q, by simp [apply, hq], hi', hs'⟩
  case deduplicate             =>
    have ⟨hi', he⟩ := Plan.deduplicate_inv hi
    exact ⟨_, rfl, hi', he.trans hs⟩
  case treeShake roots         =>
    have ⟨hi', he⟩ := Plan.treeShake_inv hi h
    exact ⟨_, rfl, hi', he.trans hs⟩

theorem run_inv {p : Plan K} {os : List (Operation K)} (hi : p.view.Inv)
    (hs : p.sideReplacements = []) (h : AllPermitted p os) :
    ∃ q, os.foldlM apply p = some q ∧ q.view.Inv := by
  induction os generalizing p
  case nil => exact ⟨p, rfl, hi⟩
  case cons o os ih =>
    have ⟨q, hq, hi', hs'⟩ := apply_inv hi hs h.left
    have ⟨q', hq', hi''⟩ := ih hi' hs' (h.right q hq)
    exact ⟨q', by simp [List.foldlM_cons, hq, hq'], hi''⟩

end Operation

namespace Plan

variable {K Key : Type} [StepClass K Key] {p : Plan K} {r : Ref}

theorem drain_of_nil {m : Remap} {c : Bool} (h : p.sideReplacements = []) :
    drain ⟨p, m, c⟩ = some ⟨p, m, c⟩ := by
  cases p
  subst h
  rfl

-- A hook that keeps the step.
theorem keep_permitted (hs : p.sideReplacements = []) : p.HookPermitted r ([], r) where
  actions  := trivial
  side q h := by
    obtain rfl := Option.some.inj h
    exact hs ▸ trivial
  returned _ _ _ _ _ _ := .inl rfl

-- A hook that replaces a step by a fresh one over the same dependencies.
theorem fresh_permitted {kind : K} (hi : p.view.Inv) (hv : p.view.Dense)
    (hs : p.sideReplacements = []) (hr : p.view.Live r) :
    p.HookPermitted r ([.construct kind (p.dependencies r)], p.heap.length) := by
  have hk : Keeps p (p.construct kind (p.dependencies r)) := .construct hi (hi.dep_lt r)
  have hview : (p.construct kind (p.dependencies r)).view = _ := construct_view
  have hdep {s : Ref} (h : s ≠ p.heap.length) :
      (p.construct kind (p.dependencies r)).dependencies s = p.dependencies s :=
    (congrFun (congrArg View.dependencies hview) s).trans (Function.update_of_ne h ..)
  have hnew : (p.construct kind (p.dependencies r)).dependencies p.heap.length = p.dependencies r :=
    (congrFun (congrArg View.dependencies hview) _).trans (Function.update_self ..)
  have hlen : p.heap.length < (p.construct kind (p.dependencies r)).heap.length :=
    by simp [construct]
  have hreg : (p.construct kind (p.dependencies r)).Registrable p.heap.length := by
    refine ⟨hk.dense hv, .new hlen (fun h => lt_irrefl _ (hi.seen_lt _ h)) fun d hd => .live ?_⟩
    have hd : d ∈ (p.construct kind (p.dependencies r)).dependencies p.heap.length := hd
    exact hview ▸ hi.live_dep r hr d (by rwa [hnew] at hd)
  constructor
  case actions => exact ⟨hi.dep_lt r, fun _ _ => trivial⟩
  case side =>
    intro q h
    obtain rfl := Option.some.inj h
    exact show AllReplacePermitted _ p.sideReplacements from hs ▸ trivial
  case returned =>
    intro q m c s h hdr
    obtain rfl := Option.some.inj h
    obtain rfl := Option.some.inj <|
      (drain_of_nil (p := p.construct kind (p.dependencies r)) hs).symm.trans hdr
    refine .inr ⟨fun _ => hreg, fun q hq => .inr ?_⟩
    have hnone : (p.construct kind (p.dependencies r)).stepId p.heap.length = none :=
      hk.inv.unseen_id _ fun h => lt_irrefl _ (hi.seen_lt _ h)
    obtain ⟨q', hq', hx, hl⟩ := addStep_registers hk.inv hreg.left hreg.right
    simp only [registerFresh, hnone, if_true] at hq
    obtain rfl := Option.some.inj (hq'.symm.trans hq)
    have hlive : q'.view.Live r := hx.extends_v.live r (hview ▸ hr)
    have hne : r ≠ p.heap.length := (hi.seen_lt r (hi.live_seen hr)).ne
    refine ⟨hlive.left, hl, hne, fun hc => ?_⟩
    -- A path from the replacement to the step would close a cycle at the step.
    have hd {s : Ref} : q'.dependencies s = (p.construct kind (p.dependencies r)).dependencies s :=
      congrFun hx.extends_v.dependencies s
    cases Relation.ReflTransGen.cases_head hc
    case inl h => exact hne h.symm
    case inr h =>
      obtain ⟨d, e, hp⟩ := h
      have e : d ∈ q'.dependencies p.heap.length := e
      have e : d ∈ q'.dependencies r := by rwa [hd, hnew, ← hdep hne, ← hd] at e
      exact hx.inv.acyclic r (.head' e hp)

end Plan

namespace Plan

variable {K Key : Type} [StepClass K Key]

-- A step over live steps can be registered once it is constructed.
theorem construct_registrable {p : Plan K} {kind : K} {deps : List Ref} (hi : p.view.Inv) (hv : p.view.Dense)
    (hd : ∀ d ∈ deps, p.view.Live d) : (p.construct kind deps).Registrable p.heap.length := by
  have hk : Keeps p (p.construct kind deps) := .construct hi fun d hm => hi.seen_lt d (hi.live_seen (hd d hm))
  have hview : (p.construct kind deps).view = _ := construct_view
  refine ⟨hk.dense hv, .new (by simp [view, construct]) (fun hc => lt_irrefl _ (hi.seen_lt _ hc)) fun d hm => ?_⟩
  have hm : d ∈ deps := by
    rw [hview] at hm
    simpa [View.construct, view] using hm
  exact .live (hview ▸ hd d hm)

-- The plan of steps that are constructed and registered one after the other.
def build (steps : List (K × List Ref)) : Option (Plan K) :=
  steps.foldlM (fun p step => (p.construct step.fst step.snd).addStep p.heap.length) empty

-- Steps that depend on earlier steps make up a plan.
theorem build_inv (steps : List (K × List Ref))
    (h : ∀ step ∈ steps.zipIdx, ∀ d ∈ step.fst.snd, d < step.snd) :
    ∃ p, build steps = some p ∧ p.view.Inv ∧ p.view.Dense ∧ p.heap.length = steps.length ∧
      ∀ r < steps.length, p.view.Live r := by
  induction steps using List.reverseRecOn
  case nil =>
    refine ⟨empty, rfl, empty_inv, ⟨?_, ?_⟩, rfl, fun r hr => absurd hr r.not_lt_zero⟩
    · exact fun _ hr => absurd hr List.not_mem_nil
    · exact fun _ hn => absurd hn List.not_mem_nil
  case append_singleton steps step hi =>
    rw [List.zipIdx_append] at h
    obtain ⟨p, hp, hi, hv, hl, hlive⟩ := hi fun s hs => h s (List.mem_append_left _ hs)
    have hd : ∀ d ∈ step.snd, d < p.heap.length := hl ▸ h (step, steps.length) (by simp)
    have hk : Keeps p (p.construct step.fst step.snd) := .construct hi hd
    have hview : (p.construct step.fst step.snd).view = _ := construct_view
    have ⟨_, hsound⟩ : (p.construct step.fst step.snd).Registrable p.heap.length :=
      construct_registrable hi hv fun d hm => hlive d (hl ▸ hd d hm)
    obtain ⟨q, hq, hr, hn⟩ := addStep_registers hk.inv (hk.dense hv) hsound
    have hq' : q.heap.length = steps.length + 1 :=
      hr.extends_v.length.trans (by simp [view, construct, hl])
    refine ⟨q, ?_, hr.inv, hr.dense, by simpa using hq', fun r hm => ?_⟩
    · rw [build, List.foldlM_append, show steps.foldlM _ empty = some p from hp]
      simpa using hq
    · rw [List.length_append, List.length_singleton] at hm
      obtain hm | rfl := Nat.lt_succ_iff_lt_or_eq.mp hm
      · exact hr.extends_v.live r (hview ▸ hlive r hm)
      · exact hl ▸ hn

end Plan

namespace Operation

variable {K Key : Type} [StepClass K Key] [DecidableEq Key]

-- The operations that build a plan.
def registrations (steps : List (K × List Ref)) : List (Operation K) :=
  steps.zipIdx.flatMap fun step => [.construct step.fst.fst step.fst.snd, .addStep step.snd]

end Operation

namespace Wrap

inductive Kind
  | source | folded | wrapper
  deriving DecidableEq

instance : StepClass Kind Kind where
  key       := id
  dedupable := fun _ => true
  isUnary   := fun _ => false

-- Wraps a source in a fresh step that depends on it.
def wrap : Optimizer Kind := fun p r =>
  if p.kind r = some .source then ([.construct .wrapper [r]], p.heap.length) else ([], r)

-- Replaces a source by a fresh step.
def fold : Optimizer Kind := fun p r =>
  if p.kind r = some .source then
    ([.construct .folded (p.dependencies r)], p.heap.length)
  else
    ([], r)

-- The last step is registered after a pass has removed the second one.
def late : List (Operation Kind) :=
  [.construct .source [], .construct .source [], .construct .folded [], .construct .wrapper [],
    .addStep 0, .addStep 1, .addStep 2, .deduplicate, .addStep 3]

-- The last step is registered although the step that it depends on has been removed.
def stale : List (Operation Kind) :=
  [.construct .source [], .construct .source [], .construct .wrapper [0], .addStep 0, .addStep 1,
    .eradicate 0 1, .addStep 2]

def wrappers : List (Kind × List Ref) :=
  [(.source, []), (.wrapper, [0]), (.wrapper, [0])]

-- The source of two wrappers is replaced, and the wrappers merge.
def merged : List (Operation Kind) :=
  Operation.registrations wrappers ++ [.optimize fold, .deduplicate]

-- The wrapper that is left is the only root.
def folded : List (Operation Kind) :=
  merged ++ [.treeShake [1]]

-- The edge of the wrapper leads to the step that takes the place of the source.
example : (folded.foldlM Operation.apply Plan.empty).map (fun p =>
    (p.steps, p.dependencies 1, p.dependentsIndex (some 3))) = some ([1, 3], [3], [(1, 0)]) := by
  decide +kernel

end Wrap

end Grafast
