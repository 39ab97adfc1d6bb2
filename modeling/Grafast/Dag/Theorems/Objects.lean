import Grafast.Dag.Theorems.Passes

namespace Grafast

-- A property that every step of a fallible fold preserves holds of its result.
theorem foldlM_induction {α β : Type} {f : β → α → Option β} {P : β → Prop} {l : List α} {b b' : β}
    (hf : ∀ b, ∀ a ∈ l, ∀ b', P b → f b a = some b' → P b') (hb : P b)
    (h : l.foldlM f b = some b') : P b' := by
  induction l generalizing b
  case nil => exact Option.some.inj h ▸ hb
  case cons a l hi =>
    rw [List.foldlM_cons, Option.bind_eq_bind, Option.bind_eq_some_iff] at h
    have ⟨c, hc, h⟩ := h
    exact hi (fun b a ha => hf b a (.tail _ ha)) (hf b a (.head _) c hb hc) h

namespace Plan

variable {K : Type}

-- All references of a plan are references to objects. This is so whatever is done to the plan, as
-- long as only references to objects are handed to it.
structure Objects (n : Nat) (p : Plan K) : Prop where
  length   : p.heap.length = n
  dep_lt   : ∀ r, ∀ d ∈ p.dependencies r, d < n
  steps_lt : ∀ r ∈ p.steps, r < n
  side_lt  : ∀ e ∈ p.sideReplacements, e.snd < n

namespace Objects

variable {p q : Plan K} {n : Nat} {r s : Ref}

theorem lt_of_dep (h : p.Objects n) {d : Ref} (hd : d ∈ p.dependencies r) : r < n := by
  by_contra hr
  have hr : p.heap.length ≤ r := h.length ▸ Nat.le_of_not_lt hr
  simp [dependencies, List.getElem?_eq_none hr] at hd

theorem inUniverse (h : p.Objects n) : Graph.Universe p.dependencies (Finset.range n) :=
  fun r d hd => ⟨Finset.mem_range.mpr (h.lt_of_dep hd), Finset.mem_range.mpr (h.dep_lt r d hd)⟩

theorem modify {f : StepObject K → StepObject K} (h : p.Objects n)
    (hf : ∀ s, ∀ d ∈ (f s).dependencies, d ∈ s.dependencies ∨ d < n) : (p.modify r f).Objects n where
  length   := by simpa [Plan.modify] using h.length
  steps_lt := h.steps_lt
  side_lt  := h.side_lt
  dep_lt s d hd := by
    simp only [dependencies, Plan.modify, List.getElem?_modify] at hd
    have hd' (o : StepObject K) (ho : p.heap[s]? = some o) : d ∈ o.dependencies → d < n :=
      fun hm => h.dep_lt s d (by simpa [dependencies, ho] using hm)
    cases ho : p.heap[s]?
    case none   => simp [ho] at hd
    case some o =>
      by_cases hr : r = s
      case pos =>
        have hd : d ∈ (f o).dependencies := by simpa [ho, hr] using hd
        exact (hf o d hd).elim (hd' o ho) id
      case neg => exact hd' o ho (by simpa [ho, hr] using hd)

theorem setId (h : p.Objects n) {id : Nat} : (p.setId r id).Objects n :=
  h.modify fun _ _ hd => .inl hd

theorem setIndex (h : p.Objects n) {id : Option Nat} {edges : List (Ref × Nat)} :
    (p.setIndex id edges).Objects n :=
  ⟨h.length, h.dep_lt, h.steps_lt, h.side_lt⟩

theorem foldl {α : Type} {f : Plan K → α → Plan K} {l : List α}
    (hf : ∀ p, p.Objects n → ∀ a, (f p a).Objects n) (h : p.Objects n) : (l.foldl f p).Objects n := by
  induction l generalizing p
  case nil         => exact h
  case cons a l hi => exact hi (hf p h a)

theorem enroll (h : p.Objects n) (hr : r < n) : (p.enroll r).Objects n := by
  have h₁ : (p.setId r p.steps.length).Objects n := h.setId
  refine foldl (fun _ h _ => h.setIndex) ⟨h₁.length, h₁.dep_lt, fun s hs => ?_, h₁.side_lt⟩
  cases List.mem_append.mp hs
  case inl hs => exact h₁.steps_lt s hs
  case inr hs => exact List.mem_singleton.mp hs ▸ hr

theorem register {fuel : Nat} (h : p.Objects n) (hr : r < n) (hq : Plan.register fuel p r = some q) :
    q.Objects n := by
  induction fuel generalizing p r q
  case zero => contradiction
  case succ fuel hi =>
    rw [Plan.register] at hq
    split at hq
    case isTrue => exact Option.some.inj hq ▸ h
    case isFalse =>
      simp only [Option.bind_eq_bind, Option.bind_eq_some_iff] at hq
      obtain ⟨q', hq', hq⟩ := hq
      have h' : q'.Objects n := foldlM_induction (fun _ d hd _ h hq =>
        hi h (‹p.Objects n›.dep_lt r d hd) hq) h hq'
      exact Option.some.inj hq ▸ h'.enroll hr

theorem addStep (h : p.Objects n) (hr : r < n) (hq : p.addStep r = some q) : q.Objects n :=
  h.register hr hq

theorem eradicate (h : p.Objects n) (hs : s < n) : (p.eradicate r s).Objects n := by
  unfold Plan.eradicate
  split
  case isTrue  => exact h
  case isFalse =>
    have hr (p : Plan K) (h : p.Objects n) (e : Ref × Nat) : (p.repoint s e).Objects n := by
      refine .setIndex (h.modify fun o d hd => ?_)
      cases List.mem_or_eq_of_mem_set hd
      case inl hd => exact .inl hd
      case inr hd => exact .inr (hd ▸ hs)
    have hu {l : List (Ref × Nat)} {p : Plan K} (h : p.Objects n) : (l.foldl (unlink r) p).Objects n :=
      foldl (fun _ h _ => h.setIndex) h
    have h : ((p.dependentsIndex (p.stepId r)).foldl (Plan.repoint s)
        (p.setIndex (p.stepId r) [])).Objects n := foldl hr h.setIndex
    exact ⟨(hu h).length, (hu h).dep_lt, (hu h).steps_lt, (hu h).side_lt⟩

theorem sweepDead (h : p.Objects n) : p.sweepDead.Objects n :=
  ⟨h.length, h.dep_lt, fun r hr => h.steps_lt r (List.mem_of_mem_filter hr), h.side_lt⟩

theorem assignIds {rs : List Ref} {used : List (Option Nat)} (h : p.Objects n) :
    (Plan.assignIds rs used p).Objects n := by
  induction rs generalizing p used
  case nil => exact h
  case cons r rs hi =>
    rw [Plan.assignIds]
    split
    case isTrue  => exact hi h.setId
    case isFalse => exact hi h

theorem orderSteps {t : List Ref} (h : p.Objects n) : (p.orderSteps t).fst.Objects n :=
  h.assignIds

theorem orderSteps_lt {targets : List Ref} (h : p.Objects n) (ht : ∀ t ∈ targets, t < n)
    (hr : r ∈ (p.orderSteps targets).snd) : r < n := by
  have hr := Graph.mem_postOrder_iff h.inUniverse (by simp [h.length]) |>.mp hr
  exact hr.subset_of_closed (fun t h _ => ht t h) fun a b _ e => h.dep_lt a b e.left

-- The steps that a bucket has to run, and those among them that depend on themselves, are determined
-- by the graph.
theorem mem_orderStepsWithin_iff {targets : List Ref} {boundaryIds : List (Option Nat)}
    (h : p.Objects n) : r ∈ p.orderStepsWithin targets boundaryIds ↔
      Graph.Region p.dependencies (p.stepId · ∈ boundaryIds) targets r :=
  Graph.mem_postOrder_iff h.inUniverse (by simp [h.length])

theorem orderStepsWithin_closed_iff {targets : List Ref} {boundaryIds : List (Option Nat)}
    (h : p.Objects n) :
    Graph.Closed p.dependencies (p.stepId · ∈ boundaryIds) (p.orderStepsWithin targets boundaryIds) ↔
      Graph.Acyclic p.dependencies (p.stepId · ∈ boundaryIds) targets :=
  Graph.postOrder_closed_iff h.inUniverse (by simp [h.length])

theorem orderStepsWithin_nodup {targets : List Ref} {boundaryIds : List (Option Nat)}
    (h : p.Objects n) : (p.orderStepsWithin targets boundaryIds).Nodup :=
  Graph.postOrder_nodup h.inUniverse (by simp [h.length])

theorem treeShake [StepClass K Key] {roots : List Ref} (h : p.Objects n) :
    (p.treeShake roots).fst.Objects n :=
  have h₁ : (p.orderSteps roots).fst.Objects n := h.orderSteps
  have h := h₁.orderSteps (t := (p.orderSteps roots).fst.steps.filter _)
  ⟨h.length, h.dep_lt, fun r hr => h.steps_lt r (List.mem_of_mem_filter hr), h.side_lt⟩

end Objects

section

variable {Key : Type} [StepClass K Key] [DecidableEq Key] {n : Nat}

-- The winners of a deduplication pass are objects.
def WinnersBelow (n : Nat) (s : DedupPass K Key) : Prop :=
  ∀ e ∈ s.byKey, e.snd < n

theorem Objects.dedupStep {s : DedupPass K Key} {r : Ref} (h : s.plan.Objects n)
    (hw : WinnersBelow n s) (hr : r < n) :
    (dedupStep s r).plan.Objects n ∧ WinnersBelow n (Plan.dedupStep s r) := by
  unfold Plan.dedupStep
  split
  case isTrue => exact ⟨h, hw⟩
  case isFalse =>
    split
    case isTrue => exact ⟨h, hw⟩
    case isFalse =>
      cases hk : s.byKey.lookup (s.plan.structuralKey r)
      case none =>
        simp only [hk]
        exact ⟨h, fun e he => (List.mem_cons.mp he).elim (fun he => he ▸ hr) (hw e)⟩
      case some w =>
        have ⟨l₁, l₂, hl, _⟩ := List.lookup_eq_some_iff.mp hk
        simp only [hk]
        exact ⟨h.eradicate (hw (s.plan.structuralKey r, w) (by simp [hl])), hw⟩

theorem Objects.dedupPass {s : Pass K} (h : s.plan.Objects n) : (Plan.dedupPass s).plan.Objects n := by
  have hf (rs : List Ref) (hr : ∀ r ∈ rs, r < n) (s : DedupPass K Key) (h : s.plan.Objects n)
      (hw : WinnersBelow n s) : (rs.foldl Plan.dedupStep s).plan.Objects n := by
    induction rs generalizing s
    case nil => exact h
    case cons r rs hi =>
      have ⟨h, hw⟩ := h.dedupStep hw (hr r (.head _))
      exact hi (fun r hm => hr r (.tail _ hm)) _ h hw
  exact hf _ (fun r => h.orderSteps_lt h.steps_lt) _ h.orderSteps fun _ he => absurd he List.not_mem_nil

theorem Objects.deduplicate {p : Plan K} (h : p.Objects n) : p.deduplicate.fst.Objects n := by
  have hl (fuel : Nat) (s : Pass K) (h : s.plan.Objects n) :
      (deduplicate.loop fuel s).plan.Objects n := by
    induction fuel generalizing s
    case zero => exact h
    case succ fuel hi =>
      rw [deduplicate.loop]
      split
      case isTrue  => exact hi _ h.dedupPass
      case isFalse => exact h.dedupPass
  exact (hl _ ⟨p, fun _ => none, true⟩ h).sweepDead

end

section

variable {Key : Type} [StepClass K Key] {p q : Plan K} {n : Nat}

-- The actions and the replacement of a hook refer to objects, where `n` is the number of objects
-- before the actions.
def HookObjects : Nat → List (HookAction K) → Ref → Prop
  | n, [],                         new => new < n
  | n, .construct _ deps :: as,    new => (∀ d ∈ deps, d < n) ∧ HookObjects (n + 1) as new
  | n, .addStep r :: as,           new => r < n ∧ HookObjects n as new
  | n, .eradicate _ s :: as,       new => s < n ∧ HookObjects n as new
  | n, .recordReplacement _ s :: as, new => s < n ∧ HookObjects n as new

omit [StepClass K Key] in
theorem Objects.mono {m : Nat} (h : p.Objects n) (hq : q.heap.length = m) (hn : n ≤ m)
    (hd : ∀ r, ∀ d ∈ q.dependencies r, d < m) (hs : q.steps = p.steps)
    (hr : q.sideReplacements = p.sideReplacements) : q.Objects m where
  length := hq
  dep_lt := hd
  steps_lt r h' := (h.steps_lt r (hs ▸ h')).trans_le hn
  side_lt e h' := (h.side_lt e (hr ▸ h')).trans_le hn

theorem Objects.construct {kind : K} {deps : List Ref} (h : p.Objects n) (hd : ∀ d ∈ deps, d < n) :
    (p.construct kind deps).Objects (n + 1) := by
  refine h.mono (by simp [Plan.construct, h.length]) n.le_succ (fun r d hm => ?_) rfl rfl
  by_cases hr : r < p.heap.length
  case pos =>
    have hm : d ∈ p.dependencies r := by
      simpa [dependencies, Plan.construct, List.getElem?_append_left hr] using hm
    exact (h.dep_lt r d hm).trans n.lt_succ_self
  case neg =>
    have hr : p.heap.length ≤ r := Nat.le_of_not_lt hr
    simp only [dependencies, Plan.construct, List.getElem?_append_right hr] at hm
    cases hk : r - p.heap.length
    case zero   => exact (hd d (by simpa [hk] using hm)).trans n.lt_succ_self
    case succ k => simp [hk] at hm

theorem Objects.perform {as : List (HookAction K)} {new : Ref} (h : p.Objects n)
    (ha : HookObjects n as new) (hq : as.foldlM Plan.perform p = some q) :
    ∃ m, n ≤ m ∧ q.Objects m ∧ new < m := by
  induction as generalizing p n
  case nil => exact ⟨n, le_rfl, Option.some.inj hq ▸ h, ha⟩
  case cons a as hi =>
    rw [List.foldlM_cons, Option.bind_eq_bind, Option.bind_eq_some_iff] at hq
    obtain ⟨q', hq', hq⟩ := hq
    cases a
    case construct kind deps =>
      have h' : q'.Objects (n + 1) := Option.some.inj hq' ▸ h.construct ha.left
      have ⟨m, hn, hm⟩ := hi h' ha.right hq
      exact ⟨m, n.le_succ.trans hn, hm⟩
    case addStep r             => exact hi (h.addStep ha.left hq') ha.right hq
    case eradicate r s         => exact hi (Option.some.inj hq' ▸ h.eradicate ha.left) ha.right hq
    case recordReplacement r s =>
      have h' : (p.recordReplacement r s).Objects n := by
        refine ⟨h.length, h.dep_lt, h.steps_lt, fun e he => ?_⟩
        cases List.mem_append.mp he
        case inl he => exact h.side_lt e he
        case inr he => exact List.mem_singleton.mp he ▸ ha.left
      exact hi (Option.some.inj hq' ▸ h') ha.right hq

theorem Objects.replaceIn {s s' : Pass K} {old new : Ref} (h : s.plan.Objects n) (hn : new < n)
    (hs : Plan.replaceIn s old new = some s') : s'.plan.Objects n := by
  simp only [Plan.replaceIn, replace, Option.bind_eq_bind, Option.bind_eq_some_iff,
    Option.map_eq_some_iff] at hs
  obtain ⟨_, ⟨q, hq, rfl⟩, hs⟩ := hs
  have hq : q.Objects n := by
    rw [registerFresh] at hq
    split at hq
    case isTrue  => exact h.addStep hn hq
    case isFalse => exact Option.some.inj hq ▸ h
  exact Option.some.inj hs ▸ hq.eradicate hn

theorem Objects.drain {s s' : Pass K} (h : s.plan.Objects n) (hs : Plan.drain s = some s') :
    s'.plan.Objects n := by
  simp only [Plan.drain, Option.bind_eq_bind, Option.bind_eq_some_iff] at hs
  have ⟨s₁, h₁, hs⟩ := hs
  have h₁ : s₁.plan.Objects n := foldlM_induction (P := (·.plan.Objects n))
    (fun _ e he _ h hq => h.replaceIn (‹s.plan.Objects n›.side_lt e he) hq) h h₁
  obtain rfl := Option.some.inj hs
  exact ⟨h₁.length, h₁.dep_lt, h₁.steps_lt, fun e he => absurd he List.not_mem_nil⟩

end

end Plan

-- The hooks of all steps refer to objects.
def Optimizer.OverObjects {K : Type} (hook : Optimizer K) : Prop :=
  ∀ (p : Plan K) (r : Ref), r < p.heap.length →
    Plan.HookObjects p.heap.length (hook p r).fst (hook p r).snd

namespace Plan

variable {K Key : Type} [StepClass K Key] {p q : Plan K} {hook : Optimizer K} {m n : Nat}

theorem Objects.optimizeStep {s s' : Pass K} {r : Ref} (h : s.plan.Objects n)
    (hh : hook.OverObjects) (hr : r < n) (hs : Plan.optimizeStep hook s r = some s') :
    ∃ m, n ≤ m ∧ s'.plan.Objects m := by
  unfold Plan.optimizeStep at hs
  split at hs
  case isTrue => exact ⟨n, le_rfl, Option.some.inj hs ▸ h⟩
  case isFalse =>
    simp only [Option.bind_eq_bind, Option.bind_eq_some_iff] at hs
    obtain ⟨q, hq, s₁, hs₁, hs⟩ := hs
    have hh : HookObjects n (hook s.plan r).fst (hook s.plan r).snd := h.length ▸ hh s.plan r (h.length ▸ hr)
    have ⟨m, hn, hq, hm⟩ := h.perform hh hq
    have h₁ : s₁.plan.Objects m := Objects.drain (s := { s with plan := q }) hq hs₁
    split at hs
    case isTrue  => exact ⟨m, hn, Option.some.inj hs ▸ h₁⟩
    case isFalse => exact ⟨m, hn, h₁.replaceIn hm hs⟩

theorem Objects.optimize {remap : Remap} (h : p.Objects n) (hh : hook.OverObjects)
    (hq : p.optimize hook = some (q, remap)) : ∃ m, q.Objects m := by
  have hl (fuel : Nat) (s s' : Pass K) (n : Nat) (h : s.plan.Objects n)
      (hs : optimize.loop hook fuel s = some s') : ∃ m, s'.plan.Objects m := by
    induction fuel generalizing s n
    case zero => exact ⟨n, Option.some.inj hs ▸ h⟩
    case succ fuel hi =>
      simp only [optimize.loop, Option.bind_eq_bind, Option.bind_eq_some_iff] at hs
      obtain ⟨s₁, hs₁, hs⟩ := hs
      -- The objects that are ordered stay objects while the pass constructs further ones.
      have ⟨m, hn, hm⟩ := foldlM_induction (P := fun s => ∃ m, n ≤ m ∧ s.plan.Objects m)
        (fun _ r hr _ ⟨_, hn, h'⟩ hs =>
          have ⟨m', hm, h'⟩ := h'.optimizeStep hh ((h.orderSteps_lt h.steps_lt hr).trans_le hn) hs
          ⟨m', hn.trans hm, h'⟩)
        ⟨n, le_rfl, h.orderSteps⟩ hs₁
      split at hs
      case isTrue  => exact hi s₁ m hm hs
      case isFalse => exact ⟨m, Option.some.inj hs ▸ hm⟩
  simp only [Plan.optimize, Option.bind_eq_bind, Option.bind_eq_some_iff] at hq
  obtain ⟨s, hs, hq⟩ := hq
  obtain ⟨rfl, _⟩ := Prod.ext_iff.mp (Option.some.inj hq)
  have ⟨m, hm⟩ := hl _ _ s n h hs
  exact ⟨m, hm.sweepDead⟩

end Plan

end Grafast
