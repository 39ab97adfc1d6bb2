import Grafast.Dag.Passes
import Grafast.Dag.Theorems.Eradicate

namespace Grafast

open Relation (TransGen ReflTransGen)

namespace Plan

variable {K Key : Type} [StepClass K Key]

namespace View

-- The graph after the construction of a step object.
def construct (v : View K) (kind : K) (deps : List Ref) : View K :=
  { v with
    length       := v.length + 1
    kind         := Function.update v.kind v.length (some kind)
    dependencies := Function.update v.dependencies v.length deps }

theorem construct_inv {v : View K} {kind : K} {deps : List Ref} (hi : v.Inv) (hd : ∀ d ∈ deps, d < v.length) :
    (v.construct kind deps).Inv := by
  have hu {r : Ref} (h : r ∈ v.seen) : (v.construct kind deps).dependencies r = v.dependencies r :=
    Function.update_of_ne (hi.seen_lt r h).ne ..
  have hlt {a b : Ref} (h : b ∈ (v.construct kind deps).dependencies a) : b < v.length := by
    by_cases he : a = v.length
    case pos => exact hd b (by simpa [construct, he] using h)
    case neg => exact hi.dep_lt a b (by simpa [construct, he] using h)
  constructor
  case seen_lt => exact fun r h => Nat.lt_succ_of_lt (hi.seen_lt r h)
  case dep_lt => exact fun r d h => Nat.lt_succ_of_lt (hlt h)
  case unseen_id => exact hi.unseen_id
  case unseen_dep =>
    intro r hr d h
    by_cases he : r = v.length
    case pos => exact he ▸ hlt h
    case neg => exact hi.unseen_dep r hr d (by simpa [construct, he] using h)
  case seen_id => exact hi.seen_id
  case seen_dep => exact fun r hr d h => hi.seen_dep r hr d (hu hr ▸ h)
  case steps_seen => exact hi.steps_seen
  case steps_nodup => exact hi.steps_nodup
  case steps_dep => exact fun r hr d h => hi.steps_dep r hr d (hu (hi.steps_seen r hr) ▸ h)
  case ids => exact hi.ids
  case dead_some => exact hi.dead_some
  case live_dep => exact fun r hr d h => hi.live_dep r hr d (hu (hi.live_seen hr) ▸ h)
  case index =>
    intro id r i
    refine (hi.index id r i).trans (and_congr_right fun hr => ?_)
    rw [hu (hi.live_seen hr)]
    rfl
  case index_nodup => exact hi.index_nodup
  case acyclic =>
    -- Nothing depends on the new step, so a cycle does not pass through it.
    have target {a b : Ref} (h : TransGen (v.construct kind deps).DependsOn a b) : b ≠ v.length := by
      cases h
      case single e => exact (hlt e).ne
      case tail e   => exact (hlt e).ne
    have path {a b : Ref} (ha : a ≠ v.length) (h : TransGen (v.construct kind deps).DependsOn a b) :
        TransGen v.DependsOn a b := by
      induction h
      case single e   => exact .single (by simpa [DependsOn, construct, ha] using e)
      case tail h e hi => exact hi.tail (by simpa [DependsOn, construct, target h] using e)
    exact fun a hc => hi.acyclic a (path (target hc) hc)

end View

theorem construct_view {p : Plan K} {kind : K} {deps : List Ref} :
    (p.construct kind deps).view = p.view.construct kind deps := by
  have hget (r : Ref) : (p.construct kind deps).heap[r]? =
      if r = p.heap.length then
        some ⟨none, deps, StepClass.isUnary kind && deps.all p.isUnary, kind⟩
      else p.heap[r]? := by
    simp only [construct, List.getElem?_append]
    split
    case isTrue h => simp [h.ne]
    case isFalse h =>
      by_cases he : r = p.heap.length
      case pos => simp [he]
      case neg =>
        have hlt : p.heap.length < r := lt_of_le_of_ne (Nat.le_of_not_lt h) (Ne.symm he)
        have hs : r - p.heap.length ≠ 0 := Nat.sub_ne_zero_of_lt hlt
        simp [he, List.getElem?_eq_none hlt.le, hs]
  ext1
  case length => simp [view, construct, View.construct]
  case kind =>
    funext r
    simp only [view, View.construct, Plan.kind, hget, Function.update_apply]
    split <;> rfl
  case dependencies =>
    funext r
    simp only [view, View.construct, dependencies, hget, Function.update_apply]
    split <;> rfl
  case stepId =>
    funext r
    simp only [view, View.construct, stepId, hget]
    split
    case isTrue h  => simp [h]
    case isFalse h => rfl
  all_goals rfl

omit [StepClass K Key]

theorem sweepDead_inv {p : Plan K} (hi : p.view.Inv) : p.sweepDead.view.Inv := by
  have hm {r : Ref} : r ∈ p.sweepDead.steps ↔ p.view.Live r := by
    simp [sweepDead, View.Live, view]
  have hl {r : Ref} : p.sweepDead.view.Live r ↔ p.view.Live r := by
    rw [View.Live, view, hm]
    simp [sweepDead]
  constructor
  case steps_seen => exact fun r hr => hi.live_seen (hm.mp hr)
  case steps_nodup => exact hi.steps_nodup.filter _
  case steps_dep => exact fun r hr d h => hm.mpr (hi.live_dep r (hm.mp hr) d h)
  case ids => exact fun r hr s hs => hi.ids r (hm.mp hr).left s (hm.mp hs).left
  case dead_some => simp [view, sweepDead]
  case live_dep => exact fun r hr d h => hl.mpr (hi.live_dep r (hl.mp hr) d h)
  case index => exact fun id r i => (hi.index id r i).trans (and_congr_left fun _ => hl.symm)
  all_goals first
    | exact hi.seen_lt | exact hi.dep_lt | exact hi.unseen_id | exact hi.unseen_dep
    | exact hi.seen_id | exact hi.seen_dep | exact hi.index_nodup | exact hi.acyclic

section Order

variable {p : Plan K} {targets : List Ref} {r d : Ref}

theorem assignIds_of_some {rs : List Ref} {used : List (Option Nat)}
    (h : ∀ r ∈ rs, (p.stepId r).isSome) : assignIds rs used p = p := by
  induction rs
  case nil => rfl
  case cons r rs hi =>
    have hr : p.stepId r ≠ none := Option.isSome_iff_ne_none.mp (h r (by simp))
    rw [assignIds, if_neg hr]
    exact hi fun s hs => h s (by simp [hs])

-- What the dependencies of step objects satisfy, registered or not: they are objects themselves, and
-- they have no cycles.
structure Acyclic (p : Plan K) : Prop where
  dep_lt  : ∀ r, ∀ d ∈ p.dependencies r, d < p.heap.length
  acyclic : ∀ r, ¬TransGen p.DependsOn r r

theorem View.Inv.plan_acyclic (hi : p.view.Inv) : p.Acyclic where
  dep_lt  := hi.dep_lt
  acyclic := hi.acyclic

theorem Acyclic.universe (h : p.Acyclic) :
    Graph.Universe p.dependencies (Finset.range p.heap.length) := by
  intro r d hd
  refine ⟨Finset.mem_range.mpr ?_, Finset.mem_range.mpr (h.dep_lt r d hd)⟩
  by_contra hr
  simp [dependencies, List.getElem?_eq_none (Nat.le_of_not_lt hr)] at hd

theorem orderSteps_fst (hi : p.view.Inv) (ht : ∀ t ∈ targets, t ∈ p.seen) :
    (p.orderSteps targets).fst = p := by
  refine assignIds_of_some fun r h => hi.seen_id r ?_
  have hr := Graph.mem_postOrder_iff hi.plan_acyclic.universe (by simp) |>.mp h
  exact hr.subset_of_closed (fun t h _ => ht t h) fun a b ha e => hi.seen_dep a ha b e.left

variable (ha : p.Acyclic)
include ha

theorem mem_orderSteps_iff : r ∈ (p.orderSteps targets).snd ↔
    Graph.Region p.dependencies (fun _ => false) targets r :=
  Graph.mem_postOrder_iff ha.universe (by simp)

theorem orderSteps_nodup : (p.orderSteps targets).snd.Nodup :=
  Graph.postOrder_nodup ha.universe (by simp)

theorem orderSteps_target (h : r ∈ targets) : r ∈ (p.orderSteps targets).snd :=
  (mem_orderSteps_iff ha).mpr (.target h rfl)

theorem orderSteps_dep (h : r ∈ (p.orderSteps targets).snd) (hd : d ∈ p.dependencies r) :
    d ∈ (p.orderSteps targets).snd :=
  (mem_orderSteps_iff ha).mpr <| ((mem_orderSteps_iff ha).mp h).tail ⟨hd, rfl⟩

theorem orderSteps_subset {P : Ref → Prop} (hP : ∀ t ∈ targets, P t)
    (hc : ∀ a, P a → ∀ b ∈ p.dependencies a, P b) (h : r ∈ (p.orderSteps targets).snd) : P r :=
  ((mem_orderSteps_iff ha).mp h).subset_of_closed (fun t h _ => hP t h)
    fun a b ha e => hc a ha b e.left

-- Each step of the order comes after all its dependencies.
theorem orderSteps_closed : Graph.Closed p.dependencies (fun _ => false) (p.orderSteps targets).snd := by
  refine Graph.postOrder_closed_iff ha.universe (by simp) |>.mpr fun r _ hc => ?_
  exact ha.acyclic r (hc.lift _ fun _ _ e => e.left)

end Order

-- The graph after the steps whose ids are not in `keep` have been dropped.
def View.shake (v : View K) (keep : List (Option Nat)) : View K :=
  { v with
    steps := v.steps.filter (v.stepId · ∈ keep)
    index := fun id => if id ∈ keep then (v.index id).filter (v.stepId ·.fst ∈ keep) else [] }

theorem View.shake_inv {v : View K} {keep : List (Option Nat)} (hi : v.Inv)
    (hk : ∀ r ∈ v.steps, v.stepId r ∈ keep → ∀ d ∈ v.dependencies r, v.stepId d ∈ keep) :
    (v.shake keep).Inv := by
  have hm {r : Ref} : r ∈ (v.shake keep).steps ↔ r ∈ v.steps ∧ v.stepId r ∈ keep := by
    simp [shake]
  have hl {r : Ref} : (v.shake keep).Live r ↔ v.Live r ∧ v.stepId r ∈ keep :=
    ⟨fun h => ⟨⟨(hm.mp h.left).left, h.right⟩, (hm.mp h.left).right⟩,
      fun h => ⟨hm.mpr ⟨h.left.left, h.right⟩, h.left.right⟩⟩
  constructor
  case steps_seen => exact fun r hr => hi.steps_seen r (hm.mp hr).left
  case steps_nodup => exact hi.steps_nodup.filter _
  case steps_dep =>
    intro r hr d hd
    have ⟨hr, hk'⟩ := hm.mp hr
    exact hm.mpr ⟨hi.steps_dep r hr d hd, hk r hr hk' d hd⟩
  case ids => exact fun r hr s hs => hi.ids r (hm.mp hr).left s (hm.mp hs).left
  case live_dep =>
    intro r hr d hd
    have ⟨hr, hk'⟩ := hl.mp hr
    exact hl.mpr ⟨hi.live_dep r hr d hd, hk r hr.left hk' d hd⟩
  case index =>
    intro id r i
    rw [hl]
    simp only [shake]
    split
    case isTrue h =>
      simp only [List.mem_filter, hi.index, decide_eq_true_eq]
      tauto
    case isFalse h =>
      -- An edge of a kept step leads to a kept step.
      refine iff_of_false List.not_mem_nil fun ⟨⟨hr, hk'⟩, d, hd, he⟩ => ?_
      exact h (he ▸ hk r hr.left hk' d (List.mem_of_getElem? hd))
  case index_nodup =>
    intro id
    simp only [shake]
    split
    case isTrue  => exact (hi.index_nodup id).filter _
    case isFalse => exact List.nodup_nil
  all_goals first
    | exact hi.seen_lt | exact hi.dep_lt | exact hi.unseen_id | exact hi.unseen_dep
    | exact hi.seen_id | exact hi.seen_dep | exact hi.dead_some | exact hi.acyclic

theorem treeShake_inv [StepClass K Key] {p : Plan K} {roots : List Ref} (hi : p.view.Inv)
    (hr : ∀ r ∈ roots, r ∈ p.steps) : (p.treeShake roots).fst.view.Inv ∧
      (p.treeShake roots).fst.sideReplacements = p.sideReplacements := by
  have hs {r : Ref} (h : r ∈ p.steps.filter (¬ p.dedupable ·)) : r ∈ p.steps := List.mem_of_mem_filter h
  have h₁ := orderSteps_fst hi fun t h => hi.steps_seen t (hr t h)
  have h₂ := orderSteps_fst hi fun t h => hi.steps_seen t (hs h)
  -- The steps that are reached and those that are kept are steps of the plan.
  have hk₁ {r : Ref} (h : r ∈ (p.orderSteps roots).snd) : r ∈ p.steps :=
    orderSteps_subset hi.plan_acyclic hr hi.steps_dep h
  have hk₂ {r : Ref} (h : r ∈ (p.orderSteps (p.steps.filter (¬ p.dedupable ·))).snd) : r ∈ p.steps :=
    orderSteps_subset hi.plan_acyclic (fun t h => hs h) hi.steps_dep h
  simp only [treeShake, h₁, h₂]
  refine ⟨View.shake_inv (v := p.view) hi fun r hr' hk d hd => ?_, trivial⟩
  simp only [List.mem_append, List.mem_map] at hk ⊢
  rcases hk with ⟨s, hm, he⟩ | ⟨s, hm, he⟩
  · have := hi.ids s (hk₁ hm) r hr' he
    exact .inl ⟨d, orderSteps_dep hi.plan_acyclic hm (this ▸ hd), rfl⟩
  · have := hi.ids s (hk₂ hm) r hr' he
    exact .inr ⟨d, orderSteps_dep hi.plan_acyclic hm (this ▸ hd), rfl⟩

end Plan

end Grafast
