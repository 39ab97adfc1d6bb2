import Grafast.Dag.Theorems.Passes

namespace Grafast

namespace Plan

variable {K : Type}

namespace View

-- What holds of a plan that has not been trimmed, even if its steps depend on each other in a cycle.
structure Registry (v : View K) : Prop where
  seen_lt    : ∀ r ∈ v.seen, r < v.length
  dep_lt     : ∀ r, ∀ d ∈ v.dependencies r, d < v.length
  unseen_id  : ∀ r ∉ v.seen, v.stepId r = none
  unseen_dep : ∀ r ∉ v.seen, ∀ d ∈ v.dependencies r, d < r
  seen_dep   : ∀ r ∈ v.seen, ∀ d ∈ v.dependencies r, d ∈ v.seen
  steps      : ∀ r, r ∈ v.steps ↔ r ∈ v.seen
  id_lt      : ∀ r ∈ v.seen, ∃ n < v.steps.length, v.stepId r = some n
  ids        : ∀ r ∈ v.seen, ∀ s ∈ v.seen, v.stepId r = v.stepId s → r = s
  dead       : ∀ id ∈ v.deadIds, ∃ r ∈ v.seen, v.stepId r = id
  index_seen : ∀ id, ∀ e ∈ v.index id, e.fst ∈ v.seen

-- What the operations of a hook leave alone: the steps that are registered, with their ids.
structure Retains (v v' : View K) : Prop where
  length : v.length ≤ v'.length
  seen   : ∀ r ∈ v.seen, r ∈ v'.seen
  stepId : ∀ r ∈ v.seen, v'.stepId r = v.stepId r

namespace Retains

variable {v v₁ v₂ : View K}

theorem refl : Retains v v :=
  ⟨le_rfl, fun _ h => h, fun _ _ => rfl⟩

theorem trans (h₁ : Retains v v₁) (h₂ : Retains v₁ v₂) : Retains v v₂ where
  length     := h₁.length.trans h₂.length
  seen r h   := h₂.seen r (h₁.seen r h)
  stepId r h := (h₂.stepId r (h₁.seen r h)).trans (h₁.stepId r h)

end Retains

-- What the registration of a step changes: steps below a bound have been added.
structure Adds (v v' : View K) (n : Nat) : Prop where
  registry     : v'.Registry
  retains      : Retains v v'
  length       : v'.length = v.length
  dependencies : v'.dependencies = v.dependencies
  deadIds      : v'.deadIds = v.deadIds
  replacements : v'.replacements = v.replacements
  bound        : ∀ r ∈ v'.seen, r ∈ v.seen ∨ r < n

namespace Adds

variable {v v₁ v₂ : View K} {n m : Nat}

theorem refl (h : v.Registry) : Adds v v n :=
  ⟨h, .refl, rfl, rfl, rfl, rfl, fun _ => .inl⟩

theorem trans (h₁ : Adds v v₁ n) (h₂ : Adds v₁ v₂ m) (hm : m ≤ n) : Adds v v₂ n where
  registry     := h₂.registry
  retains      := h₁.retains.trans h₂.retains
  length       := h₂.length.trans h₁.length
  dependencies := h₂.dependencies.trans h₁.dependencies
  deadIds      := h₂.deadIds.trans h₁.deadIds
  replacements := h₂.replacements.trans h₁.replacements
  bound r h    := (h₂.bound r h).elim (h₁.bound r) fun hr => .inr (lt_of_lt_of_le hr hm)

end Adds

namespace Registry

variable {v : View K}

theorem not_self {r : Ref} (h : v.Registry) (hr : r ∉ v.seen) : r ∉ v.dependencies r :=
  fun hc => lt_irrefl r (h.unseen_dep r hr r hc)

theorem seen_id {r : Ref} (h : v.Registry) (hr : r ∈ v.seen) : v.stepId r ≠ none := by
  obtain ⟨n, _, hn⟩ := h.id_lt r hr
  simp [hn]

theorem construct {kind : K} {deps : List Ref} (h : v.Registry) (hd : ∀ d ∈ deps, d < v.length) :
    (v.construct kind deps).Registry := by
  have hu {r : Ref} (hr : r ∈ v.seen) : (v.construct kind deps).dependencies r = v.dependencies r :=
    Function.update_of_ne (h.seen_lt r hr).ne ..
  have hlt {a b : Ref} (hb : b ∈ (v.construct kind deps).dependencies a) : b < v.length := by
    by_cases he : a = v.length
    case pos => exact hd b (by simpa [View.construct, he] using hb)
    case neg => exact h.dep_lt a b (by simpa [View.construct, he] using hb)
  constructor
  case seen_lt => exact fun r hr => Nat.lt_succ_of_lt (h.seen_lt r hr)
  case dep_lt => exact fun r d hr => Nat.lt_succ_of_lt (hlt hr)
  case unseen_id => exact h.unseen_id
  case seen_dep => exact fun r hr d hm => h.seen_dep r hr d (hu hr ▸ hm)
  case steps => exact h.steps
  case id_lt => exact h.id_lt
  case ids => exact h.ids
  case dead => exact h.dead
  case index_seen => exact h.index_seen
  case unseen_dep =>
    intro r hr d hm
    by_cases he : r = v.length
    case pos => exact he ▸ hlt hm
    case neg => exact h.unseen_dep r hr d (by simpa [View.construct, he] using hm)

theorem enroll {r : Ref} (h : v.Registry) (hr : r ∉ v.seen) (hl : r < v.length)
    (hd : ∀ d ∈ v.dependencies r, d ∈ v.seen) : (v.enroll r).Registry := by
  have hid {s : Ref} (hs : s ∈ v.seen) : (v.enroll r).stepId s = v.stepId s :=
    Function.update_of_ne (ne_of_mem_of_not_mem hs hr) ..
  have hself : (v.enroll r).stepId r = some v.steps.length := Function.update_self ..
  have hfresh {s : Ref} (hs : s ∈ v.seen) : (v.enroll r).stepId s ≠ (v.enroll r).stepId r := by
    obtain ⟨n, hn, he⟩ := h.id_lt s hs
    rw [hid hs, hself, he]
    exact fun hc => hn.ne (Option.some.inj hc)
  have hmem {s : Ref} (hs : s ∈ (v.enroll r).seen) : s = r ∨ s ∈ v.seen := List.mem_cons.mp hs
  constructor
  case seen_lt => exact fun s hs => (hmem hs).elim (· ▸ hl) (h.seen_lt s)
  case dep_lt => exact h.dep_lt
  case unseen_id =>
    intro s hs
    obtain ⟨hne, hs⟩ := not_or.mp (mt List.mem_cons.mpr hs)
    exact (Function.update_of_ne hne ..).trans (h.unseen_id s hs)
  case unseen_dep => exact fun s hs => h.unseen_dep s fun hc => hs (List.mem_cons_of_mem _ hc)
  case seen_dep =>
    intro s hs d hm
    obtain rfl | hs := hmem hs
    · exact List.mem_cons_of_mem _ (hd d hm)
    · exact List.mem_cons_of_mem _ (h.seen_dep s hs d hm)
  case steps => simp [View.enroll, h.steps, or_comm]
  case id_lt =>
    intro s hs
    simp only [View.enroll, List.length_append, List.length_singleton]
    obtain rfl | hs := hmem hs
    · exact ⟨_, Nat.lt_succ_self _, hself⟩
    · obtain ⟨n, hn, he⟩ := h.id_lt s hs
      exact ⟨n, Nat.lt_succ_of_lt hn, (hid hs).trans he⟩
  case ids =>
    intro s hs t ht he
    cases hmem hs
    case inl hsr =>
      cases hmem ht
      case inl htr => exact hsr.trans htr.symm
      case inr ht  => exact absurd (hsr ▸ he.symm) (hfresh ht)
    case inr hs  =>
      cases hmem ht
      case inl htr => exact absurd (htr ▸ he) (hfresh hs)
      case inr ht  => exact h.ids s hs t ht (by rwa [hid hs, hid ht] at he)
  case dead =>
    intro id hm
    obtain ⟨s, hs, he⟩ := h.dead id hm
    exact ⟨s, List.mem_cons_of_mem _ hs, (hid hs).trans he⟩
  case index_seen =>
    intro id e he
    simp only [View.enroll, List.mem_append, mem_edgesTo] at he
    cases he
    case inl he => exact List.mem_cons_of_mem _ (h.index_seen id e he)
    case inr he => exact he.left ▸ List.mem_cons_self

theorem enroll_adds {r : Ref} (h : v.Registry) (hr : r ∉ v.seen) (hl : r < v.length)
    (hd : ∀ d ∈ v.dependencies r, d ∈ v.seen) : Adds v (v.enroll r) (r + 1) where
  registry     := h.enroll hr hl hd
  retains      := ⟨le_rfl, fun _ hs => List.mem_cons_of_mem _ hs,
    fun _ hs => Function.update_of_ne (ne_of_mem_of_not_mem hs hr) ..⟩
  length       := rfl
  dependencies := rfl
  deadIds      := rfl
  replacements := rfl
  bound _ hs   := (List.mem_cons.mp hs).elim (fun he => .inr (he ▸ Nat.lt_succ_self r)) .inl

theorem mem_moved {dead survivor r d : Ref} (h : v.Registry) (hd : d ∈ v.moved dead survivor r) :
    d ∈ v.dependencies r ∨ r ∈ v.seen ∧ d = survivor := by
  simp only [View.moved, List.mem_mapIdx] at hd
  obtain ⟨i, hi, he⟩ := hd
  split at he
  case isTrue hm => exact .inr ⟨h.index_seen _ _ hm, he.symm⟩
  case isFalse   => exact .inl (he ▸ List.getElem_mem hi)

theorem eradicate {dead survivor : Ref} (h : v.Registry) (hd : dead ∈ v.seen) (hs : survivor ∈ v.seen) :
    (v.eradicate dead survivor).Registry := by
  constructor
  case seen_lt => exact h.seen_lt
  case dep_lt => exact fun r d hm => (h.mem_moved hm).elim (h.dep_lt r d) fun hm => hm.right ▸ h.seen_lt survivor hs
  case unseen_id => exact h.unseen_id
  case unseen_dep => exact fun r hr d hm => (h.mem_moved hm).elim (h.unseen_dep r hr d) fun hm => absurd hm.left hr
  case seen_dep => exact fun r hr d hm => (h.mem_moved hm).elim (h.seen_dep r hr d) fun hm => hm.right ▸ hs
  case steps => exact h.steps
  case id_lt => exact h.id_lt
  case ids => exact h.ids
  case dead =>
    intro id hm
    cases List.mem_cons.mp hm
    case inl he => exact ⟨dead, hd, he.symm⟩
    case inr hm => exact h.dead id hm
  case index_seen =>
    intro id e he
    simp only [View.eradicate, List.mem_filter] at he
    obtain ⟨he, _⟩ := he
    split at he
    case isTrue  => exact (List.mem_append.mp he).elim (h.index_seen _ e) (h.index_seen _ e)
    case isFalse =>
      split at he
      case isTrue  => cases he
      case isFalse => exact h.index_seen _ e he

theorem replacements (h : v.Registry) (l : List (Ref × Ref)) : { v with replacements := l }.Registry :=
  ⟨h.seen_lt, h.dep_lt, h.unseen_id, h.unseen_dep, h.seen_dep, h.steps, h.id_lt, h.ids, h.dead,
    h.index_seen⟩

end Registry

-- A plan with the graph invariant that has never been trimmed.
theorem Inv.registry {v : View K} (hi : v.Inv) (hv : v.Dense) (hs : ∀ r ∈ v.seen, r ∈ v.steps)
    (hd : v.deadIds = []) : v.Registry where
  seen_lt    := hi.seen_lt
  dep_lt     := hi.dep_lt
  unseen_id  := hi.unseen_id
  unseen_dep := hi.unseen_dep
  seen_dep   := hi.seen_dep
  steps r    := ⟨hi.steps_seen r, hs r⟩
  id_lt r hr := by
    obtain ⟨n, hn⟩ := Option.isSome_iff_exists.mp (hi.seen_id r hr)
    exact ⟨n, hv.steps r (hs r hr) n hn, hn⟩
  ids r hr s hm := hi.ids r (hs r hr) s (hs s hm)
  dead       := by simp [hd]
  index_seen id e he := hi.live_seen ((hi.index id e.fst e.snd).mp he).left

end View

theorem foldlM_adds {p : Plan K} {rs : List Ref} {f : Plan K → Ref → Option (Plan K)} {n : Nat}
    (h : p.view.Registry) (hl : ∀ r ∈ rs, r < p.heap.length)
    (hf : ∀ p : Plan K, p.view.Registry → ∀ r ∈ rs, r < p.heap.length →
      ∃ q, f p r = some q ∧ View.Adds p.view q.view n ∧ r ∈ q.seen) :
    ∃ q, rs.foldlM f p = some q ∧ View.Adds p.view q.view n ∧ ∀ r ∈ rs, r ∈ q.seen := by
  induction rs generalizing p
  case nil          => exact ⟨p, rfl, .refl h, by simp⟩
  case cons r rs hi =>
    obtain ⟨p₁, h₁, ha₁, hr⟩ := hf p h r List.mem_cons_self (hl r List.mem_cons_self)
    obtain ⟨p₂, h₂, ha₂, hs⟩ := hi ha₁.registry
      (fun s hs => lt_of_lt_of_eq (hl s (List.mem_cons_of_mem _ hs)) ha₁.length.symm)
      fun p hp s hs => hf p hp s (List.mem_cons_of_mem _ hs)
    refine ⟨p₂, by simp [List.foldlM_cons, h₁, h₂], ha₁.trans ha₂ le_rfl, ?_⟩
    exact List.forall_mem_cons.mpr ⟨ha₂.retains.seen r hr, hs⟩

-- The recursion stops within `r + 1` calls, as the dependencies of a new step are older than it.
theorem register_adds {fuel : Nat} {p : Plan K} {r : Ref} (h : p.view.Registry) (hl : r < p.heap.length)
    (hf : r < fuel) :
    ∃ q, register fuel p r = some q ∧ View.Adds p.view q.view (r + 1) ∧ r ∈ q.seen := by
  induction fuel generalizing p r
  case zero         => contradiction
  case succ fuel hi =>
    rw [register]
    split
    case isTrue hm  => exact ⟨p, rfl, .refl h, hm⟩
    case isFalse hm =>
      have hlt : ∀ d ∈ p.dependencies r, d < r := h.unseen_dep r hm
      obtain ⟨q, hq, ha, hd⟩ := foldlM_adds (f := register fuel) (n := r) h
        (fun d hd => (hlt d hd).trans hl) fun p hp d hd hdl => by
          obtain ⟨q, hq, ha, hm⟩ := hi hp hdl (lt_of_lt_of_le (hlt d hd) (Nat.lt_succ_iff.mp hf))
          exact ⟨q, hq, (View.Adds.refl hp).trans ha (hlt d hd), hm⟩
      have hm : r ∉ q.seen := fun hc => (ha.bound r hc).elim hm (lt_irrefl r)
      have hl : r < q.view.length := ha.length ▸ hl
      have hdep : q.view.dependencies r = p.dependencies r := congrFun ha.dependencies r
      have hv : (q.enroll r).view = q.view.enroll r := enroll_view hl (ha.registry.not_self hm)
      have he := ha.registry.enroll_adds hm hl fun d hm => hd d (hdep ▸ hm)
      refine ⟨q.enroll r, by simp [hq], ?_, ?_⟩
      · exact hv ▸ ((View.Adds.refl h).trans ha (Nat.le_succ r)).trans he le_rfl
      · exact (congrArg (r ∈ View.seen ·) hv).mpr List.mem_cons_self

theorem addStep_adds {p : Plan K} {r : Ref} (h : p.view.Registry) (hl : r < p.heap.length) :
    ∃ q, p.addStep r = some q ∧ View.Adds p.view q.view (r + 1) ∧ r ∈ q.seen :=
  register_adds h hl (Nat.lt_succ_of_lt hl)

theorem View.Registry.universe {p : Plan K} (h : p.view.Registry) :
    Graph.Universe p.dependencies (Finset.range p.heap.length) := by
  intro r d hd
  refine ⟨Finset.mem_range.mpr ?_, Finset.mem_range.mpr (h.dep_lt r d hd)⟩
  by_contra hr
  simp [dependencies_of_le (Nat.le_of_not_lt hr)] at hd

theorem View.Registry.orderSteps_fst {p : Plan K} (h : p.view.Registry) :
    (p.orderSteps p.steps).fst = p := by
  refine assignIds_of_some fun r hr => Option.ne_none_iff_isSome.mp (h.seen_id ?_)
  have hr := Graph.mem_postOrder_iff h.universe (by simp) |>.mp hr
  exact hr.subset_of_closed (fun t ht _ => (h.steps t).mp ht) fun a b ha e => h.seen_dep a ha b e.left

end Plan

end Grafast
