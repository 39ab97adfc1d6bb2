import Grafast.Dag.Theorems.Passes

namespace Grafast

open Relation (TransGen ReflTransGen)

namespace Plan

variable {K Key : Type} [StepClass K Key] [DecidableEq Key]

-- The state of a pass of `deduplicate` between the steps `done` and the steps `rest`.
structure DedupInv (s : DedupPass K Key) (done rest : List Ref) : Prop where
  inv     : s.plan.view.Inv
  mem     : ∀ r ∈ done ++ rest, r ∈ s.plan.steps
  nodup   : (done ++ rest).Nodup
  closed  : ∀ a r b, done ++ rest = a ++ r :: b → s.plan.view.Live r →
    ∀ d ∈ s.plan.dependencies r, d ∈ a
  winners : ∀ k w, (k, w) ∈ s.byKey → w ∈ done ∧ s.plan.view.Live w ∧ s.plan.dedupable w = true ∧
    s.plan.structuralKey w = k
  covered : ∀ r ∈ done, s.plan.view.Live r → s.plan.dedupable r = true →
    s.byKey.lookup (s.plan.structuralKey r) = some r

-- `r` is merged into the live step `w` of the same structural key.
structure Mergeable (p : Plan K) (r w : Ref) : Prop where
  replaceable : p.view.Replaceable r w
  live        : p.view.Live r
  dedupable   : p.dedupable r = true
  dedupable'  : p.dedupable w = true
  key         : p.structuralKey r = p.structuralKey w

namespace DedupInv

variable {s : DedupPass K Key} {done rest : List Ref} {r w : Ref}

theorem done_closed (h : DedupInv s done rest) (hr : r ∈ done) (hl : s.plan.view.Live r) :
    ∀ d ∈ s.plan.dependencies r, d ∈ done := by
  intro d hd
  have ⟨a, b, he, _⟩ := List.eq_append_cons_of_mem hr
  have := h.closed a r (b ++ rest) (by simp [he]) hl d hd
  exact he ▸ List.mem_append_left _ this

-- A step that was processed before does not depend on the current one.
theorem mergeable (h : DedupInv s done (r :: rest)) (hl : s.plan.view.Live r)
    (hd : s.plan.dedupable r = true) (hw : (s.plan.structuralKey r, w) ∈ s.byKey) :
    Mergeable s.plan r w := by
  have ⟨hwd, hwl, hwp, hk⟩ := h.winners _ w hw
  have hr : r ∉ done := fun hc => (List.nodup_append.mp h.nodup).right.right r hc r (by simp) rfl
  refine ⟨⟨hl.left, hwl, fun he => hr (he ▸ hwd), fun hc => hr ?_⟩, hl, hd, hwp, hk.symm⟩
  have hdone {d : Ref} (hp : ReflTransGen s.plan.view.DependsOn w d) :
      d ∈ done ∧ s.plan.view.Live d := by
    induction hp
    case refl => exact ⟨hwd, hwl⟩
    case tail e hi => exact ⟨h.done_closed hi.left hi.right _ e, h.inv.live_dep _ hi.right _ e⟩
  exact (hdone hc).left

theorem skip (h : DedupInv s done (r :: rest)) (hs : ¬(s.plan.view.Live r ∧ s.plan.dedupable r)) :
    DedupInv s (done ++ [r]) rest where
  inv     := h.inv
  mem     := by simpa using h.mem
  nodup   := by simpa using h.nodup
  closed  := by simpa using h.closed
  winners := fun k w hw => (h.winners k w hw).imp_left (List.mem_append_left _)
  covered := by
    intro t ht hl hd
    cases List.mem_append.mp ht
    case inl ht => exact h.covered t ht hl hd
    case inr ht => exact absurd ⟨hl, hd⟩ (List.mem_singleton.mp ht ▸ hs)

theorem add (h : DedupInv s done (r :: rest)) (hl : s.plan.view.Live r)
    (hd : s.plan.dedupable r = true) (hk : s.byKey.lookup (s.plan.structuralKey r) = none) :
    DedupInv { s with byKey := (s.plan.structuralKey r, r) :: s.byKey } (done ++ [r]) rest where
  inv    := h.inv
  mem    := by simpa using h.mem
  nodup  := by simpa using h.nodup
  closed := by simpa using h.closed
  winners k w hw := by
    cases List.mem_cons.mp hw
    case inl he =>
      have ⟨hk, hr⟩ := Prod.ext_iff.mp he
      have hr : w = r := hr
      exact ⟨by simp [hr], hr ▸ hl, hr ▸ hd, hr ▸ hk.symm⟩
    case inr hw => exact (h.winners k w hw).imp_left (List.mem_append_left _)
  covered t ht hlt hdt := by
    rw [List.lookup_cons]
    cases List.mem_append.mp ht
    case inl ht =>
      have hc := h.covered t ht hlt hdt
      have hne : s.plan.structuralKey t ≠ s.plan.structuralKey r :=
        fun he => by simp [← he, hc] at hk
      rw [beq_eq_false_iff_ne.mpr hne]
      exact hc
    case inr ht => simp [List.mem_singleton.mp ht]

section Merge

variable (h : DedupInv s done (r :: rest)) (hm : Mergeable s.plan r w) (hw : w ∈ done)
include h hm

theorem merge_structuralKey {t : Ref} (ht : t ∈ done) (hl : s.plan.view.Live t) :
    (s.plan.eradicate r w).structuralKey t = s.plan.structuralKey t := by
  have hr : r ∉ done := fun hc => (List.nodup_append.mp h.nodup).right.right r hc r (by simp) rfl
  have hd : (s.plan.eradicate r w).dependencies t = s.plan.dependencies t := by
    rw [eradicate_dependencies h.inv hm.replaceable, View.moved_of_live h.inv hm.replaceable hl]
    refine (List.map_congr_left fun d hd => ?_).trans (List.map_id _)
    have hne : d ≠ r := fun he => hr (he ▸ h.done_closed ht hl d hd)
    simp [hne]
  simp only [structuralKey, hd, eradicate_kind h.inv hm.replaceable,
    eradicate_stepId h.inv hm.replaceable]

theorem merge_dedupable {t : Ref} : (s.plan.eradicate r w).dedupable t = s.plan.dedupable t := by
  simp only [dedupable, eradicate_kind h.inv hm.replaceable]

theorem merge {m : Remap} {c : Bool} (hw : w ∈ done) :
    DedupInv ⟨⟨s.plan.eradicate r w, m, c⟩, s.byKey⟩ (done ++ [r]) rest := by
  have hlive {t : Ref} := eradicate_live_iff (r := t) h.inv hm.replaceable
  have hr : r ∉ done := fun hc => (List.nodup_append.mp h.nodup).right.right r hc r (by simp) rfl
  constructor
  case inv => exact eradicate_view_inv h.inv hm.replaceable
  case mem =>
    intro t ht
    exact (eradicate_steps h.inv hm.replaceable).symm ▸ h.mem t (by simpa using ht)
  case nodup => simpa using h.nodup
  case closed =>
    intro a t b he hl d hd
    have he : done ++ r :: rest = a ++ t :: b := by simpa using he
    have hl := (hlive.mp hl).left
    rw [eradicate_dependencies h.inv hm.replaceable] at hd
    cases View.mem_moved h.inv hm.replaceable hd
    case inl hd => exact h.closed a t b he hl d hd.left
    case inr hd =>
      -- `t` comes after `r`, hence after `w`.
      have hra := h.closed a t b he hl r hd.right.left
      rcases List.append_eq_append_iff.mp he with ⟨c, rfl, _⟩ | ⟨c, rfl, _⟩
      · exact hd.right.right ▸ List.mem_append_left _ hw
      · exact absurd (List.mem_append_left _ hra) hr
  case winners =>
    intro k x hx
    have ⟨hxd, hxl, hxp, hk⟩ := h.winners k x hx
    refine ⟨List.mem_append_left _ hxd, hlive.mpr ⟨hxl, fun he => hr (he ▸ hxd)⟩, ?_, ?_⟩
    · exact (merge_dedupable h hm).trans hxp
    · exact (merge_structuralKey h hm hxd hxl).trans hk
  case covered =>
    intro t ht hl hd
    have ⟨hl, hne⟩ := hlive.mp hl
    have ht : t ∈ done := by simpa [hne] using ht
    have hc := h.covered t ht hl ((merge_dedupable h hm) ▸ hd)
    exact (merge_structuralKey h hm ht hl).symm ▸ hc

end Merge

end DedupInv

-- One step of a pass: the step is left alone, or it is merged into an earlier one.
theorem dedupStep_cases {s : DedupPass K Key} {done rest : List Ref} {r : Ref}
    (h : DedupInv s done (r :: rest)) :
    DedupInv (dedupStep s r) (done ++ [r]) rest ∧
      ((dedupStep s r).toPass = s.toPass ∨ ∃ w, Mergeable s.plan r w ∧ (dedupStep s r).toPass =
        ⟨s.plan.eradicate r w, Function.update s.merged (s.plan.stepId r) (some w), true⟩) := by
  unfold dedupStep
  split
  case isTrue hd => exact ⟨h.skip fun hl => hl.left.right hd, .inl rfl⟩
  case isFalse hd =>
    have hl : s.plan.view.Live r := ⟨h.mem r (by simp), hd⟩
    split
    case isTrue hp => exact ⟨h.skip fun hl => hp hl.right, .inl rfl⟩
    case isFalse hp =>
      have hp : s.plan.dedupable r = true := by simpa using hp
      simp only
      cases hk : s.byKey.lookup (s.plan.structuralKey r)
      case none =>
        simp only
        exact ⟨h.add hl hp hk, .inl trivial⟩
      case some w =>
        simp only
        have ⟨l₁, l₂, he, _⟩ := List.lookup_eq_some_iff.mp hk
        have hw : (s.plan.structuralKey r, w) ∈ s.byKey := by simp [he]
        have hm := h.mergeable hl hp hw
        exact ⟨h.merge hm (h.winners _ w hw).left, .inr ⟨w, hm, rfl⟩⟩

-- The merges of a pass, or of several passes: `k` of them have led from `p` to `q`.
inductive Merges (p : Plan K) : Nat → Plan K → Remap → Prop
  | refl : Merges p 0 p (fun _ => none)
  | merge {k : Nat} {q : Plan K} {m : Remap} {r w : Ref} : Merges p k q m → Mergeable q r w →
    Merges p (k + 1) (q.eradicate r w) (Function.update m (q.stepId r) (some w))

-- No two steps could still be merged.
def Deduplicated (p : Plan K) : Prop :=
  ∀ r s, p.view.Live r → p.view.Live s → p.dedupable r = true → p.dedupable s = true →
    p.structuralKey r = p.structuralKey s → r = s

theorem DedupInv.deduplicated {s : DedupPass K Key} {done : List Ref} (h : DedupInv s done [])
    (hd : ∀ r ∈ s.plan.steps, r ∈ done) : s.plan.Deduplicated := by
  intro r t hr ht hrd htd hk
  have := h.covered r (hd r hr.left) hr hrd
  rw [hk, h.covered t (hd t ht.left) ht htd] at this
  exact (Option.some.inj this).symm

theorem foldl_dedupStep {p : Plan K} {k : Nat} {s : DedupPass K Key} {done rest : List Ref}
    (h : DedupInv s done rest) (hm : Merges p k s.plan s.merged) :
    DedupInv (rest.foldl dedupStep s) (done ++ rest) [] ∧
      ∃ k, Merges p k (rest.foldl dedupStep s).plan (rest.foldl dedupStep s).merged := by
  induction rest generalizing s done k
  case nil => exact ⟨by simpa using h, k, hm⟩
  case cons r rest hi =>
    have ⟨h', hc⟩ := dedupStep_cases h
    rw [List.append_cons]
    cases hc
    case inl he =>
      exact hi (k := k) h' (by rw [he]; exact hm)
    case inr he =>
      have ⟨w, hw, he⟩ := he
      exact hi (k := k + 1) h' (by rw [he]; exact hm.merge hw)

theorem dedupInv_init {s : DedupPass K Key} (hi : s.plan.view.Inv) (hk : s.byKey = []) :
    DedupInv s [] (s.plan.orderSteps s.plan.steps).snd where
  inv     := hi
  mem r h := orderSteps_subset hi.plan_acyclic (fun _ h => h) hi.steps_dep h
  nodup   := orderSteps_nodup hi.plan_acyclic
  closed a r b h _ d hd := by
    simpa using orderSteps_closed hi.plan_acyclic a r b h d hd
  winners := by simp [hk]
  covered := by simp

omit [DecidableEq Key]

namespace Merges

variable {p q : Plan K} {k : Nat} {m : Remap} {r s : Ref}

theorem inv (hi : p.view.Inv) (h : Merges p k q m) : q.view.Inv := by
  induction h
  case refl          => exact hi
  case merge hm hi => exact eradicate_view_inv hi hm.replaceable

theorem steps (hi : p.view.Inv) (h : Merges p k q m) : q.steps = p.steps := by
  induction h
  case refl            => rfl
  case merge h hm ih => exact (eradicate_steps (h.inv hi) hm.replaceable).trans ih

theorem stepId (hi : p.view.Inv) (h : Merges p k q m) : q.stepId = p.stepId := by
  induction h
  case refl            => rfl
  case merge h hm ih => exact (eradicate_stepId (h.inv hi) hm.replaceable).trans ih

theorem kind (hi : p.view.Inv) (h : Merges p k q m) : q.kind = p.kind := by
  induction h
  case refl            => rfl
  case merge h hm ih => exact (eradicate_kind (h.inv hi) hm.replaceable).trans ih

theorem replacements (hi : p.view.Inv) (h : Merges p k q m) :
    q.sideReplacements = p.sideReplacements := by
  induction h
  case refl => rfl
  case merge h hm ih =>
    exact (congrArg View.replacements (eradicate_view_eq (h.inv hi) hm.replaceable)).trans ih

theorem live (hi : p.view.Inv) (h : Merges p k q m) (hl : q.view.Live r) : p.view.Live r := by
  induction h
  case refl            => exact hl
  case merge h hm ih => exact ih ((eradicate_live_iff (h.inv hi) hm.replaceable).mp hl).left

-- Only steps that are removed are remapped, and only to steps of the plan.
theorem merged_live (hi : p.view.Inv) (h : Merges p k q m) (hl : q.view.Live r) :
    m (q.stepId r) = none := by
  induction h
  case refl => rfl
  case merge h hm ih =>
    have hiq := h.inv hi
    have ⟨hl, hne⟩ := (eradicate_live_iff hiq hm.replaceable).mp hl
    rw [eradicate_stepId hiq hm.replaceable, Function.update_of_ne]
    · exact ih hl
    · exact fun he => hne (hiq.ids _ hl.left _ hm.live.left he)

theorem merged_mem (hi : p.view.Inv) (h : Merges p k q m) {id : Option Nat} (hs : m id = some s) :
    s ∈ p.steps := by
  induction h
  case refl => contradiction
  case merge h hm ih =>
    rw [Function.update_apply] at hs
    split at hs
    case isTrue  => exact Option.some.inj hs ▸ h.steps hi ▸ hm.replaceable.live.left
    case isFalse => exact ih hs

end Merges

section Follow

variable {p q : Plan K} {m : Remap} {n : Nat} {r s w : Ref}

omit [StepClass K Key] in
theorem follow_congr (h : q.stepId = p.stepId) : q.follow m n r = p.follow m n r := by
  induction n generalizing r
  case zero      => rfl
  case succ n hi => simp only [follow, h, hi]

omit [StepClass K Key] in
theorem follow_of_none (h : m (p.stepId r) = none) : p.follow m n r = r := by
  cases n <;> simp [follow, h]

omit [StepClass K Key] in
-- More fuel does not lead further once the end of the chain is reached.
theorem follow_stable {n' : Nat} (h : m (p.stepId (p.follow m n r)) = none) (hn : n ≤ n') :
    p.follow m n' r = p.follow m n r := by
  induction n generalizing r n'
  case zero => exact follow_of_none h
  case succ n hi =>
    cases n'
    case zero => contradiction
    case succ n' =>
      unfold follow at h ⊢
      cases hm : m (p.stepId r)
      case none => rfl
      case some s =>
        simp only [hm] at h ⊢
        split
        case isTrue => rfl
        case isFalse hne => exact hi (by simpa [hne] using h) (Nat.le_of_succ_le_succ hn)

omit [StepClass K Key] in
-- One more merge extends the chains that ended at the step that is merged.
theorem follow_update (hp : p.view.Inv) (hm : ∀ id x, m id = some x → x ∈ p.steps)
    (hr : r ∈ p.steps) (hs : s ∈ p.steps) (hw : w ∈ p.steps) (hms : m (p.stepId s) = none)
    (hmw : m (p.stepId w) = none) (hne : s ≠ w) (h : m (p.stepId (p.follow m n r)) = none) :
    p.follow (Function.update m (p.stepId s) (some w)) (n + 1) r =
      if p.follow m n r = s then w else p.follow m n r := by
  have hu {x : Ref} (hx : x ∈ p.steps) (hxs : x ≠ s) :
      Function.update m (p.stepId s) (some w) (p.stepId x) = m (p.stepId x) :=
    Function.update_of_ne (fun he => hxs (hp.ids x hx s hs he)) ..
  have hend {n : Nat} : p.follow (Function.update m (p.stepId s) (some w)) n w = w :=
    follow_of_none ((hu hw hne.symm).trans hmw)
  have hstart {n : Nat} : p.follow (Function.update m (p.stepId s) (some w)) (n + 1) s = w := by
    rw [follow, Function.update_self]
    simp [hne.symm, hend]
  induction n generalizing r
  case zero =>
    by_cases hrs : r = s
    case pos => rw [hrs, hstart, follow, if_pos rfl]
    case neg => rw [follow_of_none ((hu hr hrs).trans h), follow, if_neg hrs]
  case succ n hi =>
    by_cases hrs : r = s
    case pos => rw [hrs, hstart, follow_of_none hms, if_pos rfl]
    case neg =>
      cases hmr : m (p.stepId r)
      case none =>
        rw [follow_of_none ((hu hr hrs).trans hmr), follow_of_none hmr, if_neg hrs]
      case some x =>
        have hx : x ≠ r := fun he => by simp [follow, hmr, he] at h
        have hf : p.follow m (n + 1) r = p.follow m n x := by simp [follow, hmr, hx]
        rw [follow, hu hr hrs, hmr]
        simp only [if_neg hx]
        rw [hf] at h ⊢
        exact hi (hm _ x hmr) h

-- What one more merge does to the survivor of a step.
theorem Merges.follow_merge {k : Nat} (hp : p.view.Inv) (h : Merges p k q m) (hm : Mergeable q s w)
    (hr : p.view.Live r) (hl : q.view.Live (p.follow m k r)) :
    p.follow (Function.update m (q.stepId s) (some w)) (k + 1) r =
      if p.follow m k r = s then w else p.follow m k r := by
  have hn {x : Ref} (hx : q.view.Live x) : m (p.stepId x) = none :=
    h.stepId hp ▸ h.merged_live hp hx
  rw [h.stepId hp]
  exact follow_update hp (fun _ _ => h.merged_mem hp) hr.left (h.live hp hm.live).left
    (h.live hp hm.replaceable.live).left (hn hm.live) (hn hm.replaceable.live) hm.replaceable.ne
    (hn hl)

theorem Merges.follow_live {k : Nat} (hp : p.view.Inv) (h : Merges p k q m) (hr : p.view.Live r) :
    q.view.Live (p.follow m k r) := by
  induction h
  case refl => exact hr
  case merge h hm ih =>
    rw [h.follow_merge hp hm hr ih, eradicate_live_iff (h.inv hp) hm.replaceable]
    split
    case isTrue    => exact ⟨hm.replaceable.live, hm.replaceable.ne.symm⟩
    case isFalse hs => exact ⟨ih, hs⟩

-- Every merge removes a live step, which bounds the number of merges.
theorem Merges.length_le {k : Nat} (hp : p.view.Inv) (h : Merges p k q m) :
    k + (q.steps.filter (q.stepId · ∉ q.deadIds)).length ≤ p.steps.length := by
  induction h
  case refl => simpa using List.length_filter_le ..
  case merge k q m s w h hm ih =>
    have hi := h.inv hp
    have hl {t : Ref} (ht : t ∈ q.steps) : (q.eradicate s w).stepId t ∉ (q.eradicate s w).deadIds ↔
        q.stepId t ∉ q.deadIds ∧ t ≠ s := by
      have := eradicate_live_iff (r := t) hi hm.replaceable
      simp only [View.Live, view, eradicate_steps hi hm.replaceable, ht, true_and] at this
      exact this
    have hf : (q.steps.filter ((q.eradicate s w).stepId · ∉ (q.eradicate s w).deadIds)) =
        (q.steps.filter (q.stepId · ∉ q.deadIds)).filter (· ≠ s) := by
      rw [List.filter_filter]
      refine List.filter_congr fun t ht => ?_
      simp [hl ht, and_comm]
    have hlt := List.length_filter_lt_length_iff_exists (p := (· ≠ s))
      (l := q.steps.filter (q.stepId · ∉ q.deadIds)) |>.mpr
      ⟨s, List.mem_filter.mpr ⟨hm.live.left, decide_eq_true hm.live.right⟩, by simp⟩
    rw [eradicate_steps hi hm.replaceable, hf]
    omega

end Follow

variable [DecidableEq Key]

theorem dedupPass_ok {p : Plan K} {k : Nat} {s : Pass K} (hp : p.view.Inv)
    (hm : Merges p k s.plan s.merged) :
    (∃ k, Merges p k (dedupPass s).plan (dedupPass s).merged) ∧ (dedupPass s).plan.Deduplicated := by
  have hi := hm.inv hp
  have ⟨h, k', hm'⟩ := foldl_dedupStep (s := ⟨{ s with changed := false }, []⟩)
    (dedupInv_init hi rfl) hm
  have hf : (s.plan.orderSteps s.plan.steps).fst = s.plan := orderSteps_fst hi hi.steps_seen
  simp only [dedupPass, hf]
  refine ⟨⟨k', hm'⟩, h.deduplicated fun r hr => ?_⟩
  rw [hm'.steps hp, ← hm.steps hp] at hr
  exact orderSteps_target hi.plan_acyclic hr

-- The first pass already merges everything that can be merged.
theorem deduplicate_loop {p : Plan K} {k : Nat} {s : Pass K} (fuel : Nat) (hp : p.view.Inv)
    (hm : Merges p k s.plan s.merged) :
    (∃ k, Merges p k (deduplicate.loop (fuel + 1) s).plan (deduplicate.loop (fuel + 1) s).merged) ∧
      (deduplicate.loop (fuel + 1) s).plan.Deduplicated := by
  induction fuel generalizing s k
  all_goals
    have ⟨⟨k', hm'⟩, hd⟩ := dedupPass_ok hp hm
    unfold deduplicate.loop
    simp only
    split
  case zero.isTrue      => exact ⟨⟨k', hm'⟩, hd⟩
  case zero.isFalse     => exact ⟨⟨k', hm'⟩, hd⟩
  case succ.isTrue ih _ => exact ih hm'
  case succ.isFalse     => exact ⟨⟨k', hm'⟩, hd⟩

omit [StepClass K Key] [DecidableEq Key] in
theorem stepOf_stepId {p : Plan K} {r : Ref} (hp : p.view.Inv) (hr : r ∈ p.steps) :
    p.stepOf (p.stepId r) = some r := by
  cases h : p.stepOf (p.stepId r)
  case none =>
    have := List.find?_eq_none.mp h r (List.mem_reverse.mpr hr)
    simp at this
  case some s =>
    have he : p.stepId s = p.stepId r := by simpa using List.find?_some h
    have hs := List.mem_reverse.mp (List.mem_of_find?_eq_some h)
    exact congrArg some (hp.ids s hs r hr he)

-- `deduplicate` merges steps until no two of them have the same structural key, and its remap sends
-- the steps of the plan to those that they have been merged into.
theorem deduplicate_merges {p : Plan K} (hp : p.view.Inv) :
    ∃ k q m, Merges p k q m ∧ q.Deduplicated ∧ p.deduplicate.fst = q.sweepDead ∧
      ∀ r, p.view.Live r → p.deduplicate.snd (p.stepId r) = some (p.follow m k r) := by
  have ⟨⟨k, hm⟩, hd⟩ := deduplicate_loop (s := ⟨p, fun _ => none, true⟩) p.steps.length hp .refl
  refine ⟨k, _, _, hm, hd, rfl, fun r hr => ?_⟩
  have hn := hm.merged_live hp (hm.follow_live hp hr)
  have hk := hm.length_le hp
  simp only [deduplicate, stepOf_stepId hp hr.left, Option.map_some, follow_congr (hm.stepId hp)]
  refine congrArg some (follow_stable ?_ ?_)
  · rwa [hm.stepId hp] at hn
  · omega

end Plan

end Grafast
