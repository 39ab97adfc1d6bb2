import Grafast.Dag.Theorems.Congruence
import Grafast.Dag.Theorems.Operation

namespace Grafast

namespace Plan

variable {K Key : Type} [StepClass K Key] [DecidableEq Key]

-- No step is left to be swept, as is the case between any two passes.
def Swept (p : Plan K) : Prop :=
  p.deadIds = []

section Sweep

omit [StepClass K Key] [DecidableEq Key]

variable {p : Plan K} {r : Ref}

theorem Swept.live_iff (h : p.Swept) : p.view.Live r ↔ r ∈ p.steps := by
  simp [View.Live, view, show p.deadIds = [] from h]

theorem sweepDead_swept : p.sweepDead.Swept :=
  rfl

theorem sweepDead_live_iff : p.sweepDead.view.Live r ↔ p.view.Live r := by
  rw [sweepDead_swept.live_iff]
  simp [sweepDead, View.Live, view]

end Sweep

omit [DecidableEq Key] in
theorem Deduplicated.sweepDead {p : Plan K} (h : p.Deduplicated) : p.sweepDead.Deduplicated :=
  fun r s hr hs => h r s (sweepDead_live_iff.mp hr) (sweepDead_live_iff.mp hs)

-- A step of a pass that finds nothing to merge.
theorem foldl_dedupStep_of_deduplicated {s : DedupPass K Key} {done rest : List Ref}
    (h : DedupInv s done rest) (hd : s.plan.Deduplicated) : (rest.foldl dedupStep s).toPass = s.toPass := by
  induction rest generalizing s done
  case nil            => rfl
  case cons r rest hi =>
    obtain ⟨h', he | ⟨w, hm, _⟩⟩ := dedupStep_cases h
    · have hp : (dedupStep s r).plan = s.plan := congrArg Pass.plan he
      exact (hi h' (hp ▸ hd)).trans he
    · exact absurd (hd r w hm.live hm.replaceable.live hm.dedupable hm.dedupable' hm.key) hm.replaceable.ne

theorem dedupPass_of_deduplicated {s : Pass K} (hi : s.plan.view.Inv) (hd : s.plan.Deduplicated) :
    dedupPass s = { s with changed := false } := by
  have hf : (s.plan.orderSteps s.plan.steps).fst = s.plan := orderSteps_fst hi hi.steps_seen
  have hs : DedupInv (⟨{ s with changed := false }, []⟩ : DedupPass K Key) []
      (s.plan.orderSteps s.plan.steps).snd := dedupInv_init (s := ⟨{ s with changed := false }, []⟩) hi rfl
  simp only [dedupPass, hf]
  exact foldl_dedupStep_of_deduplicated hs hd

theorem loop_of_deduplicated {fuel : Nat} {s : Pass K} (hi : s.plan.view.Inv) (hd : s.plan.Deduplicated) :
    deduplicate.loop (fuel + 1) s = { s with changed := false } := by
  rw [deduplicate.loop, dedupPass_of_deduplicated hi hd]
  rfl

-- A pass over no steps changes nothing.
theorem dedupPass_changed {s : Pass K} (hi : s.plan.view.Inv) (h : (dedupPass s).changed = true) :
    s.plan.steps ≠ [] := by
  intro hn
  have hm (r : Ref) : r ∉ (s.plan.orderSteps s.plan.steps).snd := fun hr => by
    have := orderSteps_subset hi.plan_acyclic (P := (· ∈ s.plan.steps)) (fun _ h => h) hi.steps_dep hr
    simp [hn] at this
  simp [dedupPass, List.eq_nil_iff_forall_not_mem.mpr hm] at h

-- The second pass finds nothing that is left to be merged.
theorem loop_eq_dedupPass {p : Plan K} {fuel : Nat} {m : Remap} {c : Bool} (hp : p.view.Inv)
    (hm : Merges p 0 p m) (hf : p.steps.length < fuel) :
    deduplicate.loop fuel ⟨p, m, c⟩ = { dedupPass ⟨p, m, c⟩ with changed := false } := by
  obtain ⟨⟨k, hk⟩, hd⟩ := dedupPass_ok (s := ⟨p, m, c⟩) hp hm
  cases fuel
  case zero      => contradiction
  case succ fuel =>
    rw [deduplicate.loop]
    dsimp only
    split
    case isFalse h => rw [← Bool.eq_false_iff.mpr h]
    case isTrue h  =>
      have hn := List.length_pos_iff.mpr (dedupPass_changed (s := ⟨p, m, c⟩) hp h)
      obtain ⟨n, rfl⟩ : ∃ n, fuel = n + 1 := ⟨fuel - 1, by dsimp only at hn; omega⟩
      exact loop_of_deduplicated (hk.inv hp) hd

theorem deduplicate_loop_eq {p : Plan K} (hp : p.view.Inv) :
    ∃ k q m, Merges p k q m ∧ q.Deduplicated ∧ ∀ fuel > p.steps.length,
      deduplicate.loop fuel ⟨p, fun _ => none, true⟩ = ⟨q, m, false⟩ := by
  obtain ⟨⟨k, hm⟩, hd⟩ := dedupPass_ok (s := ⟨p, fun _ => none, true⟩) hp .refl
  exact ⟨k, _, _, hm, hd, fun fuel hf => loop_eq_dedupPass hp .refl hf⟩

omit [DecidableEq Key] in
-- As much fuel as there are steps leads to the end of a chain.
theorem Merges.follow_eq {p q : Plan K} {k fuel : Nat} {m : Remap} {r : Ref} (hp : p.view.Inv)
    (h : Merges p k q m) (hr : p.view.Live r) (hf : p.steps.length < fuel) :
    q.follow m fuel r = p.follow m k r := by
  have hn := h.merged_live hp (h.follow_live hp hr)
  have hk := h.length_le hp
  rw [follow_congr (h.stepId hp)]
  exact follow_stable (by rwa [h.stepId hp] at hn) (by omega)

end Plan

namespace Twins

open Wrap

-- Two equal steps, and a step over each of them.
def steps : List (Kind × List Ref) :=
  [(.source, []), (.source, []), (.wrapper, [0]), (.wrapper, [1])]

def plan : Plan Kind :=
  (Plan.build steps).getD .empty

theorem plan_inv : plan.view.Inv := by
  obtain ⟨p, hp, hi, _⟩ := Plan.build_inv steps (by decide)
  rwa [plan, hp]

end Twins

end Grafast
