import Grafast.Dag.Theorems.Deduplicate
import Grafast.Graph.Height

namespace Grafast

namespace Plan

section Induction

variable {K : Type} {p : Plan K}

theorem view_dependsOn_lt (hi : p.view.Inv) {r d : Ref} (h : p.view.DependsOn r d) :
    d ∈ Finset.range p.heap.length :=
  Finset.mem_range.mpr (hi.dep_lt r d h)

-- Induction along the dependencies of a plan.
theorem dependency_induction {motive : Ref → Prop} (hi : p.view.Inv)
    (h : ∀ r, (∀ d ∈ p.dependencies r, motive d) → motive r) (r : Ref) : motive r :=
  Graph.height_induction hi.acyclic (fun _ _ => view_dependsOn_lt hi) h r

end Induction

variable {K Key : Type} [StepClass K Key]

-- Two steps whose structural keys agree all the way down.
inductive Congruent (p : Plan K) : Ref → Ref → Prop
  | refl {r : Ref} : Congruent p r r
  | step {r s : Ref} : p.dedupable r = true → p.dedupable s = true →
    (p.kind r).map StepClass.key = (p.kind s).map StepClass.key →
    (p.dependencies r).length = (p.dependencies s).length →
    (∀ (i : Nat) (a b : Ref), (p.dependencies r)[i]? = some a → (p.dependencies s)[i]? = some b →
      Congruent p a b) → Congruent p r s

-- Ids tell the steps of a plan apart.
theorem map_stepId_inj {q : Plan K} (hi : q.view.Inv) {l l' : List Ref} (hl : ∀ d ∈ l, d ∈ q.steps)
    (hl' : ∀ d ∈ l', d ∈ q.steps) (he : l.map q.stepId = l'.map q.stepId) : l = l' := by
  induction l generalizing l'
  case nil => simpa using he.symm
  case cons d l ih =>
    cases l'
    case nil => contradiction
    case cons d' l' =>
      have ⟨hd, he⟩ := List.cons.inj he
      have ⟨hm, hl⟩ := List.forall_mem_cons.mp hl
      have ⟨hm', hl'⟩ := List.forall_mem_cons.mp hl'
      exact congrArg₂ _ (hi.ids d hm d' hm' hd) (ih hl hl' he)

-- The steps that a merge identifies depend on the same steps by then.
theorem Mergeable.dependencies_eq {q : Plan K} {s w : Ref} (hi : q.view.Inv)
    (hm : Mergeable q s w) : q.dependencies s = q.dependencies w :=
  map_stepId_inj hi (hi.steps_dep s hm.live.left) (hi.steps_dep w hm.replaceable.live.left)
    (Prod.ext_iff.mp hm.key).right

namespace Merges

variable {p q : Plan K} {k : Nat} {m : Remap} {r s : Ref} (hp : p.view.Inv) (h : Merges p k q m)
include hp h

theorem follow_key (hr : p.view.Live r) :
    (p.kind (p.follow m k r)).map StepClass.key = (p.kind r).map StepClass.key := by
  induction h
  case refl => rfl
  case merge h hm hi =>
    rw [h.follow_merge hp hm hr (h.follow_live hp hr)]
    split
    case isTrue hs =>
      have hk := (Prod.ext_iff.mp hm.key).left
      simp only [structuralKey, h.kind hp] at hk
      exact hk.symm.trans (hs ▸ hi)
    case isFalse => exact hi

theorem follow_dedupable (hr : p.view.Live r) :
    p.follow m k r = r ∨ p.dedupable r = true ∧ p.dedupable (p.follow m k r) = true := by
  induction h
  case refl => exact .inl rfl
  case merge h hm hi =>
    rw [h.follow_merge hp hm hr (h.follow_live hp hr)]
    have hd := hm.dedupable
    have hd' := hm.dedupable'
    simp only [dedupable, h.kind hp] at hd hd'
    split
    case isTrue hs =>
      cases hi
      case inl he => exact .inr ⟨(he.symm.trans hs) ▸ hd, hd'⟩
      case inr hi => exact .inr ⟨hi.left, hd'⟩
    case isFalse => exact hi

theorem follow_dependencies (hr : p.view.Live r) :
    q.dependencies (p.follow m k r) = (p.dependencies r).map (p.follow m k) := by
  induction h
  case refl => exact (List.map_id _).symm
  case merge k q m s w h hm hi =>
    have hiq := h.inv hp
    have hl := (h.merge hm).follow_live hp hr
    have hd : (p.dependencies r).map (p.follow (Function.update m (q.stepId s) (some w)) (k + 1)) =
        (q.dependencies (p.follow m k r)).map fun d => if d = s then w else d := by
      rw [hi, List.map_map]
      refine List.map_congr_left fun d hd => ?_
      have hld := hp.live_dep r hr d hd
      exact h.follow_merge hp hm hld (h.follow_live hp hld)
    rw [hd, eradicate_dependencies hiq hm.replaceable, View.moved_of_live hiq hm.replaceable
      ((eradicate_live_iff hiq hm.replaceable).mp hl).left,
      h.follow_merge hp hm hr (h.follow_live hp hr)]
    split
    case isTrue hs => 
      exact congrArg _ (hs ▸ (hm.dependencies_eq hiq).symm)
    case isFalse => rfl

-- Steps with the same survivor are congruent.
theorem congruent (hr : p.view.Live r) (hs : p.view.Live s)
    (he : p.follow m k r = p.follow m k s) : Congruent p r s := by
  induction r using dependency_induction hp generalizing s
  case h r hi =>
    by_cases hne : r = s
    case pos => exact hne ▸ .refl
    case neg =>
      have hdr := h.follow_dependencies hp hr
      have hds := h.follow_dependencies hp hs
      have hd : (p.dependencies r).map (p.follow m k) = (p.dependencies s).map (p.follow m k) :=
        hdr.symm.trans (he ▸ hds)
      have ⟨hrd, hsd⟩ : p.dedupable r = true ∧ p.dedupable s = true := by
        have hr := h.follow_dedupable hp hr
        have hs := h.follow_dedupable hp hs
        grind
      refine .step hrd hsd ?_ (by simpa using congrArg List.length hd) fun i a b ha hb => ?_
      · exact (h.follow_key hp hr).symm.trans (he ▸ h.follow_key hp hs)
      · have hma := List.mem_of_getElem? ha
        have hlb := hp.live_dep s hs b (List.mem_of_getElem? hb)
        refine hi a hma (hp.live_dep r hr a hma) hlb ?_
        simpa [ha, hb] using congrArg (·[i]?) hd

-- Congruent steps have the same survivor once nothing can be merged any more.
theorem survivor_eq (hq : q.Deduplicated) (hr : p.view.Live r) (hs : p.view.Live s)
    (hc : Congruent p r s) : p.follow m k r = p.follow m k s := by
  induction hc
  case refl => rfl
  case step r s hrd hsd hk hl hd hi =>
    have hd : (p.dependencies r).map (p.follow m k) = (p.dependencies s).map (p.follow m k) := by
      refine List.ext_getElem (by simpa using hl) fun i h₁ h₂ => ?_
      simp only [List.length_map] at h₁ h₂
      simp only [List.getElem_map]
      exact hi i _ _ (List.getElem?_eq_getElem h₁) (List.getElem?_eq_getElem h₂)
        (hp.live_dep r hr _ (List.getElem_mem h₁)) (hp.live_dep s hs _ (List.getElem_mem h₂))
    have hdd {x : Ref} (hx : p.view.Live x) (hxd : p.dedupable x = true) :
        q.dedupable (p.follow m k x) = true := by
      simp only [dedupable, h.kind hp]
      cases h.follow_dedupable hp hx
      case inl he => rw [he]; exact hxd
      case inr hd => exact hd.right
    refine hq _ _ (h.follow_live hp hr) (h.follow_live hp hs) (hdd hr hrd) (hdd hs hsd) ?_
    refine Prod.ext ?_ ?_
    · simp only [structuralKey, h.kind hp, h.follow_key hp hr, h.follow_key hp hs, hk]
    · simp only [structuralKey, h.follow_dependencies hp hr, h.follow_dependencies hp hs, hd]

end Merges

end Plan

end Grafast
