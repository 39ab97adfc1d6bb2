import Grafast.Dag.Theorems.Invariant

namespace Grafast

open Relation (TransGen ReflTransGen)

namespace Plan

variable {K : Type}

namespace View

-- The dependencies after the indexed edges into `dead` have been moved.
def moved (v : View K) (dead survivor : Ref) (r : Ref) : List Ref :=
  (v.dependencies r).mapIdx fun i d =>
    if (r, i) ∈ v.index (v.stepId dead) then survivor else d

-- The graph after `dead` has been replaced by `survivor`.
def eradicate (v : View K) (dead survivor : Ref) : View K :=
  { v with
    dependencies := v.moved dead survivor
    index := fun id =>
      (if id = v.stepId survivor then v.index id ++ v.index (v.stepId dead)
        else if id = v.stepId dead then [] else v.index id).filter
        (!(edgesTo v.stepId dead (v.moved dead survivor dead).zipIdx id).contains ·)
    deadIds := v.stepId dead :: v.deadIds }

-- The conditions under which one step can take the place of another one.
structure Replaceable (v : View K) (dead survivor : Ref) : Prop where
  mem     : dead ∈ v.steps
  live    : v.Live survivor
  ne      : dead ≠ survivor
  acyclic : ¬ReflTransGen v.DependsOn survivor dead

section Eradicate

variable {v : View K} {dead survivor r s : Ref} (hi : v.Inv) (h : v.Replaceable dead survivor)
include hi h

theorem Replaceable.id_ne : v.stepId dead ≠ v.stepId survivor :=
  fun he => h.ne (hi.ids _ h.mem _ h.live.left he)

theorem mem_index_dead_iff {i : Nat} : (r, i) ∈ v.index (v.stepId dead) ↔
    v.Live r ∧ (v.dependencies r)[i]? = some dead := by
  rw [hi.index]
  refine and_congr_right fun hr => ⟨fun ⟨d, hd, he⟩ => ?_, fun hd => ⟨dead, hd, rfl⟩⟩
  have hl := hi.live_dep r hr d (List.mem_of_getElem? hd)
  exact hi.ids d hl.left dead h.mem he ▸ hd

theorem moved_of_live (hr : v.Live r) :
    v.moved dead survivor r = (v.dependencies r).map fun d => if d = dead then survivor else d := by
  apply List.ext_getElem?
  intro i
  rw [moved, List.getElem?_mapIdx, List.getElem?_map]
  cases hd : (v.dependencies r)[i]? <;> simp [mem_index_dead_iff hi h, hr, hd]

theorem moved_of_not_live (hr : ¬v.Live r) : v.moved dead survivor r = v.dependencies r := by
  apply List.ext_getElem?
  intro i
  rw [moved, List.getElem?_mapIdx]
  cases (v.dependencies r)[i]? <;> simp [mem_index_dead_iff hi h, hr]

theorem mem_moved {d : Ref} (hd : d ∈ v.moved dead survivor r) :
    d ∈ v.dependencies r ∧ (v.Live r → d ≠ dead) ∨
      v.Live r ∧ dead ∈ v.dependencies r ∧ d = survivor := by
  by_cases hr : v.Live r
  case pos =>
    rw [moved_of_live hi h hr, List.mem_map] at hd
    have ⟨x, hx, he⟩ := hd
    split at he
    case isTrue hc  => exact .inr ⟨hr, hc ▸ hx, he.symm⟩
    case isFalse hc => exact .inl ⟨he ▸ hx, fun _ => he ▸ hc⟩
  case neg => exact .inl ⟨moved_of_not_live hi h hr ▸ hd, fun hc => absurd hc hr⟩

theorem eradicate_live_iff : (v.eradicate dead survivor).Live r ↔ v.Live r ∧ r ≠ dead := by
  simp only [Live, eradicate, List.mem_cons, not_or]
  constructor
  case mp =>
    intro hr
    exact ⟨⟨hr.left, hr.right.right⟩, fun he => hr.right.left (he ▸ rfl)⟩
  case mpr =>
    intro hr
    exact ⟨hr.left.left, fun he => hr.right (hi.ids r hr.left.left dead h.mem he), hr.left.right⟩

-- The edges of live steps, before those of `dead` itself are unlinked.
theorem mem_index_moved_iff {id : Option Nat} {i : Nat} :
    ((r, i) ∈ if id = v.stepId survivor then v.index id ++ v.index (v.stepId dead)
      else if id = v.stepId dead then [] else v.index id) ↔
    v.Live r ∧ ∃ d, (v.moved dead survivor r)[i]? = some d ∧ v.stepId d = id := by
  have hx : (r, i) ∈ v.index id ↔ _ := hi.index id r i
  have hy : (r, i) ∈ v.index (v.stepId dead) ↔ _ := mem_index_dead_iff hi h
  by_cases hr : v.Live r
  case neg => split <;> (try split) <;> simp_all
  case pos =>
    rw [moved_of_live hi h hr, List.getElem?_map]
    cases hg : (v.dependencies r)[i]?
    case none => split <;> (try split) <;> simp_all
    case some d =>
      have hd : v.stepId d = v.stepId dead ↔ d = dead :=
        ⟨hi.ids d (hi.live_dep r hr d (List.mem_of_getElem? hg)).left dead h.mem, fun he => he ▸ rfl⟩
      have hid := h.id_ne hi
      simp only [hr, hg, true_and, Option.map_some, Option.some.injEq, exists_eq_left'] at hx hy ⊢
      by_cases hc : d = dead
      case pos => split <;> (try split) <;> simp_all [eq_comm]
      case neg => split <;> (try split) <;> simp_all [eq_comm]

theorem eradicate_inv : (v.eradicate dead survivor).Inv := by
  have hlive {r : Ref} := eradicate_live_iff (r := r) hi h
  have hsurv : (v.eradicate dead survivor).Live survivor := hlive.mpr ⟨h.live, h.ne.symm⟩
  constructor
  case seen_lt => exact hi.seen_lt
  case dep_lt =>
    intro r d hd
    cases mem_moved hi h hd
    case inl hd => exact hi.dep_lt r d hd.left
    case inr hd => exact hd.right.right.symm ▸ hi.seen_lt _ (hi.live_seen h.live)
  case unseen_id => exact hi.unseen_id
  case unseen_dep =>
    intro r hr d hd
    cases mem_moved hi h hd
    case inl hd => exact hi.unseen_dep r hr d hd.left
    case inr hd => exact absurd (hi.live_seen hd.left) hr
  case seen_id => exact hi.seen_id
  case seen_dep =>
    intro r hr d hd
    cases mem_moved hi h hd
    case inl hd => exact hi.seen_dep r hr d hd.left
    case inr hd => exact hd.right.right.symm ▸ hi.live_seen h.live
  case steps_seen => exact hi.steps_seen
  case steps_nodup => exact hi.steps_nodup
  case steps_dep =>
    intro r hr d hd
    cases mem_moved hi h hd
    case inl hd => exact hi.steps_dep r hr d hd.left
    case inr hd => exact hd.right.right ▸ h.live.left
  case ids => exact hi.ids
  case dead_some =>
    have := hi.seen_id dead (hi.steps_seen dead h.mem)
    intro hn
    cases List.mem_cons.mp hn
    case inl hn => simp [← hn] at this
    case inr hn => exact hi.dead_some hn
  case live_dep =>
    intro r hr d hd
    have hr := (hlive.mp hr).left
    cases mem_moved hi h hd
    case inl hd => exact hlive.mpr ⟨hi.live_dep r hr d hd.left, hd.right hr⟩
    case inr hd => exact hd.right.right ▸ hsurv
  case index =>
    intro id r i
    have hx : (r, i) ∈ (if id = v.stepId survivor then v.index id ++ v.index (v.stepId dead)
        else if id = v.stepId dead then [] else v.index id) ↔ _ := mem_index_moved_iff hi h
    have he : (r, i) ∈ edgesTo v.stepId dead (v.moved dead survivor dead).zipIdx id ↔
        r = dead ∧ ∃ d, (v.moved dead survivor r)[i]? = some d ∧ v.stepId d = id := by
      rw [mem_edgesTo]
      refine and_congr_right fun (hr : r = dead) => ?_
      simp [hr, List.mem_zipIdx_iff_getElem?]
    rw [hlive]
    simp only [eradicate, List.mem_filter, hx, Bool.not_eq_true', List.contains_eq_mem,
      decide_eq_false_iff_not, he]
    constructor
    case mp  => exact fun ⟨⟨hr, hp⟩, hn⟩ => ⟨⟨hr, fun hd => hn ⟨hd, hp⟩⟩, hp⟩
    case mpr => exact fun ⟨⟨hr, hd⟩, hp⟩ => ⟨⟨hr, hp⟩, fun hc => hd hc.left⟩
  case index_nodup =>
    intro id
    apply List.Nodup.filter
    split
    case isTrue he =>
      refine (hi.index_nodup id).append (hi.index_nodup _) fun ⟨r, i⟩ hr hd => ?_
      have ⟨_, d, hd₁, hd₂⟩ := (hi.index id r i).mp hr
      have ⟨_, hd₃⟩ := (mem_index_dead_iff hi h).mp hd
      exact h.id_ne hi (Option.some.inj (hd₁.symm.trans hd₃) ▸ hd₂.trans he)
    case isFalse => split <;> simp [hi.index_nodup]
  case acyclic =>
    have hr : Graph.Redirects v.DependsOn (v.eradicate dead survivor).DependsOn dead survivor :=
      fun a b hb => (mem_moved hi h hb).imp And.left And.right
    exact hr.acyclic h.acyclic hi.acyclic

end Eradicate

end View

theorem eradicate_self (p : Plan K) (r : Ref) : p.eradicate r r = p := by
  simp [eradicate]

section

variable {p : Plan K} {dead survivor : Ref} (hi : p.view.Inv)
  (h : p.view.Replaceable dead survivor)
include hi h

theorem eradicate_view_eq : (p.eradicate dead survivor).view = p.view.eradicate dead survivor :=
  eradicate_view h.ne (h.id_ne hi)

theorem eradicate_kind : (p.eradicate dead survivor).kind = p.kind :=
  congrArg View.kind (eradicate_view_eq hi h)

theorem eradicate_stepId : (p.eradicate dead survivor).stepId = p.stepId :=
  congrArg View.stepId (eradicate_view_eq hi h)

theorem eradicate_steps : (p.eradicate dead survivor).steps = p.steps :=
  congrArg View.steps (eradicate_view_eq hi h)

theorem eradicate_dependencies :
    (p.eradicate dead survivor).dependencies = p.view.moved dead survivor :=
  congrArg View.dependencies (eradicate_view_eq hi h)

theorem eradicate_live_iff {r : Ref} :
    (p.eradicate dead survivor).view.Live r ↔ p.view.Live r ∧ r ≠ dead :=
  eradicate_view_eq hi h ▸ View.eradicate_live_iff hi h

theorem eradicate_view_inv : (p.eradicate dead survivor).view.Inv :=
  eradicate_view_eq hi h ▸ View.eradicate_inv hi h

end

end Plan

end Grafast
