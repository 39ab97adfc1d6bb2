import Grafast.Dag.Theorems.Plan

namespace Grafast

open Relation (TransGen ReflTransGen)

namespace Plan

variable {K : Type}

namespace View

def Live (v : View K) (r : Ref) : Prop :=
  r ∈ v.steps ∧ v.stepId r ∉ v.deadIds

def DependsOn (v : View K) (r d : Ref) : Prop :=
  d ∈ v.dependencies r

-- What holds of the graph of a plan between any two operations.
structure Inv (v : View K) : Prop where
  seen_lt      : ∀ r ∈ v.seen, r < v.length
  dep_lt       : ∀ r, ∀ d ∈ v.dependencies r, d < v.length
  unseen_id    : ∀ r ∉ v.seen, v.stepId r = none
  unseen_dep   : ∀ r ∉ v.seen, ∀ d ∈ v.dependencies r, d < r
  seen_id      : ∀ r ∈ v.seen, (v.stepId r).isSome
  seen_dep     : ∀ r ∈ v.seen, ∀ d ∈ v.dependencies r, d ∈ v.seen
  steps_seen   : ∀ r ∈ v.steps, r ∈ v.seen
  steps_nodup  : v.steps.Nodup
  steps_dep    : ∀ r ∈ v.steps, ∀ d ∈ v.dependencies r, d ∈ v.steps
  ids          : ∀ r ∈ v.steps, ∀ s ∈ v.steps, v.stepId r = v.stepId s → r = s
  dead_some    : none ∉ v.deadIds
  live_dep     : ∀ r, v.Live r → ∀ d ∈ v.dependencies r, v.Live d
  index        : ∀ id r i, (r, i) ∈ v.index id ↔
    v.Live r ∧ ∃ d, (v.dependencies r)[i]? = some d ∧ v.stepId d = id
  index_nodup  : ∀ id, (v.index id).Nodup
  acyclic      : ∀ r, ¬TransGen v.DependsOn r r

-- No id is as large as the number of steps, so that the number is fresh.
structure Dense (v : View K) : Prop where
  steps : ∀ r ∈ v.steps, ∀ n, v.stepId r = some n → n < v.steps.length
  dead  : ∀ n, some n ∈ v.deadIds → n < v.steps.length

-- A step that can be registered: it is live, or it is new and depends on such steps.
inductive Sound (v : View K) : Ref → Prop
  | live {r : Ref} : v.Live r → v.Sound r
  | new {r : Ref} : r < v.length → r ∉ v.seen → (∀ d ∈ v.dependencies r, v.Sound d) → v.Sound r

-- What registering steps can change.
structure Extends (v v' : View K) : Prop where
  length       : v'.length = v.length
  dependencies : v'.dependencies = v.dependencies
  replacements : v'.replacements = v.replacements
  seen         : ∀ r ∈ v.seen, r ∈ v'.seen
  seen'        : ∀ r ∈ v'.seen, r ∈ v.seen ∨ v'.Live r
  steps        : ∀ r ∈ v.steps, r ∈ v'.steps
  live         : ∀ r, v.Live r → v'.Live r

namespace Extends

variable {v v₁ v₂ : View K}

theorem refl : Extends v v where
  length       := rfl
  dependencies := rfl
  replacements := rfl
  seen _ h     := h
  seen' _ h    := .inl h
  steps _ h    := h
  live _ h     := h

theorem trans (h₁ : Extends v v₁) (h₂ : Extends v₁ v₂) : Extends v v₂ where
  length       := h₂.length.trans h₁.length
  dependencies := h₂.dependencies.trans h₁.dependencies
  replacements := h₂.replacements.trans h₁.replacements
  seen r h     := h₂.seen r (h₁.seen r h)
  seen' r h    := (h₂.seen' r h).elim (fun h => (h₁.seen' r h).imp_right (h₂.live r)) .inr
  steps r h    := h₂.steps r (h₁.steps r h)
  live r h     := h₂.live r (h₁.live r h)

theorem sound {r : Ref} (h : Extends v v₁) (hs : v.Sound r) : v₁.Sound r := by
  induction hs
  case live hl => exact .live (h.live _ hl)
  case new r hl hr _ hi =>
    by_cases hs : r ∈ v₁.seen
    case pos => exact .live ((h.seen' r hs).resolve_left hr)
    case neg => exact .new (h.length ▸ hl) hs (h.dependencies ▸ hi)

end Extends

namespace Inv

variable {v : View K}

-- The invariant says nothing about the side replacements.
theorem replacements (hi : v.Inv) (l : List (Ref × Ref)) : { v with replacements := l }.Inv :=
  ⟨hi.seen_lt, hi.dep_lt, hi.unseen_id, hi.unseen_dep, hi.seen_id, hi.seen_dep, hi.steps_seen,
    hi.steps_nodup, hi.steps_dep, hi.ids, hi.dead_some, hi.live_dep, hi.index, hi.index_nodup,
    hi.acyclic⟩

theorem live_seen {r : Ref} (hi : v.Inv) (h : v.Live r) : r ∈ v.seen :=
  hi.steps_seen r h.left

theorem not_self {r : Ref} (hi : v.Inv) : r ∉ v.dependencies r :=
  fun h => hi.acyclic r (.single h)

theorem live_ne {r d : Ref} (hi : v.Inv) (hr : r ∉ v.seen) (h : v.Live d) : d ≠ r :=
  fun he => hr (he ▸ hi.live_seen h)

end Inv

-- The graph after the registration of `r`.
def enroll (v : View K) (r : Ref) : View K :=
  { v with
    stepId := Function.update v.stepId r (some v.steps.length)
    steps  := v.steps ++ [r]
    seen   := r :: v.seen
    index  := fun id => v.index id ++ edgesTo v.stepId r (v.dependencies r).zipIdx id }

section Enroll

variable {v : View K} {r s : Ref}

theorem enroll_live_iff (hv : v.Dense) : (v.enroll r).Live s ↔ v.Live s ∨ s = r := by
  by_cases h : s = r
  case pos =>
    have : some v.steps.length ∉ v.deadIds := fun hd => lt_irrefl _ (hv.dead _ hd)
    simp [Live, enroll, h, this]
  case neg => simp [Live, enroll, h]

theorem enroll_dense (hv : v.Dense) : (v.enroll r).Dense where
  steps s hs n hn := by
    simp only [enroll, List.mem_append, List.mem_singleton, List.length_append,
      List.length_singleton] at hs hn ⊢
    by_cases h : s = r
    case pos =>
      rw [h, Function.update_self, Option.some.injEq] at hn
      omega
    case neg =>
      rw [Function.update_of_ne h] at hn
      have := hv.steps s (by simpa [h] using hs) n hn
      omega
  dead n hn := by
    have := hv.dead n hn
    simp only [enroll, List.length_append, List.length_singleton]
    omega

theorem enroll_extends (hv : v.Dense) : Extends v (v.enroll r) where
  length := rfl
  dependencies := rfl
  replacements := rfl
  seen _ h := List.mem_cons_of_mem _ h
  seen' s h := by
    cases List.mem_cons.mp h
    case inl h => exact .inr ((enroll_live_iff hv).mpr (.inr h))
    case inr h => exact .inl h
  steps _ h := List.mem_append_left _ h
  live _ h := (enroll_live_iff hv).mpr (.inl h)

theorem enroll_inv (hi : v.Inv) (hv : v.Dense) (hr : r ∉ v.seen) (hl : r < v.length)
    (hd : ∀ d ∈ v.dependencies r, v.Live d) :
    (v.enroll r).Inv := by
  have hlive {s : Ref} := enroll_live_iff (r := r) (s := s) hv
  have hid {s : Ref} (h : s ≠ r) : (v.enroll r).stepId s = v.stepId s := Function.update_of_ne h _ _
  have hself : (v.enroll r).stepId r = some v.steps.length := Function.update_self ..
  have hrs : r ∉ v.steps := fun h => hr (hi.steps_seen r h)
  have hne {s : Ref} (h : s ∈ v.steps) : s ≠ r := fun he => hrs (he ▸ h)
  have hfresh {s : Ref} (hs : s ∈ v.steps) : v.stepId s ≠ some v.steps.length :=
    fun h => lt_irrefl _ (hv.steps s hs _ h)
  constructor
  case seen_lt =>
    intro s hs
    cases List.mem_cons.mp hs
    case inl h => exact h ▸ hl
    case inr h => exact hi.seen_lt s h
  case dep_lt => exact hi.dep_lt
  case unseen_id =>
    intro s hs
    simp only [enroll, List.mem_cons, not_or] at hs
    rw [hid hs.left, hi.unseen_id s hs.right]
  case unseen_dep =>
    intro s hs
    exact hi.unseen_dep s fun h => hs (List.mem_cons_of_mem _ h)
  case seen_id =>
    intro s hs
    by_cases h : s = r
    case pos => simp [enroll, h]
    case neg => exact hid h ▸ hi.seen_id s ((List.mem_cons.mp hs).resolve_left h)
  case seen_dep =>
    intro s hs d hdm
    cases List.mem_cons.mp hs
    case inl h => exact List.mem_cons_of_mem _ (hi.live_seen (hd d (h ▸ hdm)))
    case inr h => exact List.mem_cons_of_mem _ (hi.seen_dep s h d hdm)
  case steps_seen =>
    intro s hs
    simp only [enroll, List.mem_append, List.mem_singleton] at hs
    cases hs
    case inl h => exact List.mem_cons_of_mem _ (hi.steps_seen s h)
    case inr h => exact h ▸ List.mem_cons_self
  case steps_nodup =>
    exact hi.steps_nodup.append (List.nodup_singleton r) (by simpa using hrs)
  case steps_dep =>
    intro s hs d hdm
    simp only [enroll, List.mem_append, List.mem_singleton] at hs ⊢
    cases hs
    case inl hs => exact .inl (hi.steps_dep s hs d hdm)
    case inr hs => exact .inl (hd d (hs ▸ hdm)).left
  case ids =>
    intro s hs t ht he
    simp only [enroll, List.mem_append, List.mem_singleton] at hs ht
    rcases hs with hs | hs <;> rcases ht with ht | ht
    · rw [hid (hne hs), hid (hne ht)] at he
      exact hi.ids s hs t ht he
    · rw [hid (hne hs), ht, hself] at he
      exact absurd he (hfresh hs)
    · rw [hid (hne ht), hs, hself] at he
      exact absurd he.symm (hfresh ht)
    · exact hs.trans ht.symm
  case dead_some => exact hi.dead_some
  case live_dep =>
    intro s hs d hdm
    cases hlive.mp hs
    case inl h => exact hlive.mpr (.inl (hi.live_dep s h d hdm))
    case inr h => exact hlive.mpr (.inl (hd d (h ▸ hdm)))
  case index =>
    intro id s i
    have hx : (s, i) ∈ (v.enroll r).index id ↔ (s, i) ∈ v.index id ∨
        s = r ∧ ∃ d, (v.dependencies s)[i]? = some d ∧ v.stepId d = id := by
      simp only [enroll, List.mem_append, mem_edgesTo, List.mem_zipIdx_iff_getElem?]
      exact or_congr_right ⟨fun ⟨h, h'⟩ => ⟨h, h ▸ h'⟩, fun ⟨h, h'⟩ => ⟨h, h ▸ h'⟩⟩
    rw [hx, hi.index, ← or_and_right, hlive]
    -- The dependencies are live either way, so none of them is the new step.
    refine and_congr_right fun hs => exists_congr fun d => and_congr_right fun hg => ?_
    have hd : v.Live d := hs.elim (hi.live_dep s · d (List.mem_of_getElem? hg))
      fun h => hd d (h ▸ List.mem_of_getElem? hg)
    rw [hid (hi.live_ne hr hd)]
  case index_nodup =>
    intro id
    refine List.Nodup.append (hi.index_nodup id) ?_ ?_
    · exact edgesTo_nodup
    · rintro ⟨s, i⟩ hs ht
      have := ((hi.index id s i).mp hs).left
      have he := (mem_edgesTo.mp ht).left
      exact hr (he ▸ hi.live_seen this)
  case acyclic => exact hi.acyclic

end Enroll

-- The registration of sound steps below `n` has led from `v` to `v'`.
structure Registers (v v' : View K) (n : Nat) : Prop where
  inv     : v'.Inv
  dense   : v'.Dense
  extends_v : Extends v v'
  bound   : ∀ r ∈ v'.seen, r ∈ v.seen ∨ r < n

end View

theorem foldlM_registers {p : Plan K} {rs : List Ref} {f : Plan K → Ref → Option (Plan K)} {n : Nat}
    (hi : p.view.Inv) (hv : p.view.Dense) (hs : ∀ r ∈ rs, p.view.Sound r)
    (hf : ∀ p : Plan K, p.view.Inv → p.view.Dense → ∀ r ∈ rs, p.view.Sound r →
      ∃ p', f p r = some p' ∧ View.Registers p.view p'.view n ∧ p'.view.Live r) :
    ∃ p', rs.foldlM f p = some p' ∧ View.Registers p.view p'.view n ∧ ∀ r ∈ rs, p'.view.Live r := by
  induction rs generalizing p
  case nil => exact ⟨p, rfl, ⟨hi, hv, .refl, fun _ => .inl⟩, by simp⟩
  case cons r rs ih =>
    have ⟨p₁, h₁, hr₁, hl₁⟩ := hf p hi hv r (by simp) (hs r (by simp))
    have ⟨p₂, h₂, hr₂, hl₂⟩ := ih hr₁.inv hr₁.dense
      (fun s h => hr₁.extends_v.sound (hs s (by simp [h])))
      (fun p hi hv s h => hf p hi hv s (by simp [h]))
    refine ⟨p₂, by simp [List.foldlM_cons, h₁, h₂], ⟨hr₂.inv, hr₂.dense, ?_, ?_⟩, ?_⟩
    · exact hr₁.extends_v.trans hr₂.extends_v
    · exact fun s hs => (hr₂.bound s hs).elim (hr₁.bound s) .inr
    · intro s hs
      cases List.mem_cons.mp hs
      case inl h => exact h ▸ hr₂.extends_v.live _ hl₁
      case inr h => exact hl₂ s h

-- The recursion stops within `r + 1` calls, as the dependencies of a new step are older than it.
theorem register_registers {fuel : Nat} {p : Plan K} {r : Ref} (hi : p.view.Inv)
    (hv : p.view.Dense) (hs : p.view.Sound r) (hf : r < fuel) :
    ∃ p', register fuel p r = some p' ∧ View.Registers p.view p'.view (r + 1) ∧
      p'.view.Live r := by
  induction fuel generalizing p r
  case zero => contradiction
  case succ fuel ih =>
    unfold register
    split
    case isTrue hm =>
      refine ⟨p, rfl, ⟨hi, hv, .refl, fun _ => .inl⟩, ?_⟩
      cases hs
      case live h      => exact h
      case new _ h _ => exact absurd hm h
    case isFalse hm =>
      have ⟨hl, hd⟩ : r < p.view.length ∧ ∀ d ∈ p.dependencies r, p.view.Sound d := by
        cases hs
        case live h      => exact absurd (hi.live_seen h) hm
        case new hl _ h => exact ⟨hl, h⟩
      have hlt : ∀ d ∈ p.dependencies r, d < r := hi.unseen_dep r hm
      have ⟨p₁, h₁, hr₁, hl₁⟩ := foldlM_registers (f := register fuel) (n := r) hi hv hd
        fun p' hi' hv' d hd' hs' => by
          have hdr := hlt d hd'
          have ⟨p₂, h₂, hr₂, hl₂⟩ := ih hi' hv' hs' (lt_of_lt_of_le hdr (Nat.lt_succ_iff.mp hf))
          have hb : ∀ s ∈ p₂.view.seen, s ∈ p'.view.seen ∨ s < r :=
            fun s h => (hr₂.bound s h).imp_right (lt_of_lt_of_le · (Nat.succ_le_of_lt hdr))
          exact ⟨p₂, h₂, ⟨hr₂.inv, hr₂.dense, hr₂.extends_v, hb⟩, hl₂⟩
      have hm₁ : r ∉ p₁.seen := fun h => (hr₁.bound r h).elim hm (lt_irrefl r)
      have hdep : p₁.dependencies = p.dependencies := hr₁.extends_v.dependencies
      have hl' : r < p₁.view.length := hr₁.extends_v.length ▸ hl
      have hv₁ : (p₁.enroll r).view = p₁.view.enroll r := enroll_view hl' hr₁.inv.not_self
      refine ⟨p₁.enroll r, by simp [h₁], ?_, ?_⟩
      · rw [hv₁]
        refine ⟨View.enroll_inv hr₁.inv hr₁.dense hm₁ hl' ?_, View.enroll_dense hr₁.dense, ?_, ?_⟩
        · exact fun d h => hl₁ d (hdep ▸ h)
        · exact hr₁.extends_v.trans (View.enroll_extends hr₁.dense)
        · intro s hs
          cases List.mem_cons.mp hs
          case inl h => exact .inr (h ▸ Nat.lt_succ_self r)
          case inr h => exact (hr₁.bound s h).imp_right Nat.lt_succ_of_lt
      · rw [hv₁]
        exact (View.enroll_live_iff hr₁.dense).mpr (.inr rfl)

theorem addStep_registers {p : Plan K} {r : Ref} (hi : p.view.Inv) (hv : p.view.Dense)
    (hs : p.view.Sound r) :
    ∃ p', p.addStep r = some p' ∧ View.Registers p.view p'.view (r + 1) ∧ p'.view.Live r := by
  have hl : r < p.heap.length := by
    cases hs
    case live h     => exact hi.seen_lt r (hi.live_seen h)
    case new h _ _ => exact h
  exact register_registers hi hv hs (Nat.lt_succ_of_lt hl)

theorem addStep_of_seen {p : Plan K} {r : Ref} (h : r ∈ p.seen) : p.addStep r = some p := by
  simp [addStep, register, h]

end Plan

end Grafast
