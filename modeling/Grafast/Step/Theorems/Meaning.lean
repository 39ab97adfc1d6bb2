import Grafast.Dag.Theorems.Congruence
import Grafast.Dag.Theorems.Operation
import Grafast.Step.Theorems.Core

namespace Grafast

open Batch

namespace Plan

open CoreStep PyValue

variable {V S F : Type} [PyValue V S] [Callables V F] {p q : Plan (CoreStep V S F)}

section Column

variable {bucket : List V} {r : Ref}

theorem columnWithin_congr {n : Nat} (h : p.heap = q.heap) :
    p.columnWithin bucket n r = q.columnWithin bucket n r := by
  induction n generalizing r
  case zero      => rfl
  case succ n hi =>
    have hd : p.columnWithin bucket n = q.columnWithin bucket n := funext fun _ => hi
    simp only [columnWithin, kind, dependencies, h, hd]

-- A column depends on the steps and their edges only.
theorem column_congr (h : p.heap = q.heap) : p.column bucket r = q.column bucket r := by
  rw [column, column, h, columnWithin_congr h]

theorem columnWithin_stable {n n' : Nat} (hi : p.view.Inv)
    (hn : Graph.height p.view.DependsOn (Finset.range p.heap.length) r < n)
    (hn' : Graph.height p.view.DependsOn (Finset.range p.heap.length) r < n') :
    p.columnWithin bucket n r = p.columnWithin bucket n' r := by
  induction n generalizing r n'
  case zero => contradiction
  case succ n ih =>
    cases n'
    case zero => contradiction
    case succ n' =>
      have hd : ∀ d ∈ p.dependencies r,
          p.columnWithin bucket n d = p.columnWithin bucket n' d := fun d hd => by
        have hlt := Graph.height_lt hi.acyclic (view_dependsOn_lt hi hd) hd
        exact ih (hlt.trans_le (Nat.le_of_lt_succ hn)) (hlt.trans_le (Nat.le_of_lt_succ hn'))
      simp only [columnWithin, mapM_congr hd]

-- What a step computes in terms of what its dependencies compute.
theorem column_eq (hi : p.view.Inv) : p.column bucket r =
    (do (← p.kind r).column bucket (← (p.dependencies r).mapM (p.column bucket))) := by
  have hd : ∀ d ∈ p.dependencies r,
      p.columnWithin bucket p.heap.length d = p.column bucket d := fun d hd => by
    have hlt := Graph.height_lt hi.acyclic (view_dependsOn_lt hi hd) hd
    have hle : Graph.height p.view.DependsOn (Finset.range p.heap.length) r ≤ p.heap.length := by
      simpa using Graph.height_le (r := p.view.DependsOn) (u := Finset.range p.heap.length) (x := r)
    exact columnWithin_stable hi (hlt.trans_le hle) ((hlt.trans_le hle).trans (Nat.lt_succ_self _))
  rw [column, columnWithin]
  simp only [mapM_congr hd]

end Column

-- A plan whose steps have as many dependencies as their constructors add.
structure WellFormed (p : Plan (CoreStep V S F)) : Prop where
  inv   : p.view.Inv
  arity : ∀ r step, p.kind r = some step → (p.dependencies r).length = step.dependencyCount

-- What the merging of the steps of `p` in `q` has to preserve: every step computes the same as its
-- survivor, and steps with the same survivor compute the same.
structure Preserves (p q : Plan (CoreStep V S F)) (remap : Remap) : Prop where
  survivor : ∀ r, p.view.Live r → ∃ s, remap (p.stepId r) = some s ∧
    ∀ bucket, q.column bucket s = p.column bucket r
  merged   : ∀ r s, p.view.Live r → p.view.Live s → remap (p.stepId r) = remap (p.stepId s) →
    ∀ bucket, p.column bucket r = p.column bucket s

-- The keys of the steps tell their parameters apart: constants of one type with the same `repr` are
-- equal, and so are the fallbacks with the same `repr` of accesses to the same steps, unless no
-- bucket makes a fallback show.
structure KeysDistinguish (p : Plan (CoreStep V S F)) : Prop where
  constants : ∀ r s a b, p.view.Live r → p.view.Live s → p.kind r = some (.constant a) →
    p.kind s = some (.constant b) → typeName a = typeName b → repr a = repr b → a = b
  fallbacks : ∀ r s path f g, p.view.Live r → p.view.Live s → p.kind r = some (.access path f) →
    p.kind s = some (.access path g) → Congruent p r s → f ≠ g →
    ∀ bucket values col, (p.dependencies r).mapM (p.column bucket) = some values →
      entries bucket.length values = some col → FallbackFree path col

variable {k : Nat} {m : Remap} {r s : Ref}

omit [PyValue V S] [Callables V F] in
theorem kind_of_live (hi : p.view.Inv) (hr : p.view.Live r) : ∃ step, p.kind r = some step :=
  have hlt : r < p.heap.length := hi.seen_lt r (hi.live_seen hr)
  ⟨p.heap[r].kind, by simp [kind, hlt]⟩

omit [Callables V F] in
theorem Merges.congruent_follow (hi : p.view.Inv) (h : Merges p k q m) (hr : p.view.Live r) :
    Congruent p r (p.follow m k r) := by
  have hl := h.follow_live hi hr
  refine h.congruent hi hr (h.live hi hl) (follow_of_none ?_).symm
  exact h.stepId hi ▸ h.merged_live hi hl

-- The key of a step is that of its survivor, and so are the columns that the step reads.
theorem Merges.column_follow (hp : p.WellFormed) (h : Merges p k q m) (hk : p.KeysDistinguish)
    {bucket : List V} (hr : p.view.Live r) :
    q.column bucket (p.follow m k r) = p.column bucket r := by
  induction r using dependency_induction hp.inv
  case h r hi =>
    have hl := h.live hp.inv (h.follow_live hp.inv hr)
    have hc := h.congruent_follow hp.inv hr
    have ⟨step, hs⟩ := kind_of_live hp.inv hr
    have ⟨step', hs'⟩ := kind_of_live hp.inv hl
    have hkey : step.key = step'.key := by
      have := h.follow_key hp.inv hr
      rw [hs, hs'] at this
      exact (Option.some.inj this).symm
    have hd : (q.dependencies (p.follow m k r)).mapM (q.column bucket) =
        (p.dependencies r).mapM (p.column bucket) := by
      rw [h.follow_dependencies hp.inv hr, List.mapM_map]
      exact mapM_congr fun d hd => hi d hd (hp.inv.live_dep r hr d hd)
    rw [column_eq (h.inv hp.inv), column_eq hp.inv, hd, h.kind hp.inv, hs, hs']
    cases hv : (p.dependencies r).mapM (p.column bucket)
    case none => rfl
    case some values =>
      symm
      refine CoreStep.column_congr hkey (fun a b ha hb => ?_) fun path f g col hf hg hne he => ?_
      · subst ha hb
        have ⟨ht, hr'⟩ := CoreKey.constant.inj hkey
        exact hk.constants r _ a b hr hl hs hs' ht hr'
      · subst hf hg
        exact hk.fallbacks r _ path f g hr hl hs hs' hc hne bucket values col hv he

-- Constants do not depend on the bucket, so that a bucket of one value tells them apart.
theorem column_constant (hp : p.WellFormed) {a v : V} (hr : p.kind r = some (.constant a)) :
    p.column [v] r = some [a] := by
  have hd : p.dependencies r = [] := List.length_eq_zero_iff.mp (hp.arity r _ hr)
  rw [column_eq hp.inv, hr, hd]
  rfl

theorem column_access (hp : p.WellFormed) {bucket : List V} {path : List S} {f : V}
    {values : List (List V)} {col : List V} (hr : p.kind r = some (.access path f))
    (hv : (p.dependencies r).mapM (p.column bucket) = some values)
    (he : entries bucket.length values = some col) :
    p.column bucket r = col.mapM (accessEntry path f) := by
  rw [column_eq hp.inv, hr, hv]
  simp [CoreStep.column, execute, he]

-- What the dependencies of congruent steps compute, if congruent steps compute the same.
theorem Congruent.mapM_column {bucket : List V} (hi : p.view.Inv) (hr : p.view.Live r)
    (hs : p.view.Live s) (h : Congruent p r s)
    (hc : ∀ r s, p.view.Live r → p.view.Live s → Congruent p r s →
      p.column bucket r = p.column bucket s) :
    (p.dependencies r).mapM (p.column bucket) = (p.dependencies s).mapM (p.column bucket) := by
  cases h
  case refl => rfl
  case step _ _ _ hl hd =>
    have he : (p.dependencies r).map (p.column bucket) = (p.dependencies s).map (p.column bucket) := by
      refine List.ext_getElem (by simpa using hl) fun i h₁ h₂ => ?_
      simp only [List.length_map] at h₁ h₂
      simp only [List.getElem_map]
      refine hc _ _ (hi.live_dep r hr _ (List.getElem_mem h₁))
        (hi.live_dep s hs _ (List.getElem_mem h₂)) ?_
      exact hd i _ _ (List.getElem?_eq_getElem h₁) (List.getElem?_eq_getElem h₂)
    have hm (l : List Ref) : (l.map (p.column bucket)).mapM id = l.mapM (p.column bucket) :=
      List.mapM_map
    rw [← hm, ← hm, he]

variable [DecidableEq S] [DecidableEq F]

-- `deduplicate` keeps the meaning of the steps exactly if the keys tell their parameters apart.
theorem deduplicate_preserves_iff (hp : p.WellFormed) :
    Preserves p p.deduplicate.fst p.deduplicate.snd ↔ p.KeysDistinguish := by
  have ⟨k, q, m, h, hq, he, hf⟩ := deduplicate_merges hp.inv
  have hcol {bucket : List V} {r : Ref} : p.deduplicate.fst.column bucket r = q.column bucket r :=
    he ▸ column_congr rfl
  constructor
  case mp =>
    intro hs
    have hc {r s : Ref} (hr : p.view.Live r) (hs' : p.view.Live s) (hc : Congruent p r s) :=
      hs.merged r s hr hs' (by rw [hf r hr, hf s hs', h.survivor_eq hp.inv hq hr hs' hc])
    constructor
    case constants =>
      intro r s a b hr hl hra hsb ht hrep
      have hd : p.dependencies r = [] := List.length_eq_zero_iff.mp (hp.arity r _ hra)
      have hd' : p.dependencies s = [] := List.length_eq_zero_iff.mp (hp.arity s _ hsb)
      have hcong : Congruent p r s := by
        refine .step ?_ ?_ ?_ ?_ ?_
        · simp [dedupable, hra, StepClass.dedupable]
        · simp [dedupable, hsb, StepClass.dedupable]
        · simp [hra, hsb, StepClass.key, key, ht, hrep]
        · rw [hd, hd']
        · simp [hd]
      have := hc hr hl hcong [a]
      rw [column_constant hp hra, column_constant hp hsb] at this
      simpa using this
    case fallbacks =>
      intro r s path f g hr hl hrf hsg hcong hne bucket values col hv he
      have hv' := hcong.mapM_column hp.inv hr hl fun _ _ hr hs h => hc hr hs h bucket
      have heq := hc hr hl hcong bucket
      rw [column_access hp hrf hv he, column_access hp hsg (hv' ▸ hv) he] at heq
      exact (mapM_accessEntry_iff.mp heq).resolve_left hne
  case mpr =>
    intro hk
    constructor
    case survivor =>
      intro r hr
      exact ⟨_, hf r hr, fun bucket => hcol.trans (h.column_follow hp hk hr)⟩
    case merged =>
      intro r s hr hs hrs bucket
      have hrs : p.follow m k r = p.follow m k s := by simpa [hf r hr, hf s hs] using hrs
      rw [← h.column_follow hp hk hr, ← h.column_follow hp hk hs, hrs]

end Plan

namespace Secret

-- Strings whose `repr` masks them.
inductive Val
  | none
  | secret (text : String)
  deriving DecidableEq

instance : PyValue Val String where
  pyNone             := .none
  isNone v           := v = .none
  isException _      := false
  truthy v           := v ≠ .none
  hashable _         := true
  keyEq a b          := a = b
  typeName v         := if v = .none then "NoneType" else "SecretStr"
  repr v             := if v = .none then "None" else "SecretStr('**********')"
  asDict _           := .none
  getItem _ _        := .missing
  getAttr _ _        := .missing
  iterate v          := .error v
  ofList _           := .none
  ofTuple _          := .none
  ofDict _           := .none
  decodeGlobalId v   := .valueError v
  noLoader _         := .none

instance : Callables Val Empty where
  call     := nofun
  test     := nofun
  load     := nofun
  mapItems := nofun

-- Two constant steps.
def constants (a b : Val) : List (Operation (CoreStep Val String Empty)) :=
  [.construct (.constant a) [], .construct (.constant b) [], .addStep 0, .addStep 1]

theorem constants_permitted (a b : Val) : Operation.AllPermitted Plan.empty (constants a b) := by
  refine ⟨by simp [Operation.Permitted], fun p hp => ?_⟩
  obtain rfl := Option.some.inj hp
  refine ⟨by simp [Operation.Permitted], fun p hp => ?_⟩
  obtain rfl := Option.some.inj hp
  refine ⟨fun _ => ⟨⟨?_, ?_⟩, .new ?_ ?_ ?_⟩, fun p hp => ?_⟩
  · simp [Plan.view, Plan.construct, Plan.empty]
  · simp [Plan.view, Plan.construct, Plan.empty]
  · simp [Plan.view, Plan.construct, Plan.empty]
  · simp [Plan.view, Plan.construct, Plan.empty]
  · simp [Plan.view, Plan.construct, Plan.empty, Plan.dependencies]
  obtain rfl := Option.some.inj hp
  refine ⟨fun _ => ⟨⟨fun r hr n hn => ?_, fun _ hn => ?_⟩, .new ?_ ?_ ?_⟩, fun p hp => trivial⟩
  · obtain rfl := List.mem_singleton.mp hr
    obtain rfl := Option.some.inj hn
    exact Nat.zero_lt_one
  · exact absurd hn List.not_mem_nil
  · exact Nat.lt_add_one 1
  · exact fun h => absurd (List.mem_singleton.mp h) Nat.one_ne_zero
  · exact fun d hd => absurd hd List.not_mem_nil

def plan (a b : Val) : Plan (CoreStep Val String Empty) :=
  ((constants a b).foldlM Operation.apply Plan.empty).getD Plan.empty

theorem plan_step {a b : Val} {r : Ref} {step : CoreStep Val String Empty}
    (h : (plan a b).kind r = some step) :
    (plan a b).dependencies r = [] ∧ (step = .constant a ∨ step = .constant b) := by
  match r with
  | 0     => exact ⟨rfl, .inl (Option.some.inj h).symm⟩
  | 1     => exact ⟨rfl, .inr (Option.some.inj h).symm⟩
  | r + 2 => exact (Option.some_ne_none step h.symm).elim

theorem plan_wellFormed (a b : Val) : (plan a b).WellFormed := by
  obtain ⟨q, hq, hi⟩ := Operation.run_inv Plan.empty_inv rfl (constants_permitted a b)
  refine ⟨by simpa [plan, hq] using hi, fun r step h => ?_⟩
  obtain ⟨hd, hs⟩ := plan_step h
  rw [hd]
  cases hs
  case inl hs => exact hs ▸ rfl
  case inr hs => exact hs ▸ rfl

-- Two different constants are merged.
theorem not_preserves :
    (plan (.secret "a") (.secret "b")).WellFormed ∧
      ¬Plan.Preserves (plan (.secret "a") (.secret "b"))
        (plan (.secret "a") (.secret "b")).deduplicate.fst
        (plan (.secret "a") (.secret "b")).deduplicate.snd := by
  refine ⟨plan_wellFormed .., fun h => ?_⟩
  have ⟨s, hs, he⟩ := h.survivor 1 ⟨by decide, by decide⟩
  have hs' : (plan (.secret "a") (.secret "b")).deduplicate.snd (some 1) = some 0 := by decide
  obtain rfl := Option.some.inj (hs.symm.trans hs')
  exact absurd (he [.none]) (by decide)

-- Constants of the same data are merged as well, and nothing tells them apart.
theorem preserves : Plan.Preserves (plan (.secret "a") (.secret "a"))
    (plan (.secret "a") (.secret "a")).deduplicate.fst
    (plan (.secret "a") (.secret "a")).deduplicate.snd := by
  refine (Plan.deduplicate_preserves_iff (plan_wellFormed ..)).mpr ⟨?_, ?_⟩
  · intro r s a b _ _ ha hb _ _
    have ha := (plan_step ha).right
    have hb := (plan_step hb).right
    grind
  · intro r s path f g _ _ hf
    have := (plan_step hf).right
    grind

end Secret

end Grafast
