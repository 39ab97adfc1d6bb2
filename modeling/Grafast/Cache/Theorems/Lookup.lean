import Grafast.Cache.Lookup
import Grafast.Cache.Theorems.PlanCache
import Grafast.Cache.Theorems.Variant
import Grafast.Request.Theorems.Planning

namespace Grafast

namespace PlanCache

variable {Key P S C : Type} [DecidableEq Key] {c : PlanCache Key P} {key k : Key} {value x : P} {bucket : List P}

theorem get?_snapshot : (c.snapshot key).fst.entries.get? k = c.entries.get? k := by
  cases hs : (c.snapshot key).snd with
  | none            => rw [snapshot_none hs]
  | some candidates =>
    rw [(snapshot_some hs).right]
    exact OrderedDict.get?_moveToEnd

theorem mem_put [DecidableEq P] [CachedPlan P S C] [DecidableEq S] [PyEq C]
    (h : (c.put key value).entries.get? k = some bucket) (hm : x ∈ bucket) :
    k = key ∧ x = value ∨ ∃ old, c.entries.get? k = some old ∧ x ∈ old := by
  obtain hb | ⟨rfl, rfl⟩ := get?_put h
  case inl => exact .inr ⟨bucket, hb, hm⟩
  case inr =>
    obtain rfl | hm := mem_putBucket (List.mem_of_mem_take hm)
    case inl => exact .inl ⟨rfl, rfl⟩
    case inr =>
      cases hg : c.entries.get? k with
      | none     => simp [hg] at hm
      | some old => exact .inr ⟨old, rfl, by simpa [hg] using hm⟩

end PlanCache

namespace LookupSystem

variable {I Key P S V K O Y : Type} [SharedPlan P S (List (Stored V K)) O] [PyEquality V Y] [DecidableEq Y]

section

variable (requests : I → PlanRequest Key S V K O)

-- A candidate of a key is what a request of that key has planned and found cacheable.
def Stands (key : Key) (candidate : P) : Prop :=
  ∃ j, (requests j).key = key ∧ (requests j).fresh.cacheable = true ∧ (requests j).Builds candidate

-- The request takes over the plan of another one, whose constraints hold for it.
def Shares (i : I) (candidate : P) : Prop :=
  Stands requests (requests i).key candidate ∧ CachedPlan.schema candidate = (requests i).schema ∧
    accepts (CachedPlan.constraints candidate) (requests i).inputs = true

-- What a request may be served: the plan it has built itself, or that of a request of the same operation that may
-- be shared and whose constraints hold for it.
def Earned (i : I) (objectPlan : O) : Prop :=
  objectPlan = (requests i).fresh.objectPlan ∨
    ∃ j, (requests j).key = (requests i).key ∧ (requests j).schema = (requests i).schema ∧
      (requests j).fresh.cacheable = true ∧ accepts (requests j).constraints (requests i).inputs = true ∧
        objectPlan = (requests j).fresh.objectPlan

def LookupSound (i : I) : LookupPhase P O → Prop
  | .arrived               => True
  | .validating candidates => ∀ candidate ∈ candidates, Stands requests (requests i).key candidate
  | .accepted candidate    => Shares requests i candidate
  | .missed                => True
  | .planned value         => (requests i).Builds value
  | .served objectPlan     => Earned requests i objectPlan
  | .failed                => True

structure Inv (s : LookupSystem I Key P O) [DecidableEq Key] : Prop where
  stored  : ∀ key bucket, s.cache.entries.get? key = some bucket →
    ∀ candidate ∈ bucket, Stands requests key candidate
  lookups : ∀ i, LookupSound requests i (s.lookups i)

end

variable {requests : I → PlanRequest Key S V K O} {i : I} {candidate : P}

theorem Shares.earned (h : Shares requests i candidate) :
    Earned requests i (SharedPlan.objectPlan candidate) := by
  obtain ⟨⟨j, hk, hc, hb⟩, hs, ha⟩ := h
  refine .inr ⟨j, hk, hb.schema ▸ hs, hc, ?_, hb.objectPlan⟩
  exact hb.constraints ▸ ha

theorem shares_of_validate [DecidableEq S] {walk : Verdict}
    (hs : Stands requests (requests i).key candidate)
    (h : (requests i).validate walk candidate = .accepts) : Shares requests i candidate := by
  unfold PlanRequest.validate at h
  split at h
  case isFalse    => cases h
  case isTrue hsc =>
    cases walk with
    | accepts =>
      have h : (if accepts (CachedPlan.constraints candidate) (requests i).inputs then Verdict.accepts
        else .rejects) = .accepts := h
      split at h
      case isTrue ha => exact ⟨hs, hsc, ha⟩
      case isFalse   => cases h
    | rejects => cases h
    | raises  => cases h

namespace Inv

section

variable [DecidableEq Key]

variable {s : LookupSystem I Key P O} {cache : PlanCache Key P} {lookup : LookupPhase P O}

theorem init {maxEntries : Nat} (h : 1 ≤ maxEntries) :
    Inv requests (init maxEntries h : LookupSystem I Key P O) where
  stored  := fun _ _ hb => absurd hb (Option.some_ne_none _).symm
  lookups := fun _ => trivial

-- One request goes on, and the candidates in the cache stand for their keys as before.
theorem move [DecidableEq I] (h : Inv requests s) (hl : LookupSound requests i lookup)
    (hc : ∀ key bucket, cache.entries.get? key = some bucket →
      ∀ candidate ∈ bucket, Stands requests key candidate) : Inv requests (s.move i cache lookup) where
  stored  := hc
  lookups := fun j => by
    by_cases hj : j = i
    case pos =>
      subst hj
      have hu : (s.move j cache lookup).lookups j = lookup := by simp [LookupSystem.move]
      exact hu.symm ▸ hl
    case neg =>
      have hu : (s.move i cache lookup).lookups j = s.lookups j := by simp [LookupSystem.move, hj]
      exact hu.symm ▸ h.lookups j

theorem hoist [DecidableEq P] (h : Inv requests s) {key k : Key} {bucket : List P}
    (hb : (s.cache.hoist key candidate).entries.get? k = some bucket) :
    ∀ candidate ∈ bucket, Stands requests k candidate := by
  have hk : CacheSystem.SameCandidates (s.cache.hoist key candidate) s.cache := PlanCache.hoist_sameCandidates
  replace hk := hk k
  rw [hb] at hk
  cases hg : s.cache.entries.get? k with
  | none     => rw [hg] at hk; cases hk
  | some old =>
    rw [hg] at hk
    cases hk with
    | some hp => exact fun c hc => h.stored k old hg c (hp.mem_iff.mp hc)

end

variable [DecidableEq I] [DecidableEq Key] [DecidableEq P] [DecidableEq S] [DecidableEq K]

-- What one step of a request preserves.
theorem step {walk : I → P → Verdict} {t : LookupSystem I Key P O} (h : Inv requests s)
    (hs : Step requests walk s t) : Inv requests t := by
  cases hs with
  | absent hi hn             => exact h.move trivial fun k b hb => h.stored k b (by rwa [PlanCache.get?_snapshot] at hb)
  | snapshot hi hs           =>
    refine h.move (fun c hc => ?_) fun k b hb => h.stored k b (by rwa [PlanCache.get?_snapshot] at hb)
    exact h.stored _ _ (PlanCache.snapshot_some hs).left c hc
  | @reject i c rest hi hv   =>
    have hl := h.lookups i
    rw [hi] at hl
    exact h.move (fun c hc => hl c (.tail _ hc)) h.stored
  | @accept i c rest hi hv   =>
    have hl := h.lookups i
    rw [hi] at hl
    exact h.move (shares_of_validate (hl c (.head _)) hv) h.stored
  | raise hi hv              => exact h.move trivial h.stored
  | @hoist i c hi            =>
    have hl := h.lookups i
    rw [hi] at hl
    exact h.move (Shares.earned hl) fun k b hb => h.hoist hb
  | miss hi                  => exact h.move trivial h.stored
  | plan hi hb               => exact h.move hb h.stored
  | @store i value hi hc     =>
    have hl := h.lookups i
    rw [hi] at hl
    refine h.move (.inl hl.objectPlan) fun k b hb x hm => ?_
    obtain ⟨rfl, rfl⟩ | ⟨old, ho, hm⟩ := PlanCache.mem_put hb hm
    case inl => exact ⟨i, rfl, hc, hl⟩
    case inr => exact h.stored k old ho x hm
  | @keep i value hi hc      =>
    have hl := h.lookups i
    rw [hi] at hl
    exact h.move (.inl hl.objectPlan) h.stored
  | clear                    => exact ⟨fun _ _ hb => absurd hb (Option.some_ne_none _).symm, h.lookups⟩

end Inv

variable [DecidableEq I] [DecidableEq Key] [DecidableEq P] [DecidableEq S] [DecidableEq K]
  {walk : I → P → Verdict} {maxEntries : Nat} {h : 1 ≤ maxEntries} {s : LookupSystem I Key P O}

theorem Reachable.inv (hs : Reachable requests walk maxEntries h s) : Inv requests s := by
  induction hs with
  | init          => exact .init h
  | step _ ht ih  => exact ih.step ht

-- Where the constraints of a plan tell for which requests it may stand in, a request is served what it would have
-- built up to that relation.
theorem Reachable.related {rel : O → O → Prop} (refl : ∀ o, rel o o)
    (guarded : ∀ i j, (requests j).key = (requests i).key → (requests j).schema = (requests i).schema →
      accepts (requests j).constraints (requests i).inputs = true →
        rel (requests j).fresh.objectPlan (requests i).fresh.objectPlan)
    (hs : Reachable requests walk maxEntries h s) {objectPlan : O} (hi : s.lookups i = .served objectPlan) :
    rel objectPlan (requests i).fresh.objectPlan := by
  have he := hs.inv.lookups i
  rw [hi] at he
  obtain rfl | ⟨j, hk, hsc, -, ha, rfl⟩ := he
  case inl => exact refl _
  case inr => exact guarded i j hk hsc ha

end LookupSystem

section

variable {A F V Y K O : Type} [PyObject V Y] [DecidableEq Y]

-- A customizer gives what its keys tell, and other reads are repeated where they find what they found.
def OperationRead.Repeats (inputs inputs' : CacheRequest V K) : OperationRead A F V K → Prop
  | .input read     => read.Repeats inputs.facts inputs'.facts
  | .customizer _ _ => True

def Building.Repeats (building : Building A F V Y K O) (inputs inputs' : CacheRequest V K) : Prop :=
  ∀ read ∈ building.reads inputs, read.Repeats inputs inputs'

variable {building : Building A F V Y K O} {inputs inputs' : CacheRequest V K} {definitions : List String}
  {read : OperationRead A F V K}

theorem OperationRead.observe_eq (hd : definitions.Nodup) (hf : inputs.facts.Follows definitions)
    (hf' : inputs'.facts.Follows definitions) (hr : read.Repeats inputs inputs')
    (h : accepts (read.record inputs) inputs' = true) :
    (read.observe inputs' : OperationObservation V Y) = read.observe inputs := by
  cases read with
  | input read     =>
    refine congrArg OperationObservation.input (PlanRead.observe_eq hd hf hf' hr ?_)
    rwa [record, accepts, List.all_map] at h
  | customizer f n =>
    rw [record, accepts, List.all_cons, List.all_nil, Bool.and_true, Stored.holds, decide_eq_true_eq] at h
    rw [observe, observe, h]

-- Whatever its place among the constraints, what a read has recorded is validated.
theorem Building.mem_constraints (h : read ∈ building.reads inputs) {constraint : Stored V K}
    (hc : constraint ∈ read.record inputs) : constraint ∈ building.constraints inputs := by
  refine List.mem_flatMap.mpr ⟨read, ?_, hc⟩
  rw [List.mem_append, List.mem_append, List.mem_filter, List.mem_filter, List.mem_filter]
  cases read.isDirectives <;> cases read.isCustomizer <;> simp [h]

theorem Building.run_of_accepts (hd : definitions.Nodup) (hf : inputs.facts.Follows definitions)
    (hf' : inputs'.facts.Follows definitions) (hr : building.Repeats inputs inputs')
    (h : accepts (building.constraints inputs) inputs' = true) : building.run inputs' = building.run inputs := by
  refine Replay.Program.run_congr fun entry he => ?_
  have hm : entry.fst ∈ building.reads inputs := List.mem_map_of_mem he
  refine OperationRead.observe_eq hd hf hf' (hr _ hm) ?_
  rw [accepts, List.all_eq_true] at h ⊢
  exact fun constraint hc => h constraint (Building.mem_constraints hm hc)

end

namespace LookupSystem

variable {I Key P S A F V Y K O : Type} [DecidableEq I] [DecidableEq Key] [DecidableEq P]
  [SharedPlan P S (List (Stored V K)) O] [DecidableEq S] [PyEquality V Y] [DecidableEq Y] [DecidableEq K]

-- Requests with the same key and schema are of one operation, and repeat the reads of one another.
def Consistent (requests : I → OperationRequest Key S A F V Y K O) : Prop :=
  ∀ i j, (requests j).key = (requests i).key → (requests j).schema = (requests i).schema →
    (requests j).operation = (requests i).operation ∧
      (requests i).operation.building.Repeats (requests j).inputs (requests i).inputs

-- Sharing plans is transparent, in whichever order requests look up, validate, plan, store and are evicted.
theorem Reachable.transparent {requests : I → OperationRequest Key S A F V Y K O} {walk : I → P → Verdict}
    {maxEntries : Nat} {h : 1 ≤ maxEntries} {s : LookupSystem I Key P O} (hc : Consistent requests)
    (hs : Reachable (fun i => (requests i).planRequest) walk maxEntries h s) {i : I} {objectPlan : O}
    (hi : s.lookups i = .served objectPlan) :
    objectPlan = ((requests i).operation.building.run (requests i).inputs).result.objectPlan := by
  refine hs.related (fun _ => rfl) (fun i j hk hsc ha => ?_) hi
  obtain ⟨ho, hr⟩ := hc i j hk hsc
  have hf := (requests j).follows
  have ha : accepts ((requests j).operation.building.constraints (requests j).inputs) (requests i).inputs = true := ha
  have hj : (requests j).planRequest.fresh =
      ((requests j).operation.building.run (requests j).inputs).result := rfl
  rw [ho] at hf ha hj
  have he := Building.run_of_accepts (requests i).operation.distinct hf (requests i).follows hr ha
  rw [hj, ← he]
  rfl

end LookupSystem

namespace Tenancy

-- The plans for the rows of a tenant, by the name of the tenant.
structure TenantPlan where
  tenant : String
  deriving DecidableEq

def tenantKey : String :=
  "tenant = <<ph:ctx:tenant>>"

instance : SharedPlan TenantPlan Unit (List (Stored PyData Unit)) String where
  schema _         := ()
  constraints plan := [.input (.value .context ["tenant"] (some (.str plan.tenant))), .customizer () 2 [tenantKey]]
  objectPlan plan  := "rows of " ++ plan.tenant

def rowsFor : OperationObservation PyData String → FinalizedPlan String
  | .input (.value (.str tenant)) => ⟨"rows of " ++ tenant, true⟩
  | _                             => ⟨"no rows", false⟩

def operation : PlannedOperation Unit Unit PyData String Unit String where
  definitions := []
  distinct    := List.nodup_nil
  building    := .read (.input (.tracked (.eval "tenant"))) fun tenant =>
    .read (.customizer () 2) fun _ => .done (rowsFor tenant)

def request : OperationRequest Unit Unit Unit Unit PyData String Unit String where
  key       := ()
  schema    := ()
  inputs    := ⟨Visitors.member, fun _ _ => [tenantKey]⟩
  operation := operation
  follows   := List.nil_sublist _

-- Two requests of members of one tenant.
def requests (_ : Bool) : OperationRequest Unit Unit Unit Unit PyData String Unit String :=
  request

def walk (_ : Bool) (_ : TenantPlan) : Verdict :=
  .accepts

theorem requests_consistent : LookupSystem.Consistent requests := by
  refine fun i j _ _ => ⟨rfl, fun read hm => ?_⟩
  have hr : operation.building.reads request.inputs = [.input (.tracked (.eval "tenant")), .customizer () 2] := rfl
  have hm : read ∈ operation.building.reads request.inputs := hm
  rw [hr] at hm
  simp only [List.mem_cons, List.not_mem_nil, or_false] at hm
  obtain rfl | rfl := hm
  case inl => exact Visitors.discerned_str "acme" _
  case inr => trivial

def acme : TenantPlan :=
  ⟨"acme"⟩

theorem builds_acme : (requests false).planRequest.Builds acme where
  schema      := rfl
  constraints := rfl
  objectPlan  := rfl

-- The second request takes over what the first one has built and stored.
theorem second_transparent : ∃ s : LookupSystem Bool Unit TenantPlan String,
    s.lookups true = .served "rows of acme" ∧ s.cache.hits = 1 ∧
      "rows of acme" = (operation.building.run request.inputs).result.objectPlan := by
  let s₀ : LookupSystem Bool Unit TenantPlan String := .init 1 (Nat.le_refl 1)
  let s₁ := s₀.move false (s₀.cache.snapshot ()).fst .missed
  let s₂ := s₁.move false s₁.cache (.planned acme)
  let s₃ := s₂.move false (s₂.cache.put () acme) (.served "rows of acme")
  let s₄ := s₃.move true (s₃.cache.snapshot ()).fst (.validating [acme])
  let s₅ := s₄.move true s₄.cache (.accepted acme)
  let s₆ := s₅.move true (s₅.cache.hoist () acme) (.served "rows of acme")
  have h₁ : LookupSystem.Reachable (fun i => (requests i).planRequest) walk 1 (Nat.le_refl 1) s₁ :=
    .step .init (.absent rfl rfl)
  have h₂ : LookupSystem.Reachable (fun i => (requests i).planRequest) walk 1 (Nat.le_refl 1) s₂ :=
    .step h₁ (.plan rfl builds_acme)
  have h₃ : LookupSystem.Reachable (fun i => (requests i).planRequest) walk 1 (Nat.le_refl 1) s₃ :=
    .step h₂ (.store rfl rfl)
  have hb : (s₃.cache.snapshot ()).snd = some [acme] := by decide +kernel
  have h₄ : LookupSystem.Reachable (fun i => (requests i).planRequest) walk 1 (Nat.le_refl 1) s₄ :=
    .step h₃ (.snapshot rfl hb)
  have h₅ : LookupSystem.Reachable (fun i => (requests i).planRequest) walk 1 (Nat.le_refl 1) s₅ :=
    .step h₄ (.accept rfl (by decide +kernel))
  have h₆ : LookupSystem.Reachable (fun i => (requests i).planRequest) walk 1 (Nat.le_refl 1) s₆ :=
    .step h₅ (.hoist rfl)
  exact ⟨s₆, rfl, by decide +kernel, LookupSystem.Reachable.transparent requests_consistent h₆ (i := true) rfl⟩

end Tenancy

end Grafast
