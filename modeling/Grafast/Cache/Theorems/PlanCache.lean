import Grafast.Cache.PlanCache

namespace Grafast

namespace PlanCache

variable {Key P S C : Type} {c : PlanCache Key P}

-- What eviction keeps: the bound and the counters of gets.
structure Evicts (c d : PlanCache Key P) [DecidableEq Key] : Prop where
  maxEntries : d.maxEntries = c.maxEntries
  hits       : d.hits = c.hits
  misses     : d.misses = c.misses
  length     : d.entries.length ≤ c.maxEntries
  get?       : ∀ key bucket, d.entries.get? key = some bucket → c.entries.get? key = some bucket

variable [DecidableEq Key] {key k : Key}

theorem evict_evicts : c.Evicts c.evict := by
  fun_induction evict c
  case case1 c h hi => exact {
    maxEntries := hi.maxEntries
    hits       := hi.hits
    misses     := hi.misses
    length     := hi.length
    get?       := fun key bucket hb => OrderedDict.get?_of_popFirst (hi.get? key bucket hb) }
  case case2 c h => exact ⟨rfl, rfl, rfl, Nat.le_of_not_lt h, fun _ _ h => h⟩

theorem snapshot_none (h : (c.snapshot key).snd = none) :
    (c.snapshot key).fst = { c with misses := c.misses + 1 } := by
  rw [snapshot] at h ⊢
  cases hg : c.entries.get? key
  case none        => rfl
  case some bucket => rw [hg] at h; cases h

theorem snapshot_some {candidates : List P} (h : (c.snapshot key).snd = some candidates) :
    c.entries.get? key = some candidates ∧
      (c.snapshot key).fst = { c with entries := c.entries.moveToEnd key } := by
  rw [snapshot] at h ⊢
  cases hg : c.entries.get? key
  case none        => rw [hg] at h; cases h
  case some bucket => rw [hg] at h; exact ⟨h, rfl⟩

section

variable [DecidableEq P] {bucket : List P} {candidate : P}

theorem hoistBucket_perm : (hoistBucket bucket candidate).Perm bucket := by
  rw [hoistBucket]
  split
  case h_1     => exact .refl _
  case h_2     => exact .refl _
  case h_3 i h =>
    obtain ⟨hi, hc, _⟩ := List.findIdx?_eq_some_iff_getElem.mp h
    obtain rfl : bucket[i + 1] = candidate := of_decide_eq_true hc
    exact List.getElem_cons_eraseIdx_perm hi

theorem get?_hoist : (c.hoist key candidate).entries.get? k =
    if k = key then (c.entries.get? k).map (hoistBucket · candidate) else c.entries.get? k := by
  simp only [hoist]
  by_cases hk : k = key
  case pos =>
    subst hk
    cases hg : c.entries.get? k <;> simp [hg]
  case neg =>
    cases hg : c.entries.get? key <;> simp [OrderedDict.get?_set, hk]

theorem hoist_sameCandidates : CacheSystem.SameCandidates (c.hoist key candidate) c := by
  intro k
  rw [get?_hoist]
  cases hg : c.entries.get? k
  case none        => rw [Option.map_none, ite_self]; exact .none
  case some bucket =>
    by_cases hk : k = key
    case pos => rw [if_pos hk]; exact .some hoistBucket_perm
    case neg => rw [if_neg hk]; exact .some (.refl _)

theorem length_hoist : (c.hoist key candidate).entries.length = c.entries.length := by
  simp only [hoist]
  cases hg : c.entries.get? key
  case none        => rfl
  case some bucket => exact OrderedDict.length_set_of_isSome (by simp [hg])

end

section

variable [CachedPlan P S C] [DecidableEq S] [PyEq C] [DecidableEq P] {bucket : List P} {value : P}

theorem mem_putBucket {x : P} (h : x ∈ putBucket bucket value) : x = value ∨ x ∈ bucket := by
  rw [putBucket] at h
  split at h
  case h_1     => exact List.mem_cons.mp h
  case h_2 i _ => exact (List.mem_cons.mp h).imp_right (List.eraseIdx_sublist _ i).mem

-- What the new candidate joins, where it is told apart from all but the one that it replaces.
theorem putBucket_pairwise (hs : Separates bucket value)
    (h : bucket.Pairwise fun a b => sameVariant a b = false ∧ sameVariant b a = false) :
    (putBucket bucket value).Pairwise fun a b => sameVariant a b = false ∧ sameVariant b a = false := by
  have hnew {rest : List P} (hr : ∀ x ∈ rest, x ∈ bucket ∧ sameVariant x value = false) :
      ∀ x ∈ rest, sameVariant value x = false ∧ sameVariant x value = false := by
    intro x hx
    obtain ⟨hm, hf⟩ := hr x hx
    exact ⟨Bool.eq_false_iff.mpr fun hv => Bool.false_ne_true (hf.symm.trans (hs.symm x hm hv)), hf⟩
  rw [putBucket]
  split
  case h_1 hf   =>
    have hn := List.findIdx?_eq_none_iff.mp hf
    exact List.pairwise_cons.mpr ⟨hnew fun x hx => ⟨hx, hn x hx⟩, h⟩
  case h_2 i hf =>
    obtain ⟨hi, hv, _⟩ := List.findIdx?_eq_some_iff_getElem.mp hf
    -- The replaced candidate is of the variant of the new one, and so no other candidate is.
    have hp := (List.getElem_cons_eraseIdx_perm hi).symm.pairwise hs.unique fun h hv => h hv.symm
    obtain ⟨hr, _⟩ := List.pairwise_cons.mp hp
    refine List.pairwise_cons.mpr ⟨hnew fun x hx => ⟨(List.eraseIdx_sublist _ i).mem hx, ?_⟩,
      h.sublist (List.eraseIdx_sublist _ i)⟩
    exact Bool.eq_false_iff.mpr fun hx' => hr x hx ⟨hv, hx'⟩

theorem put_counters (c : PlanCache Key P) (key : Key) (value : P) : (c.put key value).maxEntries = c.maxEntries ∧
    (c.put key value).hits = c.hits ∧ (c.put key value).misses = c.misses ∧
      (c.put key value).entries.length ≤ c.maxEntries :=
  have he := evict_evicts
  ⟨he.maxEntries, he.hits, he.misses, he.length⟩

theorem get?_put {b : List P} (h : (c.put key value).entries.get? k = some b) :
    c.entries.get? k = some b ∨
      k = key ∧ b = (putBucket ((c.entries.get? key).getD []) value).take maxVariantsPerKey := by
  have he := evict_evicts.get? k b h
  rw [OrderedDict.get?_moveToEnd, OrderedDict.get?_set] at he
  by_cases hk : k = key
  case pos => rw [if_pos hk] at he; exact .inr ⟨hk, (Option.some.inj he).symm⟩
  case neg => rw [if_neg hk] at he; exact .inl he

end

end PlanCache

namespace CacheSystem

variable {I Key P S C : Type}

section

variable [DecidableEq Key]

theorem SameCandidates.refl (c : PlanCache Key P) : SameCandidates c c := by
  intro key
  cases c.entries.get? key
  case none        => exact .none
  case some bucket => exact .some (.refl _)

-- What holds in every reachable state: candidates have been put under the key they stand for, in the
-- buckets as well as in the snapshots that clients hold.
structure Inv (maxEntries : Nat) (s : CacheSystem I Key P) : Prop where
  bound      : s.cache.maxEntries = maxEntries
  buckets    : s.cache.entries.length ≤ maxEntries
  variants   : ∀ key bucket, s.cache.entries.get? key = some bucket → bucket.length ≤ maxVariantsPerKey
  stored     : ∀ key bucket, s.cache.entries.get? key = some bucket →
    ∀ candidate ∈ bucket, (key, candidate) ∈ s.stored
  validating : ∀ i key validate candidates, s.clients i = .validating key validate candidates →
    ∀ candidate ∈ candidates, (key, candidate) ∈ s.stored
  accepted   : ∀ i key validate candidate, s.clients i = .accepted key validate candidate →
    verdict validate candidate = .accepts ∧ (key, candidate) ∈ s.stored
  returned   : ∀ r ∈ s.returned, ∀ candidate, r.candidate = some candidate →
    verdict r.validate candidate = .accepts ∧ (r.key, candidate) ∈ s.stored
  counted    : s.cache.hits + s.cache.misses = s.returned.length

namespace Inv

variable {maxEntries : Nat} {s : CacheSystem I Key P} {i : I} {c : PlanCache Key P}

theorem init (h : 1 ≤ maxEntries) : Inv maxEntries (init maxEntries h : CacheSystem I Key P) where
  bound      := rfl
  buckets    := Nat.zero_le _
  variants   := fun _ _ h => absurd h (Option.some_ne_none _).symm
  stored     := fun _ _ h => absurd h (Option.some_ne_none _).symm
  validating := fun _ _ _ _ h => by cases h
  accepted   := fun _ _ _ _ h => by cases h
  returned   := fun _ h => absurd h List.not_mem_nil
  counted    := rfl

-- A change of the cache that keeps its size, and the candidates of its buckets up to their order.
structure Keeps (c d : PlanCache Key P) : Prop where
  maxEntries : d.maxEntries = c.maxEntries
  length     : d.entries.length = c.entries.length
  candidates : SameCandidates d c

theorem Keeps.get? {d : PlanCache Key P} (h : Keeps c d) {key : Key} {bucket : List P}
    (hb : d.entries.get? key = some bucket) :
    ∃ bucket', c.entries.get? key = some bucket' ∧ bucket.Perm bucket' := by
  have hk := h.candidates key
  rw [hb] at hk
  cases hk' : c.entries.get? key
  case none         => rw [hk'] at hk; cases hk
  case some bucket' =>
    rw [hk'] at hk
    cases hk
    case some hp => exact ⟨bucket', rfl, hp⟩

variable [DecidableEq I]

theorem ret (h : Inv maxEntries s) (hk : Keeps s.cache c) {r : Returned Key P}
    (hr : ∀ candidate, r.candidate = some candidate →
      verdict r.validate candidate = .accepts ∧ (r.key, candidate) ∈ s.stored)
    (hc : c.hits + c.misses = s.cache.hits + s.cache.misses + 1) :
    Inv maxEntries (s.ret i c r) where
  bound      := hk.maxEntries.trans h.bound
  buckets    := hk.length ▸ h.buckets
  variants   := fun key bucket hb => by
    obtain ⟨bucket', hb', hp⟩ := hk.get? hb
    exact hp.length_eq ▸ h.variants key bucket' hb'
  stored     := fun key bucket hb candidate hm => by
    obtain ⟨bucket', hb', hp⟩ := hk.get? hb
    exact h.stored key bucket' hb' candidate (hp.mem_iff.mp hm)
  validating := fun j key validate candidates hj => by
    by_cases hi : j = i
    case pos => subst hi; simp [CacheSystem.ret] at hj
    case neg => exact h.validating j key validate candidates (by simpa [CacheSystem.ret, hi] using hj)
  accepted   := fun j key validate candidate hj => by
    by_cases hi : j = i
    case pos => subst hi; simp [CacheSystem.ret] at hj
    case neg => exact h.accepted j key validate candidate (by simpa [CacheSystem.ret, hi] using hj)
  returned   := fun r' hr' candidate hc' => by
    obtain hm | hm := List.mem_append.mp hr'
    · exact h.returned r' hm candidate hc'
    · obtain rfl := List.mem_singleton.mp hm
      exact hr candidate hc'
  counted    := by simp [CacheSystem.ret, hc, h.counted]

theorem setClient (h : Inv maxEntries s) (client : Client Key P)
    (hv : ∀ key validate candidates, client = .validating key validate candidates →
      ∀ candidate ∈ candidates, (key, candidate) ∈ s.stored)
    (ha : ∀ key validate candidate, client = .accepted key validate candidate →
      verdict validate candidate = .accepts ∧ (key, candidate) ∈ s.stored) :
    Inv maxEntries (s.setClient i client) := {
  h with
  validating := fun j key validate candidates hj => by
    by_cases hi : j = i
    case pos => subst hi; exact hv key validate candidates (by simpa [CacheSystem.setClient] using hj)
    case neg => exact h.validating j key validate candidates (by simpa [CacheSystem.setClient, hi] using hj)
  accepted   := fun j key validate candidate hj => by
    by_cases hi : j = i
    case pos => subst hi; exact ha key validate candidate (by simpa [CacheSystem.setClient] using hj)
    case neg => exact h.accepted j key validate candidate (by simpa [CacheSystem.setClient, hi] using hj) }

variable [DecidableEq P] [CachedPlan P S C] [DecidableEq S] [PyEq C] {t : CacheSystem I Key P}
  {puts : PlanCache Key P → Key → P → Prop}

-- What one step of a client preserves.
theorem step (h : Inv maxEntries s) (hs : Step puts s t) : Inv maxEntries t := by
  cases hs
  case absent i key validate hi hn =>
    rw [PlanCache.snapshot_none hn]
    exact h.ret (c := { s.cache with misses := s.cache.misses + 1 }) ⟨rfl, rfl, .refl _⟩
      (fun _ he => absurd he (Option.some_ne_none _).symm) rfl
  case snapshot i key candidates validate hi hs =>
    obtain ⟨hg, hf⟩ := PlanCache.snapshot_some hs
    rw [hf]
    have hc := h.setClient (i := i) (.validating key validate candidates)
      (fun _ _ _ he => by cases he; exact h.stored key candidates hg) (fun _ _ _ he => by cases he)
    exact { hc with
      buckets  := Nat.le_trans (Nat.le_of_eq OrderedDict.length_moveToEnd) h.buckets
      variants := fun key bucket hb => h.variants key bucket (OrderedDict.get?_moveToEnd.symm.trans hb)
      stored   := fun key bucket hb => h.stored key bucket (OrderedDict.get?_moveToEnd.symm.trans hb) }
  case reject i key validate candidate rest hi hv =>
    have hr := h.validating i key validate _ hi
    exact h.setClient _ (fun _ _ _ he => by cases he; exact fun c hc => hr c (.tail _ hc))
      (fun _ _ _ he => by cases he)
  case accept i key validate candidate rest hi hv =>
    have hr := h.validating i key validate _ hi
    exact h.setClient _ (fun _ _ _ he => by cases he)
      (fun _ _ _ he => by cases he; exact ⟨hv, hr candidate (.head _)⟩)
  case raise i key validate candidate rest hi hv =>
    exact h.setClient _ (fun _ _ _ he => by cases he) (fun _ _ _ he => by cases he)
  case hoist i key validate candidate hi =>
    refine h.ret (c := s.cache.hoist key candidate)
      ⟨rfl, PlanCache.length_hoist, PlanCache.hoist_sameCandidates⟩ (fun c hc => ?_) ?_
    · exact Option.some.inj hc ▸ h.accepted i key validate candidate hi
    · exact Nat.add_right_comm ..
  case miss i key validate hi =>
    exact h.ret (c := s.cache.miss) ⟨rfl, rfl, .refl _⟩
      (fun _ he => absurd he (Option.some_ne_none _).symm) rfl
  case put i key value hi _ =>
    have ⟨hb, hh, hm, hl⟩ := PlanCache.put_counters s.cache key value
    have hs {r : Key × P} (hr : r ∈ s.stored) : r ∈ s.stored ++ [(key, value)] :=
      List.mem_append_left _ hr
    have hd (candidate : P) (hc : candidate ∈ (s.cache.entries.get? key).getD []) :
        (key, candidate) ∈ s.stored := by
      cases hg : s.cache.entries.get? key
      case none        => simp [hg] at hc
      case some bucket => exact h.stored key bucket hg candidate (by simpa [hg] using hc)
    exact {
      bound      := hb.trans h.bound
      buckets    := h.bound ▸ hl
      variants   := fun k bucket hk => by
        obtain hk | ⟨rfl, rfl⟩ := PlanCache.get?_put hk
        · exact h.variants k bucket hk
        · exact List.length_take_le _ _
      stored     := fun k bucket hk candidate hc => by
        obtain hk | ⟨rfl, rfl⟩ := PlanCache.get?_put hk
        · exact hs (h.stored k bucket hk candidate hc)
        · obtain rfl | hc := PlanCache.mem_putBucket (List.mem_of_mem_take hc)
          · exact List.mem_append_right _ (.head _)
          · exact hs (hd candidate hc)
      validating := fun i k v cs hi c hc => hs (h.validating i k v cs hi c hc)
      accepted   := fun i k v c hi => (h.accepted i k v c hi).imp_right hs
      returned   := fun r hr c hc => (h.returned r hr c hc).imp_right hs
      counted    := by simp only [hh, hm, h.counted] }
  case clear i hi =>
    exact { h with
      buckets  := Nat.zero_le _
      variants := fun _ _ h => absurd h (Option.some_ne_none _).symm
      stored   := fun _ _ h => absurd h (Option.some_ne_none _).symm }

end Inv

variable [DecidableEq I] [DecidableEq P] [CachedPlan P S C] [DecidableEq S] [PyEq C] {s t : CacheSystem I Key P}
  {puts : PlanCache Key P → Key → P → Prop}

-- The buckets after a step: up to their order those of before, or what a put has made of one of them.
theorem Step.bucket (h : Step puts s t) {key : Key} {bucket : List P}
    (hb : t.cache.entries.get? key = some bucket) :
    (∃ old, s.cache.entries.get? key = some old ∧ bucket.Perm old) ∨
      ∃ value, puts s.cache key value ∧
        bucket = (PlanCache.putBucket ((s.cache.entries.get? key).getD []) value).take maxVariantsPerKey := by
  cases h
  case absent i key' validate hi hn                     =>
    simp only [ret, PlanCache.snapshot_none hn] at hb
    exact .inl ⟨bucket, hb, .refl _⟩
  case snapshot i key' candidates validate hi hs        =>
    simp only [(PlanCache.snapshot_some hs).right] at hb
    exact .inl ⟨bucket, OrderedDict.get?_moveToEnd.symm.trans hb, .refl _⟩
  case hoist i key' validate candidate hi               =>
    have hk : Inv.Keeps s.cache (s.cache.hoist key' candidate) :=
      ⟨rfl, PlanCache.length_hoist, PlanCache.hoist_sameCandidates⟩
    exact .inl (hk.get? hb)
  case put i key' value hi hp                           =>
    obtain hb | ⟨rfl, rfl⟩ := PlanCache.get?_put hb
    · exact .inl ⟨bucket, hb, .refl _⟩
    · exact .inr ⟨value, hp, rfl⟩
  case clear i hi                                       => exact absurd hb (Option.some_ne_none _).symm
  case miss | reject | accept | raise                   => exact .inl ⟨bucket, hb, .refl _⟩

theorem Apart.perm {bucket bucket' : List P} (h : Apart bucket) (hp : bucket'.Perm bucket) : Apart bucket' where
  nodup    := hp.symm.nodup h.nodup
  variants := hp.symm.pairwise h.variants fun h => h.symm

-- A candidate is of its own variant.
theorem Apart.put {bucket : List P} {value : P} (h : Apart bucket) (hs : PlanCache.Separates bucket value) :
    Apart ((PlanCache.putBucket bucket value).take maxVariantsPerKey) := by
  have hp := (PlanCache.putBucket_pairwise hs h.variants).sublist (List.take_sublist maxVariantsPerKey _)
  refine ⟨hp.imp fun h he => ?_, hp⟩
  rw [he, PlanCache.sameVariant, decide_eq_true rfl, decide_eq_true rfl] at h
  cases h.left

theorem Reachable.inv {maxEntries : Nat} {h : 1 ≤ maxEntries} (hs : Reachable puts maxEntries h s) :
    Inv maxEntries s := by
  induction hs
  case init          => exact .init h
  case step hs ht hi => exact hi.step ht

-- Every interleaving of the critical sections of gets and puts is safe, and its buckets stay without duplicates where
-- no put finds two candidates that are equal to the new one.
theorem Reachable.safe {maxEntries : Nat} {h : 1 ≤ maxEntries} (hs : Reachable puts maxEntries h s) :
    Safe maxEntries s ∧
      ((∀ c key value, puts c key value → PlanCache.Separates ((c.entries.get? key).getD []) value) →
        ∀ key bucket, s.cache.entries.get? key = some bucket → Apart bucket) := by
  refine ⟨⟨hs.inv.buckets, hs.inv.variants, hs.inv.returned, fun _ _ _ _ _ => PlanCache.hoist_sameCandidates,
    hs.inv.counted⟩, fun hp => ?_⟩
  induction hs
  case init          => exact fun _ _ hb => absurd hb (Option.some_ne_none _).symm
  case step hs ht hi =>
    intro key bucket hb
    obtain ⟨old, ho, hb⟩ | ⟨value, hv, rfl⟩ := ht.bucket hb
    · exact (hi key old ho).perm hb
    · refine .put ?_ (hp _ _ _ hv)
      cases hg : (_ : PlanCache Key P).entries.get? key
      case none     => exact ⟨.nil, .nil⟩
      case some old => exact hi key old hg

end

end CacheSystem

namespace Skip

-- The plans of a document with `@skip(if: $hide)`.
inductive Variant
  | hidden
  | shown
  deriving DecidableEq

instance : CachedPlan Variant Unit Bool where
  schema _    := ()
  constraints := (· = .hidden)

instance : PyEq Bool where
  eq := (· == ·)

-- Clients that put plans which are told apart.
def puts (c : PlanCache Unit Variant) (key : Unit) (value : Variant) : Prop :=
  PlanCache.Separates ((c.entries.get? key).getD []) value

def showing : Option (Variant → Verdict) :=
  some fun candidate => if candidate = .shown then .accepts else .rejects

-- While one client validates what it has found, another one puts the other plan before it.
theorem hoisted_safe : ∃ s : CacheSystem Bool Unit Variant,
    s.returned = [⟨(), showing, some .shown⟩] ∧ s.cache.entries.get? () = some [.shown, .hidden] ∧
      CacheSystem.Safe 1 s ∧ CacheSystem.Apart [Variant.shown, .hidden] := by
  let s₀ : CacheSystem Bool Unit Variant := .init 1 (Nat.le_refl 1)
  let s₁ : CacheSystem Bool Unit Variant :=
    { s₀ with cache := s₀.cache.put () .shown, stored := s₀.stored ++ [((), .shown)] }
  let s₂ : CacheSystem Bool Unit Variant :=
    { s₁.setClient true (.validating () showing [.shown]) with cache := (s₁.cache.snapshot ()).fst }
  let s₃ : CacheSystem Bool Unit Variant :=
    { s₂ with cache := s₂.cache.put () .hidden, stored := s₂.stored ++ [((), .hidden)] }
  let s₄ : CacheSystem Bool Unit Variant := s₃.setClient true (.accepted () showing .shown)
  let s₅ : CacheSystem Bool Unit Variant :=
    s₄.ret true (s₄.cache.hoist () .shown) ⟨(), showing, some .shown⟩
  have hp : puts s₀.cache () .shown := ⟨fun _ hm => absurd hm List.not_mem_nil, .nil⟩
  have h₁ : CacheSystem.Reachable puts 1 (Nat.le_refl 1) s₁ :=
    .step .init (.put (i := false) () Variant.shown rfl hp)
  have hb : (s₁.cache.snapshot ()).snd = some [.shown] := by decide +kernel
  have h₂ : CacheSystem.Reachable puts 1 (Nat.le_refl 1) s₂ := .step h₁ (.snapshot showing rfl hb)
  have hp : puts s₂.cache () .hidden := by
    have hs : (s₂.cache.entries.get? ()).getD [] = [.shown] := by decide +kernel
    rw [puts, hs]
    exact ⟨by decide, List.pairwise_singleton _ _⟩
  have h₃ : CacheSystem.Reachable puts 1 (Nat.le_refl 1) s₃ := .step h₂ (.put (i := false) () Variant.hidden rfl hp)
  have h₄ : CacheSystem.Reachable puts 1 (Nat.le_refl 1) s₄ := .step h₃ (.accept rfl rfl)
  have h₅ : CacheSystem.Reachable puts 1 (Nat.le_refl 1) s₅ := .step h₄ (.hoist rfl)
  have hg : s₅.cache.entries.get? () = some [.shown, .hidden] := by decide +kernel
  have hs := CacheSystem.Reachable.safe h₅
  exact ⟨s₅, rfl, hg, hs.left, hs.right (fun _ _ _ h => h) () _ hg⟩

end Skip

namespace Orders

-- The plans for arguments that are ordered dictionaries of the same items, and for a plain one of these items.
inductive Plan
  | ordered (names : List String)
  | plain (names : List String)
  deriving DecidableEq

instance : CachedPlan Plan Unit Plan where
  schema _         := ()
  constraints plan := plan

-- Ordered dictionaries are compared with their order, others without.
def Plan.eq : Plan → Plan → Bool
  | ordered a, ordered b => a = b
  | ordered a, plain b   => a.isPerm b
  | plain a, ordered b   => a.isPerm b
  | plain a, plain b     => a.isPerm b

instance : PyEq Plan where
  eq := Plan.eq

def puts (_ : PlanCache Unit Plan) (_ : Unit) (_ : Plan) : Prop :=
  True

-- The plain dictionary is equal to both of the others, and replaces one of them.
theorem not_apart : ¬∀ s : CacheSystem Unit Unit Plan, CacheSystem.Reachable puts 1 (Nat.le_refl 1) s →
    ∀ key bucket, s.cache.entries.get? key = some bucket → CacheSystem.Apart bucket := by
  intro h
  let s₀ : CacheSystem Unit Unit Plan := .init 1 (Nat.le_refl 1)
  let put (s : CacheSystem Unit Unit Plan) (value : Plan) : CacheSystem Unit Unit Plan :=
    { s with cache := s.cache.put () value, stored := s.stored ++ [((), value)] }
  have hp {s : CacheSystem Unit Unit Plan} (hs : CacheSystem.Reachable puts 1 (Nat.le_refl 1) s)
      (hi : s.clients () = .idle) (value : Plan) :
      CacheSystem.Reachable puts 1 (Nat.le_refl 1) (put s value) :=
    .step hs (.put () value hi trivial)
  have h₃ := hp (hp (hp .init rfl (.ordered ["a", "b"])) rfl (.ordered ["b", "a"])) rfl (.plain ["a", "b"])
  have hb : (put (put (put s₀ (.ordered ["a", "b"])) (.ordered ["b", "a"])) (.plain ["a", "b"])).cache.entries.get? () =
      some [.plain ["a", "b"], .ordered ["a", "b"]] := by
    decide +kernel
  have hv := (List.pairwise_cons.mp (h _ h₃ () _ hb).variants).left _ (.head _)
  exact absurd hv (by decide)

end Orders

end Grafast
