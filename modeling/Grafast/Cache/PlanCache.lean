import Grafast.Cache.OrderedDict

namespace Grafast

-- What the cache knows of its candidates, which it tells apart by identity.
class CachedPlan (P : Type) (S C : outParam Type) where
  schema      : P → S
  constraints : P → C

-- The `==` of Python on what the candidates carry. Nothing is known of it; in particular it need not be transitive.
class PyEq (C : Type) where
  eq : C → C → Bool

def maxVariantsPerKey : Nat := 8

-- The buckets by their keys, with the most recently used bucket last and the most recently validated
-- candidate of a bucket first.
structure PlanCache (Key P : Type) where
  maxEntries : Nat
  pos        : 1 ≤ maxEntries
  entries    : OrderedDict Key (List P)
  hits       : Nat
  misses     : Nat
  evictions  : Nat

namespace PlanCache

variable {Key P S C : Type}

def init (maxEntries : Nat) (h : 1 ≤ maxEntries) : PlanCache Key P :=
  ⟨maxEntries, h, .empty, 0, 0, 0⟩

def clear (c : PlanCache Key P) : PlanCache Key P :=
  { c with entries := .empty }

-- Evicts the least recently used buckets until the bound holds.
def evict (c : PlanCache Key P) : PlanCache Key P :=
  if c.maxEntries < c.entries.length then
    evict { c with entries := c.entries.popFirst, evictions := c.evictions + 1 }
  else
    c
termination_by c.entries.length
decreasing_by simp only [OrderedDict.length_popFirst]; omega

section

variable [DecidableEq Key]

-- The first critical section of `get`: the candidates are copied from the bucket.
def snapshot (c : PlanCache Key P) (key : Key) : PlanCache Key P × Option (List P) :=
  match c.entries.get? key with
  | none        => ({ c with misses := c.misses + 1 }, none)
  | some bucket => ({ c with entries := c.entries.moveToEnd key }, some bucket)

-- The critical section of `get` after all candidates have been rejected.
def miss (c : PlanCache Key P) : PlanCache Key P :=
  { c with misses := c.misses + 1 }

variable [DecidableEq P]

def hoistBucket (bucket : List P) (candidate : P) : List P :=
  match bucket.findIdx? (· = candidate) with
  | none           => bucket
  | some 0         => bucket
  | some (i + 1)   => candidate :: bucket.eraseIdx (i + 1)

-- The critical section of `get` after a candidate has been accepted.
def hoist (c : PlanCache Key P) (key : Key) (candidate : P) : PlanCache Key P :=
  let entries :=
    match c.entries.get? key with
    | none        => c.entries
    | some bucket => c.entries.set key (hoistBucket bucket candidate)
  { c with entries, hits := c.hits + 1 }

end

section

variable [CachedPlan P S C] [DecidableEq S] [PyEq C] [DecidableEq P]

-- The constraints of a candidate are a tuple, which is equal to itself whatever its elements say.
def sameVariant (current value : P) : Bool :=
  CachedPlan.schema current = CachedPlan.schema value &&
    (current = value || PyEq.eq (CachedPlan.constraints current) (CachedPlan.constraints value))

-- The first candidate of the same variant is replaced.
def putBucket (bucket : List P) (value : P) : List P :=
  match bucket.findIdx? (sameVariant · value) with
  | none   => value :: bucket
  | some i => value :: bucket.eraseIdx i

variable [DecidableEq Key]

def put (c : PlanCache Key P) (key : Key) (value : P) : PlanCache Key P :=
  let bucket := putBucket ((c.entries.get? key).getD []) value
  let entries := (c.entries.set key (bucket.take maxVariantsPerKey)).moveToEnd key
  let droppedTail := maxVariantsPerKey < bucket.length
  evict { c with entries, evictions := if droppedTail then c.evictions + 1 else c.evictions }

-- At most one candidate of the bucket is of the variant of the new one, whichever of the two is asked.
structure Separates (bucket : List P) (value : P) : Prop where
  symm   : ∀ x ∈ bucket, sameVariant value x = true → sameVariant x value = true
  unique : bucket.Pairwise fun a b => ¬(sameVariant a value = true ∧ sameVariant b value = true)

end

end PlanCache

-- How a predicate of the host answers.
inductive Verdict
  | accepts
  | rejects
  | raises
  deriving DecidableEq

-- Without a predicate, every candidate is accepted.
def verdict {P : Type} (validate : Option (P → Verdict)) (candidate : P) : Verdict :=
  validate.elim .accepts (· candidate)

-- What is left of a client's call: candidates of a snapshot to validate, or an accepted one to hoist.
inductive Client (Key P : Type)
  | idle
  | validating (key : Key) (validate : Option (P → Verdict)) (candidates : List P)
  | accepted (key : Key) (validate : Option (P → Verdict)) (candidate : P)

-- A `get` that has returned.
structure Returned (Key P : Type) where
  key       : Key
  validate  : Option (P → Verdict)
  candidate : Option P

-- A cache and its clients, with a record of what has been put and of the gets that have returned.
structure CacheSystem (I Key P : Type) where
  cache    : PlanCache Key P
  clients  : I → Client Key P
  stored   : List (Key × P)
  returned : List (Returned Key P)

namespace CacheSystem

variable {I Key P S C : Type}

def init (maxEntries : Nat) (h : 1 ≤ maxEntries) : CacheSystem I Key P :=
  ⟨.init maxEntries h, fun _ => .idle, [], []⟩

section

variable [DecidableEq I]

def setClient (s : CacheSystem I Key P) (i : I) (client : Client Key P) : CacheSystem I Key P :=
  { s with clients := Function.update s.clients i client }

-- The end of a `get`.
def ret (s : CacheSystem I Key P) (i : I) (cache : PlanCache Key P) (r : Returned Key P) :
    CacheSystem I Key P where
  cache    := cache
  clients  := Function.update s.clients i .idle
  stored   := s.stored
  returned := s.returned ++ [r]

end

variable [DecidableEq I] [DecidableEq Key] [DecidableEq P] [CachedPlan P S C] [DecidableEq S] [PyEq C]

-- The steps of the clients, of which `puts` says what they put into which cache. Each critical section is one step,
-- and so is each call of a predicate.
inductive Step (puts : PlanCache Key P → Key → P → Prop) (s : CacheSystem I Key P) : CacheSystem I Key P → Prop
  | absent {i : I} {key : Key} (validate : Option (P → Verdict)) :
    s.clients i = .idle → (s.cache.snapshot key).snd = none →
      Step puts s (s.ret i (s.cache.snapshot key).fst ⟨key, validate, none⟩)
  | snapshot {i : I} {key : Key} {candidates : List P} (validate : Option (P → Verdict)) :
    s.clients i = .idle → (s.cache.snapshot key).snd = some candidates →
      Step puts s { s.setClient i (.validating key validate candidates) with
        cache := (s.cache.snapshot key).fst }
  | reject {i : I} {key : Key} {validate : Option (P → Verdict)} {candidate : P} {rest : List P} :
    s.clients i = .validating key validate (candidate :: rest) →
      verdict validate candidate = .rejects → Step puts s (s.setClient i (.validating key validate rest))
  | accept {i : I} {key : Key} {validate : Option (P → Verdict)} {candidate : P} {rest : List P} :
    s.clients i = .validating key validate (candidate :: rest) →
      verdict validate candidate = .accepts → Step puts s (s.setClient i (.accepted key validate candidate))
  | raise {i : I} {key : Key} {validate : Option (P → Verdict)} {candidate : P} {rest : List P} :
    s.clients i = .validating key validate (candidate :: rest) →
      verdict validate candidate = .raises → Step puts s (s.setClient i .idle)
  | hoist {i : I} {key : Key} {validate : Option (P → Verdict)} {candidate : P} :
    s.clients i = .accepted key validate candidate →
      Step puts s (s.ret i (s.cache.hoist key candidate) ⟨key, validate, some candidate⟩)
  | miss {i : I} {key : Key} {validate : Option (P → Verdict)} :
    s.clients i = .validating key validate [] → Step puts s (s.ret i s.cache.miss ⟨key, validate, none⟩)
  | put {i : I} (key : Key) (value : P) :
    s.clients i = .idle → puts s.cache key value →
      Step puts s { s with cache := s.cache.put key value, stored := s.stored ++ [(key, value)] }
  | clear {i : I} : s.clients i = .idle → Step puts s { s with cache := s.cache.clear }

inductive Reachable (puts : PlanCache Key P → Key → P → Prop) (maxEntries : Nat) (h : 1 ≤ maxEntries) :
    CacheSystem I Key P → Prop
  | init : Reachable puts maxEntries h (init maxEntries h)
  | step {s t : CacheSystem I Key P} :
    Reachable puts maxEntries h s → Step puts s t → Reachable puts maxEntries h t

-- A bucket without duplicates.
structure Apart (bucket : List P) : Prop where
  nodup    : bucket.Nodup
  variants : bucket.Pairwise fun a b => PlanCache.sameVariant a b = false ∧ PlanCache.sameVariant b a = false

-- Two caches with the same keys, and with the same candidates in the buckets, though in any order.
def SameCandidates (c d : PlanCache Key P) : Prop :=
  ∀ key, Option.Rel List.Perm (c.entries.get? key) (d.entries.get? key)

-- The bounds of the cache and of its buckets, and what the gets of the clients give.
structure Safe (maxEntries : Nat) (s : CacheSystem I Key P) : Prop where
  buckets  : s.cache.entries.length ≤ maxEntries
  variants : ∀ key bucket, s.cache.entries.get? key = some bucket → bucket.length ≤ maxVariantsPerKey
  returned : ∀ r ∈ s.returned, ∀ candidate, r.candidate = some candidate →
    verdict r.validate candidate = .accepts ∧ (r.key, candidate) ∈ s.stored
  hoist    : ∀ i key validate candidate, s.clients i = .accepted key validate candidate →
    SameCandidates (s.cache.hoist key candidate) s.cache
  counted  : s.cache.hits + s.cache.misses = s.returned.length

end CacheSystem

end Grafast
