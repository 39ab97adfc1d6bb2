import Grafast.Cache.Variant
import Grafast.Request.Data
import Mathlib.Data.Multiset.ZeroCons

namespace Grafast

open PyEquality PyObject

variable {V K Y : Type} [PyEquality V Y]

variable [DecidableEq Y]

-- Values of one type that are equal to the same values of that type.
def Interchangeable : Option V → Option V → Prop
  | none, none     => True
  | some a, some b => typeOf a = typeOf b ∧ ∀ v, typeOf v = typeOf a → eq v a = eq v b
  | _, _           => False

-- Constraints of one kind that compare with interchangeable values.
def Constraint.Alike : Constraint V → Constraint V → Prop
  | .value _ _ a, .value _ _ b           => Interchangeable a b
  | .equality _ _ a _, .equality _ _ b _ => Interchangeable (some a) (some b)
  | .exists _ _ _, .exists _ _ _         => True
  | .keys _ _ _, .keys _ _ _             => True
  | _, _                                 => False

def Stored.Alike : Stored V K → Stored V K → Prop
  | input a, input b                       => a.Alike b
  | customizer _ _ _, customizer _ _ _     => True
  | _, _                                   => False

theorem valuesEqual_congr {v a b : Option V} (h : Interchangeable a b) : valuesEqual v a = valuesEqual v b := by
  cases a with
  | none   =>
    cases b with
    | none   => rfl
    | some b => cases h
  | some a =>
    cases b with
    | none   => cases h
    | some b =>
      cases v with
      | none   => rfl
      | some v =>
        rw [valuesEqual, valuesEqual, ← h.left]
        by_cases ht : typeOf v = typeOf a
        case pos => rw [h.right v ht]
        case neg => simp [ht]

theorem interchangeable_iff {a b : V} (ha : eq a a = true) :
    Interchangeable (some a) (some b) ↔ ∀ v, valuesEqual (some v) (some a) = valuesEqual (some v) (some b) := by
  constructor
  case mp  => exact fun h v => valuesEqual_congr h
  case mpr =>
    intro h
    have ht : typeOf a = typeOf b := by
      have hv := h a
      simp only [valuesEqual, ha, decide_true, Bool.and_true] at hv
      exact of_decide_eq_true (Bool.and_eq_true_iff.mp hv.symm).left
    refine ⟨ht, fun v hv => ?_⟩
    have hv' : typeOf v = typeOf b := hv.trans ht
    have h := h v
    rwa [valuesEqual, valuesEqual, decide_eq_true hv, decide_eq_true hv', Bool.true_and, Bool.true_and] at h

-- Where equal constraints are alike, they hold for the same requests.
theorem Constraint.holds_congr {facts : RequestFacts V} {c d : Constraint V} (ha : c.Alike d)
    (h : c.tupleEq d = true) : c.holds facts = d.holds facts := by
  cases c with
  | value s p a =>
    cases d with
    | value s' p' b =>
      simp only [tupleEq, Bool.and_eq_true, decide_eq_true_eq] at h
      obtain ⟨⟨rfl, rfl⟩, h⟩ := h
      exact valuesEqual_congr ha
    | _ => cases ha
  | equality s p a passed =>
    cases d with
    | equality s' p' b passed' =>
      simp only [tupleEq, Bool.and_eq_true, decide_eq_true_eq, beq_iff_eq] at h
      obtain ⟨⟨⟨rfl, rfl⟩, h⟩, rfl⟩ := h
      have ha : Interchangeable (some a) (some b) := ha
      simp only [holds, valuesEqual_congr ha]
    | _ => cases ha
  | «exists» s p present =>
    cases d with
    | «exists» s' p' there =>
      simp only [tupleEq, Bool.and_eq_true, decide_eq_true_eq, beq_iff_eq] at h
      obtain ⟨⟨rfl, rfl⟩, rfl⟩ := h
      rfl
    | _ => cases ha
  | keys s p names =>
    cases d with
    | keys s' p' names' =>
      simp only [tupleEq, Bool.and_eq_true, decide_eq_true_eq] at h
      obtain ⟨⟨rfl, rfl⟩, rfl⟩ := h
      rfl
    | _ => cases ha

variable [DecidableEq K] {as bs : List (Stored V K)} {a b : Stored V K} {request : CacheRequest V K}

theorem Stored.holds_congr (ha : a.Alike b) (h : a.tupleEq b = true) : a.holds request = b.holds request := by
  cases a with
  | input c =>
    cases b with
    | input d          => exact Constraint.holds_congr ha h
    | customizer _ _ _ => cases ha
  | customizer f n keys =>
    cases b with
    | input d                => cases ha
    | customizer g m keys' =>
      simp only [tupleEq, Bool.and_eq_true, decide_eq_true_eq] at h
      obtain ⟨⟨rfl, rfl⟩, rfl⟩ := h
      rfl

omit [DecidableEq Y] in
theorem mem_zip_of_constraintsEq (h : constraintsEq as bs = true) :
    (∀ a ∈ as, ∃ b, (a, b) ∈ as.zip bs ∧ a.tupleEq b = true) ∧
      (∀ b ∈ bs, ∃ a, (a, b) ∈ as.zip bs ∧ a.tupleEq b = true) := by
  induction as generalizing bs
  case nil =>
    cases bs with
    | nil       => simp
    | cons b bs => cases h
  case cons a as hi =>
    cases bs with
    | nil       => cases h
    | cons b bs =>
      rw [constraintsEq, Bool.and_eq_true] at h
      obtain ⟨ha, hb⟩ := hi h.right
      simp only [List.forall_mem_cons, List.zip_cons_cons]
      refine ⟨⟨⟨b, .head _, h.left⟩, fun x hx => ?_⟩, ⟨a, .head _, h.left⟩, fun x hx => ?_⟩
      · exact (ha x hx).imp fun _ hz => ⟨.tail _ hz.left, hz.right⟩
      · exact (hb x hx).imp fun _ hz => ⟨.tail _ hz.left, hz.right⟩

-- The constraints at one position of both tuples are alike.
def Alike (as bs : List (Stored V K)) : Prop :=
  ∀ a b, (a, b) ∈ as.zip bs → a.Alike b

omit [DecidableEq K] in
theorem accepts_iff : accepts as request = true ↔ ∀ a ∈ as, a.holds request = true :=
  List.all_eq_true

-- Equal tuples of alike constraints accept the same requests.
theorem accepts_congr (h : constraintsEq as bs = true) (hi : Alike as bs) (request : CacheRequest V K) :
    accepts as request = accepts bs request := by
  obtain ⟨hl, hr⟩ := mem_zip_of_constraintsEq h
  rw [Bool.eq_iff_iff, accepts_iff, accepts_iff]
  constructor
  case mp  =>
    intro ha b hb
    obtain ⟨a, hz, he⟩ := hr b hb
    exact Stored.holds_congr (hi a b hz) he ▸ ha a (List.of_mem_zip hz).left
  case mpr =>
    intro hb a ha
    obtain ⟨b, hz, he⟩ := hl a ha
    exact Stored.holds_congr (hi a b hz) he ▸ hb b (List.of_mem_zip hz).right

section OfVariables

-- A variable with the values that two tuples of constraints have for it.
structure TwoValues (V : Type) where
  name  : String
  left  : V
  right : V

-- Tuples of constraints on different variables, as they are recorded for directives.
structure OfVariables (as bs : List (Stored V K)) (l : List (TwoValues V)) : Prop where
  left     : as = l.map fun e => .input (.value .variables [e.name] (some e.left))
  right    : bs = l.map fun e => .input (.value .variables [e.name] (some e.right))
  names    : (l.map TwoValues.name).Nodup
  observed : ∀ e ∈ l, eq e.left e.left = true

variable {l : List (TwoValues V)} {e : TwoValues V}

-- The request that has the values of the first tuple, apart from one variable.
def requestOf (K : Type) (l : List (TwoValues V)) (name : String) (v : V) : CacheRequest V K where
  facts     := ⟨l.map fun e => (e.name, if e.name = name then v else e.left), pyNone⟩
  freshKeys := fun _ _ => []

omit [DecidableEq Y] [PyEquality V Y] in
theorem lookup_map_name {f : TwoValues V → V} (hn : (l.map TwoValues.name).Nodup) (he : e ∈ l) :
    (l.map fun e => (e.name, f e)).lookup e.name = some (f e) := by
  induction l
  case nil         => cases he
  case cons d l hi =>
    obtain ⟨hd, hn⟩ := List.nodup_cons.mp hn
    obtain rfl | he := List.mem_cons.mp he
    case inl => rw [List.map_cons, List.lookup_cons_self]
    case inr =>
      have hne : (e.name == d.name) = false := beq_false_of_ne fun h => hd (h ▸ List.mem_map_of_mem he)
      rw [List.map_cons, List.lookup_cons, hne]
      exact hi hn he

omit [DecidableEq K] in
theorem holds_requestOf (hn : (l.map TwoValues.name).Nodup) (he : e ∈ l) (name : String) (v w : V) :
    (Stored.input (.value .variables [e.name] (some w)) : Stored V K).holds (requestOf K l name v) =
      valuesEqual (some (if e.name = name then v else e.left)) (some w) := by
  have hv : valueAt ((requestOf K l name v).facts.scopeValue .variables) [e.name] =
      some (if e.name = name then v else e.left) := by
    have hc : ((l.map fun e => (e.name, if e.name = name then v else e.left)).map Prod.fst).contains e.name = true := by
      rw [List.map_map, List.contains_iff_mem]
      exact List.mem_map_of_mem (f := Prod.fst ∘ _) he
    rw [RequestFacts.scopeValue, requestOf, valueAt, keys_ofItems]
    simp only [hc, if_true, getItem_ofItems, lookup_map_name hn he, Option.bind_some, valueAt]
  exact congrArg (valuesEqual · (some w)) hv

omit [DecidableEq K] in
-- The request is accepted by the first tuple as far as the constraint on the variable goes.
theorem accepts_requestOf (ho : OfVariables as bs l) (he : e ∈ l) (v : V) :
    accepts as (requestOf K l e.name v) = valuesEqual (some v) (some e.left) := by
  rw [Bool.eq_iff_iff, accepts_iff, ho.left, List.forall_mem_map]
  constructor
  case mp  =>
    intro h
    have h := h e he
    rwa [holds_requestOf ho.names he, if_pos rfl] at h
  case mpr =>
    intro h d hd
    rw [holds_requestOf ho.names hd]
    split
    case isFalse   => simp [valuesEqual, ho.observed d hd]
    case isTrue hn => exact List.inj_on_of_nodup_map ho.names hd he hn ▸ h

omit [DecidableEq K] in
theorem alike_of_accepts (ho : OfVariables as bs l) (h : ∀ request, accepts as request = accepts bs request) :
    Alike as bs := by
  have hb {d : TwoValues V} (hd : d ∈ l) {e : TwoValues V} (he : e ∈ l) {v : V}
      (hv : valuesEqual (some v) (some e.left) = true) :
      valuesEqual (some (if d.name = e.name then v else d.left)) (some d.right) = true := by
    have ha := accepts_iff.mp ((h _).symm.trans ((accepts_requestOf ho he v).trans hv))
    rw [ho.right, List.forall_mem_map] at ha
    exact holds_requestOf (K := K) ho.names hd e.name v d.right ▸ ha d hd
  have hl {e : TwoValues V} (he : e ∈ l) : valuesEqual (some e.left) (some e.left) = true := by
    simp [valuesEqual, ho.observed e he]
  have hi {e : TwoValues V} (he : e ∈ l) : Interchangeable (some e.left) (some e.right) := by
    refine (interchangeable_iff (ho.observed e he)).mpr fun v => ?_
    rw [← accepts_requestOf ho he v, h, Bool.eq_iff_iff, accepts_iff, ho.right, List.forall_mem_map]
    constructor
    case mp  =>
      intro ha
      have ha := ha e he
      rwa [holds_requestOf ho.names he, if_pos rfl] at ha
    case mpr =>
      intro hv d hd
      rw [holds_requestOf ho.names hd]
      split
      case isTrue hn => exact List.inj_on_of_nodup_map ho.names hd he hn ▸ hv
      case isFalse hn =>
        have hd' := hb hd hd (hl hd)
        rwa [if_pos rfl] at hd'
  intro a b hz
  rw [ho.left, ho.right, List.zip_map', List.mem_map] at hz
  obtain ⟨e, he, hab⟩ := hz
  rw [← (Prod.mk.inj hab).left, ← (Prod.mk.inj hab).right]
  exact hi he

end OfVariables

namespace PlanCache

variable {P S : Type} [DecidableEq P] [CachedPlan P S (List (Stored V K))] [DecidableEq S] {bucket : List P}
  {value x : P}

-- A candidate that is in the bucket before a plan is stored in it, and of which there is one less then.
def Discards (bucket : List P) (value x : P) : Prop :=
  ∃ rest, putBucket bucket value = value :: rest ∧ bucket.Perm (x :: rest)

omit [DecidableEq Y] in
theorem discards_iff : Discards bucket value x ↔ bucket.find? (sameVariant · value) = some x := by
  rw [Discards, putBucket]
  cases hf : bucket.findIdx? (sameVariant · value)
  case none   =>
    have hn : bucket.find? (sameVariant · value) = none := by
      rw [List.find?_eq_none]
      simpa using List.findIdx?_eq_none_iff.mp hf
    rw [hn]
    refine iff_of_false ?_ (by simp)
    rintro ⟨rest, hr, hp⟩
    obtain rfl := List.tail_eq_of_cons_eq hr
    simpa using hp.length_eq
  case some i =>
    obtain ⟨hi, hr, hn⟩ := List.findIdx?_eq_some_iff_getElem.mp hf
    have hx : bucket.find? (sameVariant · value) = some bucket[i] :=
      List.find?_eq_some_iff_getElem.mpr ⟨hr, i, hi, rfl, fun j hj => by simpa using hn j hj⟩
    have hp : bucket.Perm (bucket[i] :: bucket.eraseIdx i) := (List.getElem_cons_eraseIdx_perm hi).symm
    rw [hx, Option.some.injEq]
    constructor
    case mpr => exact fun he => ⟨_, rfl, he ▸ hp⟩
    case mp  =>
      rintro ⟨rest, he, hp'⟩
      obtain rfl := List.tail_eq_of_cons_eq he
      have hm := Multiset.coe_eq_coe.mpr (hp.symm.trans hp')
      rw [← Multiset.cons_coe, ← Multiset.cons_coe] at hm
      exact (Multiset.cons_inj_left _).mp hm

-- A candidate is only discarded for one that accepts the same requests.
def KeepsVariants (bucket : List P) (value : P) : Prop :=
  ∀ x, Discards bucket value x → ∀ request : CacheRequest V K,
    accepts (CachedPlan.constraints x) request = accepts (CachedPlan.constraints value) request

-- This is so where the first candidate with equal constraints has alike ones, and of constraints on different variables
-- only there.
theorem keepsVariants (bucket : List P) (value : P) :
    ((∀ x, bucket.find? (sameVariant · value) = some x →
        Alike (CachedPlan.constraints x) (CachedPlan.constraints value)) → KeepsVariants bucket value) ∧
    ∀ x l, bucket.find? (sameVariant · value) = some x →
      OfVariables (CachedPlan.constraints x) (CachedPlan.constraints value) l →
        (KeepsVariants bucket value ↔ Alike (CachedPlan.constraints x) (CachedPlan.constraints value)) := by
  have hk (h : ∀ x, bucket.find? (sameVariant · value) = some x →
      Alike (CachedPlan.constraints x) (CachedPlan.constraints value)) : KeepsVariants bucket value := by
    intro x hx request
    have hf := discards_iff.mp hx
    have hs : sameVariant x value = true := List.find?_some (p := (sameVariant · value)) hf
    rw [sameVariant, Bool.and_eq_true, Bool.or_eq_true] at hs
    obtain ⟨_, he | he⟩ := hs
    · rw [of_decide_eq_true he]
    · exact accepts_congr he (h x hf) request
  refine ⟨hk, fun x l hx ho => ?_⟩
  constructor
  case mp  => exact fun h => alike_of_accepts ho (h x (discards_iff.mpr hx))
  case mpr => exact fun h => hk fun x' hx' => Option.some.inj (hx.symm.trans hx') ▸ h

end PlanCache

namespace PyData

def same : PyData → PyData → Bool
  | .none, .none       => true
  | .bool b, .bool b'  => b == b'
  | .str s, .str s'    => s == s'
  | _, _               => false

theorem eq_of_same (a b : PyData) (h : same a b = true) : a = b := by
  cases a <;> cases b <;> simp_all [same]

-- None of the objects is a tuple.
instance : PyEquality PyData String where
  ofBool      := .bool
  identical   := same
  eqNames _ _ := false
  eq_of_is    := eq_of_same

end PyData

namespace Flags

-- Plans of one schema, for requests with a flag that is true and with one that is 1.
inductive Plan
  | forTrue
  | forOne
  deriving DecidableEq

def Plan.flag : Plan → PyData
  | forTrue => .bool true
  | forOne  => .int 1

instance : CachedPlan Plan Unit (List (Stored PyData Empty)) where
  schema _         := ()
  constraints plan := [.input (.value .context [] (some plan.flag))]

def asking (flag : PyData) : CacheRequest PyData Empty where
  facts     := ⟨[], flag⟩
  freshKeys := Empty.elim

-- The plan for a flag that is true is discarded for the plan for a flag that is one.
theorem true_discarded : ¬PlanCache.KeepsVariants [Plan.forTrue] Plan.forOne := by
  intro h
  have hd : PlanCache.Discards [Plan.forTrue] Plan.forOne .forTrue :=
    PlanCache.discards_iff.mpr <| List.find?_cons_of_pos (by decide +kernel)
  exact absurd (h _ hd (asking (.bool true))) (by decide +kernel)

-- Plans that are planned for a value of one variable.
structure Guarded where
  planned : Plan
  deriving DecidableEq

instance : CachedPlan Guarded Unit (List (Stored PyData Empty)) where
  schema _         := ()
  constraints plan := [.input (.value .variables ["published"] (some plan.planned.flag))]

-- A plan for a variable that is true gives way to another plan for it, and to the plan for one, which is another variant.
theorem published_kept :
    PlanCache.KeepsVariants [Guarded.mk .forTrue] ⟨.forTrue⟩ ∧
      ¬PlanCache.KeepsVariants [Guarded.mk .forTrue] ⟨.forOne⟩ := by
  have found (value : Guarded) (h : PlanCache.sameVariant (Guarded.mk .forTrue) value = true) :
      [Guarded.mk .forTrue].find? (PlanCache.sameVariant · value) = some ⟨.forTrue⟩ :=
    List.find?_cons_of_pos h
  constructor
  · refine (PlanCache.keepsVariants _ _).left fun x hx => ?_
    obtain rfl := Option.some.inj ((found ⟨.forTrue⟩ (by decide +kernel)).symm.trans hx)
    intro a b hab
    obtain ⟨rfl, rfl⟩ := Prod.mk.inj (List.mem_singleton.mp hab)
    exact ⟨rfl, fun _ _ => rfl⟩
  · have ofVariables : OfVariables (K := Empty) (CachedPlan.constraints (Guarded.mk .forTrue))
        (CachedPlan.constraints (Guarded.mk .forOne)) [⟨"published", .bool true, .int 1⟩] :=
      ⟨rfl, rfl, List.nodup_singleton _, by decide +kernel⟩
    rw [(PlanCache.keepsVariants _ _).right _ _ (found ⟨.forOne⟩ (by decide +kernel)) ofVariables]
    intro h
    exact absurd (h _ _ (List.mem_singleton.mpr rfl)).left (by decide +kernel)

end Flags

end Grafast
