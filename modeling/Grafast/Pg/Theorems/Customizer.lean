import Grafast.Pg.Customizer
import Grafast.Pg.Theorems.Transform
import Mathlib.Data.List.Forall2

namespace Grafast

variable {V T C : Type}

section Pieces

variable [SqlLiterals V T] {p q : Predicate V T} {run : Interpreter V} {request : PgRequest V C}

open SqlLiterals

-- The text of a part with the placeholder in its place.
def PredicatePart.pieces : PredicatePart V T → List (Char ⊕ PgPlaceholder V T)
  | sql text             => chars text
  | literal _ value type => chars ((inline value type).getD "")
  | placeholder bind     => [.inr bind]

def tokenPiece : Char ⊕ PgPlaceholder V T → Char ⊕ SentinelToken :=
  Sum.map id fun bind => bind.token

def boundPiece (run : Interpreter V) (request : PgRequest V C) :
    Char ⊕ PgPlaceholder V T → Char ⊕ Except V V × T :=
  Sum.map id fun bind => (bind.value run request, bind.type)

theorem PredicatePart.sentinelled_eq (part : PredicatePart V T) :
    part.sentinelled = part.pieces.map tokenPiece := by
  cases part <;> simp [sentinelled, pieces, chars, tokenPiece]

theorem PredicatePart.placeholder?_eq (part : PredicatePart V T) :
    part.placeholder?.toList = part.pieces.filterMap Sum.getRight? := by
  cases part <;> simp [placeholder?, pieces, chars]

theorem PredicatePart.bound_eq {part : PredicatePart V T} (h : part.renders = true) :
    part.bound run request = part.pieces.map (boundPiece run request) := by
  cases part with
  | sql text                 => simp [bound, pieces, chars, boundPiece]
  | placeholder bind         => simp [bound, pieces, boundPiece]
  | literal name value type  =>
    obtain ⟨text, ht⟩ := Option.isSome_iff_exists.mp h
    simp [bound, pieces, chars, boundPiece, ht]

namespace Predicate

def pieces (p : Predicate V T) : List (Char ⊕ PgPlaceholder V T) :=
  p.flatMap PredicatePart.pieces

theorem placeholders_eq : p.placeholders = p.pieces.filterMap Sum.getRight? := by
  rw [placeholders, pieces, List.filterMap_flatMap, List.filterMap_eq_flatMap_toList]
  exact List.flatMap_congr fun part _ => part.placeholder?_eq

theorem bound_eq (h : p.all PredicatePart.renders = true) :
    p.bound run request = p.pieces.map (boundPiece run request) := by
  rw [bound, pieces, List.map_flatMap]
  exact List.flatMap_congr fun part hm => PredicatePart.bound_eq (List.all_eq_true.mp h part hm)

-- A predicate without literals has a text.
theorem renders_of_not_bakesLiteral (h : p.bakesLiteral = false) : p.all PredicatePart.renders = true := by
  rw [List.all_eq_true]
  intro part hp
  have hl := List.any_eq_false.mp h part hp
  cases part with
  | literal name value type => exact absurd rfl hl
  | _                       => rfl

-- Predicates with one key have the same text around placeholders with the same tokens.
theorem key_eq (hp : p.all PredicatePart.renders = true) (h : p.key = q.key) :
    q.all PredicatePart.renders = true ∧ p.pieces.map tokenPiece = q.pieces.map tokenPiece := by
  have hs (p : Predicate V T) : p.flatMap PredicatePart.sentinelled = p.pieces.map tokenPiece := by
    rw [pieces, List.map_flatMap]
    exact List.flatMap_congr fun part _ => part.sentinelled_eq
  rw [key, key, if_pos hp] at h
  by_cases hq : q.all PredicatePart.renders = true
  case pos =>
    rw [if_pos hq, hs, hs] at h
    exact ⟨hq, (PredicateKey.rendered.inj h).left⟩
  case neg =>
    rw [if_neg hq] at h
    cases h

end Predicate

-- Placeholders that bind the same value of the same type.
structure PgPlaceholder.BindsLike (run : Interpreter V) (request : PgRequest V C)
    (a b : PgPlaceholder V T) : Prop where
  type        : a.type = b.type
  transformed : ∀ value, a.resolve request = .ok value → a.transformed run value = b.transformed run value

theorem PgPlaceholder.bindsLike_iff (run : Interpreter V) (request : PgRequest V C)
    {a b : PgPlaceholder V T} (h : a.token = b.token) :
    (a.value run request, a.type) = (b.value run request, b.type) ↔ a.BindsLike run request b := by
  have hr : a.resolve request = b.resolve request := by
    rw [resolve, resolve, (SentinelToken.mk.inj h).left]
  have hv : a.value run request = b.value run request ↔
      ∀ value, a.resolve request = .ok value → a.transformed run value = b.transformed run value := by
    rw [value, value, ← hr]
    cases a.resolve request with
    | error error => simp [bind, Except.bind]
    | ok value    => simp [bind, Except.bind]
  rw [Prod.mk.injEq, hv]
  exact ⟨fun h => ⟨h.right, h.left⟩, fun h => ⟨h.transformed, h.type⟩⟩

theorem tokens_eq (l : List (Char ⊕ PgPlaceholder V T)) :
    (l.map tokenPiece).filterMap Sum.getRight? = (l.filterMap Sum.getRight?).map (·.token) := by
  rw [List.filterMap_map, List.map_filterMap]
  congr
  funext piece
  cases piece <;> rfl

theorem map_boundPiece_iff {l m : List (Char ⊕ PgPlaceholder V T)} (h : l.map tokenPiece = m.map tokenPiece) :
    l.map (boundPiece run request) = m.map (boundPiece run request) ↔
      ∀ pair ∈ (l.filterMap Sum.getRight?).zip (m.filterMap Sum.getRight?),
        pair.fst.BindsLike run request pair.snd := by
  induction l generalizing m
  case nil =>
    obtain rfl : m = [] := List.map_eq_nil_iff.mp h.symm
    simp
  case cons a l hi =>
    cases m with
    | nil      => cases h
    | cons b m =>
      obtain ⟨hab, h⟩ := List.cons.inj h
      have hi := hi h
      rw [List.map_cons, List.map_cons, List.cons.injEq, hi]
      cases a with
      | inl c =>
        cases b with
        | inr b => cases hab
        | inl d =>
          obtain rfl : c = d := Sum.inl.inj hab
          rw [List.filterMap_cons_none rfl, List.filterMap_cons_none rfl]
          exact and_iff_right rfl
      | inr a =>
        cases b with
        | inl d => cases hab
        | inr b =>
          have hb := PgPlaceholder.bindsLike_iff run request (Sum.inr.inj hab)
          rw [List.filterMap_cons_some (f := Sum.getRight?) (b := a) rfl,
            List.filterMap_cons_some (f := Sum.getRight?) (b := b) rfl,
            List.zip_cons_cons, List.forall_mem_cons]
          exact and_congr_left' ((Iff.of_eq (Sum.inr.injEq _ _)).trans hb)

variable {ps qs : List (Predicate V T)}

-- Lists of predicates with the same keys bind the same if and only if their placeholders do, one by one.
theorem map_bound_iff (hp : ∀ p ∈ ps, p.bakesLiteral = false) (h : ps.map Predicate.key = qs.map Predicate.key) :
    ps.map (·.bound run request) = qs.map (·.bound run request) ↔
      ∀ pair ∈ (ps.flatMap (·.placeholders)).zip (qs.flatMap (·.placeholders)),
        pair.fst.BindsLike run request pair.snd := by
  induction ps generalizing qs
  case nil =>
    obtain rfl : qs = [] := List.map_eq_nil_iff.mp h.symm
    simp
  case cons p ps hi =>
    cases qs with
    | nil       => cases h
    | cons q qs =>
      obtain ⟨hk, h⟩ := List.cons.inj h
      obtain ⟨hp, hps⟩ := List.forall_mem_cons.mp hp
      have hr := Predicate.renders_of_not_bakesLiteral hp
      obtain ⟨hq, ht⟩ := Predicate.key_eq hr hk
      have hl : p.placeholders.length = q.placeholders.length := by
        have ht := congrArg (·.filterMap Sum.getRight?) ht
        simp only [tokens_eq, ← Predicate.placeholders_eq] at ht
        simpa using congrArg List.length ht
      rw [List.map_cons, List.map_cons, List.cons.injEq, hi hps h, Predicate.bound_eq hr, Predicate.bound_eq hq,
        map_boundPiece_iff ht, List.flatMap_cons, List.flatMap_cons, List.zip_append hl, List.forall_mem_append,
        Predicate.placeholders_eq, Predicate.placeholders_eq]

end Pieces

namespace PgCustomizable

variable [SqlLiterals V T] {customizer : SelectCustomizer V T C} {context : C} {step : PgCustomizable V T C}

-- A step that a customizer has seeded and a plan has added predicates to.
def customized (customizer : SelectCustomizer V T C) (context : C) (more : List (Predicate V T)) :
    PgCustomizable V T C :=
  more.foldl addWhere (seedResourceCustomization customizer context)

omit [SqlLiterals V T] in
theorem customized_eq (more : List (Predicate V T)) :
    customized customizer context more =
      { seedResourceCustomization customizer context with
        wherePredicates := resolveCustomizerPredicates customizer context ++ more } := by
  have hf (step : PgCustomizable V T C) :
      more.foldl addWhere step = { step with wherePredicates := step.wherePredicates ++ more } := by
    induction more generalizing step
    case nil               => simp
    case cons predicate more hi => simp [hi, addWhere]
  exact hf _

-- What a request accepts: the step itself, or the constraint that is stored for it.
def Accepts (step : PgCustomizable V T C) (context : C) : Prop :=
  step.CustomizerStructureMatches context ∨ step.customizerConstraint.Matches context

theorem accepts_iff : step.Accepts context ↔ step.CustomizerStructureMatches context :=
  or_self_iff

-- A step that has been cached filters, where a request accepts it, by what the customizer gives for that
-- request if and only if the placeholders of the two lists, one by one, bind the same: they have one type,
-- and their transforms agree on what the request has at their source.
theorem conditions_eq_iff (run : Interpreter V) (customizer : SelectCustomizer V T C) (context : C)
    (more : List (Predicate V T)) (request : PgRequest V C)
    (hc : (customized customizer context more).customizerBakesLiteral = false)
    (ha : (customized customizer context more).Accepts request.context) (statement : CustomizedStatement) :
    (customized customizer context more).conditions run request statement =
        (customized customizer request.context more).conditions run request statement ↔
      ∀ pair ∈ ((resolveCustomizerPredicates customizer context).flatMap (·.placeholders)).zip
          ((resolveCustomizerPredicates customizer request.context).flatMap (·.placeholders)),
        pair.fst.BindsLike run request pair.snd := by
  rw [customized_eq] at hc ha ⊢
  rw [customized_eq]
  have hc : ∀ p ∈ resolveCustomizerPredicates customizer context, p.bakesLiteral = false := by
    simpa [seedResourceCustomization] using hc
  have hk : (resolveCustomizerPredicates customizer context).map Predicate.key =
      (resolveCustomizerPredicates customizer request.context).map Predicate.key := by
    have hm := accepts_iff.mp ha
    rw [CustomizerStructureMatches, customizerKeys] at hm
    simpa [seedResourceCustomization] using hm.symm
  rw [← map_bound_iff hc hk]
  cases statement <;> simp [conditions]

end PgCustomizable

namespace Tenants

instance : PyRepr Nat where
  repr            := toString
  reprStr text    := "'" ++ text ++ "'"
  reprBytes bytes := "b'" ++ String.join (bytes.map fun b => "." ++ b.toNat.repr) ++ "'"

instance : SqlLiterals Nat Unit where
  inline value _ := some (toString value)

-- The method of a scope that shifts a tenant by the offset of the scope.
def shift : PyFunction Nat where
  code       := ⟨[151, 0, 124, 0, 124, 1, 122, 0, 83, 0], [], [], []⟩
  globals    := []
  defaults   := none
  kwdefaults := none
  closure    := []

def run : Interpreter Nat
  | .function _, ⟨[offset, tenant], []⟩ => .ok (offset + tenant)
  | _, _                                => .error 0

-- A request with the tenant and the scope of a user.
def request (tenant offset : Nat) : PgRequest Nat (Nat × Nat) where
  context        := (tenant, offset)
  entry key      := if key = "tenant_id" then .ok tenant else .error 0
  sourceValues _ := 0

def byTenant : SelectCustomizer Nat Unit (Nat × Nat) :=
  .two fun _ placeholder => [[.sql "tenant_id = ", placeholder "tenant_id" () none]]

def byScope : SelectCustomizer Nat Unit (Nat × Nat) :=
  .two fun context placeholder =>
    [[.sql "tenant_id = ", placeholder "tenant_id" () (some (.method context.snd shift))]]

open PgCustomizable

-- The second tenant is filtered by its own id.
theorem byTenant_conditions :
    (customized byTenant (1, 0) []).conditions run (request 2 0) .rows =
      (customized byTenant (2, 0) []).conditions run (request 2 0) .rows :=
  (conditions_eq_iff run byTenant (1, 0) [] (request 2 0) (by decide) (.inl (by decide +kernel)) .rows).mpr
    fun pair hp => by
      obtain rfl := List.mem_singleton.mp hp
      exact ⟨rfl, fun _ _ => rfl⟩

-- The second user is accepted, but filtered by the scope of the first one.
theorem byScope_conditions :
    (customized byScope (1, 1000) []).Accepts (request 1 2000).context ∧
      (customized byScope (1, 1000) []).customizerBakesLiteral = false ∧
      (customized byScope (1, 1000) []).conditions run (request 1 2000) .rows ≠
        (customized byScope (1, 2000) []).conditions run (request 1 2000) .rows := by
  refine ⟨.inl ?_, ?_, ?_⟩ <;> decide +kernel

end Tenants

end Grafast
