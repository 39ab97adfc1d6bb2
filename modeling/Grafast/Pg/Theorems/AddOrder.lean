import Grafast.Pg.Theorems.Connection
import Grafast.Pg.SelectAll
import Grafast.Pg.Select
import Mathlib.Logic.Nontrivial.Basic

namespace Grafast

open Sql

variable {C V : Type}

-- Rows that a primary key tells apart.
def Keyed (primaryKey : C) (rows : List (C → Option V)) : Prop :=
  (rows.map (· primaryKey)).Nodup ∧ ∀ row ∈ rows, (row primaryKey).isSome = true

-- Two orders that allow the same arrangements of every set of rows.
def SortAlike (V : Type) [LinearOrder V] (primaryKey : C) (stored wanted : List (OrderTerm C)) : Prop :=
  ∀ rows : List (C → Option V), Keyed primaryKey rows →
    (rows.Pairwise (ordered (orderClauses stored) · · = true) ↔
      rows.Pairwise (ordered (orderClauses wanted) · · = true))

-- An order to which no primary key has to be added.
def Complete (primaryKey : C) (orderIsUnique : Bool) (terms : List (OrderTerm C)) : Prop :=
  terms ≠ [] ∧ (orderIsUnique = true ∨ ∃ t ∈ terms, t.column = primaryKey)

-- The terms that are added, with the primary key behind them where the order is not declared to be
-- unique, come to the ascending primary key before they come to a column that is new.
def ReachesKey (primaryKey : C) (orderIsUnique : Bool) (initial added : List (OrderTerm C)) : Prop :=
  ∃ known term rest,
    (added ++ if orderIsUnique then [] else [.ascending primaryKey]) = known ++ term :: rest ∧
      (∀ t ∈ known, t.column ∈ initial.map (·.column)) ∧
        term.column = primaryKey ∧ term.descending = false

-- Terms can only be added behind a primary key that the host has not asked for where they do not decide
-- anything before it does.
def TakeEffect (primaryKey : C) (orderIsUnique : Bool) (initial added : List (OrderTerm C)) : Prop :=
  added = [] ∨ Complete primaryKey orderIsUnique initial ∨
    ReachesKey primaryKey orderIsUnique initial added

section Orders

variable [LinearOrder V] {primaryKey : C} {stored wanted terms : List (OrderTerm C)}
variable {r s : C → Option V}

-- It is enough to look at the rows in pairs.
theorem sortAlike_iff : SortAlike V primaryKey stored wanted ↔
    ∀ r s : C → Option V, (r primaryKey).isSome = true → (s primaryKey).isSome = true →
      r primaryKey ≠ s primaryKey →
        before (orderClauses stored) r s = before (orderClauses wanted) r s := by
  constructor
  case mp  =>
    intro h r s hr hs hn
    have hk : Keyed primaryKey [s, r] := by simp [Keyed, hr, hs, Ne.symm hn]
    simpa [ordered] using h _ hk
  case mpr =>
    intro h rows hk
    refine List.Pairwise.iff_of_mem fun {r s} hr hs => ?_
    by_cases he : s primaryKey = r primaryKey
    case pos =>
      have he := List.inj_on_of_nodup_map hk.left hs hr he
      simp [he, ordered, before_irrefl]
    case neg => rw [ordered, ordered, h s r (hk.right s hs) (hk.right r hr) he]

-- Behind its primary key, an order does not matter.
theorem before_primaryKey {term : OrderTerm C} (rest : List (OrderTerm C))
    (hn : r term.column ≠ s term.column) :
    before (orderClauses (terms ++ term :: rest)) r s = before (orderClauses (terms ++ [term])) r s := by
  rw [← List.singleton_append, ← List.append_assoc, orderClauses_append]
  refine before_append_of_ne ⟨term.clause, ?_, hn⟩
  exact List.mem_map_of_mem (List.mem_append_right terms (List.mem_singleton_self term))

variable {initial later : List (OrderTerm C)}

theorem before_append_known {known : List (OrderTerm C)} (hk : ∀ t ∈ known, r t.column = s t.column) :
    before (orderClauses (known ++ terms)) r s = before (orderClauses terms) r s := by
  rw [orderClauses_append]
  exact before_append_of_eq <| (forall_mem_orderClauses (p := fun c => r c = s c)).mpr hk

-- Terms on columns that the order has already do not matter.
theorem before_known {known : List (OrderTerm C)}
    (hk : ∀ t ∈ known, t.column ∈ initial.map (·.column)) :
    before (orderClauses (initial ++ known ++ terms)) r s =
      before (orderClauses (initial ++ terms)) r s := by
  have hk (he : ∀ t ∈ initial, r t.column = s t.column) (t) (ht : t ∈ known) :
      r t.column = s t.column := by
    obtain ⟨t', ht', hc⟩ := List.mem_map.mp (hk t ht)
    exact hc ▸ he t' ht'
  by_cases he : ∀ t ∈ initial, r t.column = s t.column
  case pos => rw [List.append_assoc, before_append_known he, before_append_known he,
    before_append_known (hk he)]
  case neg =>
    have he : ∃ k ∈ orderClauses initial, r k.column ≠ s k.column := by
      simpa [orderClauses, OrderTerm.clause] using he
    rw [List.append_assoc, orderClauses_append, before_append_of_ne he]
    rw [orderClauses_append, before_append_of_ne he]

theorem before_clause {term : OrderTerm C} :
    before (orderClauses [term]) r s = term.clause.precedes (r term.column) (s term.column) := by
  simp [orderClauses, before, OrderTerm.clause]

-- Rows with primary keys are told apart alike by all ascending terms on them.
theorem precedes_ascending {term : OrderTerm C} (hc : term.column = primaryKey)
    (hd : term.descending = false) (hr : (r primaryKey).isSome = true)
    (hs : (s primaryKey).isSome = true) :
    before (orderClauses [.ascending primaryKey]) r s = before (orderClauses [term]) r s := by
  obtain ⟨a, ha⟩ := Option.isSome_iff_exists.mp hr
  obtain ⟨b, hb⟩ := Option.isSome_iff_exists.mp hs
  simp [before_clause, OrderTerm.ascending, hc, ha, hb, SortKey.precedes, OrderTerm.clause, hd]

variable [DecidableEq C]

-- A row with a value in one column and in its primary key.
def twoValues (primaryKey column : C) (key value : V) (c : C) : Option V :=
  if c = primaryKey then some key else if c = column then some value else none

-- Under a term other than an ascending primary key, two rows can come the other way around than under
-- their primary keys.
theorem exists_contrary [Nontrivial V] {term : OrderTerm C}
    (h : ¬(term.column = primaryKey ∧ term.descending = false)) :
    ∃ r s : C → Option V, (r primaryKey).isSome = true ∧ (s primaryKey).isSome = true ∧
      (∀ c, c ≠ primaryKey → c ≠ term.column → r c = s c) ∧
        before (orderClauses [.ascending primaryKey]) r s = true ∧
          before (orderClauses [term]) s r = true := by
  obtain ⟨a, b, hab⟩ := exists_pair_lt V
  simp only [before_clause, SortKey.precedes]
  cases hd : term.descending
  case false =>
    have hc : term.column ≠ primaryKey := fun hc => h ⟨hc, hd⟩
    refine ⟨twoValues primaryKey term.column a b, twoValues primaryKey term.column b a, ?_⟩
    simp +contextual [twoValues, hc, OrderTerm.ascending, OrderTerm.clause, hd, hab]
  case true =>
    refine ⟨twoValues primaryKey term.column a a, twoValues primaryKey term.column b b, ?_⟩
    by_cases hc : term.column = primaryKey <;>
      simp +contextual [twoValues, hc, OrderTerm.ascending, OrderTerm.clause, hd, hab]

theorem exists_first_new (initial later : List (OrderTerm C)) :
    (∀ t ∈ later, t.column ∈ initial.map (·.column)) ∨
      ∃ known term rest, later = known ++ term :: rest ∧
        (∀ t ∈ known, t.column ∈ initial.map (·.column)) ∧ term.column ∉ initial.map (·.column) := by
  induction later
  case nil              => exact .inl (by simp)
  case cons t later hi =>
    by_cases ht : t.column ∈ initial.map (·.column)
    case neg => exact .inr ⟨[], t, later, rfl, by simp, ht⟩
    case pos =>
      obtain h | ⟨known, term, rest, rfl, hk, hn⟩ := hi
      case inl => exact .inl (List.forall_mem_cons.mpr ⟨ht, h⟩)
      case inr => exact .inr ⟨t :: known, term, rest, rfl, List.forall_mem_cons.mpr ⟨ht, hk⟩, hn⟩

-- The primary key decides right behind the initial terms just if the terms that come there instead of
-- it reach it without a new column.
theorem before_primaryKey_iff [Nontrivial V] (hi : ∀ t ∈ initial, t.column ≠ primaryKey) :
    (∀ r s : C → Option V, (r primaryKey).isSome = true → (s primaryKey).isSome = true →
      r primaryKey ≠ s primaryKey →
        before (orderClauses (initial ++ [.ascending primaryKey])) r s =
          before (orderClauses (initial ++ later)) r s) ↔
      ∃ known term rest, later = known ++ term :: rest ∧
        (∀ t ∈ known, t.column ∈ initial.map (·.column)) ∧
          term.column = primaryKey ∧ term.descending = false := by
  constructor
  case mpr =>
    rintro ⟨known, term, rest, rfl, hk, hc, hd⟩ r s hr hs hn
    rw [← List.append_assoc, before_known hk, before_primaryKey rest (hc ▸ hn)]
    rw [orderClauses_append, orderClauses_append, Bool.eq_iff_iff, before_append, before_append]
    rw [precedes_ascending hc hd hr hs]
  case mp  =>
    intro h
    -- The rows agree on the initial terms, so that only what comes behind them counts.
    have h (r s : C → Option V) (hr : (r primaryKey).isSome = true) (hs : (s primaryKey).isSome = true)
        (he : ∀ t ∈ initial, r t.column = s t.column)
        (hb : before (orderClauses [.ascending primaryKey]) r s = true) :
        before (orderClauses later) r s = true := by
      have hn : r primaryKey ≠ s primaryKey := by
        intro he
        rw [before_clause] at hb
        simp [OrderTerm.ascending, OrderTerm.clause, he, SortKey.precedes_irrefl] at hb
      rw [← before_append_known he, ← h r s hr hs hn, before_append_known he, hb]
    obtain hk | ⟨known, term, rest, rfl, hk, hn⟩ := exists_first_new initial later
    case inl =>
      obtain ⟨r, s, hr, hs, he, hb, _⟩ := exists_contrary (V := V)
        (show ¬((OrderTerm.ascending primaryKey).reverse.column = primaryKey ∧ _) by
          simp [OrderTerm.reverse, OrderTerm.ascending])
      have he (t) (ht : t ∈ initial) : r t.column = s t.column := he t.column (hi t ht) (hi t ht)
      have hl (t) (ht : t ∈ later) : r t.column = s t.column := by
        obtain ⟨t', ht', hc⟩ := List.mem_map.mp (hk t ht)
        exact hc ▸ he t' ht'
      have ho := (ordered_of_eq <| (forall_mem_orderClauses (p := fun c => r c = s c)).mpr hl).right
      exact absurd (h r s hr hs he hb) (by simpa [ordered] using ho)
    case inr =>
      refine ⟨known, term, rest, rfl, hk, ?_⟩
      by_contra hc
      obtain ⟨r, s, hr, hs, he, hb, hb'⟩ := exists_contrary (V := V) hc
      have he (t) (ht : t ∈ initial) : r t.column = s t.column :=
        he t.column (hi t ht) fun hc => hn <| hc ▸ List.mem_map_of_mem ht
      have hk (t) (ht : t ∈ known) : s t.column = r t.column := by
        obtain ⟨t', ht', hc⟩ := List.mem_map.mp (hk t ht)
        exact hc ▸ (he t' ht').symm
      have hb : before (orderClauses (known ++ term :: rest)) s r = true := by
        rw [before_append_known hk, ← List.singleton_append, orderClauses_append, before_append]
        exact .inl hb'
      exact absurd (h r s hr hs he ‹_›) (by simp [before_asymm hb])

end Orders

section Normal

-- The terms that a host asks for.
def requestedTerms (orderBy : Option (List (OrderEntry C))) : List (OrderTerm C) :=
  (orderBy.getD []).map OrderEntry.toTerm

variable [DecidableEq C] {primaryKey : C} {orderIsUnique : Bool} {orderBy : Option (List (OrderEntry C))}

theorem normalizeOrder_of_complete
    (h : Complete primaryKey orderIsUnique (requestedTerms orderBy)) :
    normalizeOrder orderBy primaryKey orderIsUnique = requestedTerms orderBy := by
  obtain ⟨hn, hu⟩ := h
  have hk : (!orderIsUnique && !(requestedTerms orderBy).any (·.column = primaryKey)) = false := by
    obtain rfl | ⟨t, ht, hc⟩ := hu
    case inl => rfl
    case inr =>
      have ha : (requestedTerms orderBy).any (·.column = primaryKey) = true :=
        List.any_eq_true.mpr ⟨t, ht, decide_eq_true hc⟩
      rw [ha, Bool.not_true, Bool.and_false]
  rw [normalizeOrder, ← requestedTerms, hk, if_neg Bool.false_ne_true, if_neg (by simpa using hn)]

theorem normalizeOrder_of_not_complete
    (h : ¬Complete primaryKey orderIsUnique (requestedTerms orderBy)) :
    normalizeOrder orderBy primaryKey orderIsUnique =
      requestedTerms orderBy ++ [.ascending primaryKey] := by
  rw [normalizeOrder, ← requestedTerms]
  generalize requestedTerms orderBy = terms at h ⊢
  by_cases hk : (!orderIsUnique && !terms.any (·.column = primaryKey)) = true
  case pos => simp [hk]
  case neg =>
    rw [Bool.and_eq_true, not_and_or, Bool.not_eq_true', Bool.not_eq_false, Bool.not_eq_true',
      Bool.not_eq_false, List.any_eq_true] at hk
    have hn : terms = [] := by
      by_contra hn
      exact h ⟨hn, hk.imp id fun ⟨t, ht, hc⟩ => ⟨t, ht, of_decide_eq_true hc⟩⟩
    cases orderIsUnique <;> simp [hn]

theorem complete_normalizeOrder :
    Complete primaryKey orderIsUnique (normalizeOrder orderBy primaryKey orderIsUnique) := by
  by_cases h : Complete primaryKey orderIsUnique (requestedTerms orderBy)
  case pos => exact normalizeOrder_of_complete h ▸ h
  case neg =>
    rw [normalizeOrder_of_not_complete h]
    exact ⟨by simp, .inr ⟨.ascending primaryKey, by simp, rfl⟩⟩

omit [DecidableEq C] in
theorem Complete.append {terms : List (OrderTerm C)} (h : Complete primaryKey orderIsUnique terms)
    (later : List (OrderTerm C)) : Complete primaryKey orderIsUnique (terms ++ later) :=
  ⟨by simp [h.left], h.right.imp id fun ⟨t, ht, hc⟩ => ⟨t, List.mem_append_left later ht, hc⟩⟩

-- A complete order only grows, so that what it was completed with stays where it is.
theorem addOrderTerm_eq {order : List (OrderTerm C)} (h : Complete primaryKey orderIsUnique order)
    (term : OrderEntry C) :
    addOrderTerm order term primaryKey orderIsUnique = order ++ [term.toTerm] := by
  have hm : requestedTerms (some (order.map OrderEntry.term ++ [OrderEntry.term term.toTerm])) =
      order ++ [term.toTerm] := by
    rw [requestedTerms, Option.getD_some, List.map_append, List.map_map]
    exact congrArg (· ++ _) (List.map_id order)
  rw [addOrderTerm, normalizeOrder_of_complete (hm ▸ h.append [term.toTerm]), hm]

theorem foldl_addOrderTerm {order : List (OrderTerm C)} (h : Complete primaryKey orderIsUnique order)
    (added : List (OrderEntry C)) :
    added.foldl (addOrderTerm · · primaryKey orderIsUnique) order = order ++ added.map OrderEntry.toTerm := by
  induction added generalizing order
  case nil               => simp
  case cons term added hi =>
    rw [List.foldl_cons, addOrderTerm_eq h, hi (h.append _), List.map_cons, List.append_assoc]
    rfl

omit [DecidableEq C] in
theorem requestedTerms_append (orderBy : Option (List (OrderEntry C))) (added : List (OrderEntry C)) :
    requestedTerms (some (orderBy.getD [] ++ added)) =
      requestedTerms orderBy ++ added.map OrderEntry.toTerm := by
  rw [requestedTerms, Option.getD_some, List.map_append]
  rfl

variable {V : Type} [LinearOrder V] {r s : C → Option V}

-- What is added comes behind the primary key that has been added before.
theorem before_stored (hc : ¬Complete primaryKey orderIsUnique (requestedTerms orderBy))
    (hn : r primaryKey ≠ s primaryKey) (added : List (OrderTerm C)) :
    before (orderClauses (normalizeOrder orderBy primaryKey orderIsUnique ++ added)) r s =
      before (orderClauses (requestedTerms orderBy ++ [.ascending primaryKey])) r s := by
  rw [normalizeOrder_of_not_complete hc, List.append_assoc, List.singleton_append]
  exact before_primaryKey added hn

theorem before_wanted (hn : r primaryKey ≠ s primaryKey) {added : List (OrderEntry C)} (ha : added ≠ []) :
    before (orderClauses
        (normalizeOrder (some (orderBy.getD [] ++ added)) primaryKey orderIsUnique)) r s =
      before (orderClauses (requestedTerms orderBy ++
        (added.map OrderEntry.toTerm ++ if orderIsUnique then [] else [.ascending primaryKey]))) r s := by
  by_cases hw : Complete primaryKey orderIsUnique (requestedTerms (some (orderBy.getD [] ++ added)))
  case neg =>
    have hu : orderIsUnique = false := by
      by_contra hu
      exact hw ⟨by simp [requestedTerms, ha], .inl (by simpa using hu)⟩
    rw [normalizeOrder_of_not_complete hw, requestedTerms_append, hu, List.append_assoc]
    rfl
  case pos =>
    rw [normalizeOrder_of_complete hw, requestedTerms_append]
    cases hu : orderIsUnique
    case true  => rw [if_pos rfl, List.append_nil]
    case false =>
      obtain ⟨t, ht, hk⟩ := hw.right.resolve_left (by simp [hu])
      rw [requestedTerms_append] at ht
      rw [if_neg Bool.false_ne_true, ← List.append_assoc, orderClauses_append _ [_]]
      have hn : r t.column ≠ s t.column := hk ▸ hn
      exact (before_append_of_ne ⟨t.clause, List.mem_map_of_mem ht, hn⟩).symm

theorem sortAlike_addOrderTerm_iff [Nontrivial V] {added : List (OrderEntry C)} :
    SortAlike V primaryKey
        (added.foldl (addOrderTerm · · primaryKey orderIsUnique)
          (normalizeOrder orderBy primaryKey orderIsUnique))
        (normalizeOrder (some (orderBy.getD [] ++ added)) primaryKey orderIsUnique) ↔
      TakeEffect primaryKey orderIsUnique (requestedTerms orderBy) (added.map OrderEntry.toTerm) := by
  rw [foldl_addOrderTerm complete_normalizeOrder]
  by_cases hc : Complete primaryKey orderIsUnique (requestedTerms orderBy)
  case pos =>
    have hw : Complete primaryKey orderIsUnique (requestedTerms (some (orderBy.getD [] ++ added))) :=
      requestedTerms_append orderBy added ▸ hc.append _
    rw [normalizeOrder_of_complete hc, normalizeOrder_of_complete hw, requestedTerms_append]
    exact iff_of_true (fun _ _ => .rfl) (.inr <| .inl hc)
  case neg =>
    by_cases ha : added = []
    case pos =>
      have he : normalizeOrder (some (orderBy.getD [] ++ [])) primaryKey orderIsUnique =
          normalizeOrder orderBy primaryKey orderIsUnique := by
        rw [List.append_nil]
        rfl
      rw [ha, he, List.map_nil, List.append_nil]
      exact iff_of_true (fun _ _ => .rfl) (.inl rfl)
    case neg =>
      have hi (t) (ht : t ∈ requestedTerms orderBy) : t.column ≠ primaryKey :=
        fun hk => hc ⟨List.ne_nil_of_mem ht, .inr ⟨t, ht, hk⟩⟩
      rw [TakeEffect, ReachesKey, ← before_primaryKey_iff (V := V) hi, sortAlike_iff]
      rw [or_iff_right (by simpa using ha), or_iff_right hc]
      refine forall₂_congr fun r s => forall₃_congr fun hr hs hn => ?_
      rw [before_stored hc hn, before_wanted hn ha]

end Normal

section Steps

variable [DecidableEq C] {A V : Type} {orderIsUnique : Bool} {added : List (OrderEntry C)}

theorem PgSelectStep.foldl_addOrderTerm {step : PgSelectStep C A V} :
    (added.foldl (·.addOrderTerm orderIsUnique ·) step).orderBy =
      added.foldl (Grafast.addOrderTerm · · step.resource.primaryKey orderIsUnique) step.orderBy := by
  induction added generalizing step
  case nil               => rfl
  case cons term added hi => exact hi

theorem PgSelectAllStep.foldl_addOrderTerm {step : PgSelectAllStep C A V} :
    (added.foldl (·.addOrderTerm orderIsUnique ·) step).orderBy =
      added.foldl (Grafast.addOrderTerm · · step.resource.primaryKey orderIsUnique) step.orderBy := by
  induction added generalizing step
  case nil               => rfl
  case cons term added hi => exact hi

theorem PgConnectionStep.addOrderTerm_ok {format : CursorFormat C V} {term : OrderEntry C}
    {step step' : PgConnectionStep C A V} (h : step.addOrderTerm format orderIsUnique term = .ok step') :
    step' = { step with
      orderBy := Grafast.addOrderTerm step.orderBy term step.resource.primaryKey orderIsUnique } := by
  unfold addOrderTerm at h
  extract_lets order at h
  cases ha : PgPaging.decodeLiteralCursor format order step.after
  case error e => rw [ha] at h; cases h
  case ok =>
    cases hb : PgPaging.decodeLiteralCursor format order step.before
    case error e => rw [ha, hb] at h; cases h
    case ok      => rw [ha, hb] at h; cases h; rfl

theorem PgConnectionStep.foldlM_addOrderTerm {format : CursorFormat C V}
    {step step' : PgConnectionStep C A V}
    (h : added.foldlM (·.addOrderTerm format orderIsUnique ·) step = .ok step') :
    step'.orderBy =
      added.foldl (Grafast.addOrderTerm · · step.resource.primaryKey orderIsUnique) step.orderBy := by
  induction added generalizing step
  case nil               => cases h; rfl
  case cons term added hi =>
    rw [List.foldlM_cons] at h
    cases ha : step.addOrderTerm format orderIsUnique term
    case error e => rw [ha] at h; cases h
    case ok next =>
      rw [ha] at h
      rw [hi h, addOrderTerm_ok ha]
      rfl

variable [LinearOrder V]

-- For all of the steps that have an order.
theorem addOrderTerm_iff [Nontrivial V] (format : CursorFormat C V) (resource : PgResource C A V)
    (matchColumns : List C) (orderBy : Option (List (OrderEntry C))) (orderIsUnique needsTotal : Bool)
    (first offset : PageValue Int) (paging : PgPaging)
    (wherePredicates : List ((C → Option V) → Truth)) (added : List (OrderEntry C)) :
    let requested := normalizeOrder (some (orderBy.getD [] ++ added)) resource.primaryKey orderIsUnique
    let takeEffect := TakeEffect resource.primaryKey orderIsUnique (requestedTerms orderBy)
      (requestedTerms (some added))
    (SortAlike V resource.primaryKey (added.foldl (·.addOrderTerm orderIsUnique ·) <| PgSelectStep.make
        resource matchColumns orderBy orderIsUnique first offset wherePredicates).orderBy requested ↔
      takeEffect) ∧
    (SortAlike V resource.primaryKey (added.foldl (·.addOrderTerm orderIsUnique ·) <|
        PgSelectAllStep.make resource orderBy orderIsUnique first offset wherePredicates).orderBy
          requested ↔
      takeEffect) ∧
    ∀ step, (PgConnectionStep.make format resource matchColumns orderBy orderIsUnique paging needsTotal
        wherePredicates >>= added.foldlM (·.addOrderTerm format orderIsUnique ·)) = .ok step →
      (SortAlike V resource.primaryKey step.orderBy requested ↔ takeEffect) := by
  intro requested takeEffect
  refine ⟨?_, ?_, fun step h => ?_⟩
  case refine_1 =>
    rw [PgSelectStep.foldl_addOrderTerm]
    exact sortAlike_addOrderTerm_iff
  case refine_2 =>
    rw [PgSelectAllStep.foldl_addOrderTerm]
    exact sortAlike_addOrderTerm_iff
  case refine_3 =>
    cases hm : PgConnectionStep.make format resource matchColumns orderBy orderIsUnique paging
      needsTotal wherePredicates
    case error e => rw [hm] at h; cases h
    case ok made =>
      rw [hm] at h
      obtain ⟨hr, ho⟩ := PgConnectionStep.make_ok hm
      rw [PgConnectionStep.foldlM_addOrderTerm h, hr, ho]
      exact sortAlike_addOrderTerm_iff

end Steps

namespace Comments

def byPost : PgSelectAllStep Column Empty Nat :=
  .make resource (some [.name .post]) false (.literal none) (.literal (some 0)) []

-- Of two comments on one post, the one with the lower rank should come first.
theorem byPost_not_byRank : ¬SortAlike Nat Column.id (byPost.addOrderTerm false (.name .rank)).orderBy
    (normalizeOrder (some [.name .post, .name .rank]) .id false) := by
  intro h
  have hk : Keyed Column.id [comment 2 (some 1), comment 1 (some 2)] := by simp [Keyed, comment]
  exact absurd ((h _ hk).mpr (by decide)) (by decide)

-- An order by the primary key takes on further terms.
theorem byId_addOrderTerm :
    SortAlike Nat Column.id (byPost.addOrderTerm false (.term ⟨.id, false, none⟩)).orderBy
      (normalizeOrder (some [.name .post, .term ⟨.id, false, none⟩]) .id false) := by
  have h := addOrderTerm_iff tallies resource [.post] (some [.name .post]) false false (.literal none)
    (.literal (some 0)) ⟨.literal none, .literal none, .literal none, .literal none⟩ []
    [.term ⟨.id, false, none⟩]
  exact h.right.left.mpr (.inr <| .inr ⟨[], _, _, rfl, by simp, rfl, rfl⟩)

end Comments

end Grafast
