import Grafast.Pg.Ordering
import Grafast.Sql.Expression

namespace Grafast

open Sql

-- The JSON and base64 of cursors, the hash of orders, and the casts that give the values of a cursor
-- back to their columns.
structure CursorFormat (C V : Type) where
  sha256      : List (C × Bool × Nulls) → String
  dumps       : String × List (Option V) → String
  loads       : String → Option (String × List (Option V))
  loads_dumps : ∀ payload, loads (dumps payload) = some payload
  dumps_ne    : ∀ payload, dumps payload ≠ ""

inductive CursorError
  | malformed
  | differentOrdering (digest expected : String)
  | wrongCount (values columns : Nat)
  deriving DecidableEq

variable {C V : Type}

def orderDigest (format : CursorFormat C V) (terms : List (OrderTerm C)) : String :=
  format.sha256 (terms.map fun t => (t.column, t.descending, t.effectiveNulls))

def encodeKeysetCursor (format : CursorFormat C V) (terms : List (OrderTerm C))
    (row : C → Option V) : String :=
  format.dumps (orderDigest format terms, terms.map (row ·.column))

def decodeKeysetCursor (format : CursorFormat C V) (cursor : String) (terms : List (OrderTerm C)) :
    Except CursorError (List (Option V)) :=
  match format.loads cursor with
  | none                  => .error .malformed
  | some (digest, values) =>
    if digest ≠ orderDigest format terms then
      .error (.differentOrdering digest (orderDigest format terms))
    else if values.length ≠ terms.length then
      .error (.wrongCount values.length terms.length)
    else
      .ok values

-- What comes strictly after a value in a column, in the direction of its term.
def columnAfter (term : OrderTerm C) (bound : Operand C V) (value : Option V)
    (columnExpr : Option (Operand C V)) : Expr C V :=
  let col := columnExpr.getD (.column term.column)
  match term.descending, term.effectiveNulls with
  | false, .last  => if value.isNone then .ne col col else .or (.isNull col) (.gt col bound)
  | false, .first => if value.isNone then .isNotNull col else .and (.isNotNull col) (.gt col bound)
  | true, .first  => if value.isNone then .isNotNull col else .and (.isNotNull col) (.lt col bound)
  | true, .last   => if value.isNone then .ne col col else .or (.isNull col) (.lt col bound)

def recursiveAfter (columnExprs : C → Option (Operand C V)) (term : OrderTerm C × Option V) :
    List (OrderTerm C × Option V) → Expr C V
  | []           => columnAfter term.fst (.value term.snd) term.snd (columnExprs term.fst.column)
  | next :: rest =>
    let expr := columnExprs term.fst.column
    let gt := columnAfter term.fst (.value term.snd) term.snd expr
    let eq := .isNotDistinctFrom (expr.getD (.column term.fst.column)) (.value term.snd)
    .or gt (.and eq (recursiveAfter columnExprs next rest))

-- An order without a term has no first term to compare with.
def keysetWhere (terms : List (OrderTerm C)) (values : List (Option V)) (after : Bool)
    (columnExprs : C → Option (Operand C V)) : Option (Expr C V) :=
  match (if after then terms else terms.map .reverse).zip values with
  | []            => none
  | first :: rest => some (recursiveAfter columnExprs first rest)

variable [LinearOrder V] {row : C → Option V} {columnExprs : C → Option (Operand C V)}

-- The value of a row that the predicate compares for a column.
def operandOf (columnExprs : C → Option (Operand C V)) (row : C → Option V) (column : C) : Option V :=
  ((columnExprs column).getD (.column column)).eval row

theorem eval_columnAfter {t : OrderTerm C} {v : Option V} :
    (columnAfter t (.value v) v (columnExprs t.column)).eval row = .yes ↔
      t.clause.precedes v (operandOf columnExprs row t.column) = true := by
  rw [columnAfter, operandOf]
  generalize (columnExprs t.column).getD (.column t.column) = col
  have hp := OrderTerm.placement_clause (t := t)
  have hd : t.clause.descending = t.descending := rfl
  cases v <;> cases hc : col.eval row <;> cases hs : t.descending <;> cases hn : t.effectiveNulls <;>
    simp [Expr.eval, SortKey.precedes, hc, hp, hd, hs, hn]

-- The values that the predicate compares with those of a cursor, for each term.
def comparedValues (columnExprs : C → Option (Operand C V)) (terms : List (OrderTerm C))
    (row : C → Option V) : List (Option V) :=
  terms.map (operandOf columnExprs row ·.column)

-- The induction is on the terms after the first one: each of them adds one rung.
theorem eval_recursiveAfter {t : OrderTerm C} {v : Option V} {rest : List (OrderTerm C × Option V)} :
    (recursiveAfter columnExprs (t, v) rest).eval row = .yes ↔
      beforeValues (orderClauses (t :: rest.map (·.fst))) (v :: rest.map (·.snd))
        (comparedValues columnExprs (t :: rest.map (·.fst)) row) = true := by
  induction rest generalizing t v
  case nil               =>
    rw [recursiveAfter, eval_columnAfter]
    simp [orderClauses, comparedValues, beforeValues]
  case cons next rest hi =>
    obtain ⟨u, w⟩ := next
    rw [recursiveAfter, Expr.eval_or, Expr.eval_and, Expr.eval_isNotDistinctFrom, eval_columnAfter, hi]
    rw [eq_comm (a := Operand.eval row _)]
    simp only [orderClauses, comparedValues, List.map_cons, beforeValues_cons, Operand.eval_value]
    rfl

-- The predicate selects what comes after the values of a cursor, or what comes before them.
theorem eval_keysetWhere_values (columnExprs : C → Option (Operand C V)) {terms : List (OrderTerm C)}
    {values : List (Option V)} (h : terms ≠ []) (hv : values.length = terms.length) (after : Bool) :
    ∃ p, keysetWhere terms values after columnExprs = some p ∧ ∀ row, (p.eval row = .yes ↔
      beforeValues (orderClauses (if after then terms else terms.map .reverse)) values
        (comparedValues columnExprs terms row) = true) := by
  have hl : values.length = (if after then terms else terms.map .reverse).length := by
    cases after <;> simpa using hv
  have hc (row : C → Option V) : comparedValues columnExprs (if after then terms else terms.map .reverse) row =
      comparedValues columnExprs terms row := by
    cases after
    case false => simp [comparedValues, OrderTerm.reverse]
    case true  => rfl
  rw [keysetWhere]
  cases hz : (if after then terms else terms.map .reverse).zip values
  case nil            =>
    have hn : (if after then terms else terms.map .reverse) ≠ [] := by cases after <;> simpa using h
    obtain hz | hz := List.zip_eq_nil_iff.mp hz
    · exact absurd hz hn
    · exact absurd (List.eq_nil_of_length_eq_zero (hl ▸ hz ▸ rfl)) hn
  case cons next rest =>
    obtain ⟨t, v⟩ := next
    have ht : t :: rest.map (·.fst) = if after then terms else terms.map .reverse := by
      have hf := List.map_fst_zip hl.ge
      rw [hz] at hf
      exact hf
    have hs : v :: rest.map (·.snd) = values := by
      have hf := List.map_snd_zip hl.le
      rw [hz] at hf
      exact hf
    refine ⟨_, rfl, fun row => ?_⟩
    rw [eval_recursiveAfter, ht, hs, hc]

-- Each row is in exactly one place: before the values of a cursor, level with them, or after them.
theorem keysetWhere_iff (columnExprs : C → Option (Operand C V)) (terms : List (OrderTerm C))
    (values : List (Option V)) (h : terms ≠ []) (hv : values.length = terms.length) :
    ∃ after before, keysetWhere terms values true columnExprs = some after ∧
      keysetWhere terms values false columnExprs = some before ∧ ∀ row,
        (after.eval row = .yes ↔
          beforeValues (orderClauses terms) values (comparedValues columnExprs terms row) = true) ∧
        (before.eval row = .yes ↔
          beforeValues (orderClauses terms) (comparedValues columnExprs terms row) values = true) ∧
        ((before.eval row = .yes ∧ comparedValues columnExprs terms row ≠ values ∧ after.eval row ≠ .yes) ∨
          (before.eval row ≠ .yes ∧ comparedValues columnExprs terms row = values ∧ after.eval row ≠ .yes) ∨
          (before.eval row ≠ .yes ∧ comparedValues columnExprs terms row ≠ values ∧ after.eval row = .yes)) := by
  obtain ⟨after, ha, hafter⟩ := eval_keysetWhere_values columnExprs h hv true
  obtain ⟨before, hb, hbefore⟩ := eval_keysetWhere_values columnExprs h hv false
  simp only [Bool.false_eq_true, if_false, if_true, orderClauses_reverse, beforeValues_flip] at hafter hbefore
  refine ⟨after, before, ha, hb, fun row => ⟨hafter row, hbefore row, ?_⟩⟩
  simp only [ne_eq, hafter, hbefore]
  by_cases ht : comparedValues columnExprs terms row = values
  case pos => simp [ht, beforeValues_irrefl]
  case neg =>
    have hl : (comparedValues columnExprs terms row).length = (orderClauses terms).length := by
      simp [comparedValues, orderClauses]
    obtain hlt | hgt := beforeValues_total hl (by simpa [orderClauses] using hv) ht
    · exact .inl ⟨hlt, ht, by simp [beforeValues_asymm hlt]⟩
    · exact .inr (.inr ⟨by simp [beforeValues_asymm hgt], ht, hgt⟩)

-- A descending column whose NULLs come last, and then an ascending one.
theorem keysetWhere_iff_nulls :
    ∃ after before, keysetWhere [⟨"rank", true, some .last⟩, .ascending "id"] [none, some 3] true
        (fun _ => none) = some after ∧
      keysetWhere [⟨"rank", true, some .last⟩, .ascending "id"] [none, some 3] false (fun _ => none) =
        some before ∧ after.eval (fun c => if c = "id" then some 4 else none) = .yes ∧
        before.eval (fun c => if c = "id" then some 4 else some 0) = .yes := by
  obtain ⟨after, before, ha, hb, h⟩ := keysetWhere_iff (V := Nat) (fun _ => none)
    [⟨"rank", true, some .last⟩, .ascending "id"] [none, some 3] (by simp) rfl
  exact ⟨after, before, ha, hb, (h _).left.mpr (by decide), (h _).right.left.mpr (by decide)⟩

end Grafast
