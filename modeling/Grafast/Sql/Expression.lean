import Mathlib.Order.Lattice

namespace Sql

inductive Truth
  | no
  | unknown
  | yes
  deriving DecidableEq

namespace Truth

def ofBool : Bool → Truth
  | false => no
  | true  => yes

def and : Truth → Truth → Truth
  | no, _    => no
  | _, no    => no
  | yes, yes => yes
  | _, _     => unknown

def or : Truth → Truth → Truth
  | yes, _ => yes
  | _, yes => yes
  | no, no => no
  | _, _   => unknown

@[simp]
theorem ofBool_eq_yes {b : Bool} : ofBool b = yes ↔ b = true := by
  cases b <;> simp [ofBool]

@[simp]
theorem and_eq_yes {p q : Truth} : p.and q = yes ↔ p = yes ∧ q = yes := by
  cases p <;> cases q <;> simp [and]

@[simp]
theorem or_eq_yes {p q : Truth} : p.or q = yes ↔ p = yes ∨ q = yes := by
  cases p <;> cases q <;> simp [or]

end Truth

-- A column of the row at hand, or a value that is bound to the statement.
inductive Operand (C V : Type)
  | column (name : C)
  | value (value : Option V)

inductive Expr (C V : Type)
  | isNull (operand : Operand C V)
  | isNotNull (operand : Operand C V)
  | gt (left right : Operand C V)
  | lt (left right : Operand C V)
  | ne (left right : Operand C V)
  | isNotDistinctFrom (left right : Operand C V)
  | and (left right : Expr C V)
  | or (left right : Expr C V)

variable {C V : Type}

def Operand.eval (row : C → Option V) : Operand C V → Option V
  | column name => row name
  | value v     => v

@[simp]
theorem Operand.eval_column {row : C → Option V} {name : C} :
    (Operand.column name).eval row = row name :=
  rfl

@[simp]
theorem Operand.eval_value {row : C → Option V} {v : Option V} :
    (Operand.value v : Operand C V).eval row = v :=
  rfl

-- A comparison with NULL is neither true nor false.
def compared (test : V → V → Bool) : Option V → Option V → Truth
  | some a, some b => .ofBool (test a b)
  | _, _           => .unknown

@[simp]
theorem compared_none {test : V → V → Bool} {a : Option V} : compared test a none = .unknown := by
  cases a <;> rfl

@[simp]
theorem none_compared {test : V → V → Bool} {a : Option V} : compared test none a = .unknown :=
  rfl

@[simp]
theorem some_compared {test : V → V → Bool} {a b : V} :
    compared test (some a) (some b) = .ofBool (test a b) :=
  rfl

def Expr.eval [LinearOrder V] (row : C → Option V) : Expr C V → Truth
  | isNull o              => .ofBool (o.eval row).isNone
  | isNotNull o           => .ofBool (o.eval row).isSome
  | gt l r                => compared (fun a b => b < a) (l.eval row) (r.eval row)
  | lt l r                => compared (fun a b => a < b) (l.eval row) (r.eval row)
  | ne l r                => compared (fun a b => a ≠ b) (l.eval row) (r.eval row)
  | isNotDistinctFrom l r => .ofBool (l.eval row = r.eval row)
  | and p q               => (p.eval row).and (q.eval row)
  | or p q                => (p.eval row).or (q.eval row)

variable [LinearOrder V] {row : C → Option V}

theorem Expr.eval_and {p q : Expr C V} :
    (p.and q).eval row = .yes ↔ p.eval row = .yes ∧ q.eval row = .yes :=
  Truth.and_eq_yes

theorem Expr.eval_or {p q : Expr C V} :
    (p.or q).eval row = .yes ↔ p.eval row = .yes ∨ q.eval row = .yes :=
  Truth.or_eq_yes

theorem Expr.eval_isNotDistinctFrom {l r : Operand C V} :
    (Expr.isNotDistinctFrom l r).eval row = .yes ↔ l.eval row = r.eval row := by
  simp [Expr.eval]

end Sql
