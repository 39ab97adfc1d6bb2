import Mathlib.Logic.Function.Basic

namespace Grafast

-- What a call of `execute` gives the executor: a column, an awaitable column together with how the
-- await ends, or a raised exception.
inductive Out (V E : Type)
  | column (values : List V)
  | awaitable (result : Except E (List V))
  | raised (error : E)

-- A node of the plan DAG as the executor sees it. The dependencies are given by their ids, and
-- `execute` gets the `extra` of the bucket only if the step declares `wantsExtra`.
structure Step (V E X : Type) where
  id            : Nat
  dependencies  : List Nat
  isUnary       : Bool
  isSyncAndSafe : Bool
  wantsExtra    : Bool
  execute       : Nat → List (List V) → Option X → Out V E

-- The exceptions of a run: those of the steps themselves, and the executor's own.
inductive StepError (E : Type)
  | raised (error : E)
  | missingColumn (id : Nat)
  | emptyColumn (id : Nat)
  | unaryLength (id length : Nat)
  | sharedAwaitable (id : Nat)
  | columnLength (id length count : Nat)
  deriving DecidableEq, Repr

-- The output columns by step id.
abbrev Store (V : Type) := Nat → Option (List V)

namespace Store

variable {V : Type}

def empty : Store V :=
  fun _ => none

def insert (s : Store V) (id : Nat) (col : List V) : Store V :=
  Function.update s id (some col)

-- The value of a step for the `i`-th entry of the bucket.
def entry (s : Store V) (i id : Nat) : Option V :=
  s id >>= (·[i]?)

@[simp]
theorem insert_self (s : Store V) (id : Nat) (col : List V) : s.insert id col id = some col := by
  simp [insert]

theorem insert_of_ne {s : Store V} {id j : Nat} {col : List V} (h : j ≠ id) :
    s.insert id col j = s j := by
  simp [insert, h]

@[simp]
theorem entry_insert_self (s : Store V) (i id : Nat) (col : List V) :
    (s.insert id col).entry i id = col[i]? := by
  simp [entry]

theorem entry_insert_of_ne {s : Store V} {i id j : Nat} {col : List V} (h : j ≠ id) :
    (s.insert id col).entry i j = s.entry i j := by
  simp [entry, insert_of_ne h]

end Store

-- The `i`-th entries of a list of columns.
def row {V : Type} (cols : List (List V)) (i : Nat) : List V :=
  cols.filterMap (·[i]?)

-- The column of a function of single entries.
def pointwise {V : Type} (fn : List V → V) (count : Nat) (cols : List (List V)) : List V :=
  (List.range count).map fun i => fn (row cols i)

end Grafast
