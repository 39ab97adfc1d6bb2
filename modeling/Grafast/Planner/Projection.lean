import Grafast.Planner.Operation
import Grafast.Step.Core

namespace Grafast

-- Whether a callable of the host is a coroutine function.
class AsyncCallable (F : Type) where
  isAsync : F → Bool

-- The steps of an operation: the core steps, the adapters of resolvers, and the steps that write.
inductive OperationStep (V S F : Type)
  | core (step : CoreStep V S F)
  | resolve (identity : Nat)
  | write (identity : Nat)

inductive OperationKey (S F : Type)
  | core (key : CoreKey S F)
  | resolve (identity : Nat)
  | write (identity : Nat)
  deriving DecidableEq

namespace OperationStep

variable {V S F : Type} [PyValue V S]

def key : OperationStep V S F → OperationKey S F
  | core step        => .core step.key
  | resolve identity => .resolve identity
  | write identity   => .write identity

def dedupable : OperationStep V S F → Bool
  | core _ => true
  | _      => false

def isUnary : OperationStep V S F → Bool
  | core step => step.isUnary
  | _         => false

def hoistable [AsyncCallable F] : OperationStep V S F → Bool
  | core (.lambda fn) => !AsyncCallable.isAsync fn
  | core _            => true
  | resolve _         => false
  | write _           => true

def isRoot : OperationStep V S F → Bool
  | core (.root _) => true
  | _              => false

instance [AsyncCallable F] : PlanStep (OperationStep V S F) (OperationKey S F) where
  key       := key
  dedupable := dedupable
  isUnary   := isUnary
  hoistable := hoistable
  isRoot    := isRoot
  isItem _  := false

end OperationStep

-- Projections from the parent step, as a plan resolver returns them.
namespace PlanFn

variable {V S F : Type} [PyValue V S]

-- `access($parent, path)`
def access (path : List S) : PlanFn (OperationStep V S F) :=
  fun p parentStep => ([(.core (.access path PyValue.pyNone), [parentStep])], p.heap.length)

-- `$parent.get(attr)` of an access step, which is an access to the parent of that step.
def accessGet (attr : S) : PlanFn (OperationStep V S F) :=
  fun p parentStep =>
    match p.kind parentStep with
    | some (.core (.access path fallback)) =>
      ([(.core (.access (path ++ [attr]) fallback), p.dependencies parentStep)], p.heap.length)
    | _ => ([], parentStep)

-- `$parent.get(key)` of an object step, which is the step that is stored for the key.
def objectGet (key : String) : PlanFn (OperationStep V S F) :=
  fun p parentStep =>
    match p.kind parentStep with
    | some (.core (.object keys)) => ([], ((p.dependencies parentStep)[keys.idxOf key]?).getD parentStep)
    | _                           => ([], parentStep)

end PlanFn

end Grafast
