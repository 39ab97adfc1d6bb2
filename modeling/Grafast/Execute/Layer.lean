import Grafast.Execute.Reference
import Grafast.Execute.Extra

namespace Grafast

variable {T K V S C X : Type}

-- What the extra of a bucket is for one of its entries.
structure EntryExtra (C V : Type) where
  context      : C
  parentPath   : Path
  sourceValues : String → Option V

def BucketExtra.entry (x : BucketExtra C V) (i : Nat) : EntryExtra C V :=
  ⟨x.context, (x.parentPaths[i]?).getD [], x.sourceValues⟩

-- A column that is handed down to a bucket.
def handedDown {I : Type} [DecidableEq I] (parentStore : List (I × List V)) (id : I) : Option (List V) :=
  parentStore.lookup id

-- The ids for which a bucket has a column once its steps have run.
def LayerPlan.columnIds (p : Plan K) (layer : LayerPlan) : List (Option Nat) :=
  layer.orderedSteps.elim [] fun ordered => layer.boundaryIds p ++ ordered.map p.stepId

variable [PyValue V S] [EachErrors V] (isAwaitable isCoroutine : V → Bool)

-- The columns that a call of `run_steps` returns, awaited if they have to be.
def RunCall.results (c : RunCall V X) : Option (Store V) := do
  let running ← (runSteps c.count (toSteps isCoroutine c.orderedSteps) isAwaitable c.seed c.extra).toOption
  let s ← running.resolve.toOption
  return s.results

namespace Request

variable [ExecutableStep K V C] (r : Request T K C V) (p : Plan K)

-- The columns of a bucket, whose boundary columns are those that are handed down to it.
def bucketStore (layer : LayerPlan) (parents : List (Entry V)) (parentStore : List (Option Nat × List V)) :
    Option (Store V) := do
  let call ← r.runLayer p layer (parents.map (·.value)) (parents.map (·.path)) fun id => handedDown parentStore (some id)
  call.results isAwaitable isCoroutine

-- The run of a layer as the executor of a request makes it.
def runBucket : RunLayer LayerPlan (Option Nat) V := fun layer parents parentStore =>
  (r.bucketStore isAwaitable isCoroutine p layer parents parentStore).map fun results id => id.bind results

-- The value of a step in a bucket that has a single parent.
def valueAlone (layer : LayerPlan) (seeds : Option Nat → Option V) (parent : V) (path : Path) (id : Option Nat) :
    Option V := do
  let call ← r.runLayer p layer [parent] [path] fun id => (seeds (some id)).map fun v => [v]
  let results ← call.results isAwaitable isCoroutine
  results.entry 0 (← id)

-- The layers of a plan, where each parent has a bucket of its own.
def layerRuns (streaming : Bool) : LayerRuns LayerPlan Ref (Option Nat) V where
  stepId                            := p.stepId
  hoistedOutIds layer               := layer.hoistedOutIds
  columns layer id                  := id.isSome && (layer.columnIds p).contains id
  value layer seeds parent path id  :=
    (r.valueAlone isAwaitable isCoroutine p layer seeds parent path id).getD PyValue.pyNone
  streaming                         := streaming

end Request

end Grafast
