import Grafast.Cache.Variant
import Grafast.Request.Planning

namespace Grafast

-- What planning an operation anew ends in.
structure FinalizedPlan (O : Type) where
  objectPlan : O
  cacheable  : Bool

-- A request, with what planning it anew gives.
structure PlanRequest (Key S V K O : Type) where
  key         : Key
  schema      : S
  inputs      : CacheRequest V K
  fresh       : FinalizedPlan O
  constraints : List (Stored V K)

-- What a request is served of a candidate.
class SharedPlan (P : Type) (S C O : outParam Type) extends CachedPlan P S C where
  objectPlan : P → O

-- How far a request has come with its operation. It fails where code of the host raises in a validation.
inductive LookupPhase (P O : Type)
  | arrived
  | validating (candidates : List P)
  | accepted (candidate : P)
  | missed
  | planned (value : P)
  | served (objectPlan : O)
  | failed

-- A cache and the requests that share it.
structure LookupSystem (I Key P O : Type) where
  cache   : PlanCache Key P
  lookups : I → LookupPhase P O

section

variable {Key P S V K O Y : Type} [SharedPlan P S (List (Stored V K)) O]

-- A candidate that carries what planning the request gives.
structure PlanRequest.Builds (request : PlanRequest Key S V K O) (value : P) : Prop where
  schema      : CachedPlan.schema value = request.schema
  constraints : CachedPlan.constraints value = request.constraints
  objectPlan  : SharedPlan.objectPlan value = request.fresh.objectPlan

variable [DecidableEq S] [PyObject V Y] [DecidableEq Y]

-- The walk of the surviving steps comes between the schema and the constraints.
def PlanRequest.validate (request : PlanRequest Key S V K O) (walk : Verdict) (candidate : P) : Verdict :=
  if CachedPlan.schema candidate = request.schema then
    match walk with
    | .accepts => if accepts (CachedPlan.constraints candidate) request.inputs then .accepts else .rejects
    | .rejects => .rejects
    | .raises  => .raises
  else
    .rejects

end

namespace LookupSystem

variable {I Key P S V K O Y : Type}

def init (maxEntries : Nat) (h : 1 ≤ maxEntries) : LookupSystem I Key P O :=
  ⟨.init maxEntries h, fun _ => .arrived⟩

variable [DecidableEq I]

def move (s : LookupSystem I Key P O) (i : I) (cache : PlanCache Key P) (lookup : LookupPhase P O) :
    LookupSystem I Key P O :=
  ⟨cache, Function.update s.lookups i lookup⟩

variable [DecidableEq Key] [DecidableEq P] [SharedPlan P S (List (Stored V K)) O] [DecidableEq S]
  [PyEquality V Y] [DecidableEq Y] [DecidableEq K]

-- The steps of the requests. Each critical section of the cache is one step, and so is each validation.
inductive Step (requests : I → PlanRequest Key S V K O) (walk : I → P → Verdict)
    (s : LookupSystem I Key P O) : LookupSystem I Key P O → Prop
  | absent {i : I} :
    s.lookups i = .arrived → (s.cache.snapshot (requests i).key).snd = none →
      Step requests walk s (s.move i (s.cache.snapshot (requests i).key).fst .missed)
  | snapshot {i : I} {candidates : List P} :
    s.lookups i = .arrived → (s.cache.snapshot (requests i).key).snd = some candidates →
      Step requests walk s (s.move i (s.cache.snapshot (requests i).key).fst (.validating candidates))
  | reject {i : I} {candidate : P} {rest : List P} :
    s.lookups i = .validating (candidate :: rest) →
      (requests i).validate (walk i candidate) candidate = .rejects →
        Step requests walk s (s.move i s.cache (.validating rest))
  | accept {i : I} {candidate : P} {rest : List P} :
    s.lookups i = .validating (candidate :: rest) →
      (requests i).validate (walk i candidate) candidate = .accepts →
        Step requests walk s (s.move i s.cache (.accepted candidate))
  | raise {i : I} {candidate : P} {rest : List P} :
    s.lookups i = .validating (candidate :: rest) →
      (requests i).validate (walk i candidate) candidate = .raises →
        Step requests walk s (s.move i s.cache .failed)
  | hoist {i : I} {candidate : P} :
    s.lookups i = .accepted candidate →
      Step requests walk s
        (s.move i (s.cache.hoist (requests i).key candidate) (.served (SharedPlan.objectPlan candidate)))
  | miss {i : I} :
    s.lookups i = .validating [] → Step requests walk s (s.move i s.cache.miss .missed)
  | plan {i : I} {value : P} :
    s.lookups i = .missed → (requests i).Builds value →
      Step requests walk s (s.move i s.cache (.planned value))
  | store {i : I} {value : P} :
    s.lookups i = .planned value → (requests i).fresh.cacheable = true →
      Step requests walk s
        (s.move i (s.cache.put (requests i).key value) (.served (SharedPlan.objectPlan value)))
  | keep {i : I} {value : P} :
    s.lookups i = .planned value → (requests i).fresh.cacheable = false →
      Step requests walk s (s.move i s.cache (.served (SharedPlan.objectPlan value)))
  | clear : Step requests walk s { s with cache := s.cache.clear }

inductive Reachable (requests : I → PlanRequest Key S V K O) (walk : I → P → Verdict) (maxEntries : Nat)
    (h : 1 ≤ maxEntries) : LookupSystem I Key P O → Prop
  | init : Reachable requests walk maxEntries h (init maxEntries h)
  | step {s t : LookupSystem I Key P O} :
    Reachable requests walk maxEntries h s → Step requests walk s t → Reachable requests walk maxEntries h t

end LookupSystem

-- What planning an operation reads: inputs of its request, and what customizers select.
inductive OperationRead (A F V K : Type)
  | input (read : PlanRead A F V)
  | customizer (customizer : K) (arity : Nat)

inductive OperationObservation (V Y : Type)
  | input (observation : Observation V Y)
  | keys (keys : List String)

-- The planning of an operation. Of the predicates of a customizer it has what their keys tell.
abbrev Building (A F V Y K O : Type) :=
  Replay.Program (OperationRead A F V K) (OperationObservation V Y) (FinalizedPlan O)

section

variable {A F V Y K O : Type} [PyObject V Y] [DecidableEq Y]

namespace OperationRead

def observe (inputs : CacheRequest V K) : OperationRead A F V K → OperationObservation V Y
  | .input read     => .input (read.observe inputs.facts)
  | .customizer f n => .keys (inputs.freshKeys f n)

def record (inputs : CacheRequest V K) : OperationRead A F V K → List (Stored V K)
  | .input read     => (read.record inputs.facts).map .input
  | .customizer f n => [.customizer f n (inputs.freshKeys f n)]

def isDirectives : OperationRead A F V K → Bool
  | .input (.directives _ _) => true
  | _                        => false

def isCustomizer : OperationRead A F V K → Bool
  | .customizer _ _ => true
  | _               => false

end OperationRead

namespace Building

def run (building : Building A F V Y K O) (inputs : CacheRequest V K) :
    Replay.Run (OperationRead A F V K) (OperationObservation V Y) (FinalizedPlan O) :=
  Replay.Program.run (OperationRead.observe inputs) building

def reads (building : Building A F V Y K O) (inputs : CacheRequest V K) : List (OperationRead A F V K) :=
  (building.run inputs).reads.map Prod.fst

-- The constraints of directives come first, and those of customizers last.
def constraints (building : Building A F V Y K O) (inputs : CacheRequest V K) : List (Stored V K) :=
  let reads := building.reads inputs
  (reads.filter (·.isDirectives) ++ reads.filter (fun read => !read.isDirectives && !read.isCustomizer) ++
    reads.filter (·.isCustomizer)).flatMap (·.record inputs)

end Building

end

-- The variables of an operation, and what its planning does.
structure PlannedOperation (A F V Y K O : Type) where
  definitions : List String
  distinct    : definitions.Nodup
  building    : Building A F V Y K O

structure OperationRequest (Key S A F V Y K O : Type) where
  key       : Key
  schema    : S
  inputs    : CacheRequest V K
  operation : PlannedOperation A F V Y K O
  follows   : (inputs.facts.variableValues.map Prod.fst).Sublist operation.definitions

def OperationRequest.planRequest {Key S A F V Y K O : Type} [PyObject V Y] [DecidableEq Y]
    (request : OperationRequest Key S A F V Y K O) : PlanRequest Key S V K O where
  key         := request.key
  schema      := request.schema
  inputs      := request.inputs
  fresh       := (request.operation.building.run request.inputs).result
  constraints := request.operation.building.constraints request.inputs

end Grafast
