import Grafast.Replay.Program
import Grafast.Request.Document
import Grafast.Request.Gate

namespace Grafast

open PyObject

-- A use of the gate of the context that it refuses.
inductive Refusal
  | defaulted (key : String)
  | membership (key : String)
  | iteration
  deriving DecidableEq

-- What planning reads of its request: what plan resolvers read through the gate of the context and the tracked
-- variables, and the arguments of directives.
inductive PlanRead (A F V : Type)
  | tracked (read : GateRead V)
  | token (key : String)
  | refused (refusal : Refusal)
  | directives (selectionSet : List (SelectionNode A F)) (fragments : Fragments A F)

-- What a read comes out as for the one who reads. The message of an attribute error has the type of the context.
inductive Observation (V Y : Type)
  | value (value : V)
  | absent
  | outcome (passed : Bool)
  | names (names : List String)
  | values (values : List (Option V))
  | token (source : String)
  | keyError (key : String)
  | attributeError (type : Y) (key : String)
  | typeError (refusal : Refusal)

variable {A F V Y P : Type} [PyObject V Y]

-- A key that is missing raises what the context raises for it.
def ContextGate.missing (context : V) (key : String) : Observation V Y :=
  if (keys context).isSome then .keyError key else .attributeError (typeOf context) key

-- The variables that the directives of an operation refer to.
def directiveVariables (selectionSet : List (SelectionNode A F)) (fragments : Fragments A F) : List String :=
  (fragments.scanSelectionSet [] selectionSet).dedup.mergeSort

variable [DecidableEq Y]

def GateRead.observe (facts : RequestFacts V) : GateRead V → Observation V Y
  | .eval key            =>
    (ContextGate.read facts.contextValue key).elim (ContextGate.missing facts.contextValue key) .value
  | .evalIs key expected =>
    (ContextGate.read facts.contextValue key).elim (ContextGate.missing facts.contextValue key)
      fun v => .outcome (valuesEqual (some v) (some expected))
  | .evalHas key         => .outcome (ContextGate.has facts.contextValue key)
  | .getItem name        => (facts.variableValues.lookup name).elim (.keyError name) .value
  | .get name            => (facts.variableValues.lookup name).elim .absent .value
  | .contains name       => .outcome (facts.variableValues.any fun item => name.equals item.fst)
  | .enumerate           => .names (facts.variableValues.map Prod.fst)

namespace PlanRead

def observe (facts : RequestFacts V) : PlanRead A F V → Observation V Y
  | .tracked read                      => read.observe facts
  | .token key                         => .token ("ctx:" ++ key)
  | .refused refusal                   => .typeError refusal
  | .directives selectionSet fragments =>
    .values ((directiveVariables selectionSet fragments).map fun name => facts.variableValues.lookup name)

def record (facts : RequestFacts V) : PlanRead A F V → List (Constraint V)
  | .tracked read                      => read.record facts
  | .token _                           => []
  | .refused _                         => []
  | .directives selectionSet fragments => directiveVariableConstraints selectionSet fragments facts.variableValues

end PlanRead

-- The planning of an operation: the plan resolvers of its fields one after another. It ends in a plan, or in an
-- exception that it lets through.
abbrev Planning (A F V Y P : Type) := Replay.Program (PlanRead A F V) (Observation V Y) P

-- A plan that is stored, with the constraints of its requests.
structure BuiltPlan (V P : Type) where
  constraints : List (Constraint V)
  plan        : P

namespace Planning

def run (planning : Planning A F V Y P) (facts : RequestFacts V) :
    Replay.Run (PlanRead A F V) (Observation V Y) P :=
  Replay.Program.run (PlanRead.observe facts) planning

def build (planning : Planning A F V Y P) (facts : RequestFacts V) : BuiltPlan V P where
  constraints := (planning.run facts).reads.flatMap (·.fst.record facts)
  plan        := (planning.run facts).result

end Planning

-- The first candidate whose constraints hold for a request.
def serve (candidates : List (BuiltPlan V P)) (facts : RequestFacts V) : Option (BuiltPlan V P) :=
  candidates.find? fun candidate => constraintsMatch candidate.constraints facts

end Grafast
