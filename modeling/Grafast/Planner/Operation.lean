import Grafast.Planner.Tree

namespace Grafast

-- What the planner asks of a step besides its class and parameters.
class PlanStep (K : Type) (Key : outParam Type) extends StepClass K Key where
  hoistable : K → Bool
  isRoot    : K → Bool
  isItem    : K → Bool

inductive OutputType (T : Type)
  | leaf (leafType : T)
  | object (objectType : T)
  | abstract (abstractType : T)
  | list (ofType : OutputType T)
  | nonNull (ofType : OutputType T)

namespace OutputType

variable {T L S : Type}

def isObject : OutputType T → Bool
  | leaf _         => false
  | object _       => true
  | abstract _     => false
  | list ofType    => ofType.isObject
  | nonNull ofType => ofType.isObject

-- The completer of a field. The plans of the concrete types of an abstract type are built when values
-- of these types are completed, each over a plan of its own.
def buildCompleter (child : ObjectPlan T L S) (abstractChildPlan : T → T → ObjectPlan T L S) :
    OutputType T → Completer T L S
  | leaf type      => .leaf type
  | object type    => .object type child
  | abstract type  => .abstract type (abstractChildPlan type)
  | list ofType    => .list (ofType.buildCompleter child abstractChildPlan)
  | nonNull ofType => .nonNull (ofType.buildCompleter child abstractChildPlan)

end OutputType

-- A plan resolver: the step objects that it constructs for a given parent step, and the one that it
-- returns. It can read everything that it reaches from the parent step.
abbrev PlanFn (K : Type) := Plan K → Ref → List (K × List Ref) × Ref

-- A selected field. `adapter` is the step of a field that has no plan resolver, or whose arguments
-- could not be coerced.
inductive Selection (T K : Type)
  | field (responseName fieldLabel : String) (type : OutputType T) (planFn : Option (PlanFn K))
    (adapter : K) (stream : Option StreamDirective) (subfields : List (Selection T K))

structure OperationDefinition (T K : Type) where
  rootStep          : K
  rootFields        : List (Selection T K)
  abstractChildPlan : T → T → OutputPlan T
  isMutation        : Bool
  hoist             : Bool

section

variable {T K Key : Type} [PlanStep K Key]

def Plan.constructAll (p : Plan K) (steps : List (K × List Ref)) : Plan K :=
  steps.foldl (fun p (kind, deps) => p.construct kind deps) p

-- The `ResolveStep` of a field that has no plan resolver.
def resolveStep (adapter : K) : PlanFn K :=
  fun p parentStep => ([(adapter, [parentStep])], p.heap.length)

-- Builds and registers the step of a field.
def planField (planFn : PlanFn K) (p : Plan K) (parentStep : Ref) : Option (Plan K × Ref) := do
  let (steps, step) := planFn p parentStep
  let p ← (p.constructAll steps).addStep step
  return (p, step)

variable (abstractChildPlan : T → T → OutputPlan T)

def planLayer (parentStep : Ref) : LayerPlan where
  parentStep    := parentStep
  effectSteps   := []
  runSteps      := []
  orderedSteps  := none
  hoistedIn     := []
  hoistedOutIds := []

mutual

def planFields (p : Plan K) (parentStep : Ref) :
    List (Selection T K) → Option (Plan K × List (FieldPlan T LayerPlan Ref))
  | []      => some (p, [])
  | f :: fs => do
    let (p, field) ← planSelection p parentStep f
    let (p, fields) ← planFields p parentStep fs
    return (p, field :: fields)

def planSelection (p : Plan K) (parentStep : Ref) :
    Selection T K → Option (Plan K × FieldPlan T LayerPlan Ref)
  | .field responseName fieldLabel type planFn adapter stream subfields => do
    let (p, step) ← planField (planFn.getD (resolveStep adapter)) p parentStep
    let (p, fields) ← if type.isObject then planFields p step subfields else some (p, [])
    let completer := type.buildCompleter ⟨fields, planLayer step⟩ abstractChildPlan
    return (p, ⟨responseName, fieldLabel, step, completer, stream⟩)

end

def planObject (p : Plan K) (parentStep : Ref) (fields : List (Selection T K)) :
    Option (Plan K × OutputPlan T) := do
  let (p, fields) ← planFields abstractChildPlan p parentStep fields
  return (p, ⟨fields, planLayer parentStep⟩)

end

end Grafast
