import Grafast.Dag.Passes

namespace Grafast

-- The arguments of a `@stream` directive, or why they could not be coerced.
inductive StreamDirective
  | error (message : String)
  | args (initialCount : Int) (label : Option String)

mutual

-- How the values of a field become output: the wrapping types of the field down to the type of its
-- values. `L` are the batch boundaries of object plans, `S` are the steps of their fields. An abstract
-- type has a plan for each concrete type, which is planned on its own.
inductive Completer (T L S : Type)
  | leaf (leafType : T)
  | object (objectType : T) (childPlan : ObjectPlan T L S)
  | abstract (abstractType : T) (childPlan : T → ObjectPlan T L S)
  | list (itemCompleter : Completer T L S)
  | nonNull (inner : Completer T L S)

structure FieldPlan (T L S : Type) where
  responseName : String
  fieldLabel   : String
  step         : S
  completer    : Completer T L S
  stream       : Option StreamDirective

structure ObjectPlan (T L S : Type) where
  fields : List (FieldPlan T L S)
  layer  : L

end

variable {T L S : Type}

-- The child plan of the object completer at the end of a chain of wrappers.
def Completer.findObject : Completer T L S → Option (ObjectPlan T L S)
  | .leaf _           => none
  | .object _ child   => some child
  | .abstract _ _     => none
  | .list item        => item.findObject
  | .nonNull inner    => inner.findObject

-- Rebuilds a chain of wrappers with another child plan at its end.
def Completer.attachChildPlan (child : ObjectPlan T L S) : Completer T L S → Completer T L S
  | .leaf type            => .leaf type
  | .object type _        => .object type child
  | .abstract type plans  => .abstract type plans
  | .list item            => .list (item.attachChildPlan child)
  | .nonNull inner        => .nonNull (inner.attachChildPlan child)

mutual

-- Rebuilds a tree from the leaves: the steps of fields, and then the layers in view of the rebuilt
-- steps of their fields.
def ObjectPlan.rebuild (onStep : S → S) (onLayer : List S → L → L) : ObjectPlan T L S → ObjectPlan T L S
  | ⟨fields, layer⟩ =>
    let fields := rebuildFields onStep onLayer fields
    ⟨fields, onLayer (fields.map (·.step)) layer⟩

def rebuildFields (onStep : S → S) (onLayer : List S → L → L) :
    List (FieldPlan T L S) → List (FieldPlan T L S)
  | []      => []
  | f :: fs => f.rebuild onStep onLayer :: rebuildFields onStep onLayer fs

def FieldPlan.rebuild (onStep : S → S) (onLayer : List S → L → L) : FieldPlan T L S → FieldPlan T L S
  | ⟨name, label, step, completer, stream⟩ =>
    ⟨name, label, onStep step, completer.rebuild onStep onLayer, stream⟩

def Completer.rebuild (onStep : S → S) (onLayer : List S → L → L) : Completer T L S → Completer T L S
  | .leaf type            => .leaf type
  | .object type child    => .object type (child.rebuild onStep onLayer)
  | .abstract type plans  => .abstract type plans
  | .list item            => .list (item.rebuild onStep onLayer)
  | .nonNull inner        => .nonNull (inner.rebuild onStep onLayer)

end

-- The batch boundary of a bucket: `parentStep` is the step whose column are the bucket's parents.
structure LayerPlan where
  parentStep    : Ref
  effectSteps   : List Ref
  runSteps      : List Ref
  orderedSteps  : Option (List Ref)
  hoistedIn     : List Ref
  hoistedOutIds : List (Option Nat)

-- The output plan of an operation.
abbrev OutputPlan (T : Type) := ObjectPlan T LayerPlan Ref

mutual

-- The object plans of a tree from the top down, each with the parent steps of the enclosing layers.
def ObjectPlan.scopes (above : List Ref) : OutputPlan T → List (List Ref × OutputPlan T)
  | ⟨fields, layer⟩ => (above, ⟨fields, layer⟩) :: fieldScopes (layer.parentStep :: above) fields

def fieldScopes (above : List Ref) : List (FieldPlan T LayerPlan Ref) → List (List Ref × OutputPlan T)
  | []                                 => []
  | ⟨_, _, _, completer, _⟩ :: fields => completer.scopes above ++ fieldScopes above fields

def Completer.scopes (above : List Ref) : Completer T LayerPlan Ref → List (List Ref × OutputPlan T)
  | .leaf _         => []
  | .object _ child => child.scopes above
  | .abstract _ _   => []
  | .list item      => item.scopes above
  | .nonNull inner  => inner.scopes above

end

-- An object plan of a tree, with the parent steps of the enclosing layers.
inductive ObjectPlan.Has (t : OutputPlan T) : List Ref → OutputPlan T → Prop
  | top : Has t [] t
  | child {above : List Ref} {op child : OutputPlan T} {f : FieldPlan T LayerPlan Ref} :
    Has t above op → f ∈ op.fields → f.completer.findObject = some child →
    Has t (op.layer.parentStep :: above) child

end Grafast
