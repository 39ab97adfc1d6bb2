import Grafast.Request.FieldArgs

namespace Grafast

open PyObject

variable {A V Y : Type} [PyObject V Y]

-- The values of a request by the source tags of placeholders. A declared variable that is omitted is null.
def valuesBySource (variableValues : List (String × V)) (declared : List String) : List (String × V) :=
  declared.foldl (fun mapping name =>
    if (mapping.lookup ("var:" ++ name)).isSome then mapping else mapping ++ [("var:" ++ name, pyNone)])
    (variableValues.map fun item => ("var:" ++ item.fst, item.snd))

-- What a placeholder is bound to.
def boundValue (sourceValues : List (String × V)) (source : String) : V :=
  (sourceValues.lookup source).getD pyNone

-- An argument of a field definition, whose value is stored under `outName`.
structure ArgumentDefinition (V : Type) where
  name         : String
  outName      : String
  defaultValue : Option V
  nonNull      : Bool

-- The coercion of the arguments of a field by the GraphQL library, which fails where a value is missing. An
-- argument that is a variable has the value of the variable, or else its default if the variable is omitted.
structure ArgumentCoercion (A V : Type) where
  getArgumentValues : List (ArgumentDefinition V) → List (String × ValueNode A) → List (String × V) →
    Option (List (String × V))
  lookup_var {defs : List (ArgumentDefinition V)} {arguments : List (String × ValueNode A)}
    {variableValues args : List (String × V)} {d : ArgumentDefinition V} {name : String} :
    (defs.map (·.outName)).Nodup → d ∈ defs → arguments.lookup d.name = some (.var name) →
    getArgumentValues defs arguments variableValues = some args →
    args.lookup d.outName = (variableValues.lookup name).orElse fun _ => d.defaultValue

-- The placeholder of an argument is bound to the value that a resolver would inline.
def BoundAsInlined (arguments : List (String × ValueNode A)) (args variableValues : List (String × V))
    (declared : List String) (arg : String) : Prop :=
  ∃ source, ((FieldArgs.init args (variableProvenance arguments)).source arg).snd = some source ∧
    boundValue (valuesBySource variableValues declared) source = (args.lookup arg).getD pyNone

-- What is stored under the name of an argument that is a variable is the value of that variable. Another argument may
-- be stored there, or none at all, where the definition has an out name.
def StoredAsVariable (defs : List (ArgumentDefinition V)) (args variableValues : List (String × V))
    (d : ArgumentDefinition V) (name : String) : Prop :=
  match defs.find? (·.outName = d.name) with
  | none       => (variableValues.lookup name).getD pyNone = pyNone
  | some other =>
    if other.name = d.name then
      (variableValues.lookup name).isSome = true ∨ d.defaultValue.getD pyNone = pyNone
    else
      (variableValues.lookup name).getD pyNone = (args.lookup other.outName).getD pyNone

end Grafast
