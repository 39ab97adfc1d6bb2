import Grafast.Request.Constraint

namespace Grafast

open PyObject

-- The value of an argument in a document.
inductive ValueNode (A : Type)
  | var (name : String)
  | list (values : List (ValueNode A))
  | object (fields : List (String × ValueNode A))
  | literal (value : A)

variable {A V Y : Type}

mutual

def ValueNode.nestedVariables : ValueNode A → List String
  | .var name      => [name]
  | .list values   => nestedVariablesOfValues values
  | .object fields => nestedVariablesOfFields fields
  | .literal _     => []

def nestedVariablesOfValues : List (ValueNode A) → List String
  | []              => []
  | value :: values => value.nestedVariables ++ nestedVariablesOfValues values

def nestedVariablesOfFields : List (String × ValueNode A) → List String
  | []                   => []
  | (_, value) :: fields => value.nestedVariables ++ nestedVariablesOfFields fields

end

-- Which arguments of a field come from variables: those that are a variable, with its name, and those that
-- have variables inside of a list or an object, with their names.
structure Provenance where
  variableSources    : List (String × String)
  nestedVariableArgs : List (String × List String)

def Provenance.variableArgs (p : Provenance) : List String :=
  p.variableSources.map Prod.fst

def directVariable? : ValueNode A → Option String
  | .var name => some name
  | _         => none

def nestedVariables? (value : ValueNode A) : Option (List String) :=
  if (directVariable? value).isSome ∨ value.nestedVariables = [] then none else some value.nestedVariables

def variableProvenance (arguments : List (String × ValueNode A)) : Provenance where
  variableSources    := arguments.filterMap fun arg => (directVariable? arg.snd).map (arg.fst, ·)
  nestedVariableArgs := arguments.filterMap fun arg => (nestedVariables? arg.snd).map (arg.fst, ·)

-- The coerced arguments of a field, with what a plan resolver has observed of them.
structure FieldArgs (V : Type) where
  args                      : List (String × V)
  provenance                : Provenance
  literalVariableReads      : List String
  placeholderedVariableArgs : List String
  membershipChecks          : List String
  equalityChecks            : List (String × V × Bool)

namespace FieldArgs

def init (args : List (String × V)) (provenance : Provenance) : FieldArgs V :=
  ⟨args, provenance, [], [], [], []⟩

def isVariable (a : FieldArgs V) (name : String) : Bool :=
  a.provenance.variableArgs.contains name

def isNested (a : FieldArgs V) (name : String) : Bool :=
  (a.provenance.nestedVariableArgs.map Prod.fst).contains name

def noteLiteralRead (a : FieldArgs V) (name : String) : FieldArgs V :=
  if a.isVariable name || a.isNested name then
    { a with literalVariableReads := name :: a.literalVariableReads }
  else
    a

-- The whole dictionary, which observes all arguments that come from variables.
def raw (a : FieldArgs V) : FieldArgs V :=
  { a with literalVariableReads :=
      a.provenance.variableArgs ++ a.provenance.nestedVariableArgs.map Prod.fst ++ a.literalVariableReads }

def contains (a : FieldArgs V) (name : String) : FieldArgs V × Bool :=
  let a := if a.isVariable name then { a with membershipChecks := name :: a.membershipChecks } else a
  (a, (a.args.lookup name).isSome)

-- The source tag of a placeholder for an argument. A variable inside of an argument has none.
def source (a : FieldArgs V) (name : String) : FieldArgs V × Option String :=
  if a.isNested name then (a, none) else
    let tag := "var:" ++ (a.provenance.variableSources.lookup name).getD name
    if a.isVariable name then
      ({ a with placeholderedVariableArgs := name :: a.placeholderedVariableArgs }, some tag)
    else
      (a, some tag)

def inlinedVariableArgs (a : FieldArgs V) : List String :=
  a.literalVariableReads.filter (!a.placeholderedVariableArgs.contains ·)

variable [PyObject V Y]

def get (a : FieldArgs V) (name : String) (default : V) : FieldArgs V × V :=
  (a.noteLiteralRead name, (a.args.lookup name).getD default)

variable [DecidableEq Y]

def compare (a : FieldArgs V) (name : String) (expected : V) : Bool :=
  valuesEqual (some ((a.args.lookup name).getD pyNone)) (some expected)

def evalIs (a : FieldArgs V) (name : String) (expected : V) : FieldArgs V × Bool :=
  let passed := a.compare name expected
  if a.isVariable name then
    ({ a with equalityChecks := a.equalityChecks ++ [(name, expected, passed)] }, passed)
  else if a.isNested name then
    ({ a with literalVariableReads := name :: a.literalVariableReads }, passed)
  else
    (a, passed)

end FieldArgs

-- What a plan resolver can do with the arguments of its field.
inductive ArgRead (V : Type)
  | get (name : String)
  | raw
  | contains (name : String)
  | evalIs (name : String) (expected : V)
  | source (name : String)

namespace FieldArgs

variable [PyObject V Y] [DecidableEq Y]

def perform (a : FieldArgs V) : ArgRead V → FieldArgs V
  | .get name             => a.noteLiteralRead name
  | .raw                  => a.raw
  | .contains name        => (a.contains name).fst
  | .evalIs name expected => (a.evalIs name expected).fst
  | .source name          => (a.source name).fst

-- The constraints on the variables of the arguments whose values have been observed.
def inlineConstraints (a : FieldArgs V) (variableValues : List (String × V)) : List (Constraint V) :=
  let names (arg : String) :=
    (a.provenance.variableSources.lookup arg).toList ++ (a.provenance.nestedVariableArgs.lookup arg).getD []
  ((a.inlinedVariableArgs.flatMap names).dedup.mergeSort).map fun name =>
    .value .variables [name] (variableValues.lookup name)

def equalityConstraints (a : FieldArgs V) (variableValues : List (String × V))
    (check : String × V × Bool) : List (Constraint V) :=
  match a.provenance.variableSources.lookup check.fst with
  | none      => []
  | some name =>
    let present := (variableValues.lookup name).isSome
    .exists .variables [name] present ::
      if present then [.equality .variables [name] check.snd.fst check.snd.snd] else []

def membershipConstraints (a : FieldArgs V) (variableValues : List (String × V)) (arg : String) :
    List (Constraint V) :=
  match a.provenance.variableSources.lookup arg with
  | none      => []
  | some name => [.exists .variables [name] (variableValues.lookup name).isSome]

end FieldArgs

variable [PyObject V Y] [DecidableEq Y]

-- Turns what one plan resolver has observed of its arguments into constraints on variables.
def recordFieldArgsConstraints (a : FieldArgs V) (variableValues : List (String × V)) : List (Constraint V) :=
  a.inlineConstraints variableValues ++
    a.equalityChecks.flatMap (a.equalityConstraints variableValues) ++
    (a.membershipChecks.dedup.mergeSort).flatMap (a.membershipConstraints variableValues)

end Grafast
