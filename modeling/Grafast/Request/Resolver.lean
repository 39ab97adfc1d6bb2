import Grafast.Replay.Program
import Grafast.Request.Source

namespace Grafast

-- The coercion of arguments as far as it tells what each of them comes from: the arguments of the definitions in
-- their order, and for each of them the variables inside of its value. A value that is not a variable is given in
-- each request.
structure ArgumentCoercion.Local {A V : Type} (c : ArgumentCoercion A V) : Prop where
  keys_sublist {defs : List (ArgumentDefinition V)} {arguments : List (String × ValueNode A)}
    {variableValues args : List (String × V)} :
    c.getArgumentValues defs arguments variableValues = some args →
      (args.map Prod.fst).Sublist (defs.map (·.outName))
  lookup_congr {defs : List (ArgumentDefinition V)} {arguments : List (String × ValueNode A)}
    {v v' args args' : List (String × V)} {key : String} :
    (∀ d ∈ defs, d.outName = key → ∀ value, arguments.lookup d.name = some value →
      ∀ name ∈ value.nestedVariables, v'.lookup name = v.lookup name) →
    c.getArgumentValues defs arguments v = some args → c.getArgumentValues defs arguments v' = some args' →
      args'.lookup key = args.lookup key
  isSome_given {defs : List (ArgumentDefinition V)} {arguments : List (String × ValueNode A)}
    {variableValues args : List (String × V)} {d : ArgumentDefinition V} {value : ValueNode A} :
    (defs.map (·.outName)).Nodup → d ∈ defs → arguments.lookup d.name = some value →
    directVariable? value = none → c.getArgumentValues defs arguments variableValues = some args →
      (args.lookup d.outName).isSome = true

-- What a plan resolver does with the arguments of its field.
inductive ArgsUse (V : Type)
  | read (read : ArgRead V)
  | iterate

-- What comes out of it. Iterating raises, as there is no argument with the name 0.
inductive ArgsObservation (V : Type)
  | item (value : Option V)
  | items (args : List (String × V))
  | outcome (passed : Bool)
  | source (tag : Option String)
  | notIterable

variable {A V Y P : Type} [PyObject V Y] [DecidableEq Y]

-- The variables whose values have been observed.
def FieldArgs.observedVariables (a : FieldArgs V) : List String :=
  a.inlinedVariableArgs.flatMap fun arg =>
    (a.provenance.variableSources.lookup arg).toList ++ (a.provenance.nestedVariableArgs.lookup arg).getD []

-- Reads of values that are not recorded, as the source of a placeholder has been taken for the argument as well.
def ArgRead.Netted (a : FieldArgs V) : ArgRead V → Prop
  | .get name => name ∈ a.placeholderedVariableArgs
  | .raw      => a.placeholderedVariableArgs ≠ []
  | _         => False

namespace ArgsUse

def Netted (a : FieldArgs V) : ArgsUse V → Prop
  | .read r  => r.Netted a
  | .iterate => False

def observe (a : FieldArgs V) : ArgsUse V → ArgsObservation V
  | .read (.get name)             => .item (a.args.lookup name)
  | .read .raw                    => .items a.args
  | .read (.contains name)        => .outcome (a.contains name).snd
  | .read (.evalIs name expected) => .outcome (a.evalIs name expected).snd
  | .read (.source name)          => .source (a.source name).snd
  | .iterate                      => .notIterable

def perform (a : FieldArgs V) : ArgsUse V → FieldArgs V
  | .read r  => a.perform r
  | .iterate => a

end ArgsUse

-- A plan resolver, as far as it reads the arguments of its field.
abbrev Resolver (V P : Type) := Replay.Program (ArgsUse V) (ArgsObservation V) P

namespace Resolver

-- The run of a resolver on coerced arguments.
def run (resolver : Resolver V P) (a : FieldArgs V) : Replay.Run (ArgsUse V) (ArgsObservation V) P :=
  Replay.Program.run (ArgsUse.observe a) resolver

-- The arguments with all that a run has observed of them.
def after (resolver : Resolver V P) (a : FieldArgs V) : FieldArgs V :=
  ((resolver.run a).reads.map Prod.fst).foldl ArgsUse.perform a

-- The constraints that planning records after the resolver of a field has run.
def constraints (resolver : Resolver V P) (a : FieldArgs V) (variableValues : List (String × V)) :
    List (Constraint V) :=
  recordFieldArgsConstraints (resolver.after a) variableValues

end Resolver

end Grafast
