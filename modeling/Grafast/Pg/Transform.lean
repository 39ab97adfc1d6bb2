import Mathlib.Data.List.Basic

namespace Grafast

-- What values print as, and strings and bytes.
class PyRepr (V : Type) where
  repr      : V → String
  reprStr   : String → String
  reprBytes : List UInt8 → String

-- A code object. `layout` is the rest of it: the arguments that it takes, its flags, its exception table.
structure PyCode (V : Type) where
  coCode   : List UInt8
  coConsts : List V
  coNames  : List String
  layout   : List V

-- A function of Python. `globals` are the names of its module, `closure` what its cells contain.
structure PyFunction (V : Type) where
  code       : PyCode V
  globals    : List (String × V)
  defaults   : Option (List V)
  kwdefaults : Option (List (String × V))
  closure    : List V

structure Args (V : Type) where
  positional : List V
  keywords   : List (String × V)

def Args.append {V : Type} (args args' : Args V) : Args V where
  positional := args.positional ++ args'.positional
  keywords   := args.keywords ++ args'.keywords

-- The callables of Python. A class or a builtin has an identity besides its name, and a builtin can be
-- bound to a receiver. `state` is the `__dict__` of an object, `slots` what else it holds.
inductive PyCallable (V : Type)
  | function (fn : PyFunction V)
  | method (receiver : V) (fn : PyFunction V)
  | builtin (module qualname : String) (identity : Nat) (receiver : Option V)
  | applied (fn : PyCallable V) (args : Args V) (state : List (String × V))
  | object (module qualname : String) (identity : Nat) (state : List (String × V)) (slots : List V)

-- What is called in the end: something that is not bound to any arguments.
inductive Target (V : Type)
  | function (fn : PyFunction V)
  | builtin (module qualname : String) (identity : Nat)
  | object (module qualname : String) (identity : Nat) (state : List (String × V)) (slots : List V)

-- What Python makes of a call.
abbrev Interpreter (V : Type) := Target V → Args V → Except V V

namespace PyCallable

variable {V : Type}

-- A method passes its receiver on, and a `functools.partial` its arguments.
def call (run : Interpreter V) : PyCallable V → Args V → Except V V
  | function fn, args                                 => run (.function fn) args
  | method receiver fn, args                          => run (.function fn) (.append ⟨[receiver], []⟩ args)
  | builtin module qualname identity receiver, args   =>
    run (.builtin module qualname identity) (.append ⟨receiver.toList, []⟩ args)
  | applied fn args _, args'                          => fn.call run (.append args args')
  | object module qualname identity state slots, args => run (.object module qualname identity state slots) args

-- What is found at `__code__` and beside it. A method gives that of its function.
def code? : PyCallable V → Option (PyFunction V)
  | function fn | method _ fn => some fn
  | _                         => none

-- What is found at `__module__` and `__qualname__` of a callable without code.
def qualname? : PyCallable V → Option (String × String)
  | builtin module qualname _ _ => some (module, qualname)
  | _                           => none

-- The module and the name of the type of a callable without either.
def typeName : PyCallable V → String × String
  | applied _ _ _                => ("functools", "partial")
  | object module qualname _ _ _ => (module, qualname)
  | _                            => ("builtins", "object")

def state : PyCallable V → List (String × V)
  | applied _ _ state | object _ _ _ state _ => state
  | _                                        => []

end PyCallable

-- What a tuple and a dictionary print as, from the texts of their elements.
def reprTuple : List String → String
  | [item] => "(" ++ item ++ ",)"
  | items  => "(" ++ ", ".intercalate items ++ ")"

def reprDict (items : List (String × String)) : String :=
  "\x7b" ++ ", ".intercalate (items.map fun item => item.fst ++ ": " ++ item.snd) ++ "\x7d"

variable {V : Type} [PyRepr V]

namespace PyFunction

variable (fn : PyFunction V)

def reprDefaults : String :=
  match fn.defaults with
  | none        => "None"
  | some values => reprTuple (values.map PyRepr.repr)

def reprKwdefaults : String :=
  match fn.kwdefaults with
  | none       => "None"
  | some items => reprDict (items.map fun item => (PyRepr.reprStr V item.fst, PyRepr.repr item.snd))

def reprClosure : String :=
  reprTuple (fn.closure.map fun value => PyRepr.reprStr V (PyRepr.repr value))

end PyFunction

-- The attributes of an object, by their names.
def reprState (state : List (String × V)) : String :=
  let items := (state.map fun item => (item.fst, PyRepr.repr item.snd)).mergeSort (·.fst ≤ ·.fst)
  reprTuple (items.map fun item => reprTuple [PyRepr.reprStr V item.fst, PyRepr.reprStr V item.snd])

def transformKey (fn : PyCallable V) : String :=
  match fn.code? with
  | some f =>
    "code:" ++ PyRepr.reprBytes V f.code.coCode ++ ":" ++ reprTuple (f.code.coConsts.map PyRepr.repr) ++ ":" ++
      f.reprDefaults ++ ":" ++ f.reprKwdefaults ++ ":" ++ f.reprClosure
  | none   =>
    match fn.qualname? with
    | some (module, qualname) => "named:" ++ module ++ "." ++ qualname
    | none                    =>
      "obj:" ++ fn.typeName.fst ++ "." ++ fn.typeName.snd ++ ":" ++ reprState fn.state

end Grafast
