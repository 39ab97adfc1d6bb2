import Grafast.Pg.Transform

namespace Grafast

variable {V : Type}

namespace PyFunction

end PyFunction

namespace Shout

instance : PyRepr (Option String) where
  repr value      := value.elim "None" fun text => "'" ++ text ++ "'"
  reprStr text    := "'" ++ text ++ "'"
  reprBytes bytes := "b'" ++ String.join (bytes.map fun b => "." ++ b.toNat.repr) ++ "'"

-- What Python makes of a call of a method of a string. Code without arguments does not take one.
def run : Interpreter (Option String)
  | .function fn, ⟨[some value], []⟩ =>
    if fn.code.layout = [] then
      .error (some "TypeError")
    else
      match fn.code.coNames with
      | ["upper"] => .ok (some value.toUpper)
      | ["lower"] => .ok (some value.toLower)
      | _         => .error (some "AttributeError")
  | _, _ => .error (some "TypeError")

end Shout

end Grafast
