import Grafast.Pg.Ordering
import Grafast.Text.Envelope

namespace Grafast.KeysetCursor

open Sql Text

-- What cursors are made with: the hash of an order, and the texts of values that JSON does not have and of errors.
structure Python (O : Type) extends Runtime where
  hexdigest : List UInt8 → List Char
  isoformat : O → Str
  str       : O → Str
  reprJson  : Json → String
  sorted    : List Str → String

-- The value of a row in a column: one that JSON has, a date or a time, a decimal number, or any other.
inductive ColumnValue (O : Type)
  | native (value : Json.Native)
  | temporal (value : O)
  | decimal (value : O)
  | other (value : O)

variable {O : Type}

def encodeValue (python : Python O) : ColumnValue O → Json.Native
  | .native value   => value
  | .temporal value => .str (python.isoformat value)
  | .decimal value  => .str (python.str value)
  | .other value    => .str (python.str value)

def nullsName : Nulls → Str
  | .first => Str.ofString "first"
  | .last  => Str.ofString "last"

def boolText (b : Bool) : List Char :=
  if b then ['t', 'r', 'u', 'e'] else ['f', 'a', 'l', 's', 'e']

-- The array of a term: its column, its direction, and where it puts NULLs.
def termText (t : OrderTerm Str) : List Char :=
  '[' :: (Json.writeString t.column ++ ',' :: (boolText t.descending ++
    ',' :: (Json.writeString (nullsName t.effectiveNulls) ++ [']'])))

def moreTerms : List (OrderTerm Str) → List Char
  | []         => [']']
  | t :: terms => ',' :: (termText t ++ moreTerms terms)

-- The array of the terms, written without spaces.
def orderText : List (OrderTerm Str) → List Char
  | []         => ['[', ']']
  | t :: terms => '[' :: (termText t ++ moreTerms terms)

def orderDigest (python : Python O) (terms : List (OrderTerm Str)) : Str :=
  ((python.hexdigest (utf8 (orderText terms))).take 12).map .char

-- The values of the terms, up to the first column that the row does not have.
def orderValues (python : Python O) (row : List (Str × ColumnValue O)) :
    List (OrderTerm Str) → Except (Raised Empty) (List Json.Native)
  | []         => .ok []
  | t :: terms =>
    match row.lookup t.column with
    | none       =>
      .error (.valueError ("cannot encode keyset cursor: order column " ++ python.reprStr t.column ++
        " is not present in the row (available: " ++ python.sorted (row.map Prod.fst) ++
        "); order only by columns projected into the resource"))
    | some value =>
      match orderValues python row terms with
      | .error error => .error error
      | .ok values   => .ok (encodeValue python value :: values)

def encodeKeysetCursor (python : Python O) (terms : List (OrderTerm Str)) (row : List (Str × ColumnValue O)) :
    Except (Raised Empty) Str :=
  match orderValues python row terms with
  | .error error => .error error
  | .ok values   => encodeBody python.toRuntime Base64.standard (.str (orderDigest python terms) :: values)

def isStr (s : Str) : Json → Bool
  | .str t => t = s
  | _      => false

-- The payload is the digest of the order with one value for each of its terms.
def checkPayload (python : Python O) (terms : List (OrderTerm Str)) (repr : String) (payload : Json) :
    Except (Raised Empty) (List Json) :=
  match payload with
  | .array (digest :: values) =>
    if !isStr (orderDigest python terms) digest then
      .error (.valueError ("keyset cursor was minted for a different ordering (digest " ++ python.reprJson digest ++
        " != current " ++ python.reprStr (orderDigest python terms) ++ "); reject rather than misapply"))
    else if values.length ≠ terms.length then
      .error (.valueError ("keyset cursor has " ++ toString values.length ++ " values but the order has " ++
        toString terms.length ++ " columns"))
    else
      .ok values
  | _ => .error (malformed "keyset cursor" repr "not a value array")

def decodeKeysetCursor (python : Python O) (cursor : Str) (terms : List (OrderTerm Str)) :
    Except (Raised Empty) (List Json) :=
  match decodeBody python.toRuntime Base64.standard "keyset cursor" cursor with
  | .error error => .error error
  | .ok payload  => checkPayload python terms (python.reprStr cursor) payload

end Grafast.KeysetCursor
