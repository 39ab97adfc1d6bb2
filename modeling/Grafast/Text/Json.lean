import Grafast.Text.Unicode

namespace Text

-- A JSON value. A number with a fraction or an exponent, and a constant such as NaN, is kept as its text.
inductive Json
  | null
  | bool (b : Bool)
  | int (i : Int)
  | float (text : List Char)
  | str (s : Str)
  | array (items : List Json)
  | object (members : List (Str × Json))

-- The limits of an interpreter: how many arrays and objects may be open at once while it reads, and how many
-- digits an integer may have as a text, where 0 stands for no limit.
structure Limits where
  maxDepth     : Nat
  maxStrDigits : Nat
  maxDepth_pos : 0 < maxDepth

-- The limits that an interpreter starts with.
def Limits.initial : Limits where
  maxDepth     := 1000
  maxStrDigits := 4300
  maxDepth_pos := Nat.succ_pos 999

def tooLong (maxStrDigits digits : Nat) : Bool :=
  maxStrDigits != 0 && maxStrDigits < digits

namespace Json

section Write

def hex4 (u : Nat) : List Char :=
  [Nat.digitChar (u / 4096 % 16), Nat.digitChar (u / 256 % 16), Nat.digitChar (u / 16 % 16),
    Nat.digitChar (u % 16)]

def escapeUnit (u : Nat) : List Char :=
  '\\' :: 'u' :: hex4 u

-- The characters that have a short escape, with it.
def shortEscapes : List (Char × Char) :=
  [('"', '"'), ('\\', '\\'), ('\n', 'n'), ('\r', 'r'), ('\t', 't'), ('\x0c', 'f'), ('\x08', 'b')]

-- What is not a printable character of ASCII is written by its units.
def escape (c : CodePoint) : List Char :=
  match c with
  | .surrogate _ => c.units.flatMap escapeUnit
  | .char x      =>
    match shortEscapes.lookup x with
    | some e => ['\\', e]
    | none   => if 0x20 ≤ x.toNat ∧ x.toNat ≤ 0x7e then [x] else c.units.flatMap escapeUnit

def writeString (s : Str) : List Char :=
  '"' :: s.flatMap escape ++ ['"']

def writeInt (i : Int) : List Char :=
  if i < 0 then '-' :: Nat.toDigits 10 i.natAbs else Nat.toDigits 10 i.natAbs

-- The values that the strings, numbers and constants of Python are.
inductive Native
  | null
  | bool (b : Bool)
  | int (i : Int)
  | str (s : Str)
  deriving DecidableEq

def Native.toJson : Native → Json
  | null   => .null
  | bool b => .bool b
  | int i  => .int i
  | str s  => .str s

-- An integer with too many digits is not written.
def Native.dumps (limits : Limits) : Native → Option (List Char)
  | null       => some ['n', 'u', 'l', 'l']
  | bool true  => some ['t', 'r', 'u', 'e']
  | bool false => some ['f', 'a', 'l', 's', 'e']
  | int i      =>
    if tooLong limits.maxStrDigits (Nat.toDigits 10 i.natAbs).length then none else some (writeInt i)
  | str s      => some (writeString s)

def dumpsItems (limits : Limits) : List Native → Option (List Char)
  | []              => some []
  | [item]          => item.dumps limits
  | item :: rest    => do
    let text ← item.dumps limits
    let texts ← dumpsItems limits rest
    return text ++ ',' :: texts

-- An array, written without spaces.
def dumps (limits : Limits) (items : List Native) : Option (List Char) :=
  (dumpsItems limits items).map fun texts => '[' :: texts ++ [']']

end Write

section Read

-- Why a text is not read: it is no JSON, it has an integer of too many digits, or too many arrays and objects are
-- open.
inductive ScanError
  | invalid
  | digits
  | recursion
  deriving DecidableEq

-- What is read from the beginning of a text, with the rest of it.
abbrev Scan (α : Type) := Except ScanError (α × List Char)

-- Goes on with what is read and the rest of the text.
def andThen {α β : Type} (scan : Scan α) (next : α → List Char → Scan β) : Scan β :=
  match scan with
  | .error error => .error error
  | .ok p        => next p.fst p.snd

def isSpace (c : Char) : Bool :=
  c = ' ' || c = '\t' || c = '\n' || c = '\r'

def skipSpace (text : List Char) : List Char :=
  text.dropWhile isSpace

def hexValue (c : Char) : Option Nat :=
  if '0' ≤ c ∧ c ≤ '9' then some (c.toNat - '0'.toNat)
  else if 'a' ≤ c ∧ c ≤ 'f' then some (c.toNat - 'a'.toNat + 10)
  else if 'A' ≤ c ∧ c ≤ 'F' then some (c.toNat - 'A'.toNat + 10)
  else none

def hex4Value (a b c d : Char) : Option Nat := do
  return (((← hexValue a) * 16 + (← hexValue b)) * 16 + (← hexValue c)) * 16 + (← hexValue d)

def simpleEscape (c : Char) : Option Char :=
  if c = '/' then some '/' else (shortEscapes.find? (·.snd = c)).map (·.fst)

-- The code points up to the end of a string, and the text after it.
def unescape : List Char → Option (Str × List Char)
  | []        => none
  | c :: rest =>
    if c = '"' then some ([], rest)
    else if c = '\\' then
      match rest with
      | []        => none
      | e :: rest =>
        if e = 'u' then
          match rest with
          | x :: y :: z :: w :: rest =>
            (hex4Value x y z w).bind fun u => (unescape rest).map fun p => (.ofUnit u :: p.fst, p.snd)
          | _ => none
        else
          (simpleEscape e).bind fun x => (unescape rest).map fun p => (.char x :: p.fst, p.snd)
    else if c.toNat < 0x20 then none
    else (unescape rest).map fun p => (.char c :: p.fst, p.snd)

-- Escapes that are a pair of surrogates are one character.
def scanString (text : List Char) : Scan Str :=
  match unescape text with
  | none   => .error .invalid
  | some p => .ok (joinPairs p.fst, p.snd)

-- The digits at the beginning of a text, and the text after them.
def scanDigits (text : List Char) : List Char × List Char :=
  (text.takeWhile Char.isDigit, text.dropWhile Char.isDigit)

-- A sign at the beginning of a text, if there is one of the given ones.
def scanSign (signs text : List Char) : List Char × List Char :=
  match text with
  | []        => ([], [])
  | c :: rest => if signs.contains c then ([c], rest) else ([], text)

-- After a zero there are no further digits.
def scanInteger (text : List Char) : Option (List Char × List Char) :=
  match text with
  | []        => none
  | d :: rest => if d = '0' then some (['0'], rest) else if d.isDigit then some (scanDigits text) else none

def scanFraction (text : List Char) : List Char × List Char :=
  match text with
  | []        => ([], [])
  | c :: rest =>
    let digits := scanDigits rest
    if c = '.' ∧ digits.fst ≠ [] then ('.' :: digits.fst, digits.snd) else ([], text)

def scanExponent (text : List Char) : List Char × List Char :=
  match text with
  | []        => ([], [])
  | c :: rest =>
    let sign := scanSign ['+', '-'] rest
    let digits := scanDigits sign.snd
    if (c = 'e' ∨ c = 'E') ∧ digits.fst ≠ [] then (c :: sign.fst ++ digits.fst, digits.snd) else ([], text)

-- A number is an integer unless it has a fraction or an exponent.
def scanNumber (maxStrDigits : Nat) (text : List Char) : Scan Json :=
  let sign := scanSign ['-'] text
  match scanInteger sign.snd with
  | none         => .error .invalid
  | some integer =>
    let fraction := scanFraction integer.snd
    let exponent := scanExponent fraction.snd
    if fraction.fst = [] ∧ exponent.fst = [] then
      if tooLong maxStrDigits integer.fst.length then .error .digits
      else
        let n : Int := Nat.ofDigitChars 10 integer.fst 0
        .ok (.int (if sign.fst = [] then n else -n), exponent.snd)
    else
      .ok (.float (sign.fst ++ integer.fst ++ fraction.fst ++ exponent.fst), exponent.snd)

def constants : List (List Char × Json) :=
  [(['n', 'u', 'l', 'l'], .null), (['t', 'r', 'u', 'e'], .bool true), (['f', 'a', 'l', 's', 'e'], .bool false),
    (['N', 'a', 'N'], .float ['N', 'a', 'N']),
    (['I', 'n', 'f', 'i', 'n', 'i', 't', 'y'], .float ['I', 'n', 'f', 'i', 'n', 'i', 't', 'y']),
    (['-', 'I', 'n', 'f', 'i', 'n', 'i', 't', 'y'], .float ['-', 'I', 'n', 'f', 'i', 'n', 'i', 't', 'y'])]

-- A value that is neither a string nor an array nor an object.
def scanPlain (maxStrDigits : Nat) (text : List Char) : Scan Json :=
  match constants.find? (·.fst.isPrefixOf text) with
  | some constant => .ok (constant.snd, text.drop constant.fst.length)
  | none          => scanNumber maxStrDigits text

variable {α : Type}

-- The entries of an array or an object up to its end, of which there is one at least. Each of them takes some of
-- the text.
def scanEntries (close : Char) (scan : List Char → Scan α) : Nat → List Char → Scan (List α)
  | 0,        _    => .error .invalid
  | fuel + 1, text => andThen (scan text) fun entry rest =>
    match skipSpace rest with
    | []        => .error .invalid
    | c :: rest =>
      if c = close then .ok ([entry], rest)
      else if c = ',' then
        andThen (scanEntries close scan fuel (skipSpace rest)) fun entries rest => .ok (entry :: entries, rest)
      else .error .invalid

def scanBracketed (close : Char) (scan : List Char → Scan α) (text : List Char) : Scan (List α) :=
  match skipSpace text with
  | []        => .error .invalid
  | c :: rest => if c = close then .ok ([], rest) else scanEntries close scan (rest.length + 1) (c :: rest)

def scanMember (scan : List Char → Scan Json) (text : List Char) : Scan (Str × Json) :=
  match text with
  | []        => .error .invalid
  | c :: rest =>
    if c = '"' then
      andThen (scanString rest) fun key rest =>
        match skipSpace rest with
        | []        => .error .invalid
        | c :: rest =>
          if c = ':' then andThen (scan (skipSpace rest)) fun value rest => .ok ((key, value), rest)
          else .error .invalid
    else .error .invalid

-- A value, given how the values inside of it are read, if one more array or object may be opened.
def scanValue (maxStrDigits : Nat) (inner : Option (List Char → Scan Json)) (text : List Char) : Scan Json :=
  match text with
  | []        => .error .invalid
  | c :: rest =>
    if c = '"' then andThen (scanString rest) fun s rest => .ok (.str s, rest)
    else if c = '[' then
      match inner with
      | none      => .error .recursion
      | some scan => andThen (scanBracketed ']' scan rest) fun items rest => .ok (.array items, rest)
    else if c = '{' then
      match inner with
      | none      => .error .recursion
      | some scan => andThen (scanBracketed '}' (scanMember scan) rest) fun members rest => .ok (.object members, rest)
    else scanPlain maxStrDigits text

-- A value that opens a number of arrays and objects at most.
def scanOnce (maxStrDigits : Nat) : Nat → List Char → Scan Json
  | 0         => scanValue maxStrDigits none
  | depth + 1 => scanValue maxStrDigits (some (scanOnce maxStrDigits depth))

def loads (limits : Limits) (text : List Char) : Except ScanError Json :=
  if text.head? = some '\uFEFF' then .error .invalid
  else
    match scanOnce limits.maxStrDigits limits.maxDepth (skipSpace text) with
    | .error error => .error error
    | .ok p        => if (skipSpace p.snd).isEmpty then .ok p.fst else .error .invalid

end Read

end Json

end Text
