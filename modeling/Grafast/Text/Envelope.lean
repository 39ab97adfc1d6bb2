import Grafast.Text.Base64
import Grafast.Text.Dumps

namespace Text

namespace Base64

-- A way to write bytes in ASCII, from which they are read.
structure Alphabet where
  encode        : List UInt8 → List UInt8
  decode        : List UInt8 → Option (List UInt8)
  decode_encode : ∀ bytes, decode (encode bytes) = some bytes
  encode_ascii  : ∀ bytes, ∀ b ∈ encode bytes, b.toNat < 128

def standard : Alphabet where
  encode        := b64encode
  decode        := a2bBase64
  decode_encode := fun _ => a2bBase64_b64encode
  encode_ascii  := fun _ _ h => (b64encode_ascii h).left

def urlSafe : Alphabet where
  encode        := urlsafeB64encode
  decode        := urlsafeB64decode
  decode_encode := fun _ => urlsafeB64decode_urlsafeB64encode
  encode_ascii  := fun _ => urlsafeB64encode_ascii

end Base64

open Base64

-- Where the body of a string is malformed.
inductive BodyError
  | surrogates
  | base64
  | utf8
  | json (error : Json.ScanError)

-- What is raised: a `ValueError` with its text, the `RecursionError` of a text that is nested too deeply, or what else
-- a value raises of its own.
inductive Raised (E : Type)
  | valueError (text : String)
  | recursionError
  | other (error : E)

-- The limits of an interpreter, and the texts that it gives for strings and for errors.
structure Runtime where
  limits  : Limits
  reprStr : Str → String
  detail  : BodyError → String
  digits  : String

-- A text in ASCII.
def wrap (alphabet : Alphabet) (text : List Char) : Str :=
  Str.ofAscii (alphabet.encode (utf8 text))

-- The text of a string.
def bodyText (alphabet : Alphabet) (s : Str) : Except BodyError (List Char) :=
  match s.encode with
  | none       => .error .surrogates
  | some bytes =>
    match alphabet.decode bytes with
    | none     => .error .base64
    | some raw =>
      match ofUtf8 raw with
      | none      => .error .utf8
      | some text => .ok text

variable {E : Type}

def malformed (what repr detail : String) : Raised E :=
  .valueError ("malformed " ++ what ++ " " ++ repr ++ ": " ++ detail)

-- The JSON of a string. Only a `ValueError` of its body is caught.
def decodeBody (python : Runtime) (alphabet : Alphabet) (what : String) (s : Str) : Except (Raised E) Json :=
  match bodyText alphabet s with
  | .error error => .error (malformed what (python.reprStr s) (python.detail error))
  | .ok text     =>
    match Json.loads python.limits text with
    | .error .recursion => .error .recursionError
    | .error error      => .error (malformed what (python.reprStr s) (python.detail (.json error)))
    | .ok payload       => .ok payload

-- The array of values, as a string. An integer with too many digits is a `ValueError` of JSON.
def encodeBody (python : Runtime) (alphabet : Alphabet) (items : List Json.Native) : Except (Raised E) Str :=
  match Json.dumps python.limits items with
  | none      => .error (.valueError python.digits)
  | some text => .ok (wrap alphabet text)

-- A string whose text does not open too many arrays and objects at once.
def ReadableBody (limits : Limits) (alphabet : Alphabet) (s : Str) : Prop :=
  ∀ text, bodyText alphabet s = .ok text → Json.nesting limits.maxStrDigits text ≤ limits.maxDepth

variable {python : Runtime} {alphabet : Alphabet} {what : String} {s : Str} {text : List Char}
  {items : List Json.Native}

theorem bodyText_wrap : bodyText alphabet (wrap alphabet text) = .ok text := by
  rw [bodyText, wrap, encode_ofAscii (alphabet.encode_ascii _)]
  dsimp only
  rw [alphabet.decode_encode]
  dsimp only
  rw [ofUtf8_utf8]

theorem decodeBody_of_text {payload : Json} (h : bodyText alphabet s = .ok text)
    (hl : Json.loads python.limits text = .ok payload) :
    (decodeBody python alphabet what s : Except (Raised E) Json) = .ok payload := by
  rw [decodeBody, h]
  dsimp only
  rw [hl]

theorem encodeBody_eq_ok_iff :
    (encodeBody python alphabet items : Except (Raised E) Str) = .ok s ↔
      ∃ text, Json.dumps python.limits items = some text ∧ s = wrap alphabet text := by
  rw [encodeBody]
  cases Json.dumps python.limits items
  case none      => simp
  case some text => simp [eq_comm]

-- What is written is read, with the pairs of surrogates joined.
theorem decodeBody_encodeBody (what : String)
    (h : (encodeBody python alphabet items : Except (Raised E) Str) = .ok s) :
    (decodeBody python alphabet what s : Except (Raised E) Json) = .ok (.array (items.map (·.joined.toJson))) := by
  obtain ⟨text, hd, rfl⟩ := encodeBody_eq_ok_iff.mp h
  exact decodeBody_of_text bodyText_wrap (Json.loads_dumps hd)

theorem encodeBody_joined :
    (encodeBody python alphabet (items.map Json.Native.joined) : Except (Raised E) Str) =
      encodeBody python alphabet items := by
  rw [encodeBody, encodeBody, Json.dumps, Json.dumpsItems_joined, ← Json.dumps]

-- Values come back unchanged just when all of them are faithful.
theorem encodeBody_roundTrip_iff (alphabet : Alphabet) (what : String) :
    (∃ s, (encodeBody python alphabet items : Except (Raised E) Str) = .ok s ∧
        (decodeBody python alphabet what s : Except (Raised E) Json) = .ok (.array (items.map Json.Native.toJson))) ↔
      ∀ item ∈ items, item.Faithful python.limits := by
  rw [← Json.loads_dumps_iff]
  constructor
  case mp  =>
    intro h
    obtain ⟨s, he, hd⟩ := h
    obtain ⟨text, ht, _⟩ := encodeBody_eq_ok_iff.mp he
    have hj := Except.ok.inj ((decodeBody_encodeBody what he).symm.trans hd)
    exact ⟨text, ht, (Json.loads_dumps ht).trans (congrArg Except.ok hj)⟩
  case mpr =>
    intro h
    obtain ⟨text, ht, hl⟩ := h
    exact ⟨wrap alphabet text, encodeBody_eq_ok_iff.mpr ⟨text, ht, rfl⟩, decodeBody_of_text bodyText_wrap hl⟩

-- What is raised for a string is a `ValueError`, unless its text is nested too deeply.
theorem decodeBody_raises (python : Runtime) (alphabet : Alphabet) (what : String) (s : Str) :
    (ReadableBody python.limits alphabet s ∧
      ((∃ payload, (decodeBody python alphabet what s : Except (Raised E) Json) = .ok payload) ∨
        ∃ text, (decodeBody python alphabet what s : Except (Raised E) Json) = .error (.valueError text))) ∨
    (¬ReadableBody python.limits alphabet s ∧
      (decodeBody python alphabet what s : Except (Raised E) Json) = .error .recursionError) := by
  rw [decodeBody, ReadableBody]
  cases bodyText alphabet s
  case error error => exact .inl ⟨by simp, .inr ⟨_, rfl⟩⟩
  case ok text     =>
    have hr : Json.loads python.limits text = .error .recursion ↔
        python.limits.maxDepth < Json.nesting python.limits.maxStrDigits text := Json.loads_eq_recursion_iff
    simp only [Except.ok.injEq, forall_eq']
    rw [← Nat.not_lt, ← hr]
    cases Json.loads python.limits text
    case ok payload  => exact .inl ⟨by simp, .inl ⟨payload, rfl⟩⟩
    case error error =>
      cases error
      case recursion => exact .inr ⟨by simp, rfl⟩
      all_goals exact .inl ⟨by simp, .inr ⟨_, rfl⟩⟩

-- Brackets that may not all be open.
theorem decodeBody_brackets :
    (decodeBody python alphabet what (wrap alphabet (List.replicate (python.limits.maxDepth + 1) '[')) :
      Except (Raised E) Json) = .error .recursionError := by
  rw [decodeBody, bodyText_wrap]
  dsimp only
  rw [Json.loads_brackets]

end Text
