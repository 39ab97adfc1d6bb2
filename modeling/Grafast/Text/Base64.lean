import Grafast.Text.Unicode

namespace Text

-- The bytes of characters, and back.
def utf8 (chars : List Char) : List UInt8 :=
  chars.flatMap String.utf8EncodeChar

def ofUtf8 (bytes : List UInt8) : Option (List Char) :=
  bytes.toByteArray.utf8Decode?.map Array.toList

def CodePoint.char? : CodePoint → Option Char
  | char c      => some c
  | surrogate _ => none

-- The bytes of a string, which has none if it has surrogates.
def Str.encode (s : Str) : Option (List UInt8) :=
  (s.mapM CodePoint.char?).map utf8

def Str.ofAscii (bytes : List UInt8) : Str :=
  bytes.map fun b => .char (Char.ofNat b.toNat)

theorem ofUtf8_utf8 {chars : List Char} : ofUtf8 (utf8 chars) = some chars := by
  have h : (utf8 chars).toByteArray.utf8Decode? = some chars.toArray := List.utf8Decode?_utf8Encode
  rw [ofUtf8, h]
  rfl

theorem utf8EncodeChar_ofNat {b : UInt8} (h : b.toNat < 128) : String.utf8EncodeChar (Char.ofNat b.toNat) = [b] := by
  have hall : ∀ n < 128, String.utf8EncodeChar (Char.ofNat n) = [UInt8.ofNat n] := by decide +kernel
  rw [hall b.toNat h, UInt8.ofNat_toNat]

theorem mapM_char?_ofAscii (bytes : List UInt8) :
    (Str.ofAscii bytes).mapM CodePoint.char? = some (bytes.map fun b => Char.ofNat b.toNat) := by
  induction bytes
  case nil            => rfl
  case cons b rest hi =>
    rw [Str.ofAscii] at hi ⊢
    rw [List.map_cons, List.mapM_cons, hi]
    rfl

-- Bytes of ASCII are those of their string.
theorem encode_ofAscii {bytes : List UInt8} (h : ∀ b ∈ bytes, b.toNat < 128) :
    (Str.ofAscii bytes).encode = some bytes := by
  rw [Str.encode, mapM_char?_ofAscii, Option.map_some, utf8, List.flatMap_map]
  refine congrArg some ?_
  induction bytes
  case nil            => rfl
  case cons b rest hi =>
    rw [List.flatMap_cons, utf8EncodeChar_ofNat (h b (.head _))]
    exact congrArg (b :: ·) (hi fun b hb => h b (.tail _ hb))

namespace Base64

-- The symbol of six bits.
def symbol (n : Nat) : UInt8 :=
  if n < 26 then UInt8.ofNat (65 + n)
  else if n < 52 then UInt8.ofNat (71 + n)
  else if n < 62 then UInt8.ofNat (n - 4)
  else if n = 62 then 43
  else 47

def sextet (c : UInt8) : Option Nat :=
  if 65 ≤ c.toNat ∧ c.toNat ≤ 90 then some (c.toNat - 65)
  else if 97 ≤ c.toNat ∧ c.toNat ≤ 122 then some (c.toNat - 71)
  else if 48 ≤ c.toNat ∧ c.toNat ≤ 57 then some (c.toNat + 4)
  else if c.toNat = 43 then some 62
  else if c.toNat = 47 then some 63
  else none

def pad : UInt8 :=
  61

def b64encode : List UInt8 → List UInt8
  | []                  => []
  | [a]                 => [symbol (a.toNat / 4), symbol (a.toNat % 4 * 16), pad, pad]
  | [a, b]              =>
    [symbol (a.toNat / 4), symbol (a.toNat % 4 * 16 + b.toNat / 16), symbol (b.toNat % 16 * 4), pad]
  | a :: b :: c :: rest =>
    symbol (a.toNat / 4) :: symbol (a.toNat % 4 * 16 + b.toNat / 16) ::
      symbol (b.toNat % 16 * 4 + c.toNat / 64) :: symbol (c.toNat % 64) :: b64encode rest

-- The bytes of symbols, from a place in a group of four on, with the bits that are left of the symbol before. Once
-- there is padding, no symbol may follow.
def decodeFrom (quadPos left pads : Nat) (paddingStarted : Bool) : List UInt8 → Option (List UInt8)
  | []        => if quadPos = 0 then some [] else none
  | c :: rest =>
    if c = pad then
      if 2 ≤ quadPos ∧ 4 ≤ quadPos + (pads + 1) then if rest.isEmpty then some [] else none
      else decodeFrom quadPos left (if 2 ≤ quadPos then pads + 1 else pads) true rest
    else
      match sextet c with
      | none   => none
      | some v =>
        if paddingStarted then none
        else if quadPos = 0 then decodeFrom 1 v 0 false rest
        else if quadPos = 1 then
          (decodeFrom 2 (v % 16) 0 false rest).map (UInt8.ofNat (left * 4 + v / 16) :: ·)
        else if quadPos = 2 then
          (decodeFrom 3 (v % 4) 0 false rest).map (UInt8.ofNat (left * 16 + v / 4) :: ·)
        else
          (decodeFrom 0 0 0 false rest).map (UInt8.ofNat (left * 64 + v) :: ·)

-- The strict mode: nothing but symbols and padding at the end.
def a2bBase64 (bytes : List UInt8) : Option (List UInt8) :=
  if bytes.head? = some pad then none else decodeFrom 0 0 0 false bytes

-- The alphabet of URLs has - and _ in place of + and /.
def toUrlSafe (c : UInt8) : UInt8 :=
  if c = 43 then 45 else if c = 47 then 95 else c

def ofUrlSafe (c : UInt8) : UInt8 :=
  if c = 45 then 43 else if c = 95 then 47 else c

def urlsafeB64encode (bytes : List UInt8) : List UInt8 :=
  (b64encode bytes).map toUrlSafe

def urlsafeB64decode (bytes : List UInt8) : Option (List UInt8) :=
  a2bBase64 (bytes.map ofUrlSafe)

theorem sextet_symbol : ∀ n < 64, sextet (symbol n) = some n ∧ symbol n ≠ pad := by
  decide +kernel

variable {n left pads : Nat} {rest bytes : List UInt8}

theorem decodeFrom_symbol (hn : n < 64) (quadPos : Nat) :
    decodeFrom quadPos left pads false (symbol n :: rest) =
      if quadPos = 0 then decodeFrom 1 n 0 false rest
      else if quadPos = 1 then (decodeFrom 2 (n % 16) 0 false rest).map (UInt8.ofNat (left * 4 + n / 16) :: ·)
      else if quadPos = 2 then (decodeFrom 3 (n % 4) 0 false rest).map (UInt8.ofNat (left * 16 + n / 4) :: ·)
      else (decodeFrom 0 0 0 false rest).map (UInt8.ofNat (left * 64 + n) :: ·) := by
  obtain ⟨hs, hp⟩ := sextet_symbol n hn
  rw [decodeFrom, if_neg hp, hs]
  rfl

theorem ofNat_eq {b : UInt8} (h : n = b.toNat) : UInt8.ofNat n = b := by
  rw [h, UInt8.ofNat_toNat]

-- A whole group is three bytes.
theorem decodeFrom_group {a b c : UInt8} :
    decodeFrom 0 left pads false (symbol (a.toNat / 4) :: symbol (a.toNat % 4 * 16 + b.toNat / 16) ::
        symbol (b.toNat % 16 * 4 + c.toNat / 64) :: symbol (c.toNat % 64) :: rest) =
      (decodeFrom 0 0 0 false rest).map fun bytes => a :: b :: c :: bytes := by
  have ha := a.toNat_lt
  have hb := b.toNat_lt
  have hc := c.toNat_lt
  rw [decodeFrom_symbol (by omega), if_pos rfl, decodeFrom_symbol (by omega), if_neg (by decide), if_pos rfl,
    decodeFrom_symbol (by omega), if_neg (by decide), if_neg (by decide), if_pos rfl,
    decodeFrom_symbol (by omega), if_neg (by decide), if_neg (by decide), if_neg (by decide)]
  rw [ofNat_eq (b := a) (by omega), ofNat_eq (b := b) (by omega), ofNat_eq (b := c) (by omega)]
  cases decodeFrom 0 0 0 false rest <;> rfl

-- What is encoded is decoded to the same bytes.
theorem decodeFrom_b64encode : decodeFrom 0 0 0 false (b64encode bytes) = some bytes := by
  fun_induction b64encode bytes
  case case1 => rfl
  case case2 a =>
    have ha := a.toNat_lt
    rw [decodeFrom_symbol (by omega), if_pos rfl, decodeFrom_symbol (by omega), if_neg (by decide), if_pos rfl]
    rw [ofNat_eq (b := a) (by omega)]
    rfl
  case case3 a b =>
    have ha := a.toNat_lt
    have hb := b.toNat_lt
    rw [decodeFrom_symbol (by omega), if_pos rfl, decodeFrom_symbol (by omega), if_neg (by decide), if_pos rfl,
      decodeFrom_symbol (by omega), if_neg (by decide), if_neg (by decide), if_pos rfl]
    rw [ofNat_eq (b := a) (by omega), ofNat_eq (b := b) (by omega)]
    rfl
  case case4 a b c rest hi =>
    rw [decodeFrom_group, hi]
    rfl

theorem a2bBase64_b64encode : a2bBase64 (b64encode bytes) = some bytes := by
  have hp {n : Nat} (hn : n < 64) : symbol n ≠ pad := (sextet_symbol n hn).right
  rw [a2bBase64, if_neg, decodeFrom_b64encode]
  fun_cases b64encode bytes
  case case1 => simp
  case case2 a => simpa using hp (by have := a.toNat_lt; omega)
  case case3 a b => simpa using hp (by have := a.toNat_lt; omega)
  case case4 a b c rest => simpa using hp (by have := a.toNat_lt; omega)

-- Encoded bytes are symbols and padding.
theorem mem_b64encode {c : UInt8} (h : c ∈ b64encode bytes) : c = pad ∨ ∃ n < 64, c = symbol n := by
  fun_induction b64encode bytes
  case case1 => cases h
  case case2 a =>
    have := a.toNat_lt
    simp only [List.mem_cons, List.not_mem_nil, or_false] at h
    rcases h with h | h | h | h
    · exact .inr ⟨_, by omega, h⟩
    · exact .inr ⟨_, by omega, h⟩
    · exact .inl h
    · exact .inl h
  case case3 a b =>
    have := a.toNat_lt
    have := b.toNat_lt
    simp only [List.mem_cons, List.not_mem_nil, or_false] at h
    rcases h with h | h | h | h
    · exact .inr ⟨_, by omega, h⟩
    · exact .inr ⟨_, by omega, h⟩
    · exact .inr ⟨_, by omega, h⟩
    · exact .inl h
  case case4 a b c rest hi =>
    have := a.toNat_lt
    have := b.toNat_lt
    have := c.toNat_lt
    simp only [List.mem_cons] at h
    rcases h with h | h | h | h | h
    · exact .inr ⟨_, by omega, h⟩
    · exact .inr ⟨_, by omega, h⟩
    · exact .inr ⟨_, by omega, h⟩
    · exact .inr ⟨_, by omega, h⟩
    · exact hi h

theorem symbol_facts : ∀ n < 64, (symbol n).toNat < 128 ∧ (toUrlSafe (symbol n)).toNat < 128 ∧
    ofUrlSafe (toUrlSafe (symbol n)) = symbol n := by
  decide +kernel

theorem b64encode_ascii {c : UInt8} (h : c ∈ b64encode bytes) :
    c.toNat < 128 ∧ (toUrlSafe c).toNat < 128 ∧ ofUrlSafe (toUrlSafe c) = c := by
  obtain rfl | ⟨n, hn, rfl⟩ := mem_b64encode h
  · decide
  · exact symbol_facts n hn

theorem urlsafeB64decode_urlsafeB64encode : urlsafeB64decode (urlsafeB64encode bytes) = some bytes := by
  have h : ((b64encode bytes).map toUrlSafe).map ofUrlSafe = b64encode bytes := by
    rw [List.map_map]
    conv_rhs => rw [← List.map_id (b64encode bytes)]
    exact List.map_congr_left fun c hc => (b64encode_ascii hc).right.right
  rw [urlsafeB64decode, urlsafeB64encode, h, a2bBase64_b64encode]

theorem urlsafeB64encode_ascii : ∀ b ∈ urlsafeB64encode bytes, b.toNat < 128 := by
  intro b hb
  obtain ⟨c, hc, rfl⟩ := List.mem_map.mp hb
  exact (b64encode_ascii hc).right.left

end Base64

end Text
