import Grafast.Pg.KeysetCursor
import Grafast.Text.Truncated

namespace Grafast.KeysetCursor

open Sql Text

section Order

variable {t t' : OrderTerm Str} {terms terms' : List (OrderTerm Str)} {rest rest' : List Char}

-- What the text of an order tells of a term: its column with pairs of surrogates joined, its direction, and where it
-- puts NULLs.
def canonicalTerm (t : OrderTerm Str) : Str × Bool × Nulls :=
  (joinPairs t.column, t.descending, t.effectiveNulls)

theorem writeString_append_inj {s s' : Str} (h : Json.writeString s ++ rest = Json.writeString s' ++ rest') :
    joinPairs s = joinPairs s' ∧ rest = rest' := by
  have hs (s : Str) (rest : List Char) :
      Json.scanString (Json.writeString s ++ rest).tail = .ok (joinPairs s, rest) := by
    rw [Json.writeString, List.append_assoc]
    exact Json.scanString_escape
  have he := (hs s rest).symm.trans (h ▸ hs s' rest')
  exact Prod.mk.inj (Except.ok.inj he)

theorem writeString_joinPairs {s : Str} : Json.writeString (joinPairs s) = Json.writeString s := by
  rw [Json.writeString, Json.writeString, Json.escape_joinPairs]

theorem boolText_append_inj {b b' : Bool} (h : boolText b ++ rest = boolText b' ++ rest') : b = b' ∧ rest = rest' := by
  cases b <;> cases b' <;> simp [boolText] at h <;> exact ⟨rfl, h⟩

theorem nullsName_inj {n n' : Nulls} (h : joinPairs (nullsName n) = joinPairs (nullsName n')) : n = n' := by
  cases n <;> cases n' <;> revert h <;> decide +kernel

-- The text of a term tells its canonical term.
theorem termText_append_inj (h : termText t ++ rest = termText t' ++ rest') :
    canonicalTerm t = canonicalTerm t' ∧ rest = rest' := by
  simp only [termText, List.cons_append, List.append_assoc, List.cons.injEq, true_and] at h
  obtain ⟨hc, h⟩ := writeString_append_inj h
  obtain ⟨hd, h⟩ := boolText_append_inj (List.cons.inj h).right
  obtain ⟨hn, h⟩ := writeString_append_inj (List.cons.inj h).right
  rw [canonicalTerm, canonicalTerm, hc, hd, nullsName_inj hn]
  exact ⟨rfl, (List.cons.inj h).right⟩

theorem termText_eq (h : canonicalTerm t = canonicalTerm t') : termText t = termText t' := by
  obtain ⟨hc, h⟩ := Prod.mk.inj h
  obtain ⟨hd, hn⟩ := Prod.mk.inj h
  rw [termText, termText, ← writeString_joinPairs, hc, writeString_joinPairs, hd, hn]

theorem termText_append_eq_iff :
    termText t ++ rest = termText t' ++ rest' ↔ canonicalTerm t = canonicalTerm t' ∧ rest = rest' := by
  constructor
  case mp  => exact termText_append_inj
  case mpr => exact fun h => by rw [termText_eq h.left, h.right]

theorem moreTerms_eq_iff :
    moreTerms terms = moreTerms terms' ↔ terms.map canonicalTerm = terms'.map canonicalTerm := by
  induction terms generalizing terms'
  case nil             => cases terms' <;> simp [moreTerms]
  case cons t terms hi =>
    cases terms'
    case nil            => simp [moreTerms]
    case cons t' terms' =>
      simp only [moreTerms, List.map_cons, List.cons.injEq, true_and, termText_append_eq_iff, hi]

-- Orders have the same text just when their canonical terms are the same.
theorem orderText_eq_iff :
    orderText terms = orderText terms' ↔ terms.map canonicalTerm = terms'.map canonicalTerm := by
  cases terms
  case nil          => cases terms' <;> simp [orderText, termText]
  case cons t terms =>
    cases terms'
    case nil            => simp [orderText, termText]
    case cons t' terms' =>
      simp only [orderText, List.map_cons, List.cons.injEq, true_and, termText_append_eq_iff, moreTerms_eq_iff]

end Order

section Cursor

variable {O : Type} {python : Python O} {terms terms' : List (OrderTerm Str)} {row : List (Str × ColumnValue O)}
  {cursor : Str} {values : List Json.Native} {payload : Json}

-- The values of a row in the columns of an order, those that it has.
def encodedValues (python : Python O) (terms : List (OrderTerm Str)) (row : List (Str × ColumnValue O)) :
    List Json.Native :=
  terms.filterMap fun t => (row.lookup t.column).map (encodeValue python)

def HasColumns (terms : List (OrderTerm Str)) (row : List (Str × ColumnValue O)) : Prop :=
  ∀ t ∈ terms, (row.lookup t.column).isSome = true

theorem orderValues_of_hasColumns (h : HasColumns terms row) :
    orderValues python row terms = .ok (encodedValues python terms row) := by
  unfold HasColumns at h
  unfold encodedValues
  induction terms
  case nil             => rfl
  case cons t terms hi =>
    obtain ⟨ht, h⟩ := List.forall_mem_cons.mp h
    obtain ⟨value, hv⟩ := Option.isSome_iff_exists.mp ht
    rw [orderValues, hv, hi h, List.filterMap_cons, hv]
    rfl

-- A column that the row does not have is a `ValueError`.
theorem orderValues_of_not_hasColumns (h : ¬HasColumns terms row) :
    ∃ text, orderValues python row terms = .error (.valueError text) := by
  unfold HasColumns at h
  induction terms
  case nil             => exact absurd (by simp) h
  case cons t terms hi =>
    rw [orderValues]
    cases hv : row.lookup t.column
    case none       => exact ⟨_, rfl⟩
    case some value =>
      have hrest : ¬∀ t ∈ terms, (row.lookup t.column).isSome = true := by
        intro hall
        exact h (List.forall_mem_cons.mpr ⟨by rw [hv]; rfl, hall⟩)
      obtain ⟨text, ht⟩ := hi hrest
      exact ⟨text, by rw [ht]⟩

theorem length_encodedValues (h : HasColumns terms row) : (encodedValues python terms row).length = terms.length := by
  unfold HasColumns at h
  unfold encodedValues
  induction terms
  case nil             => rfl
  case cons t terms hi =>
    obtain ⟨ht, h⟩ := List.forall_mem_cons.mp h
    obtain ⟨value, hv⟩ := Option.isSome_iff_exists.mp ht
    rw [List.filterMap_cons, hv]
    exact congrArg (· + 1) (hi h)

theorem encodeKeysetCursor_eq_ok_iff :
    encodeKeysetCursor python terms row = .ok cursor ↔
      HasColumns terms row ∧
        (encodeBody python.toRuntime Base64.standard
          (.str (orderDigest python terms) :: encodedValues python terms row) : Except (Raised Empty) Str) =
          .ok cursor := by
  rw [encodeKeysetCursor]
  by_cases h : HasColumns terms row
  case pos => rw [orderValues_of_hasColumns h, and_iff_right h]
  case neg =>
    obtain ⟨text, ht⟩ : ∃ text, orderValues python row terms = .error (.valueError text) :=
      orderValues_of_not_hasColumns h
    simp [ht, h]

-- The digest has no surrogates.
theorem orderDigest_faithful : (Json.Native.str (orderDigest python terms)).Faithful python.limits := by
  have h (chars : List Char) : Unpaired (chars.map CodePoint.char) := by
    induction chars
    case nil             => exact .nil
    case cons c chars hi =>
      cases chars
      case nil            => exact .singleton _
      case cons d chars => exact .cons_cons (by simp [CodePoint.isHigh]) hi
  exact h _

theorem joined_orderDigest : (Json.Native.str (orderDigest python terms)).joined = .str (orderDigest python terms) :=
  (Json.faithful_iff.mp orderDigest_faithful).right

-- What a cursor gives under an order, given its payload.
theorem decode_of_body
    (h : (decodeBody python.toRuntime Base64.standard "keyset cursor" cursor : Except (Raised Empty) Json) =
      .ok payload) :
    decodeKeysetCursor python cursor terms = checkPayload python terms (python.reprStr cursor) payload := by
  rw [decodeKeysetCursor, h]

-- A cursor carries the digest of its order and its values, with pairs of surrogates joined.
theorem decode_of_encode (h : encodeKeysetCursor python terms row = .ok cursor) :
    decodeKeysetCursor python cursor terms' =
      checkPayload python terms' (python.reprStr cursor)
        (.array (.str (orderDigest python terms) :: (encodedValues python terms row).map (·.joined.toJson))) := by
  obtain ⟨_, he⟩ := encodeKeysetCursor_eq_ok_iff.mp h
  rw [decode_of_body (decodeBody_encodeBody "keyset cursor" he), List.map_cons, joined_orderDigest]
  rfl

theorem checkPayload_own {repr : String} {values : List Json} (h : values.length = terms.length) :
    checkPayload python terms repr (.array (.str (orderDigest python terms) :: values)) = .ok values := by
  simp [checkPayload, isStr, h]

-- The values of a row come back just when all of them are faithful.
theorem roundTrip_iff (h : HasColumns terms row) :
    (∃ cursor, encodeKeysetCursor python terms row = .ok cursor ∧
        decodeKeysetCursor python cursor terms = .ok ((encodedValues python terms row).map Json.Native.toJson)) ↔
      ∀ value ∈ encodedValues python terms row, value.Faithful python.limits := by
  have hlen : (encodedValues python terms row).length = terms.length := length_encodedValues h
  have hall : (∀ item ∈ .str (orderDigest python terms) :: encodedValues python terms row,
      item.Faithful python.limits) ↔ ∀ value ∈ encodedValues python terms row, value.Faithful python.limits := by
    rw [List.forall_mem_cons, and_iff_right orderDigest_faithful]
  rw [← hall, ← encodeBody_roundTrip_iff (E := Empty) Base64.standard "keyset cursor"]
  refine exists_congr fun cursor => ?_
  rw [encodeKeysetCursor_eq_ok_iff, and_iff_right h]
  refine and_congr_right fun he => ?_
  rw [decodeBody_encodeBody "keyset cursor" he, decode_of_encode (encodeKeysetCursor_eq_ok_iff.mpr ⟨h, he⟩),
    checkPayload_own (by simpa using hlen), List.map_cons, List.map_cons, joined_orderDigest]
  simp

-- The string is an array of the digest of the order and of the values.
def Carries (python : Python O) (cursor : Str) (terms : List (OrderTerm Str)) (values : List Json) : Prop :=
  (decodeBody python.toRuntime Base64.standard "keyset cursor" cursor : Except (Raised Empty) Json) =
    .ok (.array (.str (orderDigest python terms) :: values))

-- One value for each term of the order whose digest the string has, or a `ValueError`.
def Answers (python : Python O) (cursor : Str) (terms : List (OrderTerm Str)) : Prop :=
  (∃ values, decodeKeysetCursor python cursor terms = .ok values ∧ values.length = terms.length ∧
      Carries python cursor terms values) ∨
    ∃ text, decodeKeysetCursor python cursor terms = .error (.valueError text)

theorem isStr_eq_true {s : Str} {value : Json} (h : isStr s value = true) : value = .str s := by
  cases value
  case str t => exact congrArg Json.str (of_decide_eq_true h)
  all_goals cases h

theorem checkPayload_cases (python : Python O) (terms : List (OrderTerm Str)) (repr : String) (payload : Json) :
    (∃ values, checkPayload python terms repr payload = .ok values ∧ values.length = terms.length ∧
        payload = .array (.str (orderDigest python terms) :: values)) ∨
      ∃ text, checkPayload python terms repr payload = .error (.valueError text) := by
  fun_cases checkPayload python terms repr payload
  case case1 digest values h     => exact .inr ⟨_, rfl⟩
  case case2 digest values h hl  => exact .inr ⟨_, rfl⟩
  case case3 digest values h hl  =>
    have hd : digest = .str (orderDigest python terms) := isStr_eq_true (by simpa using h)
    exact .inl ⟨values, rfl, by omega, by rw [hd]⟩
  case case4 h                   => exact .inr ⟨_, rfl⟩

theorem answers_iff : Answers python cursor terms ↔ ReadableBody python.limits Base64.standard cursor := by
  rw [Answers, decodeKeysetCursor]
  obtain ⟨hr, h⟩ | ⟨hr, h⟩ := decodeBody_raises (E := Empty) python.toRuntime Base64.standard "keyset cursor" cursor
  case inl =>
    refine iff_of_true ?_ hr
    cases h
    case inl h =>
      obtain ⟨payload, h⟩ := h
      rw [h]
      cases checkPayload_cases python terms (python.reprStr cursor) payload
      case inl hc =>
        obtain ⟨values, hc, hl, rfl⟩ := hc
        exact .inl ⟨values, hc, hl, h⟩
      case inr hc => exact .inr hc
    case inr h =>
      obtain ⟨text, h⟩ := h
      rw [h]
      exact .inr ⟨text, rfl⟩
  case inr =>
    rw [h]
    refine iff_of_false ?_ hr
    intro hc
    cases hc
    case inl hc => obtain ⟨_, hc, _⟩ := hc; cases hc
    case inr hc => obtain ⟨_, hc⟩ := hc; cases hc

-- What is written under one order is refused under another one just when their canonical terms differ, if their digests
-- tell their texts.
theorem checkPayload_foreign (repr : String) (h : HasColumns terms row)
    (hc : orderDigest python terms = orderDigest python terms' → orderText terms = orderText terms') :
    let payload := .array (.str (orderDigest python terms) :: (encodedValues python terms row).map (·.joined.toJson))
    (terms.map canonicalTerm = terms'.map canonicalTerm ∧ ∃ values,
      checkPayload python terms' repr payload = .ok values) ∨
    (terms.map canonicalTerm ≠ terms'.map canonicalTerm ∧ ∃ text,
      checkPayload python terms' repr payload = .error (.valueError text)) := by
  have hlen : (encodedValues python terms row).length = terms.length := length_encodedValues h
  intro payload
  rw [ne_eq, ← orderText_eq_iff]
  by_cases he : orderText terms = orderText terms'
  case pos =>
    have hl : terms.length = terms'.length := by
      have hm := congrArg List.length (orderText_eq_iff.mp he)
      rwa [List.length_map, List.length_map] at hm
    have hd : orderDigest python terms = orderDigest python terms' := by rw [orderDigest, he, ← orderDigest]
    refine .inl ⟨he, (encodedValues python terms row).map (·.joined.toJson), ?_⟩
    change checkPayload python terms' repr (.array (.str (orderDigest python terms) :: _)) = _
    rw [hd]
    exact checkPayload_own (by simp [hlen, hl])
  case neg =>
    have hd : orderDigest python terms ≠ orderDigest python terms' := mt hc he
    refine .inr ⟨he, ?_⟩
    rw [checkPayload, if_pos (by simp [isStr, hd])]
    exact ⟨_, rfl⟩

theorem foreign_iff (h : encodeKeysetCursor python terms row = .ok cursor)
    (hc : orderDigest python terms = orderDigest python terms' → orderText terms = orderText terms') :
    (∃ text, decodeKeysetCursor python cursor terms' = .error (.valueError text)) ↔
      terms.map canonicalTerm ≠ terms'.map canonicalTerm := by
  rw [decode_of_encode h]
  obtain ⟨he, values, hv⟩ | ⟨he, ht⟩ :=
    checkPayload_foreign (python.reprStr cursor) (encodeKeysetCursor_eq_ok_iff.mp h).left hc
  · rw [hv]
    exact iff_of_false (by simp) (not_not.mpr he)
  · exact iff_of_true ht he

-- A part of a cursor is refused under any order.
theorem truncated (h : encodeKeysetCursor python terms row = .ok cursor) {part : Str} (hp : part <+: cursor)
    (hne : part ≠ cursor) : ∃ text, decodeKeysetCursor python part terms' = .error (.valueError text) := by
  obtain ⟨text, ht⟩ := decodeBody_truncated "keyset cursor" (encodeKeysetCursor_eq_ok_iff.mp h).right hp hne
  exact ⟨text, by rw [decodeKeysetCursor, ht]⟩

-- A cursor that goes on is refused unless it goes on with spaces.
theorem extended_iff (h : encodeKeysetCursor python terms row = .ok cursor)
    (hc : orderDigest python terms = orderDigest python terms' → orderText terms = orderText terms') {more : Str}
    (hm : more ≠ []) :
    (∃ text, decodeKeysetCursor python (cursor ++ more) terms' = .error (.valueError text)) ↔
      ¬((Unpadded cursor ∧ Blank more) ∧ terms.map canonicalTerm = terms'.map canonicalTerm) := by
  obtain ⟨hcols, he⟩ := encodeKeysetCursor_eq_ok_iff.mp h
  obtain ⟨hb, hd⟩ | ⟨hb, text, ht⟩ := decodeBody_extended "keyset cursor" he hm
  case inl =>
    rw [decode_of_body hd, List.map_cons, joined_orderDigest, Json.Native.toJson, and_iff_right hb]
    obtain ⟨heq, values, hv⟩ | ⟨hne, ht⟩ := checkPayload_foreign (python.reprStr (cursor ++ more)) hcols hc
    · rw [hv]
      exact iff_of_false (by simp) (not_not.mpr heq)
    · exact iff_of_true ht hne
  case inr =>
    refine iff_of_true ⟨text, ?_⟩ fun hc => hb hc.left
    rw [decodeKeysetCursor, ht]

-- Cursors: the values of a row come back just when they are faithful, a string gives one value for each term of the
-- order whose digest it has, or a `ValueError`, just when it may be read, and a cursor is refused under another order,
-- as a part of itself and with more after it, unless it goes on with spaces.
theorem keysetCursors_iff :
    (∀ (terms : List (OrderTerm Str)) (row : List (Str × ColumnValue O)), HasColumns terms row →
      ((∃ cursor, encodeKeysetCursor python terms row = .ok cursor ∧
          decodeKeysetCursor python cursor terms = .ok ((encodedValues python terms row).map Json.Native.toJson)) ↔
        ∀ value ∈ encodedValues python terms row, value.Faithful python.limits)) ∧
    (∀ (cursor : Str) (terms : List (OrderTerm Str)),
      Answers python cursor terms ↔ ReadableBody python.limits Base64.standard cursor) ∧
    ∀ (terms terms' : List (OrderTerm Str)) (row : List (Str × ColumnValue O)) (cursor : Str),
      encodeKeysetCursor python terms row = .ok cursor →
      (orderDigest python terms = orderDigest python terms' → orderText terms = orderText terms') →
        ((∃ text, decodeKeysetCursor python cursor terms' = .error (.valueError text)) ↔
          terms.map canonicalTerm ≠ terms'.map canonicalTerm) ∧
        (∀ part, part <+: cursor → part ≠ cursor →
          ∃ text, decodeKeysetCursor python part terms' = .error (.valueError text)) ∧
        ∀ more, more ≠ [] →
          ((∃ text, decodeKeysetCursor python (cursor ++ more) terms' = .error (.valueError text)) ↔
            ¬((Unpadded cursor ∧ Blank more) ∧ terms.map canonicalTerm = terms'.map canonicalTerm)) :=
  ⟨fun _ _ h => roundTrip_iff h, fun _ _ => answers_iff, fun _ _ _ _ h hc =>
    ⟨foreign_iff h hc, fun _ hp hne => truncated h hp hne, fun _ hm => extended_iff h hc hm⟩⟩

end Cursor

-- A cursor whose text is more brackets than may be open.
namespace Brackets

def digest : List Char :=
  ['4', 'f', '5', '3', 'c', 'd', 'a', '1', '8', 'c', '2', 'b']

def python : Python Empty where
  limits    := .initial
  reprStr   := fun _ => "'W1tb...'"
  detail    := fun _ => "no JSON"
  digits    := "Exceeds the limit (4300 digits) for integer string conversion"
  hexdigest := fun _ => digest
  isoformat := Empty.elim
  str       := Empty.elim
  reprJson  := fun _ => "..."
  sorted    := fun _ => "[]"

theorem not_refused : ¬∀ cursor terms, Answers python cursor terms := by
  intro h
  have hd : decodeKeysetCursor python (wrap Base64.standard (List.replicate (python.limits.maxDepth + 1) '[')) [] =
      .error .recursionError := by
    rw [decodeKeysetCursor, decodeBody_brackets]
  cases h (wrap Base64.standard (List.replicate (python.limits.maxDepth + 1) '[')) []
  case inl h => obtain ⟨_, h, _⟩ := h; cases hd.symm.trans h
  case inr h => obtain ⟨_, h⟩ := h; cases hd.symm.trans h

end Brackets

-- A cursor by id, and an order that reads it the other way round.
namespace Ids

def ascending : OrderTerm Str :=
  ⟨Str.ofString "id", false, none⟩

def descending : OrderTerm Str :=
  ⟨Str.ofString "id", true, none⟩

def python : Python Empty :=
  { Brackets.python with
    hexdigest := fun bytes =>
      (if bytes = utf8 (orderText [ascending]) then
        "afd932c41f21"
      else
        "e5ab87e81225").toList }

def row : List (Str × ColumnValue Empty) :=
  [(Str.ofString "id", .native (.int 7))]

def cursor : Str :=
  Str.ofString "WyJhZmQ5MzJjNDFmMjEiLDdd"

theorem hasColumns : HasColumns [ascending] row := by
  simp [HasColumns, row, ascending]

theorem minted : encodeKeysetCursor python [ascending] row = .ok cursor := by
  have hd : Json.dumps python.limits (.str (orderDigest python [ascending]) :: encodedValues python [ascending] row) =
      some "[\"afd932c41f21\",7]".toList := by
    decide +kernel
  have hw : wrap Base64.standard "[\"afd932c41f21\",7]".toList = cursor := by
    decide +kernel
  rw [encodeKeysetCursor_eq_ok_iff, and_iff_right hasColumns, encodeBody, hd]
  exact congrArg Except.ok hw

theorem keysetCursors_ids :
    decodeKeysetCursor python cursor [ascending] = .ok [.int 7] ∧
      (∃ text, decodeKeysetCursor python cursor [descending] = .error (.valueError text)) ∧
      ∃ text, decodeKeysetCursor python (cursor.take 8) [ascending] = .error (.valueError text) := by
  have digests_ne : orderDigest python [ascending] ≠ orderDigest python [descending] := by decide +kernel
  have values : encodedValues python [ascending] row = [.int 7] := rfl
  have faithful : ∀ value ∈ encodedValues python [ascending] row, value.Faithful python.limits := by
    rw [values, List.forall_mem_singleton, Json.Native.Faithful]
    decide +kernel
  have differ : [ascending].map canonicalTerm ≠ [descending].map canonicalTerm := by decide +kernel
  obtain ⟨roundTrip, _, foreign⟩ := @keysetCursors_iff _ python
  obtain ⟨refused, _⟩ := foreign [ascending] [descending] row cursor minted fun h => absurd h digests_ne
  obtain ⟨own, hown, decoded⟩ := (roundTrip [ascending] row hasColumns).mpr faithful
  obtain rfl : cursor = own := Except.ok.inj (minted.symm.trans hown)
  refine ⟨decoded, refused.mpr differ, ?_⟩
  exact (foreign [ascending] [ascending] row cursor minted fun _ => rfl).right.left _ (List.take_prefix 8 cursor)
    (by decide +kernel)

end Ids

end Grafast.KeysetCursor
