import Grafast.Step.GlobalId

namespace Grafast.GlobalId

open Text

section

variable {O E : Type} {python : Python O E} {typename t t' id id' : Str} {parts parts' : List Json.Native}
  {globalId : Given O} {loaders : List Str} {ids : List (IdEntry O E)}

-- A string is read unless its text opens too many arrays and objects at once, any other value unless its text cannot
-- be given.
def Readable (python : Python O E) : Given O → Prop
  | .str globalId => ReadableBody python.limits Base64.urlSafe globalId
  | .other value  => ∀ error, python.repr value = .error error → ∃ text, error = .valueError text

section Encode

theorem encode_eq_encodeBody (hne : parts ≠ []) :
    encodeGlobalId python typename parts =
      encodeBody python.toRuntime Base64.urlSafe (.str typename :: parts) := by
  rw [encodeGlobalId, if_neg (by simpa using hne)]

theorem encode_eq_ok_iff :
    encodeGlobalId python typename parts = .ok id ↔
      parts ≠ [] ∧
        (encodeBody python.toRuntime Base64.urlSafe (.str typename :: parts) : Except (Raised E) Str) = .ok id := by
  by_cases hne : parts = []
  case pos => simp [encodeGlobalId, hne]
  case neg => rw [encode_eq_encodeBody hne, and_iff_right hne]

theorem decodeGlobalId_str {payload : Json}
    (h : (decodeBody python.toRuntime Base64.urlSafe "global id" id : Except (Raised E) Json) = .ok payload) :
    decodeGlobalId python (.str id) = decodePayload (python.reprStr id) payload := by
  rw [decodeGlobalId, h]

-- What an id of the encoder gives: its values, with the pairs of surrogates joined.
theorem decode_of_encode (h : encodeGlobalId python typename parts = .ok id) :
    decodeGlobalId python (.str id) = .ok (joinPairs typename, parts.map (·.joined.toJson)) := by
  obtain ⟨hne, he⟩ := encode_eq_ok_iff.mp h
  rw [decodeGlobalId_str (decodeBody_encodeBody "global id" he)]
  cases parts
  case nil             => exact absurd rfl hne
  case cons part parts => rfl

-- The joined values have the same id.
theorem encode_joined (h : encodeGlobalId python typename parts = .ok id) :
    encodeGlobalId python (joinPairs typename) (parts.map Json.Native.joined) = .ok id := by
  obtain ⟨hne, he⟩ := encode_eq_ok_iff.mp h
  rw [← encodeBody_joined] at he
  exact encode_eq_ok_iff.mpr ⟨by simpa using hne, he⟩

-- Values come back just when all of them are faithful.
theorem roundTrip_iff (hne : parts ≠ []) :
    (∃ id, encodeGlobalId python typename parts = .ok id ∧
        decodeGlobalId python (.str id) = .ok (typename, parts.map Json.Native.toJson)) ↔
      ∀ item ∈ .str typename :: parts, item.Faithful python.limits := by
  rw [← encodeBody_roundTrip_iff (E := E) Base64.urlSafe "global id", encode_eq_encodeBody hne]
  refine exists_congr fun id => and_congr_right fun he => ?_
  have hb := decodeBody_encodeBody "global id" he
  rw [decodeGlobalId_str hb, hb]
  cases parts
  case nil             => exact absurd rfl hne
  case cons part parts => simp [decodePayload, Json.Native.joined, Json.Native.toJson]

-- Values share an id when they are the same up to pairs of surrogates.
theorem encode_eq_iff (h : encodeGlobalId python t parts = .ok id) (h' : encodeGlobalId python t' parts' = .ok id') :
    id = id' ↔ joinPairs t = joinPairs t' ∧ parts.map Json.Native.joined = parts'.map Json.Native.joined := by
  constructor
  case mp  =>
    rintro rfl
    have hp := Except.ok.inj ((decode_of_encode h).symm.trans (decode_of_encode h'))
    have hs : (parts.map Json.Native.joined).map Json.Native.toJson =
        (parts'.map Json.Native.joined).map Json.Native.toJson := by
      rw [List.map_map, List.map_map]
      exact congrArg Prod.snd hp
    exact ⟨congrArg Prod.fst hp, List.map_injective_iff.mpr Json.toJson_injective hs⟩
  case mpr =>
    intro h
    obtain ⟨ht, hs⟩ := h
    have hj := encode_joined h
    rw [ht, hs] at hj
    exact Except.ok.inj (hj.symm.trans (encode_joined h'))

-- The values of an id of the encoder give the id back.
theorem encode_decode (h : encodeGlobalId python typename parts = .ok id) :
    ∃ t parts', decodeGlobalId python (.str id) = .ok (t, parts'.map Json.Native.toJson) ∧
      encodeGlobalId python t parts' = .ok id := by
  refine ⟨joinPairs typename, parts.map Json.Native.joined, ?_, encode_joined h⟩
  rw [decode_of_encode h, List.map_map]
  rfl

end Encode

section Decode

variable {r : Except (Raised E) (Str × List Json)}

-- A typename with one part at least, or a `ValueError`.
def Answers (r : Except (Raised E) (Str × List Json)) : Prop :=
  (∃ typename part parts, r = .ok (typename, part :: parts)) ∨ ∃ text, r = .error (.valueError text)

theorem answers_valueError {text : String} : Answers (.error (.valueError text) : Except (Raised E) _) :=
  .inr ⟨text, rfl⟩

theorem not_answers_recursionError : ¬Answers (.error .recursionError : Except (Raised E) _) := by
  intro h
  cases h
  case inl h => obtain ⟨_, _, _, h⟩ := h; cases h
  case inr h => obtain ⟨_, h⟩ := h; cases h

theorem decodePayload_answers (repr : String) (payload : Json) :
    Answers (decodePayload repr payload : Except (Raised E) _) := by
  fun_cases decodePayload (E := E) repr payload
  case case1 part parts typename => exact .inl ⟨typename, part, parts, rfl⟩
  case case2                     => exact answers_valueError
  case case3                     => exact answers_valueError

theorem decodeGlobalId_answers_iff : Answers (decodeGlobalId python globalId) ↔ Readable python globalId := by
  cases globalId
  case other value =>
    rw [decodeGlobalId, Readable]
    cases python.repr value
    case ok repr     => exact iff_of_true answers_valueError (by simp)
    case error error =>
      dsimp only
      constructor
      case mp  =>
        intro h error' he
        cases he
        cases h
        case inl h => obtain ⟨_, _, _, h⟩ := h; cases h
        case inr h => obtain ⟨text, h⟩ := h; exact ⟨text, Except.error.inj h⟩
      case mpr =>
        intro h
        obtain ⟨text, rfl⟩ := h error rfl
        exact answers_valueError
  case str s =>
    rw [decodeGlobalId, Readable]
    obtain ⟨hr, h⟩ | ⟨hr, h⟩ := decodeBody_raises (E := E) python.toRuntime Base64.urlSafe "global id" s
    case inl =>
      cases h
      case inl h => obtain ⟨payload, h⟩ := h; rw [h]; exact iff_of_true (decodePayload_answers _ _) hr
      case inr h => obtain ⟨text, h⟩ := h; rw [h]; exact iff_of_true answers_valueError hr
    case inr => rw [h]; exact iff_of_false not_answers_recursionError hr

end Decode

section Node

theorem answers_of_ok {p : Str × List Json} (h : decodeGlobalId python globalId = .ok p) :
    Answers (.ok p : Except (Raised E) _) := by
  cases globalId
  case other value =>
    rw [decodeGlobalId] at h
    cases hv : python.repr value <;> simp [hv] at h
  case str s =>
    rw [decodeGlobalId] at h
    split at h
    case h_1 => cases h
    case h_2 payload _ =>
      exact h ▸ decodePayload_answers (python.reprStr s) payload

-- An entry takes what is raised for its id if that is a `ValueError`.
theorem decodeEntry_isOk_iff {id : IdEntry O E} :
    (∃ entry, decodeEntry python loaders id = .ok entry) ↔
      ∀ globalId, id = .value globalId → Readable python globalId := by
  cases id
  case exception error => simp [decodeEntry]
  case value globalId  =>
    simp only [IdEntry.value.injEq, forall_eq', ← decodeGlobalId_answers_iff]
    rw [decodeEntry]
    cases hg : decodeGlobalId python globalId
    case ok p        =>
      refine iff_of_true ?_ (answers_of_ok hg)
      dsimp only
      split
      case isTrue  => exact ⟨_, rfl⟩
      case isFalse => exact ⟨_, rfl⟩
    case error error =>
      cases error
      case valueError text => exact iff_of_true ⟨_, rfl⟩ answers_valueError
      case recursionError  => exact iff_of_false (by simp) not_answers_recursionError
      case other error     =>
        refine iff_of_false (by simp) ?_
        intro h
        cases h
        case inl h => obtain ⟨_, _, _, h⟩ := h; cases h
        case inr h => obtain ⟨_, h⟩ := h; cases h

-- The walk gives each entry what its id gives alone, just when all of the ids are readable.
theorem decodeEntries_iff :
    (∃ entries, decodeEntries python loaders ids = .ok entries ∧
        ids.map (decodeEntry python loaders) = entries.map .ok) ↔
      ∀ globalId, .value globalId ∈ ids → Readable python globalId := by
  induction ids
  case nil            => simp [decodeEntries]
  case cons id ids hi =>
    have hhead : (∃ entry, decodeEntry python loaders id = .ok entry) ↔
        ∀ globalId, id = .value globalId → Readable python globalId := decodeEntry_isOk_iff
    simp only [List.mem_cons, or_imp, forall_and]
    rw [← hi]
    simp only [eq_comm (b := id)]
    rw [← hhead, decodeEntries]
    cases he : decodeEntry python loaders id
    case error error => simp
    case ok entry    =>
      cases decodeEntries python loaders ids
      case error error => simp
      case ok entries  => simp [he]

end Node

-- Ids of the encoder: values come back from their id just when all of them are faithful, distinct values share one only
-- by their pairs of surrogates, and what an id gives is encoded as the id. Any value is read or refused by a
-- `ValueError` just when it is readable, and the ids of a node step have an entry each just when all of them are.
theorem globalIds_iff :
    (∀ (typename : Str) (parts : List Json.Native), parts ≠ [] →
      ((∃ id, encodeGlobalId python typename parts = .ok id ∧
          decodeGlobalId python (.str id) = .ok (typename, parts.map Json.Native.toJson)) ↔
        ∀ item ∈ .str typename :: parts, item.Faithful python.limits)) ∧
    (∀ (t t' : Str) (parts parts' : List Json.Native) (id id' : Str), encodeGlobalId python t parts = .ok id →
      encodeGlobalId python t' parts' = .ok id' →
        (id = id' ↔ joinPairs t = joinPairs t' ∧ parts.map Json.Native.joined = parts'.map Json.Native.joined)) ∧
    (∀ (typename : Str) (parts : List Json.Native) (id : Str), encodeGlobalId python typename parts = .ok id →
      ∃ t parts', decodeGlobalId python (.str id) = .ok (t, parts'.map Json.Native.toJson) ∧
        encodeGlobalId python t parts' = .ok id) ∧
    (∀ globalId, Answers (decodeGlobalId python globalId) ↔ Readable python globalId) ∧
    ∀ (loaders : List Str) (ids : List (IdEntry O E)),
      (∃ entries, decodeEntries python loaders ids = .ok entries ∧
          ids.map (decodeEntry python loaders) = entries.map .ok) ↔
        ∀ globalId, .value globalId ∈ ids → Readable python globalId :=
  ⟨fun _ _ hne => roundTrip_iff hne, fun _ _ _ _ _ _ h h' => encode_eq_iff h h', fun _ _ _ h => encode_decode h,
    fun _ => decodeGlobalId_answers_iff, fun _ _ => decodeEntries_iff⟩

end

-- An id whose text is more brackets than may be open.
namespace Brackets

def python : Python Empty Empty where
  limits   := .initial
  reprStr  := fun _ => "'W1tb...'"
  detail   := fun _ => "no JSON"
  digits   := "Exceeds the limit (4300 digits) for integer string conversion"
  repr     := Empty.elim
  typeName := Empty.elim

def nested : Str :=
  wrap Base64.urlSafe (List.replicate (python.limits.maxDepth + 1) '[')

-- It raises no `ValueError`, and it takes the other entries of a node step with it.
theorem not_answered :
    ¬(∀ globalId, Answers (decodeGlobalId python globalId)) ∧
      ¬∃ entries, decodeEntries python [] [.value (.str nested), .value (.str [])] = .ok entries := by
  have hd : decodeGlobalId python (.str nested) = .error .recursionError := by
    rw [decodeGlobalId, nested, decodeBody_brackets]
  constructor
  · intro h
    exact not_answers_recursionError (hd ▸ h (.str nested))
  · rw [decodeEntries, decodeEntry, hd]
    simp

end Brackets

-- The ids of two users.
namespace Users

def user : Str :=
  Str.ofString "User"

def seventh : Str :=
  Str.ofString "WyJVc2VyIiw3XQ=="

def eighth : Str :=
  Str.ofString "WyJVc2VyIiw4XQ=="

theorem encoded (number : Int) (text : List Char) {id : Str}
    (hd : Json.dumps Brackets.python.limits [.str user, .int number] = some text)
    (hw : wrap Base64.urlSafe text = id) : encodeGlobalId Brackets.python user [.int number] = .ok id := by
  rw [encode_eq_encodeBody (List.cons_ne_nil _ _), encodeBody, hd]
  exact congrArg Except.ok hw

theorem encoded_seventh : encodeGlobalId Brackets.python user [.int 7] = .ok seventh :=
  encoded 7 "[\"User\",7]".toList (by decide +kernel) (by decide +kernel)

theorem encoded_eighth : encodeGlobalId Brackets.python user [.int 8] = .ok eighth :=
  encoded 8 "[\"User\",8]".toList (by decide +kernel) (by decide +kernel)

theorem globalIds_users :
    decodeGlobalId Brackets.python (.str seventh) = .ok (user, [.int 7]) ∧ seventh ≠ eighth := by
  obtain ⟨roundTrip, injective, _⟩ := @globalIds_iff _ _ Brackets.python
  have faithful : ∀ item ∈ [Json.Native.str user, .int 7], item.Faithful Brackets.python.limits := by
    have unpaired : Unpaired user := joinPairs_eq_iff.mp (by decide +kernel)
    rw [List.forall_mem_cons, List.forall_mem_singleton]
    exact ⟨unpaired, by rw [Json.Native.Faithful]; decide +kernel⟩
  obtain ⟨own, hown, decoded⟩ := (roundTrip user [.int 7] (List.cons_ne_nil _ _)).mpr faithful
  obtain rfl : seventh = own := Except.ok.inj (encoded_seventh.symm.trans hown)
  refine ⟨decoded, fun h => ?_⟩
  have parts := ((injective _ _ _ _ _ _ encoded_seventh encoded_eighth).mp h).right
  exact absurd parts (by decide)

end Users

end Grafast.GlobalId
