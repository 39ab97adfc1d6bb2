import Mathlib.Data.List.TakeWhile
import Grafast.Text.Envelope

namespace Text

section Ascii

variable {limits : Limits} {item : Json.Native} {items : List Json.Native} {text texts : List Char} {c : CodePoint}

def Ascii (text : List Char) : Prop :=
  ∀ c ∈ text, c.toNat < 128

theorem Ascii.append {a b : List Char} (ha : Ascii a) (hb : Ascii b) : Ascii (a ++ b) :=
  List.forall_mem_append.mpr ⟨ha, hb⟩

theorem Ascii.cons {x : Char} {a : List Char} (hx : x.toNat < 128) (ha : Ascii a) : Ascii (x :: a) :=
  List.forall_mem_cons.mpr ⟨hx, ha⟩

theorem utf8EncodeChar_ascii {x : Char} (h : x.toNat < 128) : String.utf8EncodeChar x = [UInt8.ofNat x.toNat] := by
  have hb : (UInt8.ofNat x.toNat).toNat = x.toNat := by simp; omega
  have he := utf8EncodeChar_ofNat (b := UInt8.ofNat x.toNat) (by omega)
  rwa [hb, Char.ofNat_toNat] at he

-- A character of ASCII is a byte.
theorem utf8_ascii (h : Ascii text) : utf8 text = text.map fun x => UInt8.ofNat x.toNat := by
  induction text
  case nil            => rfl
  case cons x text hi =>
    obtain ⟨hx, ht⟩ := List.forall_mem_cons.mp h
    rw [utf8, List.flatMap_cons, utf8EncodeChar_ascii hx, List.map_cons, ← utf8, hi ht]
    rfl

namespace Json

theorem escapeUnit_ascii (u : Nat) : Ascii (escapeUnit u) := by
  have hd (n : Nat) : (Nat.digitChar (n % 16)).toNat < 128 := by
    have hall : ∀ n < 16, (Nat.digitChar n).toNat < 128 := by decide
    exact hall (n % 16) (Nat.mod_lt _ (by decide))
  intro x hx
  simp only [escapeUnit, hex4, List.mem_cons, List.not_mem_nil, or_false] at hx
  obtain rfl | rfl | rfl | rfl | rfl | rfl := hx
  · decide
  · decide
  · exact hd _
  · exact hd _
  · exact hd _
  · exact hd _

theorem escape_ascii : Ascii (escape c) := by
  have hunits : Ascii (c.units.flatMap escapeUnit) := by
    intro x hx
    obtain ⟨u, _, hx⟩ := List.mem_flatMap.mp hx
    exact escapeUnit_ascii u x hx
  cases c
  case surrogate n => exact hunits
  case char x      =>
    rw [escape.eq_def]
    dsimp only
    split
    case h_1 e hl =>
      obtain ⟨before, after, he, _⟩ := List.lookup_eq_some_iff.mp hl
      have hall : ∀ p ∈ shortEscapes, p.snd.toNat < 128 := by decide
      have he := hall (x, e) (he ▸ List.mem_append_right _ (.head _))
      exact .cons (by decide) (.cons he (by simp [Ascii]))
    case h_2 hl   =>
      split
      case isTrue h  => exact .cons (by omega) (by simp [Ascii])
      case isFalse h => exact hunits

theorem toDigits_ascii (n : Nat) : Ascii (Nat.toDigits 10 n) := by
  intro x hx
  have hd : x.isDigit = true := Nat.isDigit_of_mem_toDigits (by decide) (by decide) hx
  simp only [Char.isDigit, ge_iff_le, Bool.and_eq_true, decide_eq_true_eq, UInt32.le_iff_toNat_le] at hd
  have hle : x.toNat ≤ 57 := hd.right
  omega

theorem dumpsItem_ascii (h : item.dumps limits = some text) : Ascii text := by
  cases item
  case null   => cases h; simp [Ascii]
  case bool b => cases b <;> cases h <;> simp [Ascii]
  case str s  =>
    cases h
    refine .append (.cons (by decide) fun x hx => ?_) (.cons (by decide) (by simp [Ascii]))
    obtain ⟨c, _, hx⟩ := List.mem_flatMap.mp hx
    exact escape_ascii x hx
  case int i  =>
    rw [Native.dumps] at h
    split at h
    case isTrue  => cases h
    case isFalse =>
      cases h
      rw [writeInt]
      split
      case isTrue  => exact .cons (by decide) (toDigits_ascii _)
      case isFalse => exact toDigits_ascii _

theorem dumpsItems_ascii (h : dumpsItems limits items = some texts) : Ascii texts := by
  fun_induction dumpsItems limits items generalizing texts
  case case1                => cases h; simp [Ascii]
  case case2 item           => exact dumpsItem_ascii h
  case case3 item rest _ hi =>
    obtain ⟨text, ht, h⟩ := Option.bind_eq_some_iff.mp h
    obtain ⟨texts', hts, h⟩ := Option.bind_eq_some_iff.mp h
    cases h
    exact (dumpsItem_ascii ht).append (.cons (by decide) (hi hts))

theorem dumps_ascii (h : dumps limits items = some text) : Ascii text := by
  obtain ⟨texts, ht, rfl⟩ := Option.map_eq_some_iff.mp h
  exact (Ascii.cons (by decide) (dumpsItems_ascii ht)).append (.cons (by decide) (by simp [Ascii]))

end Json

end Ascii

namespace Base64

variable {bytes more part : List UInt8}

-- What follows after whole groups is read by itself, and after padding nothing may follow.
theorem decodeFrom_b64encode_append (hm : more ≠ []) :
    decodeFrom 0 0 0 false (b64encode bytes ++ more) =
      if bytes.length % 3 = 0 then (decodeFrom 0 0 0 false more).map (bytes ++ ·) else none := by
  have hpad : more.isEmpty = false := by simpa using hm
  fun_induction b64encode bytes
  case case1 => simp
  case case2 a =>
    have ha := a.toNat_lt
    simp only [List.cons_append, List.nil_append]
    rw [decodeFrom_symbol (by omega), if_pos rfl, decodeFrom_symbol (by omega), if_neg (by decide), if_pos rfl]
    rw [decodeFrom, if_pos rfl, if_neg (by decide), decodeFrom, if_pos rfl, if_pos (by decide), hpad]
    rfl
  case case3 a b =>
    have ha := a.toNat_lt
    have hb := b.toNat_lt
    simp only [List.cons_append, List.nil_append]
    rw [decodeFrom_symbol (by omega), if_pos rfl, decodeFrom_symbol (by omega), if_neg (by decide), if_pos rfl,
      decodeFrom_symbol (by omega), if_neg (by decide), if_neg (by decide), if_pos rfl]
    rw [decodeFrom, if_pos rfl, if_pos (by decide), hpad]
    rfl
  case case4 a b c rest hi =>
    simp only [List.cons_append]
    rw [decodeFrom_group, hi]
    have hlen : (a :: b :: c :: rest).length % 3 = rest.length % 3 := by
      simp only [List.length_cons]
      omega
    rw [hlen]
    split
    case isTrue  => cases decodeFrom 0 0 0 false more <;> rfl
    case isFalse => rfl

-- A group that is not whole is refused.
theorem decodeFrom_open {m n : Nat} (hm : m < 64) (hn : n < 64) (k : Nat) (hk : k < 64) :
    decodeFrom 0 0 0 false [symbol m] = none ∧ decodeFrom 0 0 0 false [symbol m, symbol n] = none ∧
      decodeFrom 0 0 0 false [symbol m, symbol n, pad] = none ∧
      decodeFrom 0 0 0 false [symbol m, symbol n, symbol k] = none := by
  refine ⟨?_, ?_, ?_, ?_⟩
  · rw [decodeFrom_symbol hm, if_pos rfl]; rfl
  · rw [decodeFrom_symbol hm, if_pos rfl, decodeFrom_symbol hn, if_neg (by decide), if_pos rfl]; rfl
  · rw [decodeFrom_symbol hm, if_pos rfl, decodeFrom_symbol hn, if_neg (by decide), if_pos rfl]; rfl
  · rw [decodeFrom_symbol hm, if_pos rfl, decodeFrom_symbol hn, if_neg (by decide), if_pos rfl,
      decodeFrom_symbol hk, if_neg (by decide), if_neg (by decide), if_pos rfl]
    rfl

theorem prefix_four {w x y z : UInt8} {rest : List UInt8} (h : part <+: w :: x :: y :: z :: rest) :
    part = [] ∨ part = [w] ∨ part = [w, x] ∨ part = [w, x, y] ∨
      ∃ part', part = w :: x :: y :: z :: part' ∧ part' <+: rest := by
  simp only [List.prefix_cons_iff] at h
  obtain rfl | ⟨_, rfl, rfl | ⟨_, rfl, rfl | ⟨_, rfl, rfl | ⟨part', rfl, h⟩⟩⟩⟩ := h
  · exact .inl rfl
  · exact .inr (.inl rfl)
  · exact .inr (.inr (.inl rfl))
  · exact .inr (.inr (.inr (.inl rfl)))
  · exact .inr (.inr (.inr (.inr ⟨part', rfl, h⟩)))

-- A part of what is encoded is refused, or it is groups that are whole.
theorem decodeFrom_initial (h : part <+: b64encode bytes) (hne : part ≠ b64encode bytes) :
    decodeFrom 0 0 0 false part = none ∨
      ∃ n, n < bytes.length ∧ decodeFrom 0 0 0 false part = some (bytes.take n) := by
  fun_induction b64encode bytes generalizing part
  case case1 => exact absurd (List.prefix_nil.mp h) hne
  case case2 a =>
    have ha := a.toNat_lt
    obtain ⟨h₁, h₂, h₃, _⟩ :=
      decodeFrom_open (m := a.toNat / 4) (n := a.toNat % 4 * 16) (by omega) (by omega) 0 (by decide)
    obtain rfl | rfl | rfl | rfl | ⟨part', rfl, hr⟩ := prefix_four h
    · exact .inr ⟨0, by simp, rfl⟩
    · exact .inl h₁
    · exact .inl h₂
    · exact .inl h₃
    · obtain rfl := List.prefix_nil.mp hr
      exact absurd rfl hne
  case case3 a b =>
    have ha := a.toNat_lt
    have hb := b.toNat_lt
    obtain ⟨h₁, h₂, _, h₃⟩ := decodeFrom_open (m := a.toNat / 4) (n := a.toNat % 4 * 16 + b.toNat / 16) (by omega)
      (by omega) (b.toNat % 16 * 4) (by omega)
    obtain rfl | rfl | rfl | rfl | ⟨part', rfl, hr⟩ := prefix_four h
    · exact .inr ⟨0, by simp, rfl⟩
    · exact .inl h₁
    · exact .inl h₂
    · exact .inl h₃
    · obtain rfl := List.prefix_nil.mp hr
      exact absurd rfl hne
  case case4 a b c rest hi =>
    have ha := a.toNat_lt
    have hb := b.toNat_lt
    have hc := c.toNat_lt
    obtain ⟨h₁, h₂, _, h₃⟩ := decodeFrom_open (m := a.toNat / 4) (n := a.toNat % 4 * 16 + b.toNat / 16) (by omega)
      (by omega) (b.toNat % 16 * 4 + c.toNat / 64) (by omega)
    obtain rfl | rfl | rfl | rfl | ⟨part', rfl, hr⟩ := prefix_four h
    · exact .inr ⟨0, by simp, rfl⟩
    · exact .inl h₁
    · exact .inl h₂
    · exact .inl h₃
    · rw [decodeFrom_group]
      cases hi hr (fun he => hne (by rw [he]))
      case inl hn => exact .inl (by rw [hn]; rfl)
      case inr hn =>
        obtain ⟨n, hn, hd⟩ := hn
        exact .inr ⟨n + 3, by simp only [List.length_cons]; omega, by rw [hd]; rfl⟩

theorem head_b64encode_ne_pad (hb : bytes ≠ []) : (b64encode bytes).head? ≠ some pad ∧ b64encode bytes ≠ [] := by
  have hp {n : Nat} (hn : n < 64) : symbol n ≠ pad := (sextet_symbol n hn).right
  fun_cases b64encode bytes
  case case1 => exact absurd rfl hb
  case case2 a => exact ⟨by simpa using hp (by have := a.toNat_lt; omega), by simp⟩
  case case3 a b => exact ⟨by simpa using hp (by have := a.toNat_lt; omega), by simp⟩
  case case4 a b c rest => exact ⟨by simpa using hp (by have := a.toNat_lt; omega), by simp⟩

-- There is padding just after bytes that are no whole groups.
theorem getLast_b64encode (hb : bytes ≠ []) : (b64encode bytes).getLast? = some pad ↔ bytes.length % 3 ≠ 0 := by
  have hp {n : Nat} (hn : n < 64) : symbol n ≠ pad := (sextet_symbol n hn).right
  fun_induction b64encode bytes
  case case1     => exact absurd rfl hb
  case case2 a   => simp
  case case3 a b => simp
  case case4 a b c rest hi =>
    have hlen : (a :: b :: c :: rest).length % 3 = rest.length % 3 := by
      simp only [List.length_cons]
      omega
    rw [hlen]
    by_cases hr : rest = []
    case pos =>
      subst hr
      have hs : symbol (c.toNat % 64) ≠ pad := hp (Nat.mod_lt _ (by decide))
      simpa [b64encode] using hs
    case neg =>
      have hne := (head_b64encode_ne_pad hr).right
      refine Iff.trans ?_ (hi hr)
      cases he : b64encode rest
      case nil       => exact absurd he hne
      case cons d l  => simp [List.getLast?_cons_cons]

theorem a2bBase64_append (hb : bytes ≠ []) (hm : more ≠ []) :
    a2bBase64 (b64encode bytes ++ more) =
      if bytes.length % 3 = 0 then (decodeFrom 0 0 0 false more).map (bytes ++ ·) else none := by
  obtain ⟨hh, hne⟩ := head_b64encode_ne_pad hb
  rw [a2bBase64, List.head?_append_of_ne_nil _ hne, if_neg hh, decodeFrom_b64encode_append hm]

theorem a2bBase64_initial (h : part <+: b64encode bytes) (hne : part ≠ b64encode bytes) :
    a2bBase64 part = none ∨ ∃ n, n < bytes.length ∧ a2bBase64 part = some (bytes.take n) := by
  rw [a2bBase64]
  split
  case isTrue  => exact .inl rfl
  case isFalse => exact decodeFrom_initial h hne

end Base64

namespace Json

section Prefix

variable {α : Type} {limits : Limits} {item : Native} {items : List Native} {text texts part more rest : List Char}
  {m d fuel : Nat} {inner : Option (List Char → Scan Json)}

-- An error of a text, not of how deeply it is nested.
def Refused (scan : Scan α) : Prop :=
  ∃ error, scan = .error error ∧ error ≠ .recursion

-- Nothing is read, or something after which nothing is left.
def Exhausted (scan : Scan α) : Prop :=
  Refused scan ∨ ∃ x rest, scan = .ok (x, rest) ∧ skipSpace rest = []

theorem refused_invalid : Refused (.error .invalid : Scan α) :=
  ⟨.invalid, rfl, by decide⟩

-- The end of a string is the same in a longer text.
theorem unescape_append {p : Str × List Char} (h : unescape text = some p) :
    unescape (text ++ more) = some (p.fst, p.snd ++ more) := by
  fun_induction unescape text generalizing p
  case case1                 => cases h
  case case2 rest            => cases h; exact unescape_quote
  case case3                 => cases h
  case case4 x y z w rest _ hi =>
    obtain ⟨u, hu, h⟩ := Option.bind_eq_some_iff.mp h
    obtain ⟨q, hq, rfl⟩ := Option.map_eq_some_iff.mp h
    simp only [List.cons_append]
    rw [unescape_unit, hu, Option.bind_some, hi hq]
    rfl
  case case5                 => cases h
  case case6 e rest he _ hi  =>
    obtain ⟨x, hx, h⟩ := Option.bind_eq_some_iff.mp h
    obtain ⟨q, hq, rfl⟩ := Option.map_eq_some_iff.mp h
    simp only [List.cons_append]
    rw [unescape_simple he, hx, Option.bind_some, hi hq]
    rfl
  case case7                 => cases h
  case case8 c rest hq hb hc hi =>
    obtain ⟨q, hs, rfl⟩ := Option.map_eq_some_iff.mp h
    rw [List.cons_append, unescape_char hq hb hc, hi hs]
    rfl

-- A string is not closed before its end.
theorem scanString_initial {s : Str} (hp : part <+: s.flatMap escape ++ ['"']) :
    scanString part = .error .invalid ∨ scanString part = .ok (joinPairs s, []) := by
  by_cases hw : part = s.flatMap escape ++ ['"']
  case pos => exact .inr (hw ▸ scanString_escape)
  case neg =>
    obtain ⟨more, hm⟩ := hp
    have hwhole : scanString (part ++ more) = .ok (joinPairs s, []) := hm ▸ scanString_escape
    rw [scanString] at hwhole ⊢
    cases hu : unescape part
    case none   => exact .inl rfl
    case some p =>
      rw [unescape_append hu] at hwhole
      have hnil : p.snd ++ more = [] := congrArg Prod.snd (Except.ok.inj hwhole)
      rw [(List.append_eq_nil_iff.mp hnil).right, List.append_nil] at hm
      exact absurd hm hw

-- The first digits of a number are an integer up to their end.
theorem scanInteger_initial {n : Nat} (hp : part <+: Nat.toDigits 10 n) :
    scanInteger part = none ∨ ∃ digits, scanInteger part = some (digits, []) := by
  cases part
  case nil           => exact .inl rfl
  case cons c digits =>
    have hd : ∀ x ∈ c :: digits, x.isDigit = true := fun x hx =>
      Nat.isDigit_of_mem_toDigits (by decide) (by decide) (hp.subset hx)
    rw [scanInteger]
    split
    case isTrue hc  =>
      by_cases hn : n = 0
      case pos =>
        subst hn
        obtain ⟨more, hm⟩ := hp
        have hnil : digits ++ more = [] := (List.cons.inj hm).right
        exact .inr ⟨['0'], by rw [(List.append_eq_nil_iff.mp hnil).left]⟩
      case neg =>
        obtain ⟨more, hm⟩ := hp
        refine absurd ?_ (toDigits_head_ne (n := n) (by omega))
        rw [← hm, hc]
        rfl
    case isFalse hc =>
      rw [if_pos (hd c (.head _)), scanDigits, List.takeWhile_eq_self_iff.mpr hd, List.dropWhile_eq_nil_iff.mpr hd]
      exact .inr ⟨_, rfl⟩

theorem scanNumber_exhausted
    (h : scanInteger (scanSign ['-'] text).snd = none ∨
      ∃ digits, scanInteger (scanSign ['-'] text).snd = some (digits, [])) :
    Exhausted (scanNumber m text) := by
  rw [scanNumber]
  obtain h | ⟨digits, h⟩ := h
  · simp only [h]
    exact .inl refused_invalid
  · simp only [h, scanFraction, scanExponent, and_self, if_true]
    split
    case isTrue  => exact .inl ⟨.digits, rfl, by decide⟩
    case isFalse => exact .inr ⟨_, _, rfl, rfl⟩

theorem scanPlain_initial {i : Int} (hp : part <+: writeInt i) : Exhausted (scanPlain m part) := by
  have hdigits {digits : List Char} (hd : digits <+: Nat.toDigits 10 i.natAbs) :
      scanSign ['-'] digits = ([], digits) ∧
        constants.find? (·.fst.isPrefixOf digits) = none ∧ constants.find? (·.fst.isPrefixOf ('-' :: digits)) = none := by
    cases digits
    case nil           => exact ⟨rfl, rfl, rfl⟩
    case cons c digits =>
      have hc : c.isDigit = true :=
        Nat.isDigit_of_mem_toDigits (by decide) (by decide) (hd.subset (.head _))
      obtain ⟨_, _, _, _, _, _, _, _, _, _, hm⟩ := digit_not_space hc
      exact ⟨by simp [scanSign, hm], find_constants hc⟩
  rw [writeInt] at hp
  split at hp
  case isFalse =>
    obtain ⟨hs, hf, _⟩ := hdigits hp
    rw [scanPlain, hf]
    exact scanNumber_exhausted (hs ▸ scanInteger_initial hp)
  case isTrue  =>
    obtain rfl | ⟨digits, rfl, hd⟩ := List.prefix_cons_iff.mp hp
    · exact .inl refused_invalid
    · rw [scanPlain, (hdigits hd).right.right]
      exact scanNumber_exhausted (scanInteger_initial hd)

-- What is read of the beginning of a value leaves nothing.
theorem scanValue_initial (h : item.dumps limits = some text) (hp : part <+: text) :
    Exhausted (scanValue m inner part) := by
  have hinvalid {part : List Char} (h : scanValue m inner part = .error .invalid) :
      Exhausted (scanValue m inner part) := .inl (h ▸ refused_invalid)
  cases item
  case null   =>
    cases h
    simp only [List.prefix_cons_iff, List.prefix_nil] at hp
    obtain rfl | ⟨_, rfl, rfl | ⟨_, rfl, rfl | ⟨_, rfl, rfl | ⟨_, rfl, rfl⟩⟩⟩⟩ := hp
    · exact hinvalid rfl
    · exact hinvalid rfl
    · exact hinvalid rfl
    · exact hinvalid rfl
    · exact .inr ⟨_, _, rfl, rfl⟩
  case bool b =>
    cases b
    case true  =>
      cases h
      simp only [List.prefix_cons_iff, List.prefix_nil] at hp
      obtain rfl | ⟨_, rfl, rfl | ⟨_, rfl, rfl | ⟨_, rfl, rfl | ⟨_, rfl, rfl⟩⟩⟩⟩ := hp
      · exact hinvalid rfl
      · exact hinvalid rfl
      · exact hinvalid rfl
      · exact hinvalid rfl
      · exact .inr ⟨_, _, rfl, rfl⟩
    case false =>
      cases h
      simp only [List.prefix_cons_iff, List.prefix_nil] at hp
      obtain rfl | ⟨_, rfl, rfl | ⟨_, rfl, rfl | ⟨_, rfl, rfl | ⟨_, rfl, rfl | ⟨_, rfl, rfl⟩⟩⟩⟩⟩ := hp
      · exact hinvalid rfl
      · exact hinvalid rfl
      · exact hinvalid rfl
      · exact hinvalid rfl
      · exact hinvalid rfl
      · exact .inr ⟨_, _, rfl, rfl⟩
  case str s  =>
    cases h
    rw [writeString, List.cons_append, List.prefix_cons_iff] at hp
    obtain rfl | ⟨part, rfl, hp⟩ := hp
    · exact hinvalid rfl
    · rw [scanValue_string]
      obtain h | h := scanString_initial hp
      · rw [h]; exact .inl refused_invalid
      · rw [h]; exact .inr ⟨_, _, rfl, rfl⟩
  case int i  =>
    have ht : text = writeInt i := by
      rw [Native.dumps] at h
      split at h
      case isTrue  => cases h
      case isFalse => exact (Option.some.inj h).symm
    cases hc : part
    case nil         => exact hinvalid rfl
    case cons c part =>
      have hfirst : c = '-' ∨ c.isDigit = true := by
        obtain ⟨more, hm⟩ := hp
        rw [hc, ht, writeInt] at hm
        split at hm
        case isTrue  => exact .inl (List.cons.inj hm).left
        case isFalse =>
          exact .inr (Nat.isDigit_of_mem_toDigits (b := 10) (n := i.natAbs) (by decide) (by decide) (hm ▸ .head _))
      have hplain : scanValue m inner (c :: part) = scanPlain m (c :: part) := by
        cases hfirst
        case inl h => subst h; exact scanValue_plain (by decide) (by decide) (by decide)
        case inr h =>
          obtain ⟨_, _, hs, ha, ho, _⟩ := digit_not_space h
          exact scanValue_plain hs ha ho
      rw [hplain]
      exact scanPlain_initial (ht ▸ hc ▸ hp)

theorem scanOnce_initial (h : item.dumps limits = some text) (hp : part <+: text) : Exhausted (scanOnce m d part) := by
  cases d
  case zero   => exact scanValue_initial h hp
  case succ d => exact scanValue_initial h hp

theorem scanEntries_exhausted {close : Char} {scan : List Char → Scan α} (h : Exhausted (scan part)) :
    Refused (scanEntries close scan fuel part) := by
  cases fuel
  case zero      => exact refused_invalid
  case succ fuel =>
    rw [scanEntries]
    cases h
    case inl h =>
      obtain ⟨error, he, hr⟩ := h
      exact ⟨error, by rw [he]; rfl, hr⟩
    case inr h =>
      obtain ⟨x, rest, hx, hs⟩ := h
      refine ⟨.invalid, ?_, by decide⟩
      rw [hx, andThen]
      dsimp only
      rw [hs]

theorem andThen_refused {β : Type} {scan : Scan α} {next : α → List Char → Scan β} (h : Refused scan) :
    Refused (andThen scan next) := by
  obtain ⟨error, rfl, hr⟩ := h
  exact ⟨error, rfl, hr⟩

theorem opens_or_nil (hne : items ≠ []) (h : dumpsItems limits items = some texts) (hp : part <+: texts ++ rest) :
    part = [] ∨ Opens part := by
  obtain ⟨c, l, rfl, hc⟩ := opens_dumpsItems hne h
  rw [List.cons_append, List.prefix_cons_iff] at hp
  obtain rfl | ⟨part, rfl, _⟩ := hp
  · exact .inl rfl
  · exact .inr ⟨c, part, rfl, hc⟩

-- Entries are not closed before the end of their array.
theorem scanEntries_initial (hne : items ≠ []) (h : dumpsItems limits items = some texts)
    (hp : part <+: texts ++ [']']) (hw : part ≠ texts ++ [']']) :
    Refused (scanEntries ']' (scanOnce limits.maxStrDigits d) fuel part) := by
  induction items generalizing texts part fuel
  case nil             => exact absurd rfl hne
  case cons item items hi =>
    cases items
    case nil             =>
      have hpart : part <+: texts := (List.prefix_concat_iff.mp hp).resolve_left hw
      exact scanEntries_exhausted (scanOnce_initial h hpart)
    case cons next items =>
      obtain ⟨text, ht, h⟩ := Option.bind_eq_some_iff.mp h
      obtain ⟨texts', hts, h⟩ := Option.bind_eq_some_iff.mp h
      cases h
      by_cases hpart : part <+: text
      case pos => exact scanEntries_exhausted (scanOnce_initial ht hpart)
      case neg =>
        rw [List.append_assoc, List.cons_append] at hp
        obtain ⟨more, rfl⟩ : ∃ more, part = text ++ ',' :: more := by
          obtain ⟨tail, rfl⟩ := (List.prefix_or_prefix_of_prefix hp (List.prefix_append _ _)).resolve_left hpart
          rw [List.prefix_append_right_inj, List.prefix_cons_iff] at hp
          obtain rfl | ⟨more, rfl, _⟩ := hp
          · exact absurd (by simp) hpart
          · exact ⟨more, rfl⟩
        rw [List.prefix_append_right_inj, List.prefix_cons_inj] at hp
        have hskip : skipSpace more = more := by
          obtain rfl | ho := opens_or_nil (List.cons_ne_nil _ _) hts hp
          · rfl
          · exact ho.skipSpace
        cases fuel
        case zero      => exact refused_invalid
        case succ fuel =>
          rw [scanEntries_comma (scanOnce_dumps ht ends_comma), hskip]
          exact andThen_refused (hi (List.cons_ne_nil _ _) hts hp (by rintro rfl; exact hw (by simp)))

-- A part of an array is no JSON.
theorem loads_initial (h : dumps limits items = some text) (hp : part <+: text) (hw : part ≠ text) :
    ∃ error, loads limits part = .error error ∧ error ≠ .recursion := by
  obtain ⟨texts, ht, rfl⟩ := Option.map_eq_some_iff.mp h
  obtain ⟨d, hd⟩ : ∃ d, limits.maxDepth = d + 1 := ⟨limits.maxDepth - 1, by have := limits.maxDepth_pos; omega⟩
  have hscan : part.head? ≠ some '\uFEFF' ∧ skipSpace part = part ∧
      Refused (scanOnce limits.maxStrDigits limits.maxDepth part) := by
    rw [List.cons_append, List.prefix_cons_iff] at hp
    obtain rfl | ⟨rest, rfl, hr⟩ := hp
    · exact ⟨by simp, rfl, by rw [hd]; exact refused_invalid⟩
    refine ⟨by simp, rfl, ?_⟩
    rw [hd, scanOnce, scanValue_array]
    refine andThen_refused ?_
    have hwr : rest ≠ texts ++ [']'] := by rintro rfl; exact hw rfl
    by_cases hne : items = []
    case pos =>
      subst hne
      cases ht
      rw [(List.prefix_concat_iff.mp hr).resolve_left hwr |> List.prefix_nil.mp]
      exact refused_invalid
    case neg =>
      rw [scanBracketed]
      obtain rfl | ho := opens_or_nil hne ht hr
      · exact refused_invalid
      rw [ho.skipSpace]
      obtain ⟨c, l, rfl, _, hc⟩ := ho
      dsimp only
      rw [if_neg hc]
      exact scanEntries_initial hne ht hr hwr
  obtain ⟨hb, hs, error, he, hr⟩ := hscan
  exact ⟨error, by rw [loads, if_neg hb, hs, he], hr⟩

end Prefix

end Json

section Body

open Base64

variable {E : Type} {python : Runtime} {what : String} {s part more : Str} {text : List Char} {raw : List UInt8}
  {items : List Json.Native}

theorem ofUtf8_append : ofUtf8 (utf8 text ++ raw) = (ofUtf8 raw).map (text ++ ·) := by
  induction text
  case nil            => simp [utf8]
  case cons c text hi =>
    have hc : (String.utf8EncodeChar c ++ (utf8 text ++ raw)).toByteArray.utf8Decode? =
        (utf8 text ++ raw).toByteArray.utf8Decode?.map (#[c] ++ ·) := by
      rw [List.toByteArray_append, ← List.utf8Encode_singleton, ByteArray.utf8Decode?_utf8Encode_singleton_append]
    have hmap : ofUtf8 (String.utf8EncodeChar c ++ (utf8 text ++ raw)) = (ofUtf8 (utf8 text ++ raw)).map (c :: ·) := by
      rw [ofUtf8, hc, ofUtf8, Option.map_map, Option.map_map]
      cases (utf8 text ++ raw).toByteArray.utf8Decode? <;> simp
    rw [utf8, List.flatMap_cons, ← utf8, List.append_assoc, hmap, hi, Option.map_map]
    rfl

theorem utf8_ne_nil (hne : text ≠ []) : utf8 text ≠ [] := by
  cases text
  case nil         => exact absurd rfl hne
  case cons c text =>
    rw [utf8, List.flatMap_cons]
    exact List.append_ne_nil_of_left_ne_nil (by simp) _

theorem encode_ne_nil {bytes : List UInt8} (hne : s ≠ []) (h : s.encode = some bytes) : bytes ≠ [] := by
  obtain ⟨chars, hs, rfl⟩ := Option.map_eq_some_iff.mp h
  refine utf8_ne_nil ?_
  cases s
  case nil      => exact absurd rfl hne
  case cons c s =>
    rw [List.mapM_cons] at hs
    obtain ⟨x, _, hs⟩ := Option.bind_eq_some_iff.mp hs
    obtain ⟨xs, _, hs⟩ := Option.bind_eq_some_iff.mp hs
    cases hs
    exact List.cons_ne_nil _ _

theorem encode_append {bytes : List UInt8} (h : s.encode = some bytes) :
    Str.encode (s ++ more) = more.encode.map (bytes ++ ·) := by
  obtain ⟨chars, hs, rfl⟩ := Option.map_eq_some_iff.mp h
  rw [Str.encode, Str.encode, List.mapM_append, hs]
  cases more.mapM CodePoint.char?
  case none      => rfl
  case some tail => exact congrArg some List.flatMap_append

theorem encode_append_none (h : more.encode = none) : Str.encode (s ++ more) = none := by
  rw [Str.encode, Option.map_eq_none_iff] at h ⊢
  rw [List.mapM_append, h]
  cases s.mapM CodePoint.char? <;> rfl

-- A part of what is written is a `ValueError`.
theorem decodeBody_truncated (what : String)
    (h : (encodeBody python standard items : Except (Raised E) Str) = .ok s)
    (hp : part <+: s) (hne : part ≠ s) :
    ∃ text, (decodeBody python standard what part : Except (Raised E) Json) = .error (.valueError text) := by
  obtain ⟨text, hd, rfl⟩ := encodeBody_eq_ok_iff.mp h
  have hascii : Ascii text := Json.dumps_ascii hd
  obtain ⟨n, rfl⟩ : ∃ n, part = Str.ofAscii ((b64encode (utf8 text)).take n) := by
    refine ⟨part.length, ?_⟩
    rw [Str.ofAscii, List.map_take]
    exact List.prefix_iff_eq_take.mp hp
  have henc : (Str.ofAscii ((b64encode (utf8 text)).take n)).encode = some ((b64encode (utf8 text)).take n) :=
    encode_ofAscii fun b hb => (b64encode_ascii (List.mem_of_mem_take hb)).left
  have hwhole : (b64encode (utf8 text)).take n ≠ b64encode (utf8 text) := by
    intro he
    exact hne (congrArg Str.ofAscii he)
  rw [decodeBody, bodyText, henc]
  dsimp only
  obtain hn | ⟨k, hk, hn⟩ := a2bBase64_initial (List.take_prefix n _) hwhole
  · rw [show standard.decode _ = none from hn]
    exact ⟨_, rfl⟩
  · have htake : (utf8 text).take k = utf8 (text.take k) := by
      rw [utf8_ascii hascii, utf8_ascii fun c hc => hascii c (List.mem_of_mem_take hc), List.map_take]
    have hlen : k < text.length := by rwa [utf8_ascii hascii, List.length_map] at hk
    rw [show standard.decode _ = some _ from hn, htake]
    dsimp only
    rw [ofUtf8_utf8]
    dsimp only
    obtain ⟨error, he, hr⟩ := Json.loads_initial hd (List.take_prefix k text) (by
      intro he
      have := congrArg List.length he
      rw [List.length_take] at this
      omega)
    rw [he]
    cases error
    case recursion => exact absurd rfl hr
    all_goals exact ⟨_, rfl⟩

-- A string that does not end with padding.
def Unpadded (s : Str) : Prop :=
  s.getLast? ≠ some (.char '=')

-- A string that stands for spaces only.
def Blank (more : Str) : Prop :=
  ∃ bytes raw spaces, more.encode = some bytes ∧ decodeFrom 0 0 0 false bytes = some raw ∧
    ofUtf8 raw = some spaces ∧ Json.skipSpace spaces = []

example : Blank (Str.ofString "=") :=
  ⟨[61], [], [], by decide +kernel, rfl, rfl, rfl⟩

theorem unpadded_wrap_iff (hne : text ≠ []) : Unpadded (wrap standard text) ↔ (utf8 text).length % 3 = 0 := by
  have hb := utf8_ne_nil hne
  have hlast {bytes : List UInt8} (h : ∀ b ∈ bytes, b.toNat < 128) :
      (Str.ofAscii bytes).getLast? = some (.char '=') ↔ bytes.getLast? = some pad := by
    rw [Str.ofAscii, List.getLast?_map, Option.map_eq_some_iff]
    constructor
    case mp  =>
      intro he
      obtain ⟨b, hb, hc⟩ := he
      have hn : b.toNat = 61 := by
        have hall : ∀ n < 128, Char.ofNat n = '=' → n = 61 := by decide
        exact hall b.toNat (h b (List.mem_of_getLast? hb)) (CodePoint.char.inj hc)
      rw [hb, ← ofNat_eq hn.symm]
      rfl
    case mpr => exact fun he => ⟨pad, he, rfl⟩
  rw [Unpadded, ne_eq, wrap, hlast (standard.encode_ascii _)]
  exact (not_congr (getLast_b64encode hb)).trans not_not

-- What is written and goes on is read just when it goes on with spaces after whole groups.
theorem decodeBody_extended (what : String)
    (h : (encodeBody python standard items : Except (Raised E) Str) = .ok s)
    (hm : more ≠ []) :
    ((Unpadded s ∧ Blank more) ∧ (decodeBody python standard what (s ++ more) : Except (Raised E) Json) =
      .ok (.array (items.map (·.joined.toJson)))) ∨
    (¬(Unpadded s ∧ Blank more) ∧ ∃ text, (decodeBody python standard what (s ++ more) : Except (Raised E) Json) =
      .error (.valueError text)) := by
  obtain ⟨text, hd, rfl⟩ := encodeBody_eq_ok_iff.mp h
  have hne : text ≠ [] := by
    obtain ⟨texts, _, rfl⟩ := Option.map_eq_some_iff.mp hd
    simp
  have hb := utf8_ne_nil hne
  rw [unpadded_wrap_iff hne, Blank]
  cases hx : more.encode
  case none       =>
    refine .inr ⟨by simp, ?_⟩
    rw [decodeBody, bodyText, encode_append_none hx]
    exact ⟨_, rfl⟩
  case some bytes =>
    have hbytes : bytes ≠ [] := encode_ne_nil hm hx
    have henc : (wrap standard text).encode = some (b64encode (utf8 text)) := encode_ofAscii (standard.encode_ascii _)
    have hdec : standard.decode (b64encode (utf8 text) ++ bytes) = _ := a2bBase64_append hb hbytes
    rw [decodeBody, bodyText, encode_append henc, hx]
    dsimp only [Option.map_some]
    rw [hdec]
    by_cases hl : (utf8 text).length % 3 = 0
    case neg =>
      rw [if_neg hl]
      exact .inr ⟨fun hc => hl hc.left, _, rfl⟩
    case pos =>
      rw [if_pos hl]
      cases hf : decodeFrom 0 0 0 false bytes
      case none     => exact .inr ⟨by simp [hf], _, rfl⟩
      case some raw =>
        dsimp only [Option.map_some]
        rw [ofUtf8_append]
        cases hu : ofUtf8 raw
        case none       => exact .inr ⟨by simp [hf, hu], _, rfl⟩
        case some tail =>
          dsimp only [Option.map_some]
          rw [Json.loads_dumps_append hd]
          by_cases hs : Json.skipSpace tail = []
          case pos => exact .inl ⟨⟨hl, bytes, raw, tail, rfl, hf, hu, hs⟩, by simp [hs]⟩
          case neg =>
            rw [if_neg (by simpa using hs)]
            exact .inr ⟨by simp [hf, hu, hs], _, rfl⟩

end Body

end Text
