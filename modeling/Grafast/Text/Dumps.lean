import Grafast.Text.Nesting

namespace Text.Json

section Strings

variable {s : Str} {c : CodePoint} {rest : List Char} {u : Nat}

theorem hexValue_digitChar : ∀ n < 16, hexValue (Nat.digitChar n) = some n := by
  decide

theorem hex4Value_hex4 (h : u < 0x10000) :
    hex4Value (Nat.digitChar (u / 4096 % 16)) (Nat.digitChar (u / 256 % 16)) (Nat.digitChar (u / 16 % 16))
      (Nat.digitChar (u % 16)) = some u := by
  have hd (n : Nat) : hexValue (Nat.digitChar (n % 16)) = some (n % 16) :=
    hexValue_digitChar (n % 16) (Nat.mod_lt _ (by decide))
  simp only [hex4Value, hd, Option.pure_def, Option.bind_eq_bind, Option.bind_some, Option.some.injEq]
  omega

theorem unescape_quote : unescape ('"' :: rest) = some ([], rest) := by
  rw [unescape.eq_def]
  dsimp only
  rw [if_pos rfl]

theorem unescape_unit {x y z w : Char} :
    unescape ('\\' :: 'u' :: x :: y :: z :: w :: rest) =
      (hex4Value x y z w).bind fun u => (unescape rest).map fun p => (.ofUnit u :: p.fst, p.snd) := by
  rw [unescape.eq_def]
  dsimp only
  rw [if_neg (by decide), if_pos rfl, if_pos rfl]

theorem unescape_simple {e : Char} (h : e ≠ 'u') :
    unescape ('\\' :: e :: rest) =
      (simpleEscape e).bind fun x => (unescape rest).map fun p => (.char x :: p.fst, p.snd) := by
  rw [unescape.eq_def]
  dsimp only
  rw [if_neg (by decide), if_pos rfl, if_neg h]

theorem unescape_char {x : Char} (hq : x ≠ '"') (hb : x ≠ '\\') (hx : ¬x.toNat < 0x20) :
    unescape (x :: rest) = (unescape rest).map fun p => (.char x :: p.fst, p.snd) := by
  rw [unescape.eq_def]
  dsimp only
  rw [if_neg hq, if_neg hb, if_neg hx]

theorem unescape_escapeUnit (h : u < 0x10000) :
    unescape (escapeUnit u ++ rest) = (unescape rest).map fun p => (.ofUnit u :: p.fst, p.snd) := by
  rw [escapeUnit, hex4]
  dsimp only [List.cons_append, List.nil_append]
  rw [unescape_unit, hex4Value_hex4 h, Option.bind_some]

theorem unescape_escapeUnits {units : List Nat} (h : ∀ u ∈ units, u < 0x10000) :
    unescape (units.flatMap escapeUnit ++ rest) =
      (unescape rest).map fun p => (units.map .ofUnit ++ p.fst, p.snd) := by
  induction units
  case nil             => simp
  case cons u units hi =>
    rw [List.flatMap_cons, List.append_assoc, unescape_escapeUnit (h u (.head _)),
      hi fun u hu => h u (.tail _ hu), Option.map_map]
    rfl

theorem units_lt : ∀ u ∈ c.units, u < 0x10000 := by
  cases c
  case surrogate n =>
    intro u hu
    obtain rfl := List.mem_singleton.mp hu
    omega
  case char x      =>
    have hx := toNat_lt (c := x)
    rw [CodePoint.units]
    split
    case isTrue h  =>
      intro u hu
      obtain rfl := List.mem_singleton.mp hu
      exact h
    case isFalse h =>
      simp only [List.forall_mem_cons, List.not_mem_nil, false_implies, implies_true, and_true]
      omega

-- A character with a short escape is plain, and it is what its escape stands for.
theorem simpleEscape_of_lookup {x e : Char} (h : shortEscapes.lookup x = some e) :
    simpleEscape e = some x ∧ e ≠ 'u' ∧ x.toNat < 0x10000 := by
  obtain ⟨before, after, he, _⟩ := List.lookup_eq_some_iff.mp h
  have hm : (x, e) ∈ shortEscapes := he ▸ List.mem_append_right _ (.head _)
  have hall : ∀ p ∈ shortEscapes, simpleEscape p.snd = some p.fst ∧ p.snd ≠ 'u' ∧ p.fst.toNat < 0x10000 := by
    decide
  exact hall (x, e) hm

theorem unescape_escape :
    unescape (escape c ++ rest) = (unescape rest).map fun p => (c.units.map .ofUnit ++ p.fst, p.snd) := by
  cases c
  case surrogate n => exact unescape_escapeUnits units_lt
  case char x      =>
    rw [escape.eq_def]
    dsimp only
    cases hl : shortEscapes.lookup x
    case some e =>
      obtain ⟨he, hu, hx⟩ := simpleEscape_of_lookup hl
      dsimp only
      dsimp only [List.cons_append, List.nil_append]
      rw [CodePoint.units, if_pos hx, List.map_cons, ofUnit_toNat hx, unescape_simple hu, he]
      rfl
    case none   =>
      dsimp only
      split
      case isFalse   => exact unescape_escapeUnits units_lt
      case isTrue hp =>
        have hne : x ≠ '"' ∧ x ≠ '\\' := by
          constructor
          · rintro rfl; cases hl
          · rintro rfl; cases hl
        have hx : x.toNat < 0x10000 := by omega
        rw [CodePoint.units, if_pos hx, List.map_cons, ofUnit_toNat hx, List.cons_append, List.nil_append,
          unescape_char hne.left hne.right (by omega)]
        rfl

-- What is written for a string is read up to its end.
theorem scanString_escape : scanString (s.flatMap escape ++ '"' :: rest) = .ok (joinPairs s, rest) := by
  have h : unescape (s.flatMap escape ++ '"' :: rest) = some (split s, rest) := by
    induction s
    case nil         => exact unescape_quote
    case cons c s hi =>
      rw [List.flatMap_cons, List.append_assoc, unescape_escape, hi]
      rfl
  rw [scanString, h]
  dsimp only
  rw [joinPairs_split]

-- A code point is written unit by unit.
theorem escape_eq_flatMap : escape c = c.units.flatMap fun u => escape (.ofUnit u) := by
  have hsurrogate (n : Fin 0x800) : escape (.surrogate n) = escapeUnit (0xD800 + n.val) :=
    List.append_nil _
  cases c
  case surrogate n =>
    rw [CodePoint.units, List.flatMap_cons, ofUnit_surrogate]
    exact (List.append_nil _).symm
  case char x      =>
    by_cases hx : x.toNat < 0x10000
    case pos =>
      rw [CodePoint.units, if_pos hx, List.flatMap_cons, ofUnit_toNat hx]
      exact (List.append_nil _).symm
    case neg =>
      obtain ⟨n, m, _, _, _, hu⟩ := units_astral hx
      have hl : shortEscapes.lookup x = none := by
        cases hl : shortEscapes.lookup x
        case none   => rfl
        case some e => exact absurd (simpleEscape_of_lookup hl).right.right hx
      rw [hu, escape.eq_def]
      dsimp only
      rw [hl]
      dsimp only
      rw [if_neg (by omega), hu, List.flatMap_cons, List.flatMap_cons, List.flatMap_cons, List.flatMap_cons,
        ofUnit_surrogate, ofUnit_surrogate, hsurrogate, hsurrogate]
      rfl

-- Strings with the same units have the same text.
theorem escape_joinPairs : (joinPairs s).flatMap escape = s.flatMap escape := by
  have h (s : Str) : s.flatMap escape = (s.flatMap CodePoint.units).flatMap fun u => escape (.ofUnit u) := by
    rw [List.flatMap_assoc]
    exact List.flatMap_congr fun c _ => escape_eq_flatMap
  rw [h, h, units_joinPairs]

end Strings

section Numbers

variable {n : Nat} {i : Int} {rest : List Char} {m : Nat}

-- What comes after an integer does not go on with it.
def Ends (rest : List Char) : Prop :=
  ∀ c ∈ rest.head?, c.isDigit = false ∧ c ≠ '.' ∧ c ≠ 'e' ∧ c ≠ 'E'

theorem toDigits_head_ne (h : 0 < n) : (Nat.toDigits 10 n).head? ≠ some '0' := by
  induction n using Nat.strongRecOn
  case ind n hi =>
    by_cases hn : n < 10
    case pos =>
      rw [Nat.toDigits_of_lt_base hn, List.head?_cons, ne_eq, Option.some.injEq, Nat.digitChar_eq_zero]
      omega
    case neg =>
      rw [Nat.toDigits_of_base_le (by decide) (by omega), List.head?_append_of_ne_nil _ Nat.toDigits_ne_nil]
      exact hi (n / 10) (by omega) (by omega)

theorem scanDigits_toDigits (h : Ends rest) :
    scanDigits (Nat.toDigits 10 n ++ rest) = (Nat.toDigits 10 n, rest) := by
  have hd : ∀ c ∈ Nat.toDigits 10 n, c.isDigit = true := fun c hc =>
    Nat.isDigit_of_mem_toDigits (by decide) (by decide) hc
  have hr : rest.takeWhile Char.isDigit = [] ∧ rest.dropWhile Char.isDigit = rest := by
    cases rest
    case nil         => exact ⟨rfl, rfl⟩
    case cons c rest =>
      have hc := (h c rfl).left
      exact ⟨List.takeWhile_cons_of_neg (by simp [hc]), List.dropWhile_cons_of_neg (by simp [hc])⟩
  rw [scanDigits, List.takeWhile_append_of_pos hd, List.dropWhile_append_of_pos hd, hr.left, hr.right,
    List.append_nil]

theorem scanInteger_toDigits (h : Ends rest) :
    scanInteger (Nat.toDigits 10 n ++ rest) = some (Nat.toDigits 10 n, rest) := by
  by_cases hn : n = 0
  case pos => subst hn; rfl
  case neg =>
    have hhead := toDigits_head_ne (n := n) (by omega)
    have hscan := scanDigits_toDigits (n := n) h
    have hd : ∀ c ∈ Nat.toDigits 10 n, c.isDigit = true := fun c hc =>
      Nat.isDigit_of_mem_toDigits (by decide) (by decide) hc
    cases ht : Nat.toDigits 10 n
    case nil      => exact absurd ht Nat.toDigits_ne_nil
    case cons d l =>
      rw [ht] at hhead hscan hd
      have hz : d ≠ '0' := fun he => hhead (congrArg some he)
      rw [List.cons_append, scanInteger, if_neg hz, if_pos (hd d (.head _)), ← List.cons_append, hscan]

theorem scanFraction_ends (h : Ends rest) : scanFraction rest = ([], rest) := by
  cases rest
  case nil         => rfl
  case cons c rest =>
    rw [scanFraction, if_neg]
    exact fun hc => (h c rfl).right.left hc.left

theorem scanExponent_ends (h : Ends rest) : scanExponent rest = ([], rest) := by
  cases rest
  case nil         => rfl
  case cons c rest =>
    have hc := (h c rfl).right.right
    rw [scanExponent, if_neg]
    exact fun he => he.left.elim hc.left hc.right

theorem scanSign_toDigits : scanSign ['-'] (Nat.toDigits 10 n ++ rest) = ([], Nat.toDigits 10 n ++ rest) := by
  have hd : ∀ c ∈ Nat.toDigits 10 n, c.isDigit = true := fun c hc =>
    Nat.isDigit_of_mem_toDigits (by decide) (by decide) hc
  cases ht : Nat.toDigits 10 n
  case nil      => exact absurd ht Nat.toDigits_ne_nil
  case cons d l =>
    have hm : d ≠ '-' := by
      rintro rfl
      exact absurd (hd '-' (ht ▸ .head _)) (by decide)
    rw [List.cons_append, scanSign, if_neg (by simpa using hm)]

-- An integer is read as it is written.
theorem scanNumber_writeInt (h : Ends rest) (hl : tooLong m (Nat.toDigits 10 i.natAbs).length = false) :
    scanNumber m (writeInt i ++ rest) = .ok (.int i, rest) := by
  have hv : (Nat.ofDigitChars 10 (Nat.toDigits 10 i.natAbs) 0 : Int) = i.natAbs := by
    rw [Nat.ofDigitChars_ten_toDigits]
  by_cases hi : i < 0
  case pos =>
    have hs : scanSign ['-'] ('-' :: Nat.toDigits 10 i.natAbs ++ rest) =
        (['-'], Nat.toDigits 10 i.natAbs ++ rest) := rfl
    rw [writeInt, if_pos hi, scanNumber]
    simp only [hs, scanInteger_toDigits h, scanFraction_ends h, scanExponent_ends h, hl, hv]
    simp only [and_self, if_true, Bool.false_eq_true, if_false, List.cons_ne_nil, Except.ok.injEq, Prod.mk.injEq,
      Json.int.injEq, and_true]
    omega
  case neg =>
    rw [writeInt, if_neg hi, scanNumber]
    simp only [scanSign_toDigits, scanInteger_toDigits h, scanFraction_ends h, scanExponent_ends h, hl, hv]
    simp only [and_self, if_true, Bool.false_eq_true, if_false, Except.ok.injEq, Prod.mk.injEq,
      Json.int.injEq, and_true]
    omega

end Numbers

section Values

variable {limits : Limits} {item : Native} {items : List Native} {text texts rest : List Char} {m d : Nat}

-- A value as it is read back: pairs of surrogates are characters then.
def Native.joined : Native → Native
  | null   => null
  | bool b => bool b
  | int i  => int i
  | str s  => str (joinPairs s)

-- What is written and read back without a change.
def Native.Faithful (limits : Limits) : Native → Prop
  | null   => True
  | bool _ => True
  | int i  => tooLong limits.maxStrDigits (Nat.toDigits 10 i.natAbs).length = false
  | str s  => Unpaired s

theorem toJson_injective : Function.Injective Native.toJson := by
  intro a b h
  cases a <;> cases b <;> cases h <;> rfl

theorem joined_eq_iff : item.joined = item ↔ ∀ s, item = .str s → Unpaired s := by
  cases item
  case str s => simp [Native.joined, joinPairs_eq_iff]
  all_goals simp [Native.joined]

theorem dumps_joined : item.joined.dumps limits = item.dumps limits := by
  cases item
  case str s => rw [Native.joined, Native.dumps, Native.dumps, writeString, writeString, escape_joinPairs]
  all_goals rfl

theorem dumpsItems_joined : dumpsItems limits (items.map Native.joined) = dumpsItems limits items := by
  fun_induction dumpsItems limits items
  case case1                     => rfl
  case case2 item                => exact dumps_joined
  case case3 item rest hne hi    =>
    cases rest
    case nil            => exact absurd rfl hne
    case cons next rest =>
      rw [List.map_cons] at hi
      rw [List.map_cons, List.map_cons, dumpsItems, dumps_joined, hi]
      · exact fun h => nomatch h

-- Text is written for values whose integers have few digits.
theorem dumps_isSome_iff :
    (item.dumps limits).isSome = true ↔
      ∀ i, item = .int i → tooLong limits.maxStrDigits (Nat.toDigits 10 i.natAbs).length = false := by
  cases item
  case int i  => by_cases h : tooLong limits.maxStrDigits (Nat.toDigits 10 i.natAbs).length <;> simp [Native.dumps, h]
  case bool b => cases b <;> simp [Native.dumps]
  all_goals simp [Native.dumps]

theorem faithful_iff : item.Faithful limits ↔ (item.dumps limits).isSome = true ∧ item.joined = item := by
  rw [dumps_isSome_iff, joined_eq_iff]
  cases item <;> simp [Native.Faithful]

theorem isSome_dumpsItems_iff :
    (dumpsItems limits items).isSome = true ↔ ∀ item ∈ items, (item.dumps limits).isSome = true := by
  fun_induction dumpsItems limits items
  case case1                   => simp
  case case2 item              => simp
  case case3 item rest _ hi    =>
    rw [List.forall_mem_cons, ← hi]
    cases item.dumps limits <;> cases dumpsItems limits rest <;> simp

-- The text of a value begins with a character that is neither a space nor the end of an array.
def Opens (text : List Char) : Prop :=
  ∃ c l, text = c :: l ∧ isSpace c = false ∧ c ≠ ']'

theorem Opens.append (h : Opens text) : Opens (text ++ rest) := by
  obtain ⟨c, l, rfl, hc⟩ := h
  exact ⟨c, l ++ rest, rfl, hc⟩

theorem Opens.skipSpace (h : Opens text) : skipSpace text = text := by
  obtain ⟨c, l, rfl, hc, _⟩ := h
  rw [Json.skipSpace, List.dropWhile_cons_of_neg (by simp [hc])]

theorem digit_not_space {c : Char} (h : c.isDigit = true) :
    isSpace c = false ∧ c ≠ ']' ∧ c ≠ '"' ∧ c ≠ '[' ∧ c ≠ '{' ∧ c ≠ 'n' ∧ c ≠ 't' ∧ c ≠ 'f' ∧ c ≠ 'N' ∧
      c ≠ 'I' ∧ c ≠ '-' := by
  have hne {x : Char} (hx : x.isDigit = false) : c ≠ x := by
    rintro rfl
    exact absurd h (by simp [hx])
  refine ⟨?_, hne rfl, hne rfl, hne rfl, hne rfl, hne rfl, hne rfl, hne rfl, hne rfl, hne rfl, hne rfl⟩
  simp [isSpace, hne (x := ' ') rfl, hne (x := '\t') rfl, hne (x := '\n') rfl, hne (x := '\r') rfl]

theorem exists_digit (n : Nat) : ∃ d l, Nat.toDigits 10 n = d :: l ∧ d.isDigit = true := by
  cases ht : Nat.toDigits 10 n
  case nil      => exact absurd ht Nat.toDigits_ne_nil
  case cons d l =>
    exact ⟨d, l, rfl, Nat.isDigit_of_mem_toDigits (b := 10) (n := n) (by decide) (by decide) (ht ▸ .head _)⟩

theorem opens_dumps (h : item.dumps limits = some text) : Opens text := by
  cases item
  case null   => cases h; exact ⟨'n', _, rfl, rfl, by decide⟩
  case bool b => cases b <;> cases h <;> exact ⟨_, _, rfl, rfl, by decide⟩
  case str s  => cases h; exact ⟨'"', _, rfl, rfl, by decide⟩
  case int i  =>
    rw [Native.dumps] at h
    split at h
    case isTrue  => cases h
    case isFalse =>
      cases h
      obtain ⟨d, l, hd, hdigit⟩ := exists_digit i.natAbs
      rw [writeInt]
      split
      case isTrue  => exact ⟨'-', _, rfl, rfl, by decide⟩
      case isFalse => exact ⟨d, l, hd, (digit_not_space hdigit).left, (digit_not_space hdigit).right.left⟩

theorem opens_dumpsItems (hne : items ≠ []) (h : dumpsItems limits items = some texts) : Opens texts := by
  fun_induction dumpsItems limits items generalizing texts
  case case1                => exact absurd rfl hne
  case case2 item           => exact opens_dumps h
  case case3 item rest _ hi =>
    obtain ⟨text, ht, h⟩ := Option.bind_eq_some_iff.mp h
    obtain ⟨texts', _, h⟩ := Option.bind_eq_some_iff.mp h
    cases h
    exact (opens_dumps ht).append

theorem length_le_dumpsItems (h : dumpsItems limits items = some texts) : items.length ≤ texts.length := by
  have hpos {item : Native} {text : List Char} (h : item.dumps limits = some text) : 0 < text.length := by
    obtain ⟨c, l, rfl, _⟩ := opens_dumps h
    exact Nat.succ_pos _
  fun_induction dumpsItems limits items generalizing texts
  case case1                => exact Nat.zero_le _
  case case2 item           => exact hpos h
  case case3 item rest _ hi =>
    obtain ⟨text, ht, h⟩ := Option.bind_eq_some_iff.mp h
    obtain ⟨texts', hts, h⟩ := Option.bind_eq_some_iff.mp h
    cases h
    have := hi hts
    rw [List.length_cons, List.length_append, List.length_cons]
    omega

-- A number is no constant.
theorem find_constants {l : List Char} {c : Char} (h : c.isDigit = true) :
    constants.find? (·.fst.isPrefixOf (c :: l)) = none ∧
      constants.find? (·.fst.isPrefixOf ('-' :: c :: l)) = none := by
  obtain ⟨_, _, _, _, _, hn, ht, hf, hN, hI, hm⟩ := digit_not_space h
  constructor <;> rw [List.find?_eq_none] <;>
    simp [constants, hn.symm, ht.symm, hf.symm, hN.symm, hI.symm, hm.symm]

theorem scanPlain_writeInt {i : Int} (h : Ends rest)
    (hl : tooLong m (Nat.toDigits 10 i.natAbs).length = false) :
    scanPlain m (writeInt i ++ rest) = .ok (.int i, rest) := by
  obtain ⟨d, l, hd, hdigit⟩ := exists_digit i.natAbs
  have hfind : constants.find? (·.fst.isPrefixOf (writeInt i ++ rest)) = none := by
    rw [writeInt, hd]
    split
    case isTrue  => exact (find_constants hdigit).right
    case isFalse => exact (find_constants hdigit).left
  rw [scanPlain, hfind]
  exact scanNumber_writeInt h hl

-- A value is read back from its text.
theorem scanValue_dumps {inner : Option (List Char → Scan Json)} (h : item.dumps limits = some text)
    (hr : Ends rest) :
    scanValue limits.maxStrDigits inner (text ++ rest) = .ok (item.joined.toJson, rest) := by
  cases item
  case null   => cases h; rfl
  case bool b => cases b <;> cases h <;> rfl
  case str s  =>
    cases h
    rw [writeString, List.append_assoc, List.cons_append, scanValue_string, List.singleton_append]
    rw [scanString_escape]
    rfl
  case int i  =>
    rw [Native.dumps] at h
    split at h
    case isTrue         => cases h
    case isFalse hshort =>
      cases h
      have hscan := scanPlain_writeInt hr (Bool.not_eq_true _ |>.mp hshort)
      obtain ⟨d, l, hd, hdigit⟩ := exists_digit i.natAbs
      refine Eq.trans ?_ hscan
      rw [writeInt]
      split
      case isTrue  => exact scanValue_plain (by decide) (by decide) (by decide)
      case isFalse =>
        obtain ⟨_, _, hs, ha, ho, _⟩ := digit_not_space hdigit
        rw [hd]
        exact scanValue_plain hs ha ho

theorem scanOnce_dumps (h : item.dumps limits = some text) (hr : Ends rest) :
    scanOnce limits.maxStrDigits d (text ++ rest) = .ok (item.joined.toJson, rest) := by
  cases d
  case zero   => exact scanValue_dumps h hr
  case succ d => exact scanValue_dumps h hr

theorem ends_comma : Ends (',' :: rest) := by
  simp [Ends]

theorem ends_close : Ends (']' :: rest) := by
  simp [Ends]

theorem skipSpace_comma : skipSpace (',' :: rest) = ',' :: rest :=
  rfl

theorem scanEntries_comma {α : Type} {scan : List Char → Scan α} {fuel : Nat} {entry : α}
    (h : scan text = .ok (entry, ',' :: rest)) :
    scanEntries ']' scan (fuel + 1) text =
      andThen (scanEntries ']' scan fuel (skipSpace rest)) fun entries rest => .ok (entry :: entries, rest) := by
  rw [scanEntries, h]
  simp only [andThen, skipSpace_comma]
  rw [if_neg (by decide), if_pos trivial]

theorem scanEntries_dumpsItems {fuel : Nat} (hne : items ≠ []) (hf : items.length ≤ fuel)
    (h : dumpsItems limits items = some texts) :
    scanEntries ']' (scanOnce limits.maxStrDigits d) fuel (texts ++ ']' :: rest) =
      .ok (items.map (·.joined.toJson), rest) := by
  obtain ⟨fuel, rfl⟩ : ∃ n, fuel = n + 1 := ⟨fuel - 1, by have := List.length_pos_of_ne_nil hne; omega⟩
  induction items generalizing texts fuel
  case nil             => exact absurd rfl hne
  case cons item items hi =>
    cases items
    case nil             =>
      rw [scanEntries, scanOnce_dumps h ends_close]
      rfl
    case cons next items =>
      obtain ⟨text, ht, h⟩ := Option.bind_eq_some_iff.mp h
      obtain ⟨texts', hts, h⟩ := Option.bind_eq_some_iff.mp h
      cases h
      obtain ⟨fuel, rfl⟩ : ∃ n, fuel = n + 1 := ⟨fuel - 1, by simp only [List.length_cons] at hf; omega⟩
      have hrest := hi (List.cons_ne_nil _ _) hts fuel (by simp only [List.length_cons] at hf ⊢; omega)
      have hopens : skipSpace (texts' ++ ']' :: rest) = texts' ++ ']' :: rest :=
        (opens_dumpsItems (List.cons_ne_nil _ _) hts).append.skipSpace
      rw [List.append_assoc, List.cons_append, scanEntries_comma (scanOnce_dumps ht ends_comma), hopens, hrest]
      rfl

-- An array is read from its text up to what follows.
theorem scanOnce_dumps_append (h : dumps limits items = some text) :
    scanOnce limits.maxStrDigits limits.maxDepth (text ++ rest) =
      .ok (.array (items.map (·.joined.toJson)), rest) := by
  obtain ⟨texts, ht, rfl⟩ := Option.map_eq_some_iff.mp h
  obtain ⟨d, hd⟩ : ∃ d, limits.maxDepth = d + 1 := ⟨limits.maxDepth - 1, by have := limits.maxDepth_pos; omega⟩
  have hb : scanBracketed ']' (scanOnce limits.maxStrDigits d) (texts ++ ']' :: rest) =
      .ok (items.map (·.joined.toJson), rest) := by
    by_cases hne : items = []
    case pos => subst hne; cases ht; rfl
    case neg =>
      have hopens := opens_dumpsItems hne ht
      have hlen := length_le_dumpsItems ht
      rw [scanBracketed, hopens.append.skipSpace]
      obtain ⟨c, l, rfl, _, hc⟩ := hopens
      rw [List.cons_append]
      dsimp only
      rw [if_neg hc, ← List.cons_append]
      refine scanEntries_dumpsItems hne ?_ ht
      rw [List.length_append]
      simp only [List.length_cons] at hlen ⊢
      omega
  rw [hd, scanOnce, List.append_assoc, List.cons_append, scanValue_array, List.singleton_append, hb]
  rfl

-- After an array there may only be spaces.
theorem loads_dumps_append (h : dumps limits items = some text) :
    loads limits (text ++ rest) =
      if (skipSpace rest).isEmpty then .ok (.array (items.map (·.joined.toJson))) else .error .invalid := by
  have hs : scanOnce limits.maxStrDigits limits.maxDepth (text ++ rest) = _ := scanOnce_dumps_append h
  obtain ⟨texts, _, rfl⟩ := Option.map_eq_some_iff.mp h
  rw [loads, if_neg (by simp)]
  have hskip : skipSpace ('[' :: texts ++ [']'] ++ rest) = '[' :: texts ++ [']'] ++ rest := rfl
  rw [hskip, hs]

-- An array is read back from its text.
theorem loads_dumps (h : dumps limits items = some text) :
    loads limits text = .ok (.array (items.map (·.joined.toJson))) := by
  have hl : loads limits (text ++ []) = .ok _ := loads_dumps_append h
  rwa [List.append_nil] at hl

-- Values come back unchanged just when all of them are faithful.
theorem loads_dumps_iff :
    (∃ text, dumps limits items = some text ∧ loads limits text = .ok (.array (items.map Native.toJson))) ↔
      ∀ item ∈ items, item.Faithful limits := by
  have hsome : (dumps limits items).isSome = true ↔ ∀ item ∈ items, (item.dumps limits).isSome = true := by
    rw [dumps, Option.isSome_map, isSome_dumpsItems_iff]
  simp only [faithful_iff]
  constructor
  case mp  =>
    intro h item hm
    obtain ⟨text, ht, hl⟩ := h
    refine ⟨hsome.mp (ht ▸ rfl) item hm, ?_⟩
    have he := Json.array.inj (Except.ok.inj ((loads_dumps ht).symm.trans hl))
    exact toJson_injective (List.map_inj_left.mp he item hm)
  case mpr =>
    intro h
    obtain ⟨text, ht⟩ := Option.isSome_iff_exists.mp (hsome.mpr fun item hm => (h item hm).left)
    refine ⟨text, ht, (loads_dumps ht).trans ?_⟩
    have he : items.map (·.joined.toJson) = items.map Native.toJson :=
      List.map_congr_left fun item hm => congrArg Native.toJson (h item hm).right
    rw [he]

end Values

end Text.Json
