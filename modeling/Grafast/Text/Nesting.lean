import Mathlib.Order.MinMax
import Grafast.Text.Json

namespace Text.Json

section Nesting

variable {α : Type}

-- How many arrays and objects are open at once at most in the part of a text that is read: in entries, given how
-- many are in an entry.
def nestingEntries (close : Char) (nest : List Char → Nat) (scan : List Char → Scan α) : Nat → List Char → Nat
  | 0,        _    => 0
  | fuel + 1, text =>
    let others :=
      match scan text with
      | .error _ => 0
      | .ok p    =>
        match skipSpace p.snd with
        | []        => 0
        | c :: rest =>
          if c = close then 0
          else if c = ',' then nestingEntries close nest scan fuel (skipSpace rest)
          else 0
    max (nest text) others

def nestingBracketed (close : Char) (nest : List Char → Nat) (scan : List Char → Scan α) (text : List Char) : Nat :=
  match skipSpace text with
  | []        => 0
  | c :: rest => if c = close then 0 else nestingEntries close nest scan (rest.length + 1) (c :: rest)

def nestingMember (nest : List Char → Nat) (text : List Char) : Nat :=
  match text with
  | []        => 0
  | c :: rest =>
    if c = '"' then
      match scanString rest with
      | .error _ => 0
      | .ok p    =>
        match skipSpace p.snd with
        | []        => 0
        | c :: rest => if c = ':' then nest (skipSpace rest) else 0
    else 0

def nestingValue (nest : List Char → Nat) (scan : List Char → Scan Json) (text : List Char) : Nat :=
  match text with
  | []        => 0
  | c :: rest =>
    if c = '[' then 1 + nestingBracketed ']' nest scan rest
    else if c = '{' then 1 + nestingBracketed '}' (nestingMember nest) (scanMember scan) rest
    else 0

-- In the value at the beginning of a text that is not longer than the first number.
def nestingFrom (maxStrDigits : Nat) : Nat → List Char → Nat
  | 0          => fun _ => 0
  | length + 1 => nestingValue (nestingFrom maxStrDigits length) (scanOnce maxStrDigits length)

def nesting (maxStrDigits : Nat) (text : List Char) : Nat :=
  if text.head? = some '\uFEFF' then 0
  else nestingFrom maxStrDigits (skipSpace text).length (skipSpace text)

end Nesting

section Scan

variable {α β : Type} {a b : Scan α} {next next' : α → List Char → Scan β} {text : List Char}

theorem andThen_eq_recursion :
    andThen a next = .error .recursion ↔
      a = .error .recursion ∨ ∃ p, a = .ok p ∧ next p.fst p.snd = .error .recursion := by
  cases a
  case error e => simp [andThen]
  case ok p    => simp [andThen]

theorem andThen_ok_eq_recursion {f : α → β} :
    andThen a (fun x rest => .ok (f x, rest)) = .error .recursion ↔ a = .error .recursion := by
  rw [andThen_eq_recursion]
  refine or_iff_left ?_
  rintro ⟨p, _, h⟩
  cases h

theorem andThen_eq_ok {q : β × List Char} :
    andThen a next = .ok q ↔ ∃ p, a = .ok p ∧ next p.fst p.snd = .ok q := by
  cases a
  case error e => simp [andThen]
  case ok p    => simp [andThen]

theorem scanString_ne_recursion : scanString text ≠ .error .recursion := by
  unfold scanString
  split
  · simp
  · simp

theorem scanNumber_ne_recursion {m : Nat} : scanNumber m text ≠ .error .recursion := by
  unfold scanNumber
  dsimp only
  repeat' split
  all_goals simp

theorem scanPlain_ne_recursion {m : Nat} : scanPlain m text ≠ .error .recursion := by
  unfold scanPlain
  split
  · simp
  · exact scanNumber_ne_recursion

variable {m : Nat} {inner : Option (List Char → Scan Json)} {c : Char} {rest : List Char}

theorem scanValue_string :
    scanValue m inner ('"' :: rest) = andThen (scanString rest) fun s rest => .ok (.str s, rest) :=
  rfl

theorem scanValue_array_none : scanValue m none ('[' :: rest) = .error .recursion :=
  rfl

theorem scanValue_array {scan : List Char → Scan Json} :
    scanValue m (some scan) ('[' :: rest) =
      andThen (scanBracketed ']' scan rest) fun items rest => .ok (.array items, rest) :=
  rfl

theorem scanValue_object_none : scanValue m none ('{' :: rest) = .error .recursion :=
  rfl

theorem scanValue_object {scan : List Char → Scan Json} :
    scanValue m (some scan) ('{' :: rest) =
      andThen (scanBracketed '}' (scanMember scan) rest) fun members rest => .ok (.object members, rest) :=
  rfl

theorem scanValue_plain (hs : c ≠ '"') (ha : c ≠ '[') (ho : c ≠ '{') :
    scanValue m inner (c :: rest) = scanPlain m (c :: rest) := by
  simp only [scanValue, hs, ha, ho, if_false]

-- The kinds of values are told by their first characters.
theorem first_cases (c : Char) : c = '"' ∨ c = '[' ∨ c = '{' ∨ c ≠ '"' ∧ c ≠ '[' ∧ c ≠ '{' := by
  by_cases hs : c = '"'
  case pos => exact .inl hs
  case neg =>
    by_cases ha : c = '['
    case pos => exact .inr (.inl ha)
    case neg =>
      by_cases ho : c = '{'
      case pos => exact .inr (.inr (.inl ho))
      case neg => exact .inr (.inr (.inr ⟨hs, ha, ho⟩))

end Scan

section Extends

variable {α β : Type}

-- The second way to read gives the same wherever the first one is not stopped by its limit.
def Extends (f g : List Char → Scan α) : Prop :=
  ∀ text, f text = .error .recursion ∨ f text = g text

variable {f g : List Char → Scan α} {close : Char} {fuel : Nat} {text : List Char}

theorem andThen_extends {a b : Scan α} {next next' : α → List Char → Scan β}
    (h : a = .error .recursion ∨ a = b)
    (hn : ∀ x rest, next x rest = .error .recursion ∨ next x rest = next' x rest) :
    andThen a next = .error .recursion ∨ andThen a next = andThen b next' := by
  rcases h with rfl | rfl
  · exact .inl rfl
  · cases a
    case error e => exact .inr rfl
    case ok p    => exact hn p.fst p.snd

theorem scanEntries_extends (h : Extends f g) : Extends (scanEntries close f fuel) (scanEntries close g fuel) := by
  induction fuel
  case zero         => exact fun text => .inr rfl
  case succ fuel hi =>
    intro text
    refine andThen_extends (h text) fun entry rest => ?_
    cases skipSpace rest
    case nil         => exact .inr rfl
    case cons c rest =>
      dsimp only
      by_cases hc : c = close
      case pos => exact .inr (by rw [if_pos hc, if_pos hc])
      case neg =>
        rw [if_neg hc, if_neg hc]
        by_cases hs : c = ','
        case pos =>
          rw [if_pos hs, if_pos hs]
          exact andThen_extends (hi _) fun _ _ => .inr rfl
        case neg => exact .inr (by rw [if_neg hs, if_neg hs])

theorem scanBracketed_extends (h : Extends f g) : Extends (scanBracketed close f) (scanBracketed close g) := by
  intro text
  unfold scanBracketed
  cases skipSpace text
  case nil         => exact .inr rfl
  case cons c rest =>
    dsimp only
    by_cases hc : c = close
    case pos => exact .inr (by rw [if_pos hc, if_pos hc])
    case neg =>
      rw [if_neg hc, if_neg hc]
      exact scanEntries_extends h _

theorem scanMember_extends {f g : List Char → Scan Json} (h : Extends f g) :
    Extends (scanMember f) (scanMember g) := by
  intro text
  unfold scanMember
  cases text
  case nil         => exact .inr rfl
  case cons c rest =>
    dsimp only
    split
    case isFalse => exact .inr rfl
    case isTrue  =>
      refine andThen_extends (.inr rfl) fun key rest => ?_
      cases skipSpace rest
      case nil         => exact .inr rfl
      case cons c rest =>
        dsimp only
        split
        case isFalse => exact .inr rfl
        case isTrue  => exact andThen_extends (h _) fun _ _ => .inr rfl

-- A higher limit changes nothing where a lower one is enough.
theorem scanOnce_extends {m d d' : Nat} (hd : d ≤ d') : Extends (scanOnce m d) (scanOnce m d') := by
  induction d generalizing d'
  case zero      =>
    intro text
    cases d'
    case zero => exact .inr rfl
    case succ =>
      rw [scanOnce, scanOnce]
      cases text
      case nil         => exact .inr rfl
      case cons c rest =>
        obtain rfl | rfl | rfl | ⟨hs, ha, ho⟩ := first_cases c
        · exact .inr rfl
        · exact .inl scanValue_array_none
        · exact .inl scanValue_object_none
        · rw [scanValue_plain hs ha ho, scanValue_plain hs ha ho]
          exact .inr rfl
  case succ d hi =>
    obtain ⟨d', rfl⟩ : ∃ n, d' = n + 1 := ⟨d' - 1, by omega⟩
    have h : Extends (scanOnce m d) (scanOnce m d') := hi (by omega)
    intro text
    rw [scanOnce, scanOnce]
    cases text
    case nil         => exact .inr rfl
    case cons c rest =>
      obtain rfl | rfl | rfl | ⟨hs, ha, ho⟩ := first_cases c
      · exact .inr rfl
      · rw [scanValue_array, scanValue_array]
        exact andThen_extends (scanBracketed_extends h _) fun _ _ => .inr rfl
      · rw [scanValue_object, scanValue_object]
        exact andThen_extends (scanBracketed_extends (scanMember_extends h) _) fun _ _ => .inr rfl
      · rw [scanValue_plain hs ha ho, scanValue_plain hs ha ho]
        exact .inr rfl

end Extends

section Exact

variable {α : Type}

-- A way to read is stopped by its limit just where the nesting of the text is greater.
def Stops (d : Nat) (nest : List Char → Nat) (scan : List Char → Scan α) : Prop :=
  ∀ text, scan text = .error .recursion ↔ d < nest text

variable {f g : List Char → Scan α} {nest : List Char → Nat} {close : Char} {fuel d : Nat}

theorem not_stopped {p : Prop} (h : ¬p) : p ↔ d < 0 :=
  iff_of_false h (Nat.not_lt_zero d)

theorem scanEntries_stops (hs : Stops d nest f) (he : Extends f g) :
    Stops d (nestingEntries close nest g fuel) (scanEntries close f fuel) := by
  induction fuel
  case zero         => exact fun text => not_stopped (by simp [scanEntries])
  case succ fuel hi =>
    intro text
    rw [scanEntries, nestingEntries, andThen_eq_recursion, hs text, lt_max_iff]
    by_cases hd : d < nest text
    case pos => exact iff_of_true (.inl hd) (.inl hd)
    case neg =>
      rw [← (he text).resolve_left (mt (hs text).mp hd)]
      simp only [hd, false_or]
      cases f text
      case error e => exact not_stopped (by simp)
      case ok p    =>
        simp only [Except.ok.injEq, exists_eq_left']
        cases skipSpace p.snd
        case nil         => exact not_stopped (by simp)
        case cons c rest =>
          dsimp only
          by_cases hc : c = close
          case pos =>
            rw [if_pos hc, if_pos hc]
            exact not_stopped (by simp)
          case neg =>
            rw [if_neg hc, if_neg hc]
            by_cases hs : c = ','
            case pos =>
              rw [if_pos hs, if_pos hs, andThen_ok_eq_recursion]
              exact hi _
            case neg =>
              rw [if_neg hs, if_neg hs]
              exact not_stopped (by simp)

theorem scanBracketed_stops (hs : Stops d nest f) (he : Extends f g) :
    Stops d (nestingBracketed close nest g) (scanBracketed close f) := by
  intro text
  rw [scanBracketed, nestingBracketed]
  cases skipSpace text
  case nil         => exact not_stopped (by simp)
  case cons c rest =>
    dsimp only
    by_cases hc : c = close
    case pos =>
      rw [if_pos hc, if_pos hc]
      exact not_stopped (by simp)
    case neg =>
      rw [if_neg hc, if_neg hc]
      exact scanEntries_stops hs he _

theorem scanMember_stops {f : List Char → Scan Json} (hs : Stops d nest f) :
    Stops d (nestingMember nest) (scanMember f) := by
  intro text
  unfold scanMember nestingMember
  cases text
  case nil         => exact not_stopped (by simp)
  case cons c rest =>
    dsimp only
    split
    case isFalse => exact not_stopped (by simp)
    case isTrue  =>
      rw [andThen_eq_recursion, or_iff_right scanString_ne_recursion]
      cases scanString rest
      case error e => exact not_stopped (by simp)
      case ok p    =>
        simp only [Except.ok.injEq, exists_eq_left']
        cases skipSpace p.snd
        case nil         => exact not_stopped (by simp)
        case cons c rest =>
          dsimp only
          split
          case isFalse => exact not_stopped (by simp)
          case isTrue  => rw [andThen_ok_eq_recursion]; exact hs _

theorem scanOnce_stops {m d length : Nat} (h : d < length) :
    Stops d (nestingFrom m length) (scanOnce m d) := by
  obtain ⟨length, rfl⟩ : ∃ n, length = n + 1 := ⟨length - 1, by omega⟩
  induction d generalizing length
  case zero      =>
    intro text
    rw [scanOnce, nestingFrom, nestingValue.eq_def]
    cases text
    case nil         => exact not_stopped (by simp [scanValue])
    case cons c rest =>
      dsimp only
      obtain rfl | rfl | rfl | ⟨hs, ha, ho⟩ := first_cases c
      · rw [scanValue_string, andThen_ok_eq_recursion]
        exact not_stopped scanString_ne_recursion
      · exact iff_of_true scanValue_array_none (by rw [if_pos rfl]; omega)
      · exact iff_of_true scanValue_object_none (by rw [if_neg (by decide), if_pos rfl]; omega)
      · rw [scanValue_plain hs ha ho, if_neg ha, if_neg ho]
        exact not_stopped scanPlain_ne_recursion
  case succ d hi =>
    obtain ⟨length, rfl⟩ : ∃ n, length = n + 1 := ⟨length - 1, by omega⟩
    have hstops : Stops d (nestingFrom m (length + 1)) (scanOnce m d) := hi length (by omega)
    have hext : Extends (scanOnce m d) (scanOnce m (length + 1)) := scanOnce_extends (by omega)
    intro text
    rw [scanOnce, nestingFrom, nestingValue.eq_def]
    cases text
    case nil         => exact not_stopped (by simp [scanValue])
    case cons c rest =>
      dsimp only
      obtain rfl | rfl | rfl | ⟨hs, ha, ho⟩ := first_cases c
      · rw [scanValue_string, andThen_ok_eq_recursion]
        exact not_stopped scanString_ne_recursion
      · rw [scanValue_array, andThen_ok_eq_recursion, if_pos rfl, scanBracketed_stops hstops hext]
        omega
      · rw [scanValue_object, andThen_ok_eq_recursion, if_neg (by decide), if_pos rfl,
          scanBracketed_stops (scanMember_stops hstops) (scanMember_extends hext)]
        omega
      · rw [scanValue_plain hs ha ho, if_neg ha, if_neg ho]
        exact not_stopped scanPlain_ne_recursion

end Exact

section Shrinks

variable {α β : Type}

-- What is read takes some of the text.
def Shrinks (f : List Char → Scan α) : Prop :=
  ∀ {text : List Char} {p : α × List Char}, f text = .ok p → p.snd.length < text.length

variable {f : List Char → Scan α} {close : Char} {fuel : Nat} {text : List Char} {m : Nat}

theorem length_skipSpace_le (text : List Char) : (skipSpace text).length ≤ text.length :=
  (List.dropWhile_sublist isSpace).length_le

theorem length_unescape {p : Str × List Char} (h : unescape text = some p) : p.snd.length < text.length := by
  fun_induction unescape text generalizing p
  case case1 => cases h
  case case2 rest => cases h; simp
  case case3 => cases h
  case case4 x y z w rest _ hi =>
    obtain ⟨u, _, h⟩ := Option.bind_eq_some_iff.mp h
    obtain ⟨q, hq, rfl⟩ := Option.map_eq_some_iff.mp h
    have := hi hq
    simp only [List.length_cons] at this ⊢
    omega
  case case5 => cases h
  case case6 e rest _ _ hi =>
    obtain ⟨x, _, h⟩ := Option.bind_eq_some_iff.mp h
    obtain ⟨q, hq, rfl⟩ := Option.map_eq_some_iff.mp h
    have := hi hq
    simp only [List.length_cons] at this ⊢
    omega
  case case7 => cases h
  case case8 c rest _ _ _ hi =>
    obtain ⟨q, hq, rfl⟩ := Option.map_eq_some_iff.mp h
    have := hi hq
    simp only [List.length_cons] at this ⊢
    omega

theorem scanString_shrinks : Shrinks scanString := by
  intro text p h
  unfold scanString at h
  cases hq : unescape text
  case none   => rw [hq] at h; cases h
  case some q =>
    have hlen := length_unescape hq
    rw [hq] at h
    cases h
    exact hlen

theorem length_scanDigits : (scanDigits text).snd.length ≤ text.length :=
  (List.dropWhile_sublist Char.isDigit).length_le

theorem length_scanSign {signs : List Char} : (scanSign signs text).snd.length ≤ text.length := by
  unfold scanSign
  split
  case h_1 => exact Nat.le_refl _
  case h_2 =>
    split
    case isTrue  => exact Nat.le_succ _
    case isFalse => exact Nat.le_refl _

theorem length_scanInteger {p : List Char × List Char} (h : scanInteger text = some p) :
    p.snd.length < text.length := by
  cases text
  case nil         => cases h
  case cons d rest =>
    rw [scanInteger] at h
    split at h
    case isTrue  => cases h; exact Nat.lt_succ_self _
    case isFalse =>
      split at h
      case isFalse   => cases h
      case isTrue hd =>
        cases h
        rw [scanDigits, List.dropWhile_cons_of_pos hd]
        exact Nat.lt_succ_of_le length_scanDigits

theorem length_scanFraction : (scanFraction text).snd.length ≤ text.length := by
  cases text
  case nil         => exact Nat.le_refl _
  case cons c rest =>
    rw [scanFraction]
    split
    case isFalse => exact Nat.le_refl _
    case isTrue  => exact Nat.le_succ_of_le length_scanDigits

theorem length_scanExponent : (scanExponent text).snd.length ≤ text.length := by
  cases text
  case nil         => exact Nat.le_refl _
  case cons c rest =>
    rw [scanExponent]
    split
    case isFalse => exact Nat.le_refl _
    case isTrue  => exact Nat.le_succ_of_le (length_scanDigits.trans length_scanSign)

theorem scanNumber_shrinks : Shrinks (scanNumber m) := by
  intro text p h
  unfold scanNumber at h
  dsimp only at h
  cases hi : scanInteger (scanSign ['-'] text).snd
  case none         => rw [hi] at h; cases h
  case some integer =>
    rw [hi] at h
    have hlen : (scanExponent (scanFraction integer.snd).snd).snd.length < text.length :=
      calc _ ≤ (scanFraction integer.snd).snd.length := length_scanExponent
        _ ≤ integer.snd.length := length_scanFraction
        _ < (scanSign ['-'] text).snd.length := length_scanInteger hi
        _ ≤ text.length := length_scanSign
    dsimp only at h
    split at h
    case isFalse => cases h; exact hlen
    case isTrue  =>
      split at h
      case isTrue  => cases h
      case isFalse => cases h; exact hlen

theorem scanPlain_shrinks : Shrinks (scanPlain m) := by
  intro text p h
  unfold scanPlain at h
  cases hc : constants.find? (·.fst.isPrefixOf text)
  case none          => rw [hc] at h; exact scanNumber_shrinks h
  case some constant =>
    rw [hc] at h
    cases h
    have hpre : constant.fst <+: text := List.isPrefixOf_iff_prefix.mp (by simpa using List.find?_some hc)
    have hpos : 0 < constant.fst.length := by
      have hall : ∀ constant ∈ constants, 0 < constant.fst.length := by
        simp only [constants, List.forall_mem_cons]
        simp
      exact hall constant (List.mem_of_find?_eq_some hc)
    have hle := hpre.length_le
    rw [List.length_drop]
    omega

theorem scanEntries_shrinks (h : Shrinks f) : Shrinks (scanEntries close f fuel) := by
  induction fuel
  case zero         => exact fun hp => nomatch hp
  case succ fuel hi =>
    intro text p hp
    obtain ⟨q, hq, hp⟩ := andThen_eq_ok.mp hp
    have hlen := h hq
    have hskip := length_skipSpace_le q.snd
    cases hs : skipSpace q.snd
    case nil         => rw [hs] at hp; cases hp
    case cons c rest =>
      rw [hs] at hp hskip
      rw [List.length_cons] at hskip
      dsimp only at hp
      split at hp
      case isTrue  => cases hp; dsimp only; omega
      case isFalse =>
        split at hp
        case isFalse => cases hp
        case isTrue  =>
          obtain ⟨r, hr, hp⟩ := andThen_eq_ok.mp hp
          cases hp
          have := hi hr
          have := length_skipSpace_le rest
          dsimp only
          omega

theorem scanBracketed_shrinks (h : Shrinks f) : Shrinks (scanBracketed close f) := by
  intro text p hp
  have hskip := length_skipSpace_le text
  unfold scanBracketed at hp
  cases hs : skipSpace text
  case nil         => rw [hs] at hp; cases hp
  case cons c rest =>
    rw [hs] at hp hskip
    dsimp only at hp
    split at hp
    case isTrue  => cases hp; rw [List.length_cons] at hskip; dsimp only; omega
    case isFalse => exact Nat.lt_of_lt_of_le (scanEntries_shrinks h hp) hskip

theorem scanMember_shrinks {f : List Char → Scan Json} (h : Shrinks f) : Shrinks (scanMember f) := by
  intro text p hp
  cases text
  case nil         => cases hp
  case cons c rest =>
    rw [scanMember] at hp
    split at hp
    case isFalse => cases hp
    case isTrue  =>
      obtain ⟨key, hk, hp⟩ := andThen_eq_ok.mp hp
      have hkey := scanString_shrinks hk
      have hskip := length_skipSpace_le key.snd
      cases hs : skipSpace key.snd
      case nil          => rw [hs] at hp; cases hp
      case cons c rest' =>
        rw [hs] at hp hskip
        dsimp only at hp
        split at hp
        case isFalse => cases hp
        case isTrue  =>
          obtain ⟨value, hv, hp⟩ := andThen_eq_ok.mp hp
          cases hp
          have := h hv
          have := length_skipSpace_le rest'
          simp only [List.length_cons] at hskip ⊢
          omega

theorem scanOnce_shrinks {d : Nat} : Shrinks (scanOnce m d) := by
  have hquote {rest : List Char} {p : Json × List Char}
      (hp : andThen (scanString rest) (fun s rest => .ok (.str s, rest)) = .ok p) :
      p.snd.length < ('"' :: rest).length := by
    obtain ⟨q, hq, hp⟩ := andThen_eq_ok.mp hp
    cases hp
    exact Nat.lt_succ_of_lt (scanString_shrinks hq)
  induction d
  case zero      =>
    intro text p hp
    rw [scanOnce] at hp
    cases text
    case nil         => cases hp
    case cons c rest =>
      obtain rfl | rfl | rfl | ⟨hs, ha, ho⟩ := first_cases c
      · exact hquote hp
      · cases scanValue_array_none.symm.trans hp
      · cases scanValue_object_none.symm.trans hp
      · exact scanPlain_shrinks ((scanValue_plain hs ha ho).symm.trans hp)
  case succ d hi =>
    intro text p hp
    rw [scanOnce] at hp
    cases text
    case nil         => cases hp
    case cons c rest =>
      obtain rfl | rfl | rfl | ⟨hs, ha, ho⟩ := first_cases c
      · exact hquote hp
      · obtain ⟨q, hq, hp⟩ := andThen_eq_ok.mp (scanValue_array.symm.trans hp)
        cases hp
        exact Nat.lt_succ_of_lt (scanBracketed_shrinks hi hq)
      · obtain ⟨q, hq, hp⟩ := andThen_eq_ok.mp (scanValue_object.symm.trans hp)
        cases hp
        exact Nat.lt_succ_of_lt (scanBracketed_shrinks (scanMember_shrinks hi) hq)
      · exact scanPlain_shrinks ((scanValue_plain hs ha ho).symm.trans hp)

end Shrinks

section Bounded

variable {α : Type} {f : List Char → Scan α} {nest : List Char → Nat} {close : Char} {fuel m n length : Nat}
  {text : List Char}

theorem nestingEntries_le (h : ∀ text, nest text ≤ n) : nestingEntries close nest f fuel text ≤ n := by
  induction fuel generalizing text
  case zero         => exact Nat.zero_le n
  case succ fuel hi =>
    rw [nestingEntries]
    refine max_le (h text) ?_
    cases f text
    case error e => exact Nat.zero_le n
    case ok p    =>
      dsimp only
      cases skipSpace p.snd
      case nil         => exact Nat.zero_le n
      case cons c rest =>
        dsimp only
        split
        case isTrue  => exact Nat.zero_le n
        case isFalse =>
          split
          case isTrue  => exact hi
          case isFalse => exact Nat.zero_le n

theorem nestingBracketed_le (h : ∀ text, nest text ≤ n) (text : List Char) :
    nestingBracketed close nest f text ≤ n := by
  unfold nestingBracketed
  cases skipSpace text
  case nil         => exact Nat.zero_le n
  case cons c rest =>
    dsimp only
    split
    case isTrue  => exact Nat.zero_le n
    case isFalse => exact nestingEntries_le h

theorem nestingMember_le (h : ∀ text, nest text ≤ n) (text : List Char) : nestingMember nest text ≤ n := by
  unfold nestingMember
  cases text
  case nil         => exact Nat.zero_le n
  case cons c rest =>
    dsimp only
    split
    case isFalse => exact Nat.zero_le n
    case isTrue  =>
      cases scanString rest
      case error e => exact Nat.zero_le n
      case ok p    =>
        dsimp only
        cases skipSpace p.snd
        case nil         => exact Nat.zero_le n
        case cons c rest =>
          dsimp only
          split
          case isTrue  => exact h _
          case isFalse => exact Nat.zero_le n

theorem nestingFrom_le (length : Nat) (text : List Char) : nestingFrom m length text ≤ length := by
  induction length generalizing text
  case zero           => exact Nat.zero_le 0
  case succ length hi =>
    rw [nestingFrom, nestingValue.eq_def]
    cases text
    case nil         => exact Nat.zero_le _
    case cons c rest =>
      dsimp only
      split
      case isTrue  =>
        have : nestingBracketed ']' (nestingFrom m length) (scanOnce m length) rest ≤ length :=
          nestingBracketed_le hi rest
        omega
      case isFalse =>
        split
        case isTrue  =>
          have : nestingBracketed '}' (nestingMember (nestingFrom m length)) (scanMember (scanOnce m length)) rest ≤
              length := nestingBracketed_le (nestingMember_le hi) rest
          omega
        case isFalse => exact Nat.zero_le _

-- A limit that is not less than the length of the texts is never met.
def Safe (n : Nat) (f : List Char → Scan α) : Prop :=
  ∀ {text : List Char}, text.length ≤ n → f text ≠ .error .recursion

theorem scanEntries_safe (hs : Safe n f) (h : Shrinks f) : Safe n (scanEntries close f fuel) := by
  induction fuel
  case zero         => exact fun _ he => nomatch he
  case succ fuel hi =>
    intro text hn he
    cases andThen_eq_recursion.mp he
    case inl he => exact hs hn he
    case inr he =>
      obtain ⟨p, hp, he⟩ := he
      have hlen := h hp
      have hskip := length_skipSpace_le p.snd
      cases hs : skipSpace p.snd
      case nil         => rw [hs] at he; cases he
      case cons c rest =>
        rw [hs] at he hskip
        rw [List.length_cons] at hskip
        dsimp only at he
        split at he
        case isTrue  => cases he
        case isFalse =>
          split at he
          case isFalse => cases he
          case isTrue  =>
            have hrest := length_skipSpace_le rest
            exact hi (by omega) (andThen_ok_eq_recursion.mp he)

theorem scanBracketed_safe (hs : Safe n f) (h : Shrinks f) : Safe n (scanBracketed close f) := by
  intro text hn he
  have hskip := length_skipSpace_le text
  unfold scanBracketed at he
  cases hs' : skipSpace text
  case nil         => rw [hs'] at he; cases he
  case cons c rest =>
    rw [hs'] at he hskip
    dsimp only at he
    split at he
    case isTrue  => cases he
    case isFalse => exact scanEntries_safe hs h (hskip.trans hn) he

theorem scanMember_safe {f : List Char → Scan Json} (hs : Safe n f) : Safe n (scanMember f) := by
  intro text hn he
  cases text
  case nil         => cases he
  case cons c rest =>
    rw [scanMember] at he
    split at he
    case isFalse => cases he
    case isTrue  =>
      obtain ⟨key, hk, he⟩ := (andThen_eq_recursion.mp he).resolve_left scanString_ne_recursion
      have hkey := scanString_shrinks hk
      have hskip := length_skipSpace_le key.snd
      cases hs' : skipSpace key.snd
      case nil          => rw [hs'] at he; cases he
      case cons c rest' =>
        rw [hs'] at he hskip
        dsimp only at he
        split at he
        case isFalse => cases he
        case isTrue  =>
          have hrest := length_skipSpace_le rest'
          rw [List.length_cons] at hskip hn
          exact hs (by omega) (andThen_ok_eq_recursion.mp he)

theorem scanOnce_safe : Safe n (scanOnce m n) := by
  induction n
  case zero      =>
    intro text hn he
    rw [List.eq_nil_of_length_eq_zero (Nat.le_zero.mp hn)] at he
    cases he
  case succ n hi =>
    intro text hn he
    rw [scanOnce] at he
    cases text
    case nil         => cases he
    case cons c rest =>
      have hrest : rest.length ≤ n := Nat.le_of_succ_le_succ hn
      obtain rfl | rfl | rfl | ⟨hs, ha, ho⟩ := first_cases c
      · exact scanString_ne_recursion (andThen_ok_eq_recursion.mp (scanValue_string.symm.trans he))
      · exact scanBracketed_safe hi scanOnce_shrinks hrest (andThen_ok_eq_recursion.mp (scanValue_array.symm.trans he))
      · exact scanBracketed_safe (scanMember_safe hi) (scanMember_shrinks scanOnce_shrinks) hrest
          (andThen_ok_eq_recursion.mp (scanValue_object.symm.trans he))
      · exact scanPlain_ne_recursion ((scanValue_plain hs ha ho).symm.trans he)

-- Reading is stopped by the limit just where more arrays and objects are open at once.
theorem loads_eq_recursion_iff {limits : Limits} :
    loads limits text = .error .recursion ↔ limits.maxDepth < nesting limits.maxStrDigits text := by
  rw [loads, nesting]
  split
  case isTrue  => exact iff_of_false (fun h => nomatch h) (Nat.not_lt_zero _)
  case isFalse =>
    have hiff : scanOnce limits.maxStrDigits limits.maxDepth (skipSpace text) = .error .recursion ↔
        limits.maxDepth < nestingFrom limits.maxStrDigits (skipSpace text).length (skipSpace text) := by
      by_cases hd : limits.maxDepth < (skipSpace text).length
      case pos => exact scanOnce_stops hd _
      case neg =>
        have hd : (skipSpace text).length ≤ limits.maxDepth := by omega
        have hsafe := scanOnce_safe (m := limits.maxStrDigits) (Nat.le_refl (skipSpace text).length)
        have heq := (scanOnce_extends (m := limits.maxStrDigits) hd (skipSpace text)).resolve_left hsafe
        have hle := nestingFrom_le (m := limits.maxStrDigits) (skipSpace text).length (skipSpace text)
        exact iff_of_false (heq ▸ hsafe) (by omega)
    rw [← hiff]
    cases scanOnce limits.maxStrDigits limits.maxDepth (skipSpace text)
    case error e => simp
    case ok p    =>
      dsimp only
      split
      case isTrue  => simp
      case isFalse => simp

-- One bracket more than may be open.
theorem scanOnce_brackets {d : Nat} : scanOnce m d (List.replicate (d + 1) '[') = .error .recursion := by
  induction d
  case zero      => rfl
  case succ d hi =>
    rw [List.replicate_succ, scanOnce, scanValue_array, scanBracketed]
    have hskip : skipSpace (List.replicate (d + 1) '[') = '[' :: List.replicate d '[' := rfl
    rw [hskip]
    dsimp only
    rw [if_neg (by decide), scanEntries, ← List.replicate_succ, hi]
    rfl

theorem loads_brackets {limits : Limits} :
    loads limits (List.replicate (limits.maxDepth + 1) '[') = .error .recursion := by
  have hskip : skipSpace (List.replicate (limits.maxDepth + 1) '[') = List.replicate (limits.maxDepth + 1) '[' := rfl
  rw [loads, if_neg (by simp [List.replicate_succ]), hskip, scanOnce_brackets]

end Bounded

end Text.Json
