import Mathlib.Data.List.Basic

namespace Text

-- A code point of a string: a character, or a surrogate that stands alone.
inductive CodePoint
  | char (c : Char)
  | surrogate (n : Fin 0x800)
  deriving DecidableEq

abbrev Str := List CodePoint

def Str.ofString (s : String) : Str :=
  s.toList.map .char

namespace CodePoint

def toNat : CodePoint → Nat
  | char c      => c.toNat
  | surrogate n => 0xD800 + n.val

def isHigh : CodePoint → Bool
  | char _      => false
  | surrogate n => n.val < 0x400

def isLow : CodePoint → Bool
  | char _      => false
  | surrogate n => 0x400 ≤ n.val

-- The code point that a unit of UTF-16 stands for.
def ofUnit (u : Nat) : CodePoint :=
  if h : 0xD800 ≤ u ∧ u < 0xE000 then surrogate ⟨u - 0xD800, by omega⟩ else char (Char.ofNat u)

-- The units of a code point in UTF-16.
def units : CodePoint → List Nat
  | surrogate n => [0xD800 + n.val]
  | char c      =>
    if c.toNat < 0x10000 then [c.toNat]
    else [0xD800 + (c.toNat - 0x10000) / 0x400, 0xDC00 + (c.toNat - 0x10000) % 0x400]

end CodePoint

-- The character of a high surrogate and a low one.
def pairChar (high low : Nat) : Char :=
  Char.ofNat (0x10000 + high * 0x400 + low)

-- A high surrogate and a low one after it are one character.
def joinPairs : Str → Str
  | []                                      => []
  | .char c :: rest                         => .char c :: joinPairs rest
  | [.surrogate n]                          => [.surrogate n]
  | .surrogate n :: .char c :: rest         => .surrogate n :: .char c :: joinPairs rest
  | .surrogate n :: .surrogate m :: rest    =>
    if n.val < 0x400 ∧ 0x400 ≤ m.val then .char (pairChar n.val (m.val - 0x400)) :: joinPairs rest
    else .surrogate n :: joinPairs (.surrogate m :: rest)

-- The code points with those beyond the first plane taken apart.
def split (s : Str) : Str :=
  s.flatMap fun c => c.units.map .ofUnit

-- No high surrogate is before a low one.
def Unpaired (s : Str) : Prop :=
  s.IsChain fun a b => ¬(a.isHigh = true ∧ b.isLow = true)

section

variable {c : Char} {n m : Fin 0x800} {s rest : Str}

theorem toNat_lt : c.toNat < 0xD800 ∨ 0xE000 ≤ c.toNat ∧ c.toNat < 0x110000 := by
  have h : c.toNat.isValidChar := c.valid
  simp only [Nat.isValidChar] at h
  omega

theorem toNat_pairChar {high low : Nat} (hh : high < 0x400) (hl : low < 0x400) :
    (pairChar high low).toNat = 0x10000 + high * 0x400 + low := by
  have hv : (0x10000 + high * 0x400 + low).isValidChar := by
    simp only [Nat.isValidChar]
    omega
  rw [pairChar, Char.ofNat, dif_pos hv]
  exact UInt32.toNat_ofNatLT

theorem ofUnit_toNat (h : c.toNat < 0x10000) : CodePoint.ofUnit c.toNat = .char c := by
  have hc := toNat_lt (c := c)
  rw [CodePoint.ofUnit, dif_neg (by omega), Char.ofNat_toNat]

theorem ofUnit_surrogate : CodePoint.ofUnit (0xD800 + n.val) = .surrogate n := by
  rw [CodePoint.ofUnit, dif_pos (by omega)]
  exact congrArg CodePoint.surrogate (Fin.ext (by simp))

-- A character beyond the first plane is a pair of surrogates.
theorem units_astral (h : ¬c.toNat < 0x10000) :
    ∃ n m : Fin 0x800, n.val < 0x400 ∧ 0x400 ≤ m.val ∧ pairChar n.val (m.val - 0x400) = c ∧
      (CodePoint.char c).units = [0xD800 + n.val, 0xD800 + m.val] := by
  have hc := toNat_lt (c := c)
  refine ⟨⟨(c.toNat - 0x10000) / 0x400, by omega⟩, ⟨0x400 + (c.toNat - 0x10000) % 0x400, by omega⟩, ?_, ?_,
    ?_, ?_⟩
  · change (c.toNat - 0x10000) / 0x400 < 0x400
    omega
  · change 0x400 ≤ 0x400 + (c.toNat - 0x10000) % 0x400
    omega
  · rw [pairChar]
    have he : 0x10000 + (c.toNat - 0x10000) / 0x400 * 0x400 +
        (0x400 + (c.toNat - 0x10000) % 0x400 - 0x400) = c.toNat := by omega
    exact (congrArg Char.ofNat he).trans c.ofNat_toNat
  · rw [CodePoint.units, if_neg h]
    simp only [List.cons.injEq, and_true, true_and]
    omega

theorem units_pairChar (hn : n.val < 0x400) (hm : 0x400 ≤ m.val) :
    (CodePoint.char (pairChar n.val (m.val - 0x400))).units = [0xD800 + n.val, 0xD800 + m.val] := by
  have hc : (pairChar n.val (m.val - 0x400)).toNat = 0x10000 + n.val * 0x400 + (m.val - 0x400) :=
    toNat_pairChar hn (by omega)
  rw [CodePoint.units, if_neg (by omega), hc]
  simp only [List.cons.injEq, and_true]
  omega

theorem split_char_cons (h : c.toNat < 0x10000) : split (.char c :: rest) = .char c :: split rest := by
  rw [split, List.flatMap_cons, CodePoint.units, if_pos h, List.map_cons, ofUnit_toNat h]
  rfl

theorem split_surrogate_cons : split (.surrogate n :: rest) = .surrogate n :: split rest := by
  rw [split, List.flatMap_cons, CodePoint.units, List.map_cons, ofUnit_surrogate]
  rfl

theorem split_astral_cons (rest : Str) (h : ¬c.toNat < 0x10000) :
    ∃ n m : Fin 0x800, n.val < 0x400 ∧ 0x400 ≤ m.val ∧ pairChar n.val (m.val - 0x400) = c ∧
      split (.char c :: rest) = .surrogate n :: .surrogate m :: split rest := by
  obtain ⟨n, m, hn, hm, hc, hu⟩ := units_astral h
  refine ⟨n, m, hn, hm, hc, ?_⟩
  rw [split, List.flatMap_cons, hu, List.map_cons, List.map_cons, ofUnit_surrogate, ofUnit_surrogate]
  rfl

theorem joinPairs_surrogates (hn : n.val < 0x400) (hm : 0x400 ≤ m.val) :
    joinPairs (.surrogate n :: .surrogate m :: rest) =
      .char (pairChar n.val (m.val - 0x400)) :: joinPairs rest := by
  rw [joinPairs, if_pos ⟨hn, hm⟩]

theorem joinPairs_surrogate_cons (h : ¬(n.val < 0x400 ∧ 0x400 ≤ m.val)) :
    joinPairs (.surrogate n :: .surrogate m :: rest) = .surrogate n :: joinPairs (.surrogate m :: rest) := by
  rw [joinPairs, if_neg h]

-- What is taken apart is joined again, with the pairs that were there before.
theorem joinPairs_split (s : Str) : joinPairs (split s) = joinPairs s := by
  have hchar {c : Char} {rest : Str} (hi : joinPairs (split rest) = joinPairs rest) :
      joinPairs (split (.char c :: rest)) = .char c :: joinPairs rest := by
    by_cases h : c.toNat < 0x10000
    case pos => rw [split_char_cons h, joinPairs, hi]
    case neg =>
      obtain ⟨n, m, hn, hm, hc, hs⟩ := split_astral_cons rest h
      rw [hs, joinPairs_surrogates hn hm, hc, hi]
  induction s using joinPairs.induct
  case case1               => rfl
  case case2 c rest hi     => rw [hchar hi, joinPairs]
  case case3 n             => rw [split_surrogate_cons]; rfl
  case case4 n c rest hi   =>
    rw [split_surrogate_cons, joinPairs]
    by_cases h : c.toNat < 0x10000
    case pos => rw [split_char_cons h, joinPairs, hi]
    case neg =>
      obtain ⟨n', m, hn, hm, hc, hs⟩ := split_astral_cons rest h
      rw [hs, joinPairs_surrogate_cons (by omega), joinPairs_surrogates hn hm, hc, hi]
  case case5 n m rest h hi =>
    rw [split_surrogate_cons, split_surrogate_cons, joinPairs_surrogates h.left h.right,
      joinPairs_surrogates h.left h.right, hi]
  case case6 n m rest h hi =>
    rw [split_surrogate_cons, split_surrogate_cons, joinPairs_surrogate_cons h, joinPairs_surrogate_cons h,
      ← split_surrogate_cons, hi]

-- A string without pairs is left as it is, and no other one.
theorem joinPairs_eq_iff : joinPairs s = s ↔ Unpaired s := by
  unfold Unpaired
  fun_induction joinPairs s
  case case1               => simp
  case case2 c rest hi     =>
    rw [List.cons.injEq, eq_self, true_and, hi]
    cases rest <;> simp [CodePoint.isHigh]
  case case3 n             => simp
  case case4 n c rest hi   =>
    simp only [List.cons.injEq, true_and, hi, List.isChain_cons_cons, CodePoint.isLow, Bool.false_eq_true,
      and_false, not_false_eq_true]
    cases rest <;> simp [CodePoint.isHigh]
  case case5 n m rest h hi =>
    refine iff_of_false (fun he => ?_) fun hc => ?_
    · exact absurd (List.cons.inj he).left (by simp)
    · exact (List.isChain_cons_cons.mp hc).left (by simp [CodePoint.isHigh, CodePoint.isLow, h])
  case case6 n m rest h hi =>
    rw [List.cons.injEq, eq_self, true_and, hi, List.isChain_cons_cons]
    exact (and_iff_right (by simpa [CodePoint.isHigh, CodePoint.isLow] using h)).symm

-- Joining changes nothing of the units.
theorem units_joinPairs (s : Str) : (joinPairs s).flatMap CodePoint.units = s.flatMap CodePoint.units := by
  fun_induction joinPairs s
  case case1               => rfl
  case case2 c rest hi     => rw [List.flatMap_cons, List.flatMap_cons, hi]
  case case3 n             => rfl
  case case4 n c rest hi   => simp only [List.flatMap_cons, hi]
  case case5 n m rest h hi =>
    simp only [List.flatMap_cons, hi, units_pairChar h.left h.right]
    rfl
  case case6 n m rest h hi => rw [List.flatMap_cons, List.flatMap_cons, hi]

end

end Text
