import Marmoset.Program.Parser

/-!
The numbers that digits stand for. Leading zeros do not count, and without them more digits make a
greater number. So digits may be told to be too many before they are made a number: the numbers in
range are accepted, and no others (`Parser.integer_eq`).
-/

namespace Marmoset.Parser

theorem decimal_eq (digits : String) : decimal digits = Nat.ofDigitChars 10 digits.toList 0 :=
  rfl

theorem decimal_dropZeros (cs : List Char) :
    Nat.ofDigitChars 10 (cs.dropWhile fun c => c.toNat - '0'.toNat = 0) 0 =
      Nat.ofDigitChars 10 cs 0 := by
  induction cs
  case nil => rfl
  case cons c cs hi =>
    by_cases hc : c.toNat - '0'.toNat = 0
    case neg => rw [List.dropWhile_cons_of_neg (by simpa using hc)]
    case pos =>
      rw [List.dropWhile_cons_of_pos (by simpa using hc), hi, Nat.ofDigitChars_cons, hc]

theorem decimal_significant (digits : String) : decimal (significant digits) = decimal digits := by
  rw [decimal_eq, significant, String.toList_ofList, decimal_dropZeros, decimal_eq]

-- A number that does not begin with a zero is at least that power of ten.
theorem pow_le_ofDigitChars {c : Char} (hc : 0 < c.toNat - '0'.toNat) (cs : List Char) :
    Nat.pow 10 cs.length ≤ Nat.ofDigitChars 10 (c :: cs) 0 := by
  rw [Nat.ofDigitChars_cons, Nat.ofDigitChars_eq_ofDigitChars_zero, Nat.mul_zero, Nat.zero_add]
  exact Nat.le_trans (Nat.le_mul_of_pos_right _ hc) (Nat.le_add_right _ _)

theorem maxDigits_eq : maxDigits = 19 := by
  decide

theorem integerBound_le_pow : integerBound ≤ Nat.pow 10 maxDigits := by
  rw [maxDigits_eq]
  decide

-- Too many digits make a number that is out of range.
theorem integerBound_le_decimal {digits : String} (h : maxDigits < (significant digits).length) :
    integerBound ≤ decimal digits := by
  rw [← decimal_significant]
  rw [← String.length_toList] at h
  have hz := List.head?_dropWhile_not (fun c => c.toNat - '0'.toNat = 0) digits.toList
  have hs : (significant digits).toList =
      digits.toList.dropWhile fun c => c.toNat - '0'.toNat = 0 := String.toList_ofList
  rw [← hs] at hz
  rw [decimal_eq]
  cases hd : (significant digits).toList
  case nil =>
    rw [hd] at h
    exact absurd h (Nat.not_lt_zero _)
  case cons c cs =>
    rw [hd] at h hz
    have hc : 0 < c.toNat - '0'.toNat := Nat.pos_of_ne_zero (by simpa using hz)
    calc integerBound
      _ ≤ Nat.pow 10 maxDigits := integerBound_le_pow
      _ ≤ Nat.pow 10 cs.length := Nat.pow_le_pow_right (by decide) (Nat.le_of_lt_succ h)
      _ ≤ Nat.ofDigitChars 10 (c :: cs) 0 := pow_le_ofDigitChars hc cs

-- An integer is a token with the digits of a number in range, however many there are.
theorem integer_eq : integer = (do
    let t ← expect .int
    if decimal t.literal < integerBound then
      return .int t.location (Int64.ofNat (decimal t.literal))
    fail t (.integerTooLarge t.literal)) := by
  rw [integer]
  refine bind_congr fun t => ?_
  dsimp only
  rw [decimal_significant]
  split
  case isTrue h =>
    rw [if_neg (Nat.not_lt.mpr (integerBound_le_decimal h))]
  case isFalse => rfl

end Marmoset.Parser
