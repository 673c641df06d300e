import Mathlib.Data.List.Basic
import Mathlib.Data.List.Induction
import Mathlib.Data.Nat.Digits.Defs
import Tapestry.Text.Number

/-!
# Decimal numerals

Digits denote the number that their places add up to, and a numeral is digits behind an optional
sign. Reading accepts exactly the numerals of numbers that fit a word, with any number of leading
zeros. What is written for a number is a numeral of it, so different numbers are written differently.
-/

namespace Tapestry.Number

variable {n : Int} {text : Text}

/-! ## Digits -/

/-- One digit or more. -/
structure IsDigits (text : Text) : Prop where
  ne_nil : text ≠ []
  digits : ∀ b ∈ text, Byte.isDigit b = true

/-- The number that digits denote: each is worth ten times as much as the one behind it. -/
def decimal (digits : Text) : Nat := Nat.ofDigits 10 (digits.reverse.map fun b => b.toNat - 48)

/-- Adding digit after digit comes to what the places add up to. -/
theorem ofDigits_eq_decimal (digits : Text) : ofDigits digits = decimal digits := by
  induction digits using List.reverseRecOn with
  | nil => rfl
  | append_singleton front b ih =>
    have hlast : ofDigits (front ++ [b]) = 10 * ofDigits front + (b.toNat - 48) := by
      rw [ofDigits, List.foldl_append]
      rfl
    rw [hlast, ih, decimal, decimal, List.reverse_concat, List.map_cons, Nat.ofDigits_cons,
      Nat.add_comm]

/-- Digits are read as the number they make up. -/
theorem nat?_eq_some_iff {n : Nat} : nat? text = some n ↔ IsDigits text ∧ n = decimal text := by
  have hdigits : (!text.isEmpty && text.all Byte.isDigit) = true ↔ IsDigits text := by
    rw [Bool.and_eq_true_iff, Bool.not_eq_true', List.isEmpty_eq_false_iff, List.all_eq_true]
    exact ⟨fun h => ⟨h.1, h.2⟩, fun h => ⟨h.1, h.2⟩⟩
  unfold nat?
  split
  case isTrue h => simp [hdigits.mp h, ofDigits_eq_decimal, eq_comm]
  case isFalse h => simp [mt hdigits.mpr h]

/-! ## Signs -/

/-- A numeral and the number it denotes: digits, with or without a sign before them. -/
inductive Numeral : Text → Int → Prop where
  | unsigned {digits} (h : IsDigits digits) : Numeral digits (decimal digits)
  | plus {digits} (h : IsDigits digits) : Numeral (43 :: digits) (decimal digits)
  | minus {digits} (h : IsDigits digits) : Numeral (45 :: digits) (-decimal digits)

/-- A number is in range just if it fits a word. -/
theorem inRange?_eq_some_iff {value : Int} :
    inRange? n = some value ↔ value = n ∧ least ≤ value ∧ value ≤ greatest := by
  unfold inRange? fits
  split
  case isTrue h =>
    simp only [Bool.and_eq_true, decide_eq_true_eq] at h
    constructor
    · rintro ⟨⟩
      exact ⟨rfl, h⟩
    · rintro ⟨rfl, -⟩
      rfl
  case isFalse h =>
    simp only [Bool.and_eq_true, decide_eq_true_eq] at h
    constructor
    · rintro ⟨⟩
    · rintro ⟨rfl, hfits⟩
      exact absurd hfits h

/-- Digits behind a sign are read as what the sign makes of their number, if that fits a word. -/
theorem bind_nat?_eq_some_iff (sign : Nat → Int) {digits : Text} :
    ((nat? digits).bind fun value => inRange? (sign value)) = some n ↔
      IsDigits digits ∧ n = sign (decimal digits) ∧ least ≤ n ∧ n ≤ greatest := by
  rw [Option.bind_eq_some_iff]
  simp only [nat?_eq_some_iff, inRange?_eq_some_iff]
  constructor
  · rintro ⟨value, ⟨hdigits, rfl⟩, hrange⟩
    exact ⟨hdigits, hrange⟩
  · rintro ⟨hdigits, hrange⟩
    exact ⟨_, ⟨hdigits, rfl⟩, hrange⟩

/-- Reading accepts exactly the numerals of numbers that fit a word. -/
theorem int?_eq_some_iff : int? text = some n ↔ Numeral text n ∧ least ≤ n ∧ n ≤ greatest := by
  constructor
  · intro h
    unfold int? at h
    split at h
    case h_1 digits =>
      obtain ⟨hdigits, rfl, hrange⟩ := (bind_nat?_eq_some_iff fun value => value).mp h
      exact ⟨.plus hdigits, hrange⟩
    case h_2 digits =>
      obtain ⟨hdigits, rfl, hrange⟩ := (bind_nat?_eq_some_iff fun value => -value).mp h
      exact ⟨.minus hdigits, hrange⟩
    case h_3 =>
      obtain ⟨hdigits, rfl, hrange⟩ := (bind_nat?_eq_some_iff fun value => value).mp h
      exact ⟨.unsigned hdigits, hrange⟩
  · rintro ⟨hnumeral, hrange⟩
    cases hnumeral with
    | unsigned hdigits =>
      -- No sign is a digit, so the digits are read as they are.
      have hsign {sign : UInt8} {rest : Text} (htext : text = sign :: rest) :
          Byte.isDigit sign = true := hdigits.digits sign (htext ▸ List.mem_cons_self)
      unfold int?
      split
      case h_1 => exact absurd (hsign rfl) (by decide)
      case h_2 => exact absurd (hsign rfl) (by decide)
      case h_3 => exact (bind_nat?_eq_some_iff fun value => value).mpr ⟨hdigits, rfl, hrange⟩
    | plus hdigits => exact (bind_nat?_eq_some_iff fun value => value).mpr ⟨hdigits, rfl, hrange⟩
    | minus hdigits => exact (bind_nat?_eq_some_iff fun value => -value).mpr ⟨hdigits, rfl, hrange⟩

/-! ## Written numbers -/

/-- A digit and its byte have one code. -/
theorem toNat_ofChar {c : Char} (h : c.isDigit = true) : (Byte.ofChar c).toNat = c.toNat := by
  have hbound : c.toNat ≤ 57 := (Char.isDigit_iff_toNat.mp h).2
  rw [Byte.ofChar, Char.toUInt8, UInt32.toNat_toUInt8]
  exact Nat.mod_eq_of_lt (Nat.lt_of_le_of_lt hbound (by decide))

/-- A number is written in digits. -/
theorem isDigits_nat (n : Nat) : IsDigits (nat n) := by
  refine ⟨by simp [nat, Nat.toDigits_ne_nil], fun b hb => ?_⟩
  obtain ⟨c, hc, rfl⟩ := List.mem_map.mp hb
  have hdigit := Nat.isDigit_of_mem_toDigits (by decide) (by decide) hc
  have hcode : 48 ≤ c.toNat ∧ c.toNat ≤ 57 := Char.isDigit_iff_toNat.mp hdigit
  rw [Byte.isDigit, Bool.and_eq_true, decide_eq_true_eq, decide_eq_true_eq,
    UInt8.le_iff_toNat_le, UInt8.le_iff_toNat_le, toNat_ofChar hdigit]
  exact hcode

/-- What is written for a number denotes it. -/
theorem decimal_nat (n : Nat) : decimal (nat n) = n := by
  have hdigit {c : Char} (hc : c ∈ Nat.toDigits 10 n) : c.isDigit = true :=
    Nat.isDigit_of_mem_toDigits (by decide) (by decide) hc
  calc decimal (nat n)
      = (Nat.toDigits 10 n).foldl (fun value c => 10 * value + ((Byte.ofChar c).toNat - 48)) 0 := by
        rw [← ofDigits_eq_decimal, ofDigits, nat, List.foldl_map]
    _ = Nat.ofDigitChars 10 (Nat.toDigits 10 n) 0 := by
        rw [Nat.ofDigitChars_eq_foldl]
        refine List.foldl_ext _ _ _ fun value c hc => ?_
        rw [toNat_ofChar (hdigit hc)]
        rfl
    _ = n := Nat.ofDigitChars_ten_toDigits

/-- Different numbers have different numerals. -/
theorem nat_inj {m n : Nat} (h : nat m = nat n) : m = n := by
  rw [← decimal_nat m, h, decimal_nat]

/-- A number is written as a numeral of it. -/
theorem numeral_int (n : Int) : Numeral (int n) n := by
  unfold int
  split
  case isTrue hneg =>
    have hvalue : n = -(decimal (nat n.natAbs) : Int) := by rw [decimal_nat]; omega
    nth_rewrite 2 [hvalue]
    exact .minus (isDigits_nat _)
  case isFalse hneg =>
    have hvalue : n = (decimal (nat n.natAbs) : Int) := by rw [decimal_nat]; omega
    nth_rewrite 2 [hvalue]
    exact .unsigned (isDigits_nat _)

/-- The numeral of a number that is not negative is made of digits. -/
theorem isDigits_int (h : 0 ≤ n) : IsDigits (int n) := by
  rw [int, if_neg (by omega)]
  exact isDigits_nat _

end Tapestry.Number
