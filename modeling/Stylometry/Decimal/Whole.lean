-- Whole numbers in decimal digits.
import Stylometry.Text.Basic

namespace Stylometry.Decimal

/-- The digits of a number, without zeros in front. -/
def digits (n : Nat) : Text := Nat.toDigits 10 n

/-- The digits of a number with zeros in front, at least `width` of them. -/
def paddedDigits (width n : Nat) : Text :=
  List.replicate (width - (digits n).length) '0' ++ digits n

/-- The number that a text of digits reads as. Zeros in front change nothing. -/
def value? (t : Text) : Option Nat :=
  if !t.isEmpty && t.all Char.isDigit then some (Nat.ofDigitChars 10 t 0) else none

theorem digits_ne_nil (n : Nat) : digits n ≠ [] := Nat.toDigits_ne_nil

theorem isDigit_of_mem_digits {n : Nat} {c : Char} (h : c ∈ digits n) : c.isDigit = true :=
  Nat.isDigit_of_mem_toDigits (by decide) (by decide) h

theorem not_mem_digits {c : Char} (hc : c.isDigit = false) (n : Nat) : c ∉ digits n := by
  intro h
  rw [isDigit_of_mem_digits h] at hc
  cases hc

/-- The digits of a number read as that number. -/
theorem value?_digits (n : Nat) : value? (digits n) = some n := by
  have hall : (digits n).all Char.isDigit = true :=
    List.all_eq_true.mpr fun _ h => isDigit_of_mem_digits h
  have hne : (digits n).isEmpty = false := by simpa using digits_ne_nil n
  rw [value?, if_pos (by rw [hall, hne]; rfl), digits,
    Nat.ofDigitChars_toDigits (by decide) (by decide)]

end Stylometry.Decimal
