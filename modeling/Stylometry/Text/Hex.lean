-- Hexadecimal digits.
import Stylometry.Text.Basic

namespace Stylometry.Text

/-- The value of a hexadecimal digit in any case. -/
def hexDigit? (c : Char) : Option Nat :=
  if c.isDigit then some (c.toNat - '0'.toNat)
  else if 'a' ≤ c ∧ c ≤ 'f' then some (c.toNat - 'a'.toNat + 10)
  else if 'A' ≤ c ∧ c ≤ 'F' then some (c.toNat - 'A'.toNat + 10)
  else none

/-- The number that digits spell in a base, which is sixteen or less. -/
def natInBase? (base : Nat) (t : Text) : Option Nat :=
  t.foldlM (fun n c => ((hexDigit? c).filter (· < base)).map (base * n + ·)) 0

/-- The digits of the number of a byte. -/
def hexOfByte (n : Nat) : Text := [Nat.digitChar (n / 16), Nat.digitChar (n % 16)]

end Stylometry.Text
