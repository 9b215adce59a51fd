-- Bytes of files, and whole numbers in them. A file stores a number with its lowest byte
-- first.
import Stylometry.Numerals

namespace Stylometry

/-- The content of a file. -/
abbrev Bytes := List UInt8

namespace Bytes

/-- The lowest `width` bytes of a number, lowest first. -/
def ofNat : Nat → Nat → Bytes
  | 0, _ => []
  | width + 1, n => UInt8.ofNat n :: ofNat width (n / 256)

/-- The number that the bytes hold, lowest first. -/
def toNat : Bytes → Nat
  | [] => 0
  | b :: bs => b.toNat + 256 * toNat bs

/-- The first `n` bytes and the rest, when there are so many. -/
def takeExact? : Nat → Bytes → Option (Bytes × Bytes)
  | 0, bs => some ([], bs)
  | _ + 1, [] => none
  | n + 1, b :: bs => (takeExact? n bs).map fun (front, rest) => (b :: front, rest)

/-- The number in the first `width` bytes, and the rest. -/
def readNat? (width : Nat) (bs : Bytes) : Option (Nat × Bytes) :=
  (takeExact? width bs).map fun (word, rest) => (toNat word, rest)

/-- The bytes of a string in UTF-8. -/
def ofString (s : String) : Bytes := s.toUTF8.data.toList

/-- The string that the bytes spell in UTF-8, if they spell one. -/
def toString? (bs : Bytes) : Option String := String.fromUTF8? ⟨bs.toArray⟩

@[simp] theorem length_ofNat (width n : Nat) : (ofNat width n).length = width := by
  induction width generalizing n with
  | zero => rfl
  | succ width ih => simp [ofNat, ih]

/-- A number that fits is read back as it was written. -/
theorem toNat_ofNat (width n : Nat) (h : n < 256 ^ width) : toNat (ofNat width n) = n := by
  induction width generalizing n with
  | zero => simp at h; simp [ofNat, toNat, h]
  | succ width ih =>
    have hn : n / 256 < 256 ^ width := by
      rw [Nat.div_lt_iff_lt_mul (by decide)]
      simpa [Nat.pow_succ] using h
    simp only [ofNat, toNat, ih _ hn, UInt8.toNat_ofNat']
    omega

theorem takeExact?_eq_some {n : Nat} {bs front rest : Bytes} :
    takeExact? n bs = some (front, rest) ↔ front.length = n ∧ bs = front ++ rest := by
  induction n generalizing bs front with
  | zero =>
    simp only [takeExact?, Option.some.injEq, Prod.mk.injEq, List.length_eq_zero_iff]
    constructor
    · rintro ⟨rfl, rfl⟩
      exact ⟨rfl, rfl⟩
    · rintro ⟨rfl, rfl⟩
      exact ⟨rfl, rfl⟩
  | succ n ih =>
    cases bs with
    | nil =>
      constructor
      · intro h
        cases h
      · rintro ⟨hlength, happend⟩
        rw [(List.append_eq_nil_iff.1 happend.symm).1] at hlength
        cases hlength
    | cons b bs =>
      simp only [takeExact?, Option.map_eq_some_iff, Prod.exists, Prod.mk.injEq]
      constructor
      · rintro ⟨u, v, h, rfl, rfl⟩
        obtain ⟨hlength, rfl⟩ := ih.1 h
        exact ⟨congrArg (· + 1) hlength, rfl⟩
      · rintro ⟨hlength, happend⟩
        cases front with
        | nil => cases hlength
        | cons c front =>
          obtain ⟨rfl, hrest⟩ := List.cons.inj happend
          exact ⟨front, rest, ih.2 ⟨Nat.succ.inj hlength, hrest⟩, rfl, rfl⟩

theorem takeExact?_append (u v : Bytes) : takeExact? u.length (u ++ v) = some (u, v) :=
  takeExact?_eq_some.2 ⟨rfl, rfl⟩

theorem toNat_lt (bs : Bytes) : toNat bs < 256 ^ bs.length := by
  induction bs with
  | nil => decide
  | cons b bs ih =>
    have := b.toNat_lt
    rw [toNat, List.length_cons, Nat.pow_succ]
    omega

/-- Bytes are written again for the number that they hold. -/
theorem ofNat_toNat (bs : Bytes) : ofNat bs.length (toNat bs) = bs := by
  induction bs with
  | nil => rfl
  | cons b bs ih =>
    have hlow : UInt8.ofNat (b.toNat + 256 * toNat bs) = b := by
      apply UInt8.toNat_inj.1
      have := b.toNat_lt
      rw [UInt8.toNat_ofNat']
      omega
    have hhigh : (b.toNat + 256 * toNat bs) / 256 = toNat bs := by
      have := b.toNat_lt
      omega
    rw [List.length_cons, toNat, ofNat, hlow, hhigh, ih]

theorem readNat?_eq_some {width n : Nat} {bs rest : Bytes} :
    readNat? width bs = some (n, rest) ↔ n < 256 ^ width ∧ bs = ofNat width n ++ rest := by
  unfold readNat?
  simp only [Option.map_eq_some_iff, Prod.exists, Prod.mk.injEq]
  constructor
  · rintro ⟨word, rest', h, rfl, rfl⟩
    obtain ⟨rfl, rfl⟩ := takeExact?_eq_some.1 h
    exact ⟨toNat_lt word, by rw [ofNat_toNat]⟩
  · rintro ⟨hn, rfl⟩
    exact ⟨ofNat width n, rest, takeExact?_eq_some.2 ⟨length_ofNat width n, rfl⟩,
      toNat_ofNat width n hn, rfl⟩

theorem readNat?_append {width n : Nat} (h : n < 256 ^ width) (rest : Bytes) :
    readNat? width (ofNat width n ++ rest) = some (n, rest) := readNat?_eq_some.2 ⟨h, rfl⟩

/-- What is written for a string is read back as that string. -/
theorem toString?_ofString (s : String) : toString? (ofString s) = some s := by
  have h : (⟨(ofString s).toArray⟩ : ByteArray) = s.toUTF8 := by simp [ofString]
  rw [toString?, h]
  simp [String.fromUTF8?, String.fromUTF8, s.isValidUTF8]

/-- The bytes of a string are the only ones that spell it. -/
theorem toString?_eq_some {bs : Bytes} {s : String} : toString? bs = some s ↔ bs = ofString s := by
  constructor
  · intro h
    unfold toString? String.fromUTF8? at h
    split at h
    · cases h
      simp [ofString, String.fromUTF8]
    · cases h
  · rintro rfl
    exact toString?_ofString s

end Bytes
end Stylometry
