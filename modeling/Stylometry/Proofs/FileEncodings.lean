-- The text of a source does not depend on how its file is encoded. A text is read back from
-- UTF-8 with and without a byte order mark and from both forms of UTF-16, and other bytes are read
-- one character for each byte.
import Stylometry.Analysis

namespace Stylometry.Encoding

open Expansion (bytes)

/-! ## Texts in bytes -/

/-- The units of a character: one, or a pair for a character that needs more than sixteen bits. -/
def unitsOfChar (c : Char) : List Nat :=
  if c.toNat < 0x10000 then [c.toNat]
  else [0xD800 + (c.toNat - 0x10000) / 0x400, 0xDC00 + (c.toNat - 0x10000) % 0x400]

/-- The two bytes of a unit. -/
def unitBytes (highFirst : Bool) (unit : Nat) : Bytes :=
  let high := UInt8.ofNat (unit / 256)
  let low := UInt8.ofNat unit
  if highFirst then [high, low] else [low, high]

/-- The bytes of a text in UTF-16. -/
def utf16Bytes (highFirst : Bool) (t : Text) : Bytes :=
  (t.flatMap unitsOfChar).flatMap (unitBytes highFirst)

/-- The encodings that a file tells by the mark in front. -/
inductive Marked where
  | utf8
  | utf16 (highFirst : Bool)
  deriving DecidableEq, Repr

namespace Marked

def all : List Marked := [.utf8, .utf16 false, .utf16 true]

/-- The bytes of the byte order mark. -/
def mark : Marked → Bytes
  | .utf8 => [0xEF, 0xBB, 0xBF]
  | .utf16 false => [0xFF, 0xFE]
  | .utf16 true => [0xFE, 0xFF]

/-- The bytes of a text with the mark in front. -/
def encode (m : Marked) (t : Text) : Bytes :=
  m.mark ++
    match m with
    | .utf8 => bytes t
    | .utf16 highFirst => utf16Bytes highFirst t

end Marked

/-! ## UTF-16 -/

theorem unitsOfChar_lt {c : Char} {unit : Nat} (h : unit ∈ unitsOfChar c) : unit < 65536 := by
  have hvalid := toNat_cases c
  unfold unitsOfChar at h
  split at h
  · simp at h
    omega
  · simp at h
    omega

/-- The units are those that the bytes were made of. -/
theorem units_flatMap_unitBytes (highFirst : Bool) {us : List Nat} (h : ∀ u ∈ us, u < 65536) :
    units highFirst (us.flatMap (unitBytes highFirst)) = (us, false) := by
  induction us with
  | nil => rfl
  | cons u us ih =>
    obtain ⟨hu, hus⟩ := List.forall_mem_cons.1 h
    have hunit : u / 256 % 256 * 256 + u % 256 = u := by omega
    cases highFirst <;> simp [unitBytes, units, ih hus, hunit]

/-- The units of a character are read as that character, whatever follows. -/
theorem ofUnits_unitsOfChar (c : Char) (us : List Nat) :
    ofUnits false none (unitsOfChar c ++ us) = c :: ofUnits false none us := by
  obtain ⟨hlead, htrail⟩ := not_half c
  unfold unitsOfChar
  by_cases hsmall : c.toNat < 0x10000
  · simp [ofUnits, hsmall, hlead, htrail]
  · have hvalid := toNat_cases c
    obtain ⟨n, hn⟩ : ∃ n, c.toNat = 0x10000 + n := ⟨c.toNat - 0x10000, by omega⟩
    have hfirst : isLead (0xD800 + n / 0x400) = true := by
      simp [isLead]
      omega
    have hsecond : isTrail (0xDC00 + n % 0x400) = true := by
      simp [isTrail]
      omega
    have hpair : pair (0xD800 + n / 0x400) (0xDC00 + n % 0x400) = c := by
      have hcode : 0x10000 + (0xD800 + n / 0x400 - 0xD800) * 0x400 +
          (0xDC00 + n % 0x400 - 0xDC00) = c.toNat := by omega
      rw [pair, hcode, Char.ofNat_toNat]
    have hn' : c.toNat - 0x10000 = n := by omega
    rw [if_neg hsmall, hn']
    simp [ofUnits, hfirst, hsecond, hpair]

theorem ofUnits_flatMap_unitsOfChar (t : Text) :
    ofUnits false none (t.flatMap unitsOfChar) = t := by
  induction t with
  | nil => simp [ofUnits]
  | cons c t ih => simp [ofUnits_unitsOfChar, ih]

/-- A text is read back from its bytes in UTF-16. -/
theorem utf16_utf16Bytes (highFirst : Bool) (t : Text) :
    utf16 highFirst (utf16Bytes highFirst t) = t := by
  have hunits : units highFirst (utf16Bytes highFirst t) = (t.flatMap unitsOfChar, false) := by
    apply units_flatMap_unitBytes
    intro u hu
    obtain ⟨c, -, hc⟩ := List.mem_flatMap.1 hu
    exact unitsOfChar_lt hc
  simp [utf16, hunits, ofUnits_flatMap_unitsOfChar]

/-! ## UTF-8 -/

theorem bytes_eq (t : Text) : bytes t = t.flatMap String.utf8EncodeChar := by
  simp [bytes, Bytes.ofString, List.utf8Encode]

theorem toString?_bytes (t : Text) :
    Bytes.toString? (bytes t) = some (String.ofList t) :=
  Bytes.toString?_ofString _

theorem eq_bytes_of_toString? {bs : Bytes} {s : String} (h : Bytes.toString? bs = some s) :
    bs = bytes s.toList := by
  rw [bytes, String.ofList_toList]
  exact Bytes.toString?_eq_some.1 h

/-- The mark of UTF-8 is a character in front of the text. -/
theorem encode_utf8 (t : Text) : Marked.utf8.encode t = bytes (byteOrderMark :: t) := by
  have hmark : String.utf8EncodeChar byteOrderMark = [0xEF, 0xBB, 0xBF] := by decide
  simp [Marked.encode, Marked.mark, bytes_eq, hmark]

/-- No character starts with a byte from 248 on. -/
theorem utf8EncodeChar_head (c : Char) :
    ∃ b bs, String.utf8EncodeChar c = b :: bs ∧ b.toNat < 248 := by
  unfold String.utf8EncodeChar
  simp only [Char.toNat_val]
  split
  · exact ⟨_, _, rfl, by simp; omega⟩
  split
  · exact ⟨_, _, rfl, by simp; omega⟩
  split
  · exact ⟨_, _, rfl, by simp; omega⟩
  · exact ⟨_, _, rfl, by simp; omega⟩

theorem toString?_of_large {b : UInt8} (h : 248 ≤ b.toNat) (bs : Bytes) :
    Bytes.toString? (b :: bs) = none := by
  rw [Option.eq_none_iff_forall_ne_some]
  intro s hs
  have hbytes := eq_bytes_of_toString? hs
  rw [bytes_eq] at hbytes
  cases hchars : s.toList with
  | nil => simp [hchars] at hbytes
  | cons c t =>
    obtain ⟨d, ds, hc, hd⟩ := utf8EncodeChar_head c
    rw [hchars, List.flatMap_cons, hc] at hbytes
    obtain ⟨rfl, -⟩ := List.cons.inj hbytes
    omega

/-! ## The text of a source -/

theorem stripMark_of_head {t : Text} (h : t.head? ≠ some byteOrderMark) : stripMark t = t := by
  cases t with
  | nil => rfl
  | cons c t =>
    have hc : c ≠ byteOrderMark := by simpa using h
    simp [stripMark, hc]

theorem source_bytes (t : Text) : source (bytes t) = stripMark t := by
  simp [source, toString?_bytes]

/-- A marked text is read without the mark. -/
theorem source_encode {t : Text} (h : t.head? ≠ some byteOrderMark) (m : Marked) :
    source (m.encode t) = t := by
  match m with
  | .utf8 =>
    rw [encode_utf8, source_bytes]
    simp [stripMark]
  | .utf16 false =>
    have hnone : ∀ bs, Bytes.toString? (0xFF :: bs) = none := toString?_of_large (by decide)
    simp [source, Marked.encode, Marked.mark, hnone, sniffed, utf16_utf16Bytes,
      stripMark_of_head h]
  | .utf16 true =>
    have hnone : ∀ bs, Bytes.toString? (0xFE :: bs) = none := toString?_of_large (by decide)
    simp [source, Marked.encode, Marked.mark, hnone, sniffed, utf16_utf16Bytes,
      stripMark_of_head h]

theorem sniffed_of_unmarked {bs : Bytes} (h : ∀ m ∈ Marked.all, ¬m.mark <+: bs) :
    sniffed bs = western bs := by
  unfold sniffed
  split
  · exact absurd ⟨_, rfl⟩ (h .utf8 (by decide))
  · exact absurd ⟨_, rfl⟩ (h (.utf16 false) (by decide))
  · exact absurd ⟨_, rfl⟩ (h (.utf16 true) (by decide))
  · rfl

/-- A byte below 128 is its own character, another byte is a character from 128 on, and no byte is
a byte order mark. -/
theorem westernChar_cases (b : UInt8) :
    (b.toNat < 0x80 → (westernChar b).toNat = b.toNat) ∧
      (0x80 ≤ b.toNat → 0x80 ≤ (westernChar b).toNat) ∧ westernChar b ≠ byteOrderMark := by
  have hall : ∀ n < 256, (n < 0x80 → (westernChar (.ofNat n)).toNat = n) ∧
      (0x80 ≤ n → 0x80 ≤ (westernChar (.ofNat n)).toNat) ∧
      westernChar (.ofNat n) ≠ byteOrderMark := by decide +kernel
  have hb := hall b.toNat b.toNat_lt
  rwa [UInt8.ofNat_toNat] at hb

theorem source_of_unmarked {bs : Bytes} (hnone : Bytes.toString? bs = none)
    (h : ∀ m ∈ Marked.all, ¬m.mark <+: bs) : source bs = western bs := by
  have hhead : (western bs).head? ≠ some byteOrderMark := by
    cases bs with
    | nil => simp [western]
    | cons b bs => simpa [western] using (westernChar_cases b).2.2
  simp [source, hnone, sniffed_of_unmarked h, stripMark_of_head hhead]

end Stylometry.Encoding

namespace Stylometry

open Encoding
open Expansion (bytes)

theorem readSource_of_read {store : Files.Store} {path : Files.Path} {bs : Bytes}
    (h : store.read path = .ok bs) : store.readSource path = .ok (source bs) := by
  rw [Files.Store.readSource, h]
  rfl

/-- A file that holds a text without a byte order mark in front is read as that text, whether in
UTF-8 alone or in UTF-8 or UTF-16 after a mark, so its record and tables are those of the text. A
file that is neither in UTF-8 nor starts with a mark has one character for each byte, which is the
byte itself below 128. -/
theorem readSource_of_encoded :
    (∀ (t : Text) (store : Files.Store) (path : Files.Path), t.head? ≠ some byteOrderMark →
      (store.read path = .ok (bytes t) ∨
        ∃ m : Marked, store.read path = .ok (m.encode t)) →
      store.readSource path = .ok t ∧
        ∀ e : Engine, e.analyzeFile store path = e.analyze path t) ∧
    ∀ (bs : Bytes) (store : Files.Store) (path : Files.Path), (∀ t, bs ≠ bytes t) →
      (∀ m ∈ Marked.all, ¬m.mark <+: bs) → store.read path = .ok bs →
      ∃ t : Text, store.readSource path = .ok t ∧ t.length = bs.length ∧
        ∀ (i : Nat) b, bs[i]? = some b → ∃ c, t[i]? = some c ∧
          (b.toNat < 0x80 → c.toNat = b.toNat) ∧ (0x80 ≤ b.toNat → 0x80 ≤ c.toNat) := by
  constructor
  · intro t store path ht hread
    have hsource : store.readSource path = .ok t := by
      rcases hread with hread | ⟨m, hread⟩
      · rw [readSource_of_read hread, source_bytes, stripMark_of_head ht]
      · rw [readSource_of_read hread, source_encode ht]
    refine ⟨hsource, ?_⟩
    intro e
    rw [Engine.analyzeFile, hsource]
  · intro bs store path hutf8 hmarks hread
    have hnone : Bytes.toString? bs = none := by
      rw [Option.eq_none_iff_forall_ne_some]
      intro s hs
      exact hutf8 s.toList (eq_bytes_of_toString? hs)
    refine ⟨western bs, ?_, ?_, ?_⟩
    · rw [readSource_of_read hread, source_of_unmarked hnone hmarks]
    · simp [western]
    · intro i b hb
      obtain ⟨hlow, hhigh, -⟩ := westernChar_cases b
      exact ⟨westernChar b, by simp [western, hb], hlow, hhigh⟩

/-- Two sources: one in UTF-16 with a pair of units, and one in windows-1252. -/
def oldSources : Files.Store where
  files := [(["a.cpp".toList], (Marked.utf16 false).encode ['x', '😀']),
    (["b.cpp".toList], [0x63, 0x61, 0x66, 0xE9])]

theorem readSource_oldSources :
    (oldSources.readSource "a.cpp".toList = .ok ['x', '😀'] ∧
      ∀ e : Engine, e.analyzeFile oldSources "a.cpp".toList =
        e.analyze "a.cpp".toList ['x', '😀']) ∧
    ∃ t : Text, oldSources.readSource "b.cpp".toList = .ok t ∧ t.length = 4 ∧
      ∀ (i : Nat) b, ([0x63, 0x61, 0x66, 0xE9] : Bytes)[i]? = some b → ∃ c, t[i]? = some c ∧
        (b.toNat < 0x80 → c.toNat = b.toNat) ∧ (0x80 ≤ b.toNat → 0x80 ≤ c.toNat) := by
  obtain ⟨htext, hbytes⟩ := readSource_of_encoded
  have hutf8 : ∀ t, ([0x63, 0x61, 0x66, 0xE9] : Bytes) ≠ bytes t := by
    intro t ht
    have hnone : Bytes.toString? [0x63, 0x61, 0x66, 0xE9] = none := by decide +kernel
    rw [ht, toString?_bytes] at hnone
    cases hnone
  constructor
  · exact htext _ oldSources "a.cpp".toList (by decide) (.inr ⟨.utf16 false, rfl⟩)
  · exact hbytes _ oldSources "b.cpp".toList hutf8 (by decide) rfl

end Stylometry
