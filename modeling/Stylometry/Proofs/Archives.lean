-- Archives with stored blocks. What is packed in them starts as an archive does and is unpacked
-- again, so they are one way to pack.
import Stylometry.Gzip.Archive

namespace Stylometry.Gzip

/-- The bits at the start of a stored block: whether it is the last one, and its sort. -/
theorem bits_storedBlock (last : Bool) (bytes : Bytes) :
    ∃ bits, (⟨[], (if last then 1 else 0) :: bytes⟩ : BitReader).bit? = some (last, ⟨bits, bytes⟩) ∧
      ∃ r, BitReader.nat? ⟨bits, bytes⟩ 2 = some (0, r) ∧ r.align = ⟨[], bytes⟩ := by
  cases last
  · exact ⟨_, rfl, _, rfl, rfl⟩
  · exact ⟨_, rfl, _, rfl, rfl⟩

theorem readStored?_append {content : Bytes} (h : content.length ≤ blockLimit) (out : Array UInt8)
    (r : BitReader) (rest : Bytes)
    (hr : r.align = ⟨[], Bytes.ofNat 2 content.length ++
      (Bytes.ofNat 2 (blockLimit - content.length) ++ (content ++ rest))⟩) :
    readStored? out r = some (out ++ content.toArray, ⟨[], rest⟩) := by
  have hlimit : blockLimit = 65535 := rfl
  unfold readStored?
  rw [hr, Bytes.readNat?_append (by omega)]
  simp only [Option.bind_eq_bind, Option.bind_some]
  rw [Bytes.readNat?_append (by omega)]
  simp only [Option.bind_some]
  rw [if_neg (by omega), Bytes.takeExact?_append]
  rfl

/-- A round reads one stored block. -/
theorem readBlocks?_storedBlock (last : Bool) {content : Bytes}
    (h : content.length ≤ blockLimit) (rounds : Nat) (out : Array UInt8) (rest : Bytes) :
    readBlocks? (rounds + 1) out ⟨[], storedBlock last content ++ rest⟩ =
      if last then some (out ++ content.toArray, ⟨[], rest⟩)
      else readBlocks? rounds (out ++ content.toArray) ⟨[], rest⟩ := by
  obtain ⟨bits, hbit, r, hsort, halign⟩ := bits_storedBlock last
    (Bytes.ofNat 2 content.length ++
      (Bytes.ofNat 2 (blockLimit - content.length) ++ (content ++ rest)))
  have hblock : storedBlock last content ++ rest = (if last then 1 else 0) ::
      (Bytes.ofNat 2 content.length ++
        (Bytes.ofNat 2 (blockLimit - content.length) ++ (content ++ rest))) := by
    simp [storedBlock]
  rw [hblock, readBlocks?, hbit]
  simp only [Option.bind_eq_bind, Option.bind_some]
  rw [hsort]
  simp only [Option.bind_some]
  rw [readStored?_append h out r rest halign]
  rfl

theorem readBlocks?_storedBlocks (bs : Bytes) : ∀ (rounds : Nat) (out : Array UInt8)
    (rest : Bytes), bs.length < rounds →
    readBlocks? rounds out ⟨[], storedBlocks bs ++ rest⟩ =
      some (out ++ bs.toArray, ⟨[], rest⟩) := by
  have hlimit : blockLimit = 65535 := rfl
  fun_induction storedBlocks bs with
  | case1 bs h =>
    intro rounds out rest hrounds
    obtain ⟨n, rfl⟩ : ∃ n, rounds = n + 1 := ⟨rounds - 1, by omega⟩
    rw [readBlocks?_storedBlock true h, if_pos rfl]
  | case2 bs h ih =>
    intro rounds out rest hrounds
    obtain ⟨n, rfl⟩ : ∃ n, rounds = n + 1 := ⟨rounds - 1, by omega⟩
    have htake : (bs.take blockLimit).length ≤ blockLimit := by
      rw [List.length_take]
      exact Nat.min_le_left ..
    have hdrop : (bs.drop blockLimit).length < n := by
      rw [List.length_drop]
      omega
    have harray : (bs.take blockLimit).toArray ++ (bs.drop blockLimit).toArray = bs.toArray := by
      rw [List.append_toArray, List.take_append_drop]
    rw [List.append_assoc, readBlocks?_storedBlock false htake, if_neg (by simp), ih n _ _ hdrop,
      Array.append_assoc, harray]

theorem length_le_storedBlocks (bs : Bytes) : bs.length ≤ (storedBlocks bs).length := by
  fun_induction storedBlocks bs with
  | case1 bs h =>
    simp only [storedBlock, List.length_append]
    omega
  | case2 bs h ih =>
    rw [List.length_drop] at ih
    simp only [storedBlock, List.length_append, List.length_take]
    omega

theorem inflate?_storedBlocks (bs rest : Bytes) :
    inflate? (storedBlocks bs ++ rest) = some (bs, rest) := by
  have hle := length_le_storedBlocks bs
  unfold inflate?
  dsimp only
  rw [readBlocks?_storedBlocks bs _ _ _ (by
    rw [BitReader.size, List.length_append, List.length_nil]
    omega)]
  simp

theorem afterHeader?_header (rest : Bytes) : afterHeader? (header ++ rest) = some rest := by
  unfold afterHeader?
  have htake := Bytes.takeExact?_append header rest
  have hlength : header.length = 10 := rfl
  rw [hlength] at htake
  rw [htake]
  rfl

theorem isArchive_pack (bs : Bytes) : isArchive (pack bs) = true := by
  rw [isArchive, List.isPrefixOf_iff_prefix]
  refine ⟨[8, 0, 0, 0, 0, 0, 0, 255] ++ storedBlocks bs ++ Bytes.ofNat 4 (checksum bs) ++
    Bytes.ofNat 4 (bs.length % 2 ^ 32), ?_⟩
  simp [pack, header]

theorem checksum_lt (bs : Bytes) : checksum bs < 256 ^ 4 := UInt32.toNat_lt _

theorem unpack?_pack (bs : Bytes) : unpack? (pack bs) = some bs := by
  have hpack : pack bs = header ++ (storedBlocks bs ++ (Bytes.ofNat 4 (checksum bs) ++
      (Bytes.ofNat 4 (bs.length % 2 ^ 32) ++ []))) := by
    simp [pack]
  have hlength : bs.length % 2 ^ 32 < 256 ^ 4 := Nat.mod_lt _ (by decide)
  unfold unpack?
  rw [hpack, afterHeader?_header]
  simp only [Option.bind_eq_bind, Option.bind_some]
  rw [inflate?_storedBlocks]
  simp only [Option.bind_some]
  rw [Bytes.readNat?_append (checksum_lt bs)]
  simp only [Option.bind_some]
  rw [Bytes.readNat?_append hlength]
  simp

/-- The packing with stored blocks. -/
def Packer.stored : Packer where
  pack := Gzip.pack
  isArchive_pack := Gzip.isArchive_pack
  unpack?_pack := Gzip.unpack?_pack

end Stylometry.Gzip
