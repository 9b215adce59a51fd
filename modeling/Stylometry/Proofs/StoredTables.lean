-- What is written is read back: the tables of a corpus, with or without an archive around them.
import Stylometry.Ngram.Storage
import Stylometry.Proofs.TableBytes
import Stylometry.Proofs.Windows

namespace Stylometry

/-! ## Lengths in bytes -/

namespace Bytes

theorem length_ofString_ofList (cs : Text) :
    (ofString (String.ofList cs)).length = Text.byteLength cs := by
  unfold ofString
  simp only [String.toUTF8_eq_toByteArray, String.toByteArray_ofList]
  simp [List.utf8Encode, Text.byteLength, List.length_flatMap]

end Bytes

theorem Text.byteLength_le (t : Text) : byteLength t ≤ 4 * t.length := by
  induction t with
  | nil => exact Nat.le_refl 0
  | cons c t ih =>
    have := c.utf8Size_le_four
    rw [byteLength_cons, List.length_cons]
    omega

theorem Text.length_join_le (sep : Text) (parts : List Text) :
    (join sep parts).length ≤ (parts.map fun part => part.length + sep.length).sum := by
  induction parts with
  | nil => exact Nat.le_refl 0
  | cons part parts ih =>
    rw [List.map_cons, List.sum_cons]
    cases parts with
    | nil =>
      rw [join]
      omega
    | cons next parts =>
      rw [join, List.length_append, List.length_append]
      · omega
      · simp

/-! ## Tables in bytes -/

namespace Ngram

namespace CorpusTable

/-- The numbers that are written for the table fit into 64 bits. -/
def Writable (t : CorpusTable) : Prop :=
  t.size < countLimit ∧ ∀ e ∈ t.entries, (Bytes.ofString e.1).length < countLimit

theorem encode_eq (t : CorpusTable) : t.encode = tableBytes t.order t.entries := rfl

theorem Writable.entriesFit {t : CorpusTable} (h : t.Writable) : EntriesFit t.entries :=
  ⟨h.1, fun e he => ⟨h.2 e he, t.fits e he⟩⟩

/-- A table is read back from its bytes, and what follows them is left. -/
theorem decode?_encode {t : CorpusTable} (h : t.Writable) (rest : Bytes) :
    decode? (t.encode ++ rest) = some (t, rest) := by
  have hput : Occurrences.putAll [] t.entries = t.entries :=
    Occurrences.putAll_of_nodup t.nodup_entries
  exact decode?_eq_some.2 ⟨t.entries, h.entriesFit, by rw [encode_eq], hput.symm⟩

/-- A table in bytes does not start as an archive does. -/
theorem isArchive_encode (t : CorpusTable) : Gzip.isArchive t.encode = false := by
  have hstart : ∃ bytes, t.encode = UInt8.ofNat t.order.index :: bytes := ⟨_, rfl⟩
  obtain ⟨bytes, hbytes⟩ := hstart
  rw [hbytes]
  cases t.order <;> rfl

/-- A file that is no archive holds the table in its bytes. -/
theorem ofFileBytes_of_plain {bs : Bytes} (h : Gzip.isArchive bs = false) :
    ofFileBytes bs =
      match decode? bs with
      | some (t, _) => .ok t
      | none => .error .content := by
  unfold ofFileBytes
  rw [if_neg (by rw [h]; simp)]
  simp only [pure_bind]
  cases decode? bs with
  | none => rfl
  | some result => rfl

/-- A table is read from every archive of its bytes, whatever packing the archive uses. -/
theorem ofFileBytes_of_unpack {t : CorpusTable} (h : t.Writable) {packed : Bytes}
    (harchive : Gzip.isArchive packed = true) (hunpack : Gzip.unpack? packed = some t.encode) :
    ofFileBytes packed = .ok t := by
  have hdecode := decode?_encode h []
  rw [List.append_nil] at hdecode
  unfold ofFileBytes
  rw [if_pos harchive, hunpack]
  simp only [pure_bind]
  rw [hdecode]
  rfl

/-- A table is read back from its file, whether it is compressed or not. -/
theorem ofFileBytes_fileBytes {t : CorpusTable} (h : t.Writable) (packer : Gzip.Packer)
    (compress : Bool) : ofFileBytes (t.fileBytes packer compress) = .ok t := by
  cases compress with
  | true => exact ofFileBytes_of_unpack h (packer.isArchive_pack _) (packer.unpack?_pack _)
  | false =>
    have hdecode := decode?_encode h []
    have hbytes : t.fileBytes packer false = t.encode := rfl
    rw [List.append_nil] at hdecode
    rw [hbytes, ofFileBytes_of_plain t.isArchive_encode, hdecode]

end CorpusTable

/-! ## Tables of windows -/

theorem length_digits_code (k : Kind) : (Decimal.digits k.code).length ≤ 3 := by
  have hall : ∀ n < 127, (Decimal.digits n).length ≤ 3 := by decide +kernel
  exact hall k.code k.code_lt

theorem length_key_le (w : List Kind) : (Bytes.ofString (key w)).length ≤ 16 * w.length := by
  have hparts : ∀ w : List Kind, ((w.map fun k => Decimal.digits k.code).map
      fun part => part.length + ['|'].length).sum ≤ 4 * w.length := by
    intro w
    induction w with
    | nil => exact Nat.le_refl 0
    | cons k w ih =>
      have := length_digits_code k
      simp only [List.map_cons, List.sum_cons, List.length_cons, List.length_nil] at ih ⊢
      omega
  have hjoin := Text.length_join_le ['|'] (w.map fun k => Decimal.digits k.code)
  have hbytes := Text.byteLength_le (keyText w)
  have hkey : (keyText w).length ≤ 4 * w.length := Nat.le_trans hjoin (hparts w)
  rw [key_eq, Bytes.length_ofString_ofList]
  omega

/-- A table of windows of one order has few keys, and they are short. -/
theorem CorpusTable.writable_of_windowKeys {t : CorpusTable} {o : Order}
    (h : ∀ s ∈ Occurrences.keys t.entries, ∃ w : List Kind, w.length = o.length ∧ s = key w) :
    t.Writable := by
  have hlimit : countLimit = 2 ^ 64 := rfl
  have horder : o.length ≤ 5 := by cases o <;> decide
  constructor
  · have hle := length_le_of_windowKeys t.nodup_entries h
    have hpow : 127 ^ o.length ≤ 127 ^ 5 := Nat.pow_le_pow_right (by decide) horder
    have hsize : t.size = (Occurrences.keys t.entries).length := (List.length_map _).symm
    rw [hsize]
    omega
  · intro e he
    obtain ⟨w, hw, heq⟩ := h e.1 (List.mem_map_of_mem he)
    have hle := length_key_le w
    rw [heq]
    omega

/-- The keys of a sum over token streams are keys of windows. -/
theorem Corpus.IsSum.exists_window {c : Corpus} {files : List (List Kind)}
    (h : IsSum c (files.map countAll)) {o : Order} {s : String}
    (hs : s ∈ Occurrences.keys (c.get o).entries) :
    ∃ w : List Kind, w.length = o.length ∧ s = key w := by
  rw [(h o).2, Occurrences.keys_addAll, Occurrences.mem_insertAll] at hs
  rcases hs with hs | hs
  · cases hs
  · obtain ⟨e, he, rfl⟩ := List.mem_map.1 hs
    obtain ⟨f, hf, he⟩ := List.mem_flatMap.1 he
    obtain ⟨kinds, -, rfl⟩ := List.mem_map.1 hf
    obtain ⟨w, hw, heq⟩ := exists_window_of_mem_keys (List.mem_map_of_mem he)
    exact ⟨w, length_of_mem_windows hw, heq⟩

/-- Token streams with less than 2^64 tokens together fit. -/
theorem fits_of_length {files : List (List Kind)}
    (h : (files.map List.length).sum < countLimit) : Fits (files.map countAll) := by
  intro o key
  refine Nat.lt_of_le_of_lt ?_ h
  clear h
  induction files with
  | nil => exact Nat.le_refl 0
  | cons f files ih =>
    have := get_countAll_le f o key
    simp only [List.map_cons, List.sum_cons]
    omega

/-- A sum over token streams has few keys, and they are short. -/
theorem Corpus.IsSum.writable {c : Corpus} {files : List (List Kind)}
    (h : IsSum c (files.map countAll)) (o : Order) : (c.get o).Writable :=
  CorpusTable.writable_of_windowKeys fun _ => h.exists_window

end Ngram
end Stylometry
