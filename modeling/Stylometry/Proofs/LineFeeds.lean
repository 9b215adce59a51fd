-- Places by the bytes of a text. The line of an offset counts the line feeds among the bytes before
-- it, whether the offset stands between two characters, inside one or behind the end. The table of
-- line starts gives this place, and so does the row and column that is counted through the text.
import Stylometry.Proofs.FileEncodings
import Stylometry.Proofs.Positions

namespace Stylometry

open Expansion (bytes)

/-! ## Line feeds as bytes -/

namespace Text

/-- The byte of a line feed. -/
def lineFeed : UInt8 := 0x0A

/-- The number of line feeds before an offset. -/
def feedsBefore (t : Text) (offset : Nat) : Nat := ((bytes t).take offset).count lineFeed

/-- The offset just after the last line feed before an offset, or zero. -/
def lineStart (t : Text) (offset : Nat) : Nat :=
  (((bytes t).take offset).rdropWhile (· ≠ lineFeed)).length

theorem bytes_cons (c : Char) (t : Text) :
    bytes (c :: t) = String.utf8EncodeChar c ++ bytes t := by
  rw [Encoding.bytes_eq, Encoding.bytes_eq, List.flatMap_cons]

/-- No other character has the byte of a line feed in it. -/
theorem lineFeed_not_mem {c : Char} (hc : c ≠ '\n') : lineFeed ∉ String.utf8EncodeChar c := by
  have hcode : c.toNat ≠ 10 := fun h => hc (Char.toNat_inj.1 h)
  unfold String.utf8EncodeChar lineFeed
  simp only [Char.toNat_val]
  -- a byte of a longer character is 128 or more, whatever bits it holds
  split_ifs <;> simp [← UInt8.toNat_inj] <;> omega

theorem lineStart_le (t : Text) (offset : Nat) : t.lineStart offset ≤ offset :=
  (List.rdropWhile_prefix _ _).length_le.trans (List.length_take_le offset _)

/-- One byte further, a line feed before the offset counts and starts a line. -/
theorem feedsBefore_succ (t : Text) (offset : Nat) :
    t.feedsBefore (offset + 1) =
      t.feedsBefore offset + if (bytes t)[offset]? = some lineFeed then 1 else 0 := by
  unfold feedsBefore
  rw [List.take_add_one, List.count_append]
  cases (bytes t)[offset]? with
  | none => rfl
  | some b => simp [List.count_singleton]

theorem lineStart_succ (t : Text) (offset : Nat) :
    t.lineStart (offset + 1) =
      if (bytes t)[offset]? = some lineFeed then offset + 1 else t.lineStart offset := by
  unfold lineStart
  rw [List.take_add_one]
  cases hb : (bytes t)[offset]? with
  | none => simp
  | some b =>
    have hlt := (List.getElem?_eq_some_iff.1 hb).1
    rw [Option.toList_some, List.rdropWhile_concat]
    by_cases hfeed : b = lineFeed
    · simp [hfeed]
      omega
    · simp [hfeed]

end Text

/-! ## The place by line feeds -/

namespace Position

/-- The place of an offset by the line feeds before it: the line they end, and the bytes since the
last of them. -/
def byFeeds (t : Text) (offset : Nat) : Position :=
  ⟨t.feedsBefore offset + 1, offset - t.lineStart offset + 1, offset⟩

theorem byFeeds_before_succ (t : Text) (offset : Nat) :
    (byFeeds t offset).Before (byFeeds t (offset + 1)) := by
  have hle := t.lineStart_le offset
  unfold Before byFeeds
  rw [Text.feedsBefore_succ, Text.lineStart_succ]
  by_cases hfeed : (bytes t)[offset]? = some Text.lineFeed
  · simp [hfeed]
  · simp [hfeed]
    omega

theorem byFeeds_before_of_lt (t : Text) {i j : Nat} (h : i < j) :
    (byFeeds t i).Before (byFeeds t j) := by
  induction h with
  | refl => exact byFeeds_before_succ t i
  | step _ ih => exact ih.trans (byFeeds_before_succ t _)

end Position

/-! ## The table of line starts -/

namespace LineTable

theorem takeWhile_cons {s offset : Nat} (h : s ≤ offset) (starts : List Nat) :
    (s :: starts).takeWhile (· ≤ offset) = s :: starts.takeWhile (· ≤ offset) := by
  simp [h]

/-- Exactly the first `n` lines start at or before the offset. A search by halves for the last of
them finds `n` when there is one such number. -/
def Splits (table : LineTable) (offset n : Nat) : Prop :=
  n ≤ table.lineCount ∧ (∀ s ∈ table.starts.take n, s ≤ offset) ∧
    ∀ s ∈ table.starts.drop n, offset < s

theorem Splits.takeWhile_starts {table : LineTable} {offset n : Nat} (h : table.Splits offset n) :
    table.starts.takeWhile (· ≤ offset) = table.starts.take n := by
  obtain ⟨-, hbegun, hlater⟩ := h
  conv_lhs => rw [← List.take_append_drop n table.starts]
  rw [List.takeWhile_append_of_pos (by simpa using hbegun)]
  cases hrest : table.starts.drop n with
  | nil => simp
  | cons s rest =>
    have hlt : offset < s := hlater s (by simp [hrest])
    simp [hlt]

/-- There is one such number at most, and it is the line of the offset. -/
theorem Splits.line_eq {table : LineTable} {offset n : Nat} (h : table.Splits offset n) :
    (table.position offset).line = n := by
  have hlength : (table.starts.take n).length = n := List.length_take_of_le h.1
  simp [position, h.takeWhile_starts, hlength]

/-- The lines after the first start one byte after each line feed. -/
theorem startsAfter_eq_idxsOf (pos : Nat) (t : Text) :
    startsAfter pos t = (bytes t).idxsOf Text.lineFeed (pos + 1) := by
  induction t generalizing pos with
  | nil => rfl
  | cons c t ih =>
    have hpos : pos + 1 + c.utf8Size = pos + c.utf8Size + 1 := by omega
    rw [startsAfter_cons, ih, Text.bytes_cons, List.idxsOf_append, String.length_utf8EncodeChar,
      hpos]
    congr 1
    by_cases hc : c = '\n'
    · rw [if_pos hc, hc]
      rfl
    · rw [if_neg hc, eq_comm, List.idxsOf_eq_nil_iff]
      intro b hb
      rw [beq_eq_false_iff_ne]
      rintro rfl
      exact Text.lineFeed_not_mem hc hb

/-- The starts of the lines that start at or before an offset. -/
def begunAt (t : Text) (offset : Nat) : List Nat :=
  0 :: ((bytes t).take offset).idxsOf Text.lineFeed 1

/-- The starts of the other lines. -/
def laterThan (t : Text) (offset : Nat) : List Nat :=
  ((bytes t).drop offset).idxsOf Text.lineFeed (1 + ((bytes t).take offset).length)

theorem starts_ofText (t : Text) (offset : Nat) :
    (ofText t).starts = begunAt t offset ++ laterThan t offset := by
  rw [ofText, startsAfter_eq_idxsOf, begunAt, laterThan, List.cons_append, ← List.idxsOf_append,
    List.take_append_drop]

theorem le_of_mem_begunAt {t : Text} {offset s : Nat} (h : s ∈ begunAt t offset) :
    s ≤ offset := by
  rcases List.mem_cons.1 h with rfl | h
  · exact Nat.zero_le offset
  · have hlt := List.lt_add_of_mem_idxsOf s h
    have := List.length_take_le offset (bytes t)
    omega

theorem lt_of_mem_laterThan {t : Text} {offset s : Nat} (h : s ∈ laterThan t offset) :
    offset < s := by
  obtain ⟨hle, hrest, -⟩ := List.mem_idxsOf_iff_getElem_sub_pos.1 h
  rw [List.length_drop] at hrest
  rw [List.length_take] at hle
  omega

theorem length_begunAt (t : Text) (offset : Nat) :
    (begunAt t offset).length = t.feedsBefore offset + 1 := by
  rw [begunAt, List.length_cons, List.length_idxsOf, Text.feedsBefore]

/-- The last of these lines starts after the last line feed. -/
theorem getLastD_begunAt (t : Text) (offset : Nat) :
    (begunAt t offset).getLastD 0 = t.lineStart offset := by
  unfold begunAt Text.lineStart
  induction (bytes t).take offset using List.reverseRecOn with
  | nil => rfl
  | append_singleton bs b ih =>
    rw [List.idxsOf_append, List.rdropWhile_concat]
    by_cases hfeed : b = Text.lineFeed
    · have hfirst : [b].idxsOf Text.lineFeed (1 + bs.length) = [1 + bs.length] := by simp [hfeed]
      rw [hfirst, ← List.cons_append, List.getLastD_concat]
      simp [hfeed, Nat.add_comm]
    · simpa [hfeed] using ih

theorem splits_feedsBefore (t : Text) (offset : Nat) :
    (ofText t).Splits offset (t.feedsBefore offset + 1) := by
  unfold Splits lineCount
  rw [starts_ofText t offset, ← length_begunAt, List.take_left, List.drop_left,
    List.length_append]
  exact ⟨Nat.le_add_right _ _, fun _ => le_of_mem_begunAt, fun _ => lt_of_mem_laterThan⟩

/-- The table gives the place by line feeds. -/
theorem position_ofText (t : Text) (offset : Nat) :
    (ofText t).position offset = .byFeeds t offset := by
  have hbegun : (ofText t).starts.takeWhile (· ≤ offset) = begunAt t offset := by
    rw [(splits_feedsBefore t offset).takeWhile_starts, starts_ofText t offset, ← length_begunAt,
      List.take_left]
  simp only [position, hbegun, length_begunAt, getLastD_begunAt, Position.byFeeds]

-- inside the character of two bytes, and behind the end
example : (ofText ['\n', 'é']).position 2 = ⟨2, 2, 2⟩ ∧
    (ofText ['\n', 'é']).position 9 = ⟨2, 9, 9⟩ := by decide

/-- A search for the last line start up to an offset has one answer. -/
theorem splits_ofText {t : Text} {offset n : Nat} :
    (ofText t).Splits offset n ↔ n = t.feedsBefore offset + 1 := by
  constructor
  · intro h
    rw [← h.line_eq, position_ofText]
    rfl
  · rintro rfl
    exact splits_feedsBefore t offset

/-- The line that a search finds starts after the last line feed before the offset. -/
theorem getElem?_starts_ofText (t : Text) (offset : Nat) :
    (ofText t).starts[t.feedsBefore offset]? = some (t.lineStart offset) := by
  have hlength := length_begunAt t offset
  rw [starts_ofText t offset, List.getElem?_append_left (by omega), ← getLastD_begunAt,
    List.getLastD_eq_getLast?, List.getLast?_eq_getElem?, hlength, Nat.add_sub_cancel,
    List.getElem?_eq_getElem (by omega), Option.getD_some]

/-- A larger offset has a later place. -/
theorem position_before_of_lt (t : Text) {i j : Nat} (h : i < j) :
    ((ofText t).position i).Before ((ofText t).position j) := by
  rw [position_ofText, position_ofText]
  exact Position.byFeeds_before_of_lt t h

/-- In 64 bits every offset but the largest has this place, and so has the largest one behind a line
feed. On the first line it has none, since its column does not fit. -/
theorem locate_ofText {t : Text} {offset : Nat} (h : offset < countLimit) :
    (ofText t).locate offset =
      if offset + 1 = countLimit ∧ t.lineStart offset = 0 then .error .overflow
      else .ok ((ofText t).position offset) := by
  have hle := t.lineStart_le offset
  unfold locate
  rw [position_ofText]
  unfold Position.byFeeds
  dsimp only
  by_cases hlargest : offset + 1 = countLimit ∧ t.lineStart offset = 0
  · rw [if_neg (by omega), if_pos hlargest]
  · rw [if_pos (by omega), if_neg hlargest]

/-- Not every offset of 64 bits has a place in them: the largest one has none in the empty text. -/
theorem not_locate_every :
    ¬∀ (t : Text) (offset : Nat), offset < countLimit →
      (ofText t).locate offset =
        .ok ⟨t.feedsBefore offset + 1, offset - t.lineStart offset + 1, offset⟩ := by
  intro hevery
  have hplace := hevery [] 18446744073709551615 (by decide)
  have hoverflow : (ofText []).locate 18446744073709551615 = .error .overflow := by decide
  rw [hoverflow] at hplace
  cases hplace

end LineTable

/-! ## The count through the text -/

namespace Point

/-- The count that starts at byte `pos` goes on from the rows before as the table does. -/
theorem inText_go_eq (offset : Nat) (rest : Text) (pos row rowStart : Nat) :
    inText.go offset rest pos row rowStart =
      let begun := (LineTable.startsAfter pos rest).takeWhile (· ≤ offset)
      ⟨row + begun.length, offset - begun.getLastD rowStart⟩ := by
  induction rest generalizing pos row rowStart with
  | nil => rfl
  | cons c rest ih =>
    rw [inText.go]
    split_ifs with hpos hc
    · -- every line that the rest starts lies behind the offset
      have hnone : (LineTable.startsAfter pos (c :: rest)).takeWhile (· ≤ offset) = [] := by
        rw [List.takeWhile_eq_nil_iff]
        intro hlength
        have := (LineTable.bounds_of_mem_startsAfter (List.get_mem _ ⟨0, hlength⟩)).1
        rw [decide_eq_true_eq]
        omega
      simp [hnone]
    · have hle : pos + 1 ≤ offset := by omega
      rw [ih, LineTable.startsAfter, if_pos hc, LineTable.takeWhile_cons hle]
      dsimp only
      rw [List.getLastD_cons, List.length_cons, Nat.add_assoc, Nat.add_comm 1]
    · rw [ih, LineTable.startsAfter, if_neg hc]

/-- The rows count the line feeds before an offset, and the columns the bytes since the last. -/
theorem inText_eq (t : Text) (offset : Nat) :
    inText t offset = ⟨t.feedsBefore offset, offset - t.lineStart offset⟩ := by
  have hposition : (inText t offset).position offset = (LineTable.ofText t).position offset := by
    rw [inText, inText_go_eq, LineTable.position, LineTable.ofText,
      LineTable.takeWhile_cons (Nat.zero_le offset), position]
    dsimp only
    rw [List.getLastD_cons, List.length_cons, Nat.zero_add]
  rw [LineTable.position_ofText, position, Position.byFeeds, Position.mk.injEq] at hposition
  obtain ⟨hrow, hcolumn, -⟩ := hposition
  exact congrArg₂ Point.mk (Nat.succ.inj hrow) (Nat.succ.inj hcolumn)

end Point

end Stylometry
