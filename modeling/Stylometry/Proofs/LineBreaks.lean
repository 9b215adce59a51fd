-- Lines and what ends them. A source is split into the lines that it was written from, whichever
-- line breaks stand after them, so its size tells the last line that is not empty and the longest
-- one.
import Mathlib.Data.List.DropRight
import Stylometry.Measure.Source
import Stylometry.Proofs.Parts

namespace Stylometry

/-- What ends a line. -/
inductive LineBreak where
  | lineFeed
  | carriageReturn
  /-- A carriage return and a line feed after it. -/
  | both
  deriving DecidableEq, Repr

def LineBreak.text : LineBreak → Text
  | .lineFeed => ['\n']
  | .carriageReturn => ['\r']
  | .both => ['\r', '\n']

/-- A line with what ends it. -/
structure EndedLine where
  line : Text
  ending : LineBreak
  deriving DecidableEq, Repr

namespace EndedLine

def text (l : EndedLine) : Text := l.line ++ l.ending.text

/-- The text of lines, one after the other. -/
def textOf (ls : List EndedLine) : Text := ls.flatMap text

end EndedLine

/-- No line break stands in the line. -/
def Unbroken (line : Text) : Prop := '\r' ∉ line ∧ '\n' ∉ line

instance : DecidablePred Unbroken := fun _ => inferInstanceAs (Decidable (_ ∧ _))

/-- The lines of a source with their line breaks. -/
structure SourceLines where
  ended : List EndedLine
  /-- The last line, when nothing ends it. -/
  last : Option Text
  deriving DecidableEq, Repr

namespace SourceLines

def lines (s : SourceLines) : List Text := s.ended.map EndedLine.line ++ s.last.toList

def text (s : SourceLines) : Text := EndedLine.textOf s.ended ++ s.last.getD []

/-- A carriage return that ends one line and a line feed that is all of the next one are not kept
apart in the text. -/
def Apart (a b : EndedLine) : Prop :=
  a.ending = .carriageReturn → b.line = [] → b.ending ≠ .lineFeed

instance : DecidableRel Apart := fun a b =>
  inferInstanceAs (Decidable (a.ending = .carriageReturn → b.line = [] → b.ending ≠ .lineFeed))

/-- The lines hold no line breaks, and no two line breaks run into one. -/
structure Legible (s : SourceLines) : Prop where
  unbroken : ∀ l ∈ s.lines, Unbroken l
  apart : s.ended.IsChain Apart

end SourceLines

/-! ## Splitting at line breaks -/

namespace Text

theorem splitBreaks_cons {c : Char} (hr : c ≠ '\r') (hn : c ≠ '\n') {t part : Text}
    {parts : List Text} (h : splitBreaks t = part :: parts) :
    splitBreaks (c :: t) = (c :: part) :: parts := by
  simp [splitBreaks, hr, h]

theorem splitBreaks_append {line : Text} (h : Unbroken line) {t : Text} {parts : List Text}
    (ht : splitBreaks t = [] :: parts) : splitBreaks (line ++ t) = line :: parts := by
  induction line with
  | nil => exact ht
  | cons c line ih =>
    obtain ⟨hr, hn⟩ := h
    simp only [List.mem_cons, not_or] at hr hn
    exact splitBreaks_cons (Ne.symm hr.1) (Ne.symm hn.1) (ih ⟨hr.2, hn.2⟩)

theorem splitBreaks_of_unbroken {line : Text} (h : Unbroken line) : splitBreaks line = [line] := by
  simpa using splitBreaks_append h (t := []) rfl

/-- A line break ends a part, unless it is a carriage return before a line feed. -/
theorem splitBreaks_break (b : LineBreak) {t : Text}
    (h : b = .carriageReturn → t.head? ≠ some '\n') :
    splitBreaks (b.text ++ t) = [] :: splitBreaks t := by
  cases b with
  | lineFeed => simp [LineBreak.text, splitBreaks]
  | both => simp [LineBreak.text, splitBreaks]
  | carriageReturn =>
    have hhead := h rfl
    cases t with
    | nil => simp [LineBreak.text, splitBreaks]
    | cons c t =>
      have hc : c ≠ '\n' := by simpa using hhead
      simp [LineBreak.text, splitBreaks, hc]

end Text

namespace SourceLines

/-- A text of lines starts with a line feed only where a line feed is all of the first line. -/
theorem head_of_textOf {l : EndedLine} {ls : List EndedLine} (h : Unbroken l.line) {last : Text}
    (hhead : (EndedLine.textOf (l :: ls) ++ last).head? = some '\n') :
    l.line = [] ∧ l.ending = .lineFeed := by
  obtain ⟨line, ending⟩ := l
  cases line with
  | nil => cases ending <;> simp [EndedLine.textOf, EndedLine.text, LineBreak.text] at hhead ⊢
  | cons c line =>
    simp [EndedLine.textOf, EndedLine.text] at hhead
    simp [Unbroken, hhead] at h

theorem splitBreaks_textOf {ls : List EndedLine} (hunbroken : ∀ l ∈ ls, Unbroken l.line)
    (hapart : ls.IsChain Apart) {last : Text} (hlast : Unbroken last) :
    Text.splitBreaks (EndedLine.textOf ls ++ last) = ls.map EndedLine.line ++ [last] := by
  induction ls with
  | nil => simpa [EndedLine.textOf] using Text.splitBreaks_of_unbroken hlast
  | cons l ls ih =>
    obtain ⟨hl, hls⟩ := List.forall_mem_cons.1 hunbroken
    -- the line break of this line does not run into one that is all of the next line
    have hhead : l.ending = .carriageReturn →
        (EndedLine.textOf ls ++ last).head? ≠ some '\n' := by
      intro hreturn hfeed
      cases ls with
      | nil => exact hlast.2 (List.mem_of_mem_head? hfeed)
      | cons m ls =>
        obtain ⟨hempty, hending⟩ := head_of_textOf (hls m (by simp)) hfeed
        exact (List.isChain_cons_cons.1 hapart).1 hreturn hempty hending
    have hbreak := Text.splitBreaks_break l.ending hhead
    have hline := Text.splitBreaks_append hl hbreak
    rw [ih hls (List.isChain_of_isChain_cons hapart)] at hline
    simpa [EndedLine.textOf, EndedLine.text] using hline

/-- The lines of a text, where a text that ends with a line break has an empty line after it. -/
theorem splitBreaks_text {s : SourceLines} (h : s.Legible) :
    Text.splitBreaks s.text = s.ended.map EndedLine.line ++ [s.last.getD []] := by
  apply splitBreaks_textOf
  · intro l hl
    exact h.unbroken _ (List.mem_append_left _ (List.mem_map_of_mem hl))
  · exact h.apart
  · cases hlast : s.last with
    | none => simp [Unbroken]
    | some last => exact h.unbroken last (by simp [lines, hlast])

end SourceLines

/-! ## Empty lines at the end -/

namespace Text

theorem dropTrailingEmpty_concat_nil (parts : List Text) :
    dropTrailingEmpty (parts ++ [[]]) = dropTrailingEmpty parts := by
  simp [dropTrailingEmpty]

theorem dropTrailingEmpty_append_replicate (parts : List Text) (n : Nat) :
    dropTrailingEmpty (parts ++ List.replicate n []) = dropTrailingEmpty parts := by
  induction n with
  | zero => simp
  | succ n ih => rw [List.replicate_succ', ← List.append_assoc, dropTrailingEmpty_concat_nil, ih]

/-- The lines up to the last one that is not empty, and empty lines after them. -/
theorem exists_dropTrailingEmpty (parts : List Text) :
    ∃ n, parts = dropTrailingEmpty parts ++ List.replicate n [] := by
  induction parts using List.reverseRecOn with
  | nil => exact ⟨0, rfl⟩
  | append_singleton parts part ih =>
    cases part with
    | nil =>
      obtain ⟨n, hn⟩ := ih
      refine ⟨n + 1, ?_⟩
      rw [dropTrailingEmpty_concat_nil, List.replicate_succ', ← List.append_assoc, ← hn]
    | cons c part => exact ⟨0, by simp [dropTrailingEmpty]⟩

theorem getLast_dropTrailingEmpty {parts : List Text} {part : Text}
    (h : (dropTrailingEmpty parts).getLast? = some part) : part ≠ [] := by
  have hdrop := List.head?_dropWhile_not List.isEmpty parts.reverse
  rw [dropTrailingEmpty, List.getLast?_reverse] at h
  rw [h] at hdrop
  simpa using hdrop

end Text

/-! ## The size of a source -/

/-- The size tells the last line that is not empty, counted from one, and the characters of the
longest line. Without such a line both are zero. -/
structure SizesLines (lines : List Text) (size : SourceSize) : Prop where
  no_later : ∀ (i : Nat) l, lines[i]? = some l → l ≠ [] → i + 1 ≤ size.lines
  filled : size.lines = 0 ∨ ∃ l, lines[size.lines - 1]? = some l ∧ l ≠ []
  no_longer : ∀ l ∈ lines, l.length ≤ size.longestLine
  reached : size.longestLine = 0 ∨ ∃ l ∈ lines, l.length = size.longestLine

theorem foldl_max_cases (ns : List Nat) :
    (∀ n ∈ ns, n ≤ ns.foldl max 0) ∧ (ns.foldl max 0 = 0 ∨ ns.foldl max 0 ∈ ns) := by
  rw [List.foldl_max]
  cases hmax : ns.max? with
  | none =>
    obtain rfl := List.max?_eq_none_iff.1 hmax
    simp
  | some m =>
    obtain ⟨hm, hle⟩ := List.max?_eq_some_iff.1 hmax
    simpa [hm] using hle

/-- The lines that are kept tell the size of all lines. -/
theorem sizesLines_dropTrailingEmpty (lines : List Text) :
    SizesLines lines ⟨(Text.dropTrailingEmpty lines).length,
      ((Text.dropTrailingEmpty lines).map List.length).foldl max 0⟩ := by
  obtain ⟨n, hn⟩ := Text.exists_dropTrailingEmpty lines
  obtain ⟨hle, hmem⟩ := foldl_max_cases ((Text.dropTrailingEmpty lines).map List.length)
  have hlast : ∀ l, (Text.dropTrailingEmpty lines).getLast? = some l → l ≠ [] :=
    fun l => Text.getLast_dropTrailingEmpty
  generalize Text.dropTrailingEmpty lines = kept at *
  subst hn
  constructor
  · intro i l hl hfilled
    by_contra hlate
    have hle : kept.length ≤ i := Nat.le_of_not_lt hlate
    rw [List.getElem?_append_right hle] at hl
    exact hfilled (List.eq_of_mem_replicate (List.mem_of_getElem? hl))
  · cases hkept : kept.getLast? with
    | none => simp [List.getLast?_eq_none_iff.1 hkept]
    | some l =>
      right
      have hlength : kept.length - 1 < kept.length := by
        have hpos := List.length_pos_of_mem (List.mem_of_getLast? hkept)
        omega
      refine ⟨l, ?_, hlast l hkept⟩
      rw [List.getElem?_append_left hlength, ← hkept, List.getLast?_eq_getElem?]
  · intro l hl
    rcases List.mem_append.1 hl with hl | hl
    · exact hle _ (List.mem_map_of_mem hl)
    · simp [List.eq_of_mem_replicate hl]
  · rcases hmem with hzero | hmem
    · exact .inl hzero
    · obtain ⟨l, hl, hlength⟩ := List.mem_map.1 hmem
      exact .inr ⟨l, List.mem_append_left _ hl, hlength⟩

namespace SourceLines

theorem ofText_text {s : SourceLines} (h : s.Legible) :
    SourceSize.ofText s.text = ⟨(Text.dropTrailingEmpty s.lines).length,
      ((Text.dropTrailingEmpty s.lines).map List.length).foldl max 0⟩ := by
  have hlines : Text.dropTrailingEmpty (Text.splitBreaks s.text) =
      Text.dropTrailingEmpty s.lines := by
    rw [splitBreaks_text h, lines]
    cases s.last with
    | none => simp [Text.dropTrailingEmpty_concat_nil]
    | some last => simp
  rw [SourceSize.ofText, hlines]

end SourceLines

/-- The size of a text that is written from lines tells the last line that is not empty and the
longest one, whichever line breaks it is written with. So it is the same for every way to end the
lines, and for empty lines that follow them. -/
theorem SourceSize.sizesLines_of_text :
    (∀ s : SourceLines, s.Legible → SizesLines s.lines (SourceSize.ofText s.text)) ∧
    ∀ s s' : SourceLines, s.Legible → s'.Legible →
      ∀ n, s'.lines = s.lines ++ List.replicate n [] →
        SourceSize.ofText s'.text = SourceSize.ofText s.text := by
  constructor
  · intro s hs
    rw [SourceLines.ofText_text hs]
    exact sizesLines_dropTrailingEmpty s.lines
  · intro s s' hs hs' n hlines
    rw [SourceLines.ofText_text hs, SourceLines.ofText_text hs', hlines,
      Text.dropTrailingEmpty_append_replicate]

/-- Lines with all kinds of line breaks, and empty lines inside and at the end. -/
def mixedBreaks : SourceLines where
  ended := [⟨"int a;".toList, .both⟩, ⟨[], .carriageReturn⟩, ⟨[], .both⟩,
    ⟨"int ccc;".toList, .carriageReturn⟩, ⟨[], .carriageReturn⟩]
  last := none

/-- The same lines with line feeds only, and one line without a line break. -/
def plainBreaks : SourceLines where
  ended := [⟨"int a;".toList, .lineFeed⟩, ⟨[], .lineFeed⟩, ⟨[], .lineFeed⟩]
  last := some "int ccc;".toList

theorem sizesLines_of_mixedBreaks :
    SizesLines mixedBreaks.lines (SourceSize.ofText mixedBreaks.text) ∧
      SourceSize.ofText mixedBreaks.text = SourceSize.ofText plainBreaks.text := by
  have hmixed : mixedBreaks.Legible := ⟨by decide, by decide⟩
  have hplain : plainBreaks.Legible := ⟨by decide, by decide⟩
  obtain ⟨hsize, hsame⟩ := SourceSize.sizesLines_of_text
  exact ⟨hsize mixedBreaks hmixed, hsame plainBreaks mixedBreaks hplain hmixed 1 rfl⟩

example : SourceSize.ofText "int a;\r\n\r\r\nint ccc;\r\r".toList = ⟨4, 8⟩ := by decide

end Stylometry
