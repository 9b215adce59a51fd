-- Lines of several files in one listing. A line marker names the file that the lines after it come
-- from, and only the lines of the source are kept, whatever the names and flags of the markers hold.
import Stylometry.Expansion
import Stylometry.Proofs.LineBreaks

namespace Stylometry

/-! ## Lines of a listing -/

namespace EndedLine

/-- What stands before the line feed of a line. -/
def front (l : EndedLine) : Text := if l.ending = .both then l.line ++ ['\r'] else l.line

theorem text_eq_front {l : EndedLine} (h : l.ending ≠ .carriageReturn) :
    l.text = l.front ++ ['\n'] := by
  obtain ⟨line, ending⟩ := l
  cases ending <;> simp_all [text, front, LineBreak.text]

theorem not_mem_front {l : EndedLine} (h : '\n' ∉ l.line) : '\n' ∉ l.front := by
  unfold front
  split <;> simp [h]

theorem splitOn_textOf {ls : List EndedLine}
    (h : ∀ l ∈ ls, '\n' ∉ l.line ∧ l.ending ≠ .carriageReturn) :
    Text.splitOn '\n' (textOf ls) = ls.map front ++ [[]] := by
  induction ls with
  | nil => simp [textOf, Text.splitOn]
  | cons l ls ih =>
    obtain ⟨⟨hline, hending⟩, hls⟩ := List.forall_mem_cons.1 h
    have htext : textOf (l :: ls) = l.front ++ '\n' :: textOf ls := by
      simp [textOf, text_eq_front hending]
    rw [htext, Text.splitOn_append, Text.splitOn_of_not_mem (not_mem_front hline), ih hls]
    simp

/-- The lines of a listing are read without what ends them. -/
theorem lines_textOf {ls : List EndedLine}
    (h : ∀ l ∈ ls, '\n' ∉ l.line ∧ l.ending ≠ .carriageReturn) :
    Text.lines (textOf ls) = ls.map fun l => Text.dropReturn l.front := by
  unfold Text.lines
  rw [splitOn_textOf h]
  simp [Function.comp_def]

theorem dropReturn_front {l : EndedLine} (h : '\r' ∉ l.line) : Text.dropReturn l.front = l.line := by
  unfold Text.dropReturn front
  by_cases hending : l.ending = .both
  · simp [hending]
  · have hlast : l.line.getLast? ≠ some '\r' := fun hlast => h (List.mem_of_getLast? hlast)
    simp [hending, hlast]

/-- Lines with a line feed after each of them are read back. -/
theorem lines_flatMap_lineFeed {ls : List Text} (h : ∀ line ∈ ls, Unbroken line) :
    Text.lines (ls.flatMap (· ++ ['\n'])) = ls := by
  have htext : ls.flatMap (· ++ ['\n']) = textOf (ls.map fun line => ⟨line, .lineFeed⟩) := by
    simp [textOf, text, LineBreak.text, List.flatMap_map]
  have hreadable : ∀ l ∈ ls.map fun line => EndedLine.mk line .lineFeed,
      '\n' ∉ l.line ∧ l.ending ≠ .carriageReturn := by
    intro l hl
    obtain ⟨line, hline, rfl⟩ := List.mem_map.1 hl
    exact ⟨(h line hline).2, by simp⟩
  rw [htext, lines_textOf hreadable, List.map_map]
  calc
    _ = ls.map id := List.map_congr_left fun line hline => dropReturn_front (h line hline).1
    _ = ls := List.map_id ls

end EndedLine

namespace Expansion

/-- A line that is no marker, with a line feed at its end. -/
structure IsCode (l : EndedLine) : Prop where
  unbroken : Unbroken l.line
  unmarked : l.line.head? ≠ some '#'
  ending : l.ending ≠ .carriageReturn

instance : DecidablePred IsCode := fun l =>
  decidable_of_iff (Unbroken l.line ∧ l.line.head? ≠ some '#' ∧ l.ending ≠ .carriageReturn)
    ⟨fun ⟨hu, hm, he⟩ => ⟨hu, hm, he⟩, fun h => ⟨h.unbroken, h.unmarked, h.ending⟩⟩

/-! ## Line markers -/

/-- A name with a backslash before each quote and each backslash. -/
def escape (name : Text) : Text :=
  name.flatMap fun c => if c = '"' ∨ c = '\\' then ['\\', c] else [c]

/-- A line marker and the lines of the file that it names. -/
structure Segment where
  number : Text
  name : Text
  /-- What follows the quote after the name. -/
  flags : Text
  ending : LineBreak
  lines : List EndedLine

namespace Segment

/-- The line marker up to the quote after the name. -/
def stem (s : Segment) : Text :=
  "# ".toList ++ s.number ++ " \"".toList ++ escape s.name ++ ['"']

def marker (s : Segment) : Text := s.stem ++ s.flags

def endedLines (s : Segment) : List EndedLine := ⟨s.marker, s.ending⟩ :: s.lines

/-- The number is decimal, the marker is one line, and the lines are no markers. -/
structure Legible (s : Segment) : Prop where
  numbered : s.number ≠ []
  decimal : s.number.all Text.isDecimal = true
  name : '\n' ∉ s.name
  flags : '\n' ∉ s.flags
  ending : s.ending ≠ .carriageReturn
  lines : ∀ l ∈ s.lines, IsCode l

instance : DecidablePred Legible := fun s =>
  decidable_of_iff (s.number ≠ [] ∧ s.number.all Text.isDecimal = true ∧ '\n' ∉ s.name ∧
      '\n' ∉ s.flags ∧ s.ending ≠ .carriageReturn ∧ ∀ l ∈ s.lines, IsCode l)
    ⟨fun ⟨hn, hd, hname, hf, he, hl⟩ => ⟨hn, hd, hname, hf, he, hl⟩,
      fun h => ⟨h.numbered, h.decimal, h.name, h.flags, h.ending, h.lines⟩⟩

end Segment

theorem not_isBlank_of_isDecimal {c : Char} (h : Text.isDecimal c = true) :
    Text.isBlank c = false := by
  have hapart : ∀ d ∈ Text.decimalRanges, ∀ b ∈ Text.blankRanges, d.2 < b.1 ∨ b.2 < d.1 := by
    decide +kernel
  unfold Text.isDecimal Text.inRanges at h
  unfold Text.isBlank Text.inRanges
  simp only [List.any_eq_true, Bool.and_eq_true, decide_eq_true_eq] at h
  obtain ⟨d, hd, hfirst, hlast⟩ := h
  simp only [List.any_eq_false, Bool.and_eq_true, decide_eq_true_eq]
  rintro b hb ⟨hlow, hhigh⟩
  have := hapart d hd b hb
  omega

/-- The name is read up to its quote, with the backslashes in it. -/
theorem upToQuote?_escape (name rest : Text) :
    upToQuote? (escape name ++ '"' :: rest) = some (escape name) := by
  induction name with
  | nil => simp [escape, upToQuote?]
  | cons c name ih =>
    unfold escape at ih ⊢
    by_cases hquote : c = '"'
    · simp [hquote, upToQuote?, ih]
    · by_cases hslash : c = '\\'
      · simp [hslash, upToQuote?, ih]
      · simp [hquote, hslash, upToQuote?, ih]

/-- A name in which nothing is escaped is written as it is. -/
theorem escape_eq_self {name : Text} (h : '\\' ∉ escape name) : escape name = name := by
  induction name with
  | nil => simp [escape]
  | cons c name ih =>
    unfold escape at ih h ⊢
    by_cases hc : c = '"' ∨ c = '\\'
    · simp [hc] at h
    · simp only [List.flatMap_cons, if_neg hc, List.singleton_append, List.mem_cons, not_or] at h ⊢
      rw [ih h.2]

theorem escape_eq_sourceName {name : Text} : escape name = sourceName ↔ name = sourceName := by
  constructor
  · intro h
    have hplain : '\\' ∉ escape name := by
      rw [h]
      decide
    rw [← h, escape_eq_self hplain]
  · rintro rfl
    decide

/-- A marker names its file with backslashes in the name, whatever its flags are. -/
theorem markedName?_stem {s : Segment} (h : s.Legible) (flags : Text) :
    markedName? (s.stem ++ flags) = some (escape s.name) := by
  obtain ⟨d, ds, hnumber⟩ := List.exists_cons_of_ne_nil h.numbered
  have hdecimal : ∀ c ∈ s.number, Text.isDecimal c = true := List.all_eq_true.1 h.decimal
  have hd : Text.isDecimal d = true := hdecimal d (by simp [hnumber])
  have hblank : Text.isBlank d = false := not_isBlank_of_isDecimal hd
  have hletter : d ≠ 'l' := by
    rintro rfl
    revert hd
    decide
  have hspace : Text.isBlank ' ' = true ∧ Text.isDecimal ' ' = false := by decide
  have hquote : Text.isBlank '"' = false := by decide
  have hstem : s.stem ++ flags =
      '#' :: ' ' :: (s.number ++ ' ' :: '"' :: (escape s.name ++ '"' :: flags)) := by
    simp [Segment.stem]
  have hstart : ∀ t, (' ' :: (s.number ++ t)).dropWhile Text.isBlank = s.number ++ t := by
    simp [hnumber, hspace, hblank]
  have hword : ∀ t, Text.stripStart? "line".toList (s.number ++ t) = none := by
    simp [hnumber, Text.stripStart?, hletter.symm]
  have htake : ∀ t, (s.number ++ ' ' :: t).takeWhile Text.isDecimal = s.number := by
    intro t
    rw [List.takeWhile_append_of_pos hdecimal]
    simp [hspace]
  have hdrop : ∀ t, (s.number ++ ' ' :: t).dropWhile Text.isDecimal = ' ' :: t := by
    intro t
    rw [List.dropWhile_append_of_pos hdecimal]
    simp [hspace]
  have hgap : ∀ t, afterBlanks? (' ' :: '"' :: t) = some ('"' :: t) := by
    simp [afterBlanks?, hspace, hquote]
  have hfilled : s.number.isEmpty = false := by simp [hnumber]
  rw [hstem]
  simp only [markedName?, hstart, hword, htake, hdrop, hfilled, hgap, Option.bind_eq_bind,
    Option.bind_some]
  exact upToQuote?_escape s.name flags

/-! ## Lines that are kept -/

theorem markedName?_of_unmarked {line : Text} (h : line.head? ≠ some '#') :
    markedName? line = none := by
  cases line with
  | nil => rfl
  | cons c line =>
    have hc : c ≠ '#' := by simpa using h
    unfold markedName?
    split
    · next heq => exact absurd (List.cons.inj heq).1 hc
    · rfl

theorem sourceLines_marker {line name : Text} (h : markedName? line = some name) (b : Bool)
    (rest : List Text) :
    sourceLines b (line :: rest) = sourceLines (name = sourceName) rest := by
  simp [sourceLines, h]

/-- Lines that are no markers are kept or not as the marker before them says. -/
theorem sourceLines_append {ls : List Text} (h : ∀ line ∈ ls, line.head? ≠ some '#') (b : Bool)
    (rest : List Text) :
    sourceLines b (ls ++ rest) = (if b then ls else []) ++ sourceLines b rest := by
  induction ls with
  | nil => simp
  | cons line ls ih =>
    obtain ⟨hline, hls⟩ := List.forall_mem_cons.1 h
    cases b <;> simp [sourceLines, markedName?_of_unmarked hline, ih hls]

namespace Segment

/-- The lines as they are read. -/
def shown (s : Segment) : List Text := s.endedLines.map fun l => Text.dropReturn l.front

/-- The lines that come from the source. -/
def kept (s : Segment) : List Text :=
  if s.name = sourceName then s.lines.map EndedLine.line else []

end Segment

theorem plain_of_mem_map {ls : List EndedLine} (h : ∀ l ∈ ls, IsCode l) {line : Text}
    (hline : line ∈ ls.map EndedLine.line) : Unbroken line ∧ line.head? ≠ some '#' := by
  obtain ⟨l, hl, rfl⟩ := List.mem_map.1 hline
  exact ⟨(h l hl).unbroken, (h l hl).unmarked⟩

theorem map_dropReturn_front {ls : List EndedLine} (h : ∀ l ∈ ls, IsCode l) :
    ls.map (fun l => Text.dropReturn l.front) = ls.map EndedLine.line := by
  apply List.map_congr_left
  intro l hl
  exact EndedLine.dropReturn_front (h l hl).unbroken.1

theorem dropReturn_append {t : Text} (h : t.getLast? = some '"') (rest : Text) :
    ∃ rest', Text.dropReturn (t ++ rest) = t ++ rest' := by
  unfold Text.dropReturn
  split
  · next hlast =>
    cases rest with
    | nil => simp [h] at hlast
    | cons c rest => exact ⟨_, List.dropLast_append_of_ne_nil (List.cons_ne_nil c rest)⟩
  · exact ⟨rest, rfl⟩

/-- The marker of a segment decides on its lines, and the next segments on theirs. -/
theorem sourceLines_shown {s : Segment} (h : s.Legible) (b : Bool) (rest : List Text) :
    sourceLines b (s.shown ++ rest) = s.kept ++ sourceLines (s.name = sourceName) rest := by
  have hlast : s.stem.getLast? = some '"' := List.getLast?_concat
  -- a carriage return at the end of the marker is taken from its flags and never from its name
  have hfront : ∃ rest', EndedLine.front ⟨s.marker, s.ending⟩ = s.stem ++ rest' := by
    unfold EndedLine.front Segment.marker
    split
    · exact ⟨s.flags ++ ['\r'], by simp⟩
    · exact ⟨s.flags, rfl⟩
  obtain ⟨rest', hrest'⟩ := hfront
  obtain ⟨flags, hflags⟩ := dropReturn_append hlast rest'
  have hlines : ∀ line ∈ s.lines.map EndedLine.line, line.head? ≠ some '#' :=
    fun _ hline => (plain_of_mem_map h.lines hline).2
  unfold Segment.shown Segment.endedLines Segment.kept
  rw [List.map_cons, map_dropReturn_front h.lines, hrest', hflags, List.cons_append,
    sourceLines_marker (markedName?_stem h flags), sourceLines_append hlines]
  simp [escape_eq_sourceName]

theorem sourceLines_flatMap_shown {segments : List Segment} (h : ∀ s ∈ segments, s.Legible)
    (b : Bool) : sourceLines b (segments.flatMap Segment.shown) = segments.flatMap Segment.kept := by
  induction segments generalizing b with
  | nil => simp [sourceLines]
  | cons s segments ih =>
    obtain ⟨hs, hsegments⟩ := List.forall_mem_cons.1 h
    rw [List.flatMap_cons, sourceLines_shown hs, ih hsegments, List.flatMap_cons]

/-! ## Listings -/

/-- A listing of lines of the source, with the lines of other files between them. -/
def listing (leading : List EndedLine) (segments : List Segment) : Text :=
  EndedLine.textOf (leading ++ segments.flatMap Segment.endedLines)

/-- The lines before the first marker and the lines of the source after markers. -/
def keptLines (leading : List EndedLine) (segments : List Segment) : List Text :=
  leading.map EndedLine.line ++ segments.flatMap Segment.kept

theorem IsCode.readable {l : EndedLine} (h : IsCode l) :
    '\n' ∉ l.line ∧ l.ending ≠ .carriageReturn :=
  ⟨h.unbroken.2, h.ending⟩

theorem Segment.Legible.not_mem_marker {s : Segment} (h : s.Legible) : '\n' ∉ s.marker := by
  have hnumber : '\n' ∉ s.number := by
    intro hmem
    have hdecimal := List.all_eq_true.1 h.decimal _ hmem
    revert hdecimal
    decide
  have hname : '\n' ∉ escape s.name := by
    unfold escape
    rw [List.mem_flatMap]
    rintro ⟨c, hc, hmem⟩
    split at hmem
    · next hescaped => rcases hescaped with rfl | rfl <;> simp at hmem
    · simp only [List.mem_singleton] at hmem
      exact h.name (hmem ▸ hc)
  simp [marker, stem, hnumber, hname, h.flags]

theorem Segment.Legible.readable {s : Segment} (h : s.Legible) :
    ∀ l ∈ s.endedLines, '\n' ∉ l.line ∧ l.ending ≠ .carriageReturn := by
  intro l hl
  rcases List.mem_cons.1 hl with rfl | hl
  · exact ⟨h.not_mem_marker, h.ending⟩
  · exact (h.lines l hl).readable

theorem lines_listing {leading : List EndedLine} {segments : List Segment}
    (hleading : ∀ l ∈ leading, IsCode l) (hsegments : ∀ s ∈ segments, s.Legible) :
    Text.lines (listing leading segments) =
      leading.map EndedLine.line ++ segments.flatMap Segment.shown := by
  have hreadable : ∀ l ∈ leading ++ segments.flatMap Segment.endedLines,
      '\n' ∉ l.line ∧ l.ending ≠ .carriageReturn := by
    intro l hl
    rcases List.mem_append.1 hl with hl | hl
    · exact (hleading l hl).readable
    · obtain ⟨s, hs, hl⟩ := List.mem_flatMap.1 hl
      exact (hsegments s hs).readable l hl
  rw [listing, EndedLine.lines_textOf hreadable, List.map_append, map_dropReturn_front hleading,
    List.map_flatMap]
  rfl

/-- The lines that are kept are lines without line breaks and no markers. -/
theorem plain_of_mem_keptLines {leading : List EndedLine} {segments : List Segment}
    (hleading : ∀ l ∈ leading, IsCode l) (hsegments : ∀ s ∈ segments, s.Legible) {line : Text}
    (h : line ∈ keptLines leading segments) : Unbroken line ∧ line.head? ≠ some '#' := by
  rcases List.mem_append.1 h with h | h
  · exact plain_of_mem_map hleading h
  · obtain ⟨s, hs, h⟩ := List.mem_flatMap.1 h
    unfold Segment.kept at h
    split at h
    · exact plain_of_mem_map (hsegments s hs).lines h
    · simp at h

/-- Of a listing only the lines before the first marker and the lines after markers with the name of
the source are kept, in their order and each with one line feed. No marker is kept. -/
theorem keepSource_of_listing {leading : List EndedLine} {segments : List Segment}
    (hleading : ∀ l ∈ leading, IsCode l) (hsegments : ∀ s ∈ segments, s.Legible) :
    keepSource (listing leading segments) =
        (keptLines leading segments).flatMap (· ++ ['\n']) ∧
      Text.lines (keepSource (listing leading segments)) = keptLines leading segments ∧
      ∀ line ∈ keptLines leading segments, markedName? line = none := by
  have hunmarked : ∀ line ∈ leading.map EndedLine.line, line.head? ≠ some '#' :=
    fun _ hline => (plain_of_mem_map hleading hline).2
  have hkept : keepSource (listing leading segments) =
      (keptLines leading segments).flatMap (· ++ ['\n']) := by
    rw [keepSource, lines_listing hleading hsegments, sourceLines_append hunmarked,
      sourceLines_flatMap_shown hsegments]
    rfl
  have hplain : ∀ line ∈ keptLines leading segments, Unbroken line ∧ line.head? ≠ some '#' :=
    fun _ hline => plain_of_mem_keptLines hleading hsegments hline
  refine ⟨hkept, ?_, ?_⟩
  · rw [hkept]
    exact EndedLine.lines_flatMap_lineFeed fun line hline => (hplain line hline).1
  · intro line hline
    exact markedName?_of_unmarked (hplain line hline).2

/-- A file whose name and flags hold quotes, a backslash and the name of the source. -/
def includedFile : Segment where
  number := "1".toList
  name := "a\"<stdin>\"\\b.h".toList
  flags := " 1 \"<stdin>\"".toList
  ending := .both
  lines := [⟨"int f();".toList, .lineFeed⟩]

/-- The source after the file. -/
def sourceFile : Segment where
  number := "012".toList
  name := sourceName
  flags := " 2".toList
  ending := .lineFeed
  lines := [⟨"int a;".toList, .both⟩, ⟨[], .lineFeed⟩]

theorem keepSource_of_includedFile :
    keepSource (listing [⟨"int x;".toList, .both⟩] [includedFile, sourceFile, includedFile]) =
      "int x;\nint a;\n\n".toList := by
  have hleading : ∀ l ∈ [EndedLine.mk "int x;".toList .both], IsCode l := by decide
  have hsegments : ∀ s ∈ [includedFile, sourceFile, includedFile], s.Legible := by decide +kernel
  rw [(keepSource_of_listing hleading hsegments).1]
  decide

end Expansion
end Stylometry
