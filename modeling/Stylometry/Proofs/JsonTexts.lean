-- Data that is written in JSON and read again. Data of strings, lists and tables comes back as it
-- was, on one line or on many: the tokens of a written text follow the data, and the reader takes
-- the data from its tokens.
import Stylometry.Json.Reader
import Stylometry.Json.Writer

namespace Stylometry.Json

/-! ## Strings -/

/-- How a character is written inside a string: by a letter, by four digits or as it is. -/
theorem escapeChar_cases (c : Char) :
    (∃ letter, escapeChar c = ['\\', letter] ∧ letter ≠ 'u' ∧
        shortEscapes.lookup letter = some c) ∨
      (∃ a b, escapeChar c = ['\\', 'u', '0', '0', a, b] ∧
        (∀ d ∈ [a, b], d ≠ '"' ∧ d ≠ '\\' ∧ ¬d < ' ') ∧
        Text.natInBase? 16 ['0', '0', a, b] = some c.toNat) ∨
      escapeChar c = [c] ∧ c ≠ '"' ∧ c ≠ '\\' ∧ ¬c < ' ' := by
  have hletters : ∀ e ∈ letterEscapes, e.2 ≠ 'u' ∧ shortEscapes.lookup e.2 = some e.1 := by decide
  have hbytes : ∀ n < 32,
      (Text.hexOfByte n).all (fun d => d ≠ '"' ∧ d ≠ '\\' ∧ ¬d < ' ') = true ∧
        Text.natInBase? 16 ('0' :: '0' :: Text.hexOfByte n) = some n := by decide +kernel
  unfold escapeChar
  cases hlookup : letterEscapes.lookup c with
  | some letter =>
    obtain ⟨front, back, hsplit, -⟩ := List.lookup_eq_some_iff.1 hlookup
    have hmem : (c, letter) ∈ letterEscapes := by
      rw [hsplit]
      exact List.mem_append_right _ (List.mem_cons_self ..)
    exact .inl ⟨letter, rfl, hletters _ hmem⟩
  | none =>
    have hnot : ∀ e ∈ letterEscapes, e.1 ≠ c := by
      intro e he heq
      have := List.lookup_eq_none_iff.1 hlookup e he
      simp [heq] at this
    dsimp only
    split
    · rename_i hcontrol
      obtain ⟨hplain, hvalue⟩ := hbytes c.toNat hcontrol
      refine .inr (.inl ⟨_, _, rfl, fun d hd => ?_, hvalue⟩)
      exact of_decide_eq_true (List.all_eq_true.1 hplain d hd)
    · rename_i hcontrol
      exact .inr (.inr ⟨rfl, fun h => hnot ('"', '"') (by decide) h.symm,
        fun h => hnot ('\\', '\\') (by decide) h.symm, hcontrol⟩)

theorem rawString?_plain {c : Char} (h : c ≠ '"' ∧ c ≠ '\\' ∧ ¬c < ' ') (t : Text) :
    rawString? (c :: t) = (rawString? t).map fun (raw, rest) => (c :: raw, rest) := by
  obtain ⟨hquote, hslash, hcontrol⟩ := h
  rw [rawString?]
  · rw [if_neg hcontrol]
  · exact hquote
  · exact fun d u hc => absurd hc hslash

theorem rawString?_escapeChar (c : Char) (t : Text) :
    rawString? (escapeChar c ++ t) =
      (rawString? t).map fun (raw, rest) => (escapeChar c ++ raw, rest) := by
  rcases escapeChar_cases c with ⟨letter, heq, -⟩ | ⟨a, b, heq, hplain, -⟩ | ⟨heq, hplain⟩
  · rw [heq]
    exact rawString?.eq_3 ..
  · have hzero : '0' ≠ '"' ∧ '0' ≠ '\\' ∧ ¬ '0' < ' ' := by decide
    have hunit : rawString? ('\\' :: 'u' :: '0' :: '0' :: a :: b :: t) =
        (rawString? ('0' :: '0' :: a :: b :: t)).map
          fun (raw, rest) => ('\\' :: 'u' :: raw, rest) := rawString?.eq_3 ..
    rw [heq]
    simp only [List.cons_append, List.nil_append]
    rw [hunit, rawString?_plain hzero, rawString?_plain hzero,
      rawString?_plain (hplain a (by simp)), rawString?_plain (hplain b (by simp))]
    simp only [Option.map_map]
    rfl
  · rw [heq]
    exact rawString?_plain hplain t

/-- A string ends at its closing quote. -/
theorem rawString?_quoted (s rest : Text) :
    rawString? (s.flatMap escapeChar ++ '"' :: rest) = some (s.flatMap escapeChar, rest) := by
  induction s with
  | nil => exact rawString?.eq_2 rest
  | cons c s ih =>
    rw [List.flatMap_cons, List.append_assoc, rawString?_escapeChar, ih]
    rfl

theorem unitsOfRaw?_escapeChar (c : Char) (t : Text) :
    unitsOfRaw? (escapeChar c ++ t) = (unitsOfRaw? t).map (c.toNat :: ·) := by
  rcases escapeChar_cases c with
    ⟨letter, heq, hu, hlookup⟩ | ⟨a, b, heq, -, hunit⟩ | ⟨heq, -, hslash, -⟩
  · rw [heq]
    simp only [List.cons_append, List.nil_append]
    rw [unitsOfRaw?]
    · rw [hlookup]
      cases unitsOfRaw? t <;> rfl
    · intro a b c d u hletter
      exact absurd hletter hu
  · rw [heq]
    simp only [List.cons_append, List.nil_append]
    rw [unitsOfRaw?, hunit]
    cases unitsOfRaw? t <;> rfl
  · rw [heq]
    simp only [List.cons_append, List.nil_append]
    rw [unitsOfRaw?]
    · rw [if_neg hslash]
      cases unitsOfRaw? t <;> rfl
    · exact fun a b d e u hc => absurd hc hslash
    · exact fun d u hc => absurd hc hslash

theorem unitsOfRaw?_flatMap (s : Text) :
    unitsOfRaw? (s.flatMap escapeChar) = some (s.map Char.toNat) := by
  induction s with
  | nil => rfl
  | cons c s ih =>
    rw [List.flatMap_cons, unitsOfRaw?_escapeChar, ih]
    rfl

theorem charsOfUnits?_toNat (s : Text) : charsOfUnits? (s.map Char.toNat) = some s := by
  induction s with
  | nil => rfl
  | cons c s ih =>
    obtain ⟨hlead, htrail⟩ := Encoding.not_half c
    cases s with
    | nil => simp [charsOfUnits?, hlead, htrail]
    | cons d s =>
      rw [List.map_cons] at ih
      simp [charsOfUnits?, hlead, htrail, ih]

theorem token?_quoted (s rest : Text) :
    token? (quoted s ++ rest) = some (.scalar (.string s), rest) := by
  have hraw : stringDatum? (s.flatMap escapeChar) = some (.string s) := by
    rw [stringDatum?, unitsOfRaw?_flatMap, Option.map_some, charsOfUnits?_toNat]
  have hquoted : quoted s ++ rest = '"' :: (s.flatMap escapeChar ++ '"' :: rest) := by
    simp [quoted]
  rw [hquoted, token?, rawString?_quoted]
  simp [hraw]

/-! ## Tokens -/

theorem tokens?_blank {c : Char} (h : isBlank c = true) (rounds : Nat) (t : Text) :
    tokens? rounds (c :: t) = tokens? rounds t := by
  have hdrop : (c :: t).dropWhile isBlank = t.dropWhile isBlank := List.dropWhile_cons_of_pos h
  unfold tokens?
  rw [hdrop]

theorem tokens?_succ {c : Char} (h : isBlank c = false) (rounds : Nat) (t : Text) :
    tokens? (rounds + 1) (c :: t) = (token? (c :: t)).bind fun (token, rest) =>
      (tokens? rounds rest).map (token :: ·) := by
  have hdrop : (c :: t).dropWhile isBlank = c :: t := List.dropWhile_cons_of_neg (by simp [h])
  rw [tokens?.eq_def, hdrop]
  dsimp only
  cases token? (c :: t) with
  | none => rfl
  | some found =>
    obtain ⟨token, rest⟩ := found
    simp only [Option.bind_eq_bind, Option.bind_some]
    cases tokens? rounds rest <;> rfl

/-- The text is cut into the tokens, whatever follows it. -/
structure Reads (t : Text) (ts : List JsonToken) : Prop where
  length : ts.length ≤ t.length
  tokens : ∀ rounds rest,
    tokens? (rounds + ts.length) (t ++ rest) = (tokens? rounds rest).map (ts ++ ·)

namespace Reads

theorem blanks {t : Text} (h : ∀ c ∈ t, isBlank c = true) : Reads t [] where
  length := Nat.zero_le _
  tokens rounds rest := by
    induction t with
    | nil => simp
    | cons c t ih =>
      obtain ⟨hc, ht⟩ := List.forall_mem_cons.1 h
      rw [List.cons_append, tokens?_blank hc]
      exact ih ht

theorem append {t u : Text} {ts us : List JsonToken} (ht : Reads t ts) (hu : Reads u us) :
    Reads (t ++ u) (ts ++ us) where
  length := by
    have := ht.length
    have := hu.length
    simp only [List.length_append]
    omega
  tokens rounds rest := by
    have hrounds : rounds + (ts ++ us).length = rounds + us.length + ts.length := by
      simp only [List.length_append]
      omega
    rw [hrounds, List.append_assoc, ht.tokens, hu.tokens, Option.map_map]
    simp only [Function.comp_def, List.append_assoc]

/-- A text that is one token wherever it stands. -/
theorem one {c : Char} {t : Text} {token : JsonToken} (hc : isBlank c = false)
    (h : ∀ rest, token? (c :: t ++ rest) = some (token, rest)) : Reads (c :: t) [token] where
  length := Nat.succ_le_succ (Nat.zero_le _)
  tokens rounds rest := by
    have htoken := h rest
    rw [List.cons_append] at htoken ⊢
    rw [List.length_singleton, tokens?_succ hc, htoken]
    rfl

theorem mark {c : Char} {token : JsonToken} (hc : isBlank c = false ∧ c ≠ '"')
    (h : markToken? c = some token) : Reads [c] [token] := by
  refine one hc.1 fun rest => ?_
  rw [List.singleton_append, token?]
  · simp only [h]
  · exact hc.2

theorem string (s : Text) : Reads (quoted s) [.scalar (.string s)] :=
  one (by decide) fun rest => token?_quoted s rest

end Reads

/-! ## Data -/

/-- Data of strings, lists and tables only. -/
inductive Textual : Datum → Prop
  | string (s : Text) : Textual (.string s)
  | list {items : List Datum} : (∀ d ∈ items, Textual d) → Textual (.list items)
  | table {fields : List (Text × Datum)} : (∀ f ∈ fields, Textual f.2) → Textual (.table fields)

/-- A layout that puts only blanks between the tokens. -/
structure Layout.IsBlank (l : Layout) : Prop where
  lineBreak : ∀ depth, ∀ c ∈ l.lineBreak depth, isBlank c = true
  afterColon : ∀ c ∈ l.afterColon, isBlank c = true

theorem isBlank_pretty : Layout.pretty.IsBlank where
  lineBreak depth c hc := by
    rcases List.mem_cons.1 hc with rfl | hc
    · decide
    · rw [List.eq_of_mem_replicate hc]
      decide
  afterColon c hc := by
    rw [List.mem_singleton.1 hc]
    decide

/-- The text has tokens from which the data is taken, whatever follows them. -/
def IsTextOf (t : Text) (d : Datum) : Prop :=
  ∃ ts, Reads t ts ∧
    ∀ rounds rest, ts.length ≤ rounds → datum? rounds (ts ++ rest) = some (d, rest)

/-- The text between the brackets of a list has tokens from which the items are taken. -/
def AreItemsOf (t : Text) (ds : List Datum) : Prop :=
  ∃ ts, Reads t ts ∧ ∀ rounds rest, ts.length < rounds →
    items? rounds (ts ++ .listEnd :: rest) = some (ds, rest)

/-- The text is that of a field of a table. -/
def IsFieldOf (t : Text) (f : Text × Datum) : Prop :=
  ∃ ts, Reads t (.scalar (.string f.1) :: .colon :: ts) ∧
    ∀ rounds rest, ts.length ≤ rounds → datum? rounds (ts ++ rest) = some (f.2, rest)

/-- The text between the brackets of a table has tokens from which the fields are taken. -/
def AreFieldsOf (t : Text) (fields : List (Text × Datum)) : Prop :=
  ∃ ts, Reads t ts ∧ ∀ rounds rest, ts.length < rounds →
    fields? rounds (ts ++ .tableEnd :: rest) = some (fields.map some, rest)

theorem IsTextOf.blanks {b t : Text} {d : Datum} (h : IsTextOf t d)
    (hb : ∀ c ∈ b, isBlank c = true) : IsTextOf (b ++ t) d := by
  obtain ⟨ts, hreads, hdatum⟩ := h
  exact ⟨ts, (Reads.blanks hb).append hreads, hdatum⟩

theorem isTextOf_string (s : Text) : IsTextOf (quoted s) (.string s) := by
  refine ⟨_, .string s, ?_⟩
  intro rounds rest hrounds
  obtain ⟨rounds, rfl⟩ : ∃ n, rounds = n + 1 := ⟨rounds - 1, by
    rw [List.length_singleton] at hrounds
    omega⟩
  rfl

theorem areItemsOf_join : ∀ (items : List (Text × Datum)), items ≠ [] →
    (∀ item ∈ items, IsTextOf item.1 item.2) →
    AreItemsOf (Text.join [','] (items.map (·.1))) (items.map (·.2))
  | [], hne, _ => absurd rfl hne
  | [(t, d)], _, h => by
    obtain ⟨ts, hreads, hdatum⟩ := h (t, d) (List.mem_singleton_self _)
    refine ⟨ts, hreads, ?_⟩
    intro rounds rest hrounds
    obtain ⟨rounds, rfl⟩ : ∃ n, rounds = n + 1 := ⟨rounds - 1, by omega⟩
    rw [items?, hdatum rounds _ (by omega)]
    rfl
  | (t, d) :: item :: items, _, h => by
    obtain ⟨hitem, hitems⟩ := List.forall_mem_cons.1 h
    obtain ⟨ts, hreads, hdatum⟩ := hitem
    obtain ⟨us, hreads', hrest⟩ := areItemsOf_join (item :: items) (by simp) hitems
    have hcomma : Reads [','] [.comma] := .mark (by decide) rfl
    have hjoin : Text.join [','] (t :: (item :: items).map (·.1)) =
        t ++ [','] ++ Text.join [','] ((item :: items).map (·.1)) := rfl
    rw [List.map_cons, hjoin]
    refine ⟨ts ++ [.comma] ++ us, (hreads.append hcomma).append hreads', ?_⟩
    intro rounds rest hrounds
    simp only [List.length_append, List.length_singleton] at hrounds
    obtain ⟨rounds, rfl⟩ : ∃ n, rounds = n + 1 := ⟨rounds - 1, by omega⟩
    have htokens : ts ++ [.comma] ++ us ++ .listEnd :: rest =
        ts ++ .comma :: (us ++ .listEnd :: rest) := by simp
    rw [htokens, items?, hdatum rounds _ (by omega)]
    simp only [Option.bind_eq_bind, Option.bind_some]
    rw [hrest rounds rest (by omega)]
    rfl

theorem IsTextOf.field {b a t : Text} {d : Datum} (h : IsTextOf t d) (name : Text)
    (hb : ∀ c ∈ b, isBlank c = true) (ha : ∀ c ∈ a, isBlank c = true) :
    IsFieldOf (b ++ (quoted name ++ ':' :: a ++ t)) (name, d) := by
  obtain ⟨ts, hreads, hdatum⟩ := h
  have hcolon : Reads [':'] [.colon] := .mark (by decide) rfl
  have hname := (Reads.blanks hb).append (.string name)
  have hvalue := hcolon.append ((Reads.blanks ha).append hreads)
  refine ⟨ts, ?_, hdatum⟩
  simpa using hname.append hvalue

theorem areFieldsOf_join : ∀ (fields : List (Text × Text × Datum)), fields ≠ [] →
    (∀ f ∈ fields, IsFieldOf f.1 f.2) →
    AreFieldsOf (Text.join [','] (fields.map (·.1))) (fields.map (·.2))
  | [], hne, _ => absurd rfl hne
  | [(t, f)], _, h => by
    obtain ⟨ts, hreads, hdatum⟩ := h (t, f) (List.mem_singleton_self _)
    refine ⟨_, hreads, ?_⟩
    intro rounds rest hrounds
    simp only [List.length_cons] at hrounds
    obtain ⟨rounds, rfl⟩ : ∃ n, rounds = n + 1 := ⟨rounds - 1, by omega⟩
    simp only [List.cons_append, fields?, Option.bind_eq_bind, Option.bind_some]
    rw [hdatum rounds _ (by omega)]
    rfl
  | (t, f) :: field :: fields, _, h => by
    obtain ⟨⟨ts, hreads, hdatum⟩, hfields⟩ := List.forall_mem_cons.1 h
    obtain ⟨us, hreads', hrest⟩ := areFieldsOf_join (field :: fields) (by simp) hfields
    have hcomma : Reads [','] [.comma] := .mark (by decide) rfl
    have hjoin : Text.join [','] (t :: (field :: fields).map (·.1)) =
        t ++ [','] ++ Text.join [','] ((field :: fields).map (·.1)) := rfl
    rw [List.map_cons, hjoin]
    refine ⟨_, (hreads.append hcomma).append hreads', ?_⟩
    intro rounds rest hrounds
    simp only [List.length_append, List.length_cons, List.length_nil] at hrounds
    obtain ⟨rounds, rfl⟩ : ∃ n, rounds = n + 1 := ⟨rounds - 1, by omega⟩
    simp only [List.cons_append, List.append_assoc, List.nil_append, fields?, Option.bind_eq_bind,
      Option.bind_some]
    rw [hdatum rounds _ (by omega)]
    simp only [Option.bind_some]
    rw [hrest rounds rest (by omega)]
    rfl

/-! ## Whole texts -/

theorem writeItems_eq (l : Layout) (depth : Nat) (items : List Datum) :
    writeItems l depth items = items.map (write l depth) := by
  induction items with
  | nil => rw [writeItems, List.map_nil]
  | cons d items ih => rw [writeItems, ih, List.map_cons]

theorem writeFields_eq (l : Layout) (depth : Nat) (fields : List (Text × Datum)) :
    writeFields l depth fields =
      fields.map fun f => quoted f.1 ++ ':' :: l.afterColon ++ write l depth f.2 := by
  induction fields with
  | nil => rw [writeFields, List.map_nil]
  | cons f fields ih => rw [writeFields, ih, List.map_cons]

theorem datum?_listStart {rounds : Nat} {ts rest : List JsonToken} {ds : List Datum}
    (h : items? rounds ts = some (ds, rest)) :
    datum? (rounds + 1) (.listStart :: ts) = some (.list ds, rest) := by
  rw [datum?, h]
  · rfl
  · -- no item starts with the end of the list
    rintro us rfl
    have hnone : ∀ n, datum? n (.listEnd :: us) = none := by
      intro n
      cases n <;> rfl
    cases rounds with
    | zero => cases h
    | succ rounds =>
      rw [items?, hnone] at h
      cases h

theorem datum?_tableStart {rounds : Nat} {ts rest : List JsonToken} {fields : List (Text × Datum)}
    (h : fields? rounds ts = some (fields.map some, rest)) :
    datum? (rounds + 1) (.tableStart :: ts) = some (.table fields, rest) := by
  have hall : (fields.map some).mapM id = some fields := by
    clear h
    induction fields with
    | nil => rfl
    | cons f fields ih => simp [List.mapM_cons, ih]
  rw [datum?, h]
  · rw [Option.map_some]
    simp only [hall]
  · rintro us rfl
    cases rounds <;> cases h

section
variable {l : Layout} {depth : Nat}

theorem isTextOf_list (hl : l.IsBlank) {items : List Datum}
    (h : ∀ d ∈ items, IsTextOf (write l (depth + 1) d) d) :
    IsTextOf (write l depth (.list items)) (.list items) := by
  have hstart : Reads ['['] [.listStart] := .mark (by decide) rfl
  have hend : Reads [']'] [.listEnd] := .mark (by decide) rfl
  rw [write, writeItems_eq, Layout.enclose]
  by_cases hnil : items = []
  · subst hnil
    refine ⟨_, hstart.append hend, ?_⟩
    intro rounds rest hrounds
    simp only [List.length_append, List.length_singleton] at hrounds
    obtain ⟨rounds, rfl⟩ : ∃ n, rounds = n + 1 := ⟨rounds - 1, by omega⟩
    rfl
  · have hitems : ∀ item ∈ items.map fun d =>
        (l.lineBreak (depth + 1) ++ write l (depth + 1) d, d), IsTextOf item.1 item.2 := by
      intro item hitem
      obtain ⟨d, hd, rfl⟩ := List.mem_map.1 hitem
      exact (h d hd).blanks (hl.lineBreak _)
    obtain ⟨ts, hreads, hrest⟩ := areItemsOf_join _ (by simpa using hnil) hitems
    simp only [List.map_map, Function.comp_def] at hreads hrest
    have hall := ((hstart.append hreads).append (.blanks (hl.lineBreak depth))).append hend
    rw [if_neg (by simpa using hnil)]
    refine ⟨.listStart :: ts ++ [.listEnd], by simpa [Function.comp_def] using hall, ?_⟩
    intro rounds rest hrounds
    simp only [List.length_append, List.length_cons, List.length_nil] at hrounds
    obtain ⟨rounds, rfl⟩ : ∃ n, rounds = n + 1 := ⟨rounds - 1, by omega⟩
    simpa using datum?_listStart (hrest rounds rest (by omega))

theorem isTextOf_table (hl : l.IsBlank) {fields : List (Text × Datum)}
    (h : ∀ f ∈ fields, IsTextOf (write l (depth + 1) f.2) f.2) :
    IsTextOf (write l depth (.table fields)) (.table fields) := by
  have hstart : Reads ['\x7b'] [.tableStart] := .mark (by decide) rfl
  have hend : Reads ['\x7d'] [.tableEnd] := .mark (by decide) rfl
  rw [write, writeFields_eq, Layout.enclose]
  by_cases hnil : fields = []
  · subst hnil
    refine ⟨_, hstart.append hend, ?_⟩
    intro rounds rest hrounds
    simp only [List.length_append, List.length_singleton] at hrounds
    obtain ⟨rounds, rfl⟩ : ∃ n, rounds = n + 1 := ⟨rounds - 1, by omega⟩
    rfl
  · have hfields : ∀ field ∈ fields.map fun f => (l.lineBreak (depth + 1) ++
        (quoted f.1 ++ ':' :: l.afterColon ++ write l (depth + 1) f.2), f),
        IsFieldOf field.1 field.2 := by
      intro field hfield
      obtain ⟨f, hf, rfl⟩ := List.mem_map.1 hfield
      exact (h f hf).field f.1 (hl.lineBreak _) hl.afterColon
    obtain ⟨ts, hreads, hrest⟩ := areFieldsOf_join _ (by simpa using hnil) hfields
    simp only [List.map_map, Function.comp_def] at hreads hrest
    have hall := ((hstart.append hreads).append (.blanks (hl.lineBreak depth))).append hend
    rw [if_neg (by simpa using hnil)]
    refine ⟨.tableStart :: ts ++ [.tableEnd], by simpa [Function.comp_def] using hall, ?_⟩
    intro rounds rest hrounds
    simp only [List.length_append, List.length_cons, List.length_nil] at hrounds
    obtain ⟨rounds, rfl⟩ : ∃ n, rounds = n + 1 := ⟨rounds - 1, by omega⟩
    simpa using datum?_tableStart (hrest rounds rest (by omega))

end

theorem isTextOf_write {l : Layout} (hl : l.IsBlank) {d : Datum} (h : Textual d) (depth : Nat) :
    IsTextOf (write l depth d) d := by
  induction h generalizing depth with
  | string s =>
    rw [write]
    exact isTextOf_string s
  | list _ ih => exact isTextOf_list hl fun d hd => ih d hd (depth + 1)
  | table _ ih => exact isTextOf_table hl fun f hf => ih f hf (depth + 1)

/-- Data of strings, lists and tables is read as it was written. -/
theorem read?_write {l : Layout} (hl : l.IsBlank) {d : Datum} (h : Textual d) :
    read? (write l 0 d) = some d := by
  obtain ⟨ts, hreads, hdatum⟩ := isTextOf_write hl h 0
  have htokens : tokens? (write l 0 d).length (write l 0 d) = some ts := by
    have hread := hreads.tokens ((write l 0 d).length - ts.length) []
    rw [Nat.sub_add_cancel hreads.length, List.append_nil] at hread
    have hnil : ∀ rounds, tokens? rounds [] = some [] := fun rounds => by cases rounds <;> rfl
    rw [hread, hnil, Option.map_some, List.append_nil]
  rw [read?, htokens]
  have hall := hdatum (2 * ts.length + 1) [] (by omega)
  rw [List.append_nil] at hall
  simp [hall]

end Stylometry.Json
