-- Which rule counts. Rules with one text in common make the same of it, but for the rule of the
-- identifiers: it has the spellings of words too. So the longest match settles what a text
-- begins with, and the order of the rules only keeps identifiers behind the spellings.
import Stylometry.Proofs.ScanLocality

namespace Stylometry

namespace Pattern

/-! ## What the patterns of the rules match -/

theorem matches_word_iff {w : String} {t : Text} : Matches (.word w) t ↔ t = w.toList := by
  have h : ∀ cs t : Text,
      Matches (cs.foldr (fun c p => .seq (.char c) p) .nothing) t ↔ t = cs := by
    intro cs
    induction cs with
    | nil => intro t; exact matches_nothing_iff
    | cons c cs ih =>
      intro t
      rw [List.foldr_cons, matches_seq_iff]
      constructor
      · rintro ⟨u, v, rfl, hu, hv⟩
        obtain ⟨d, hd, rfl⟩ := matches_one_iff.1 hu
        rw [(ih v).1 hv]
        simpa using hd
      · rintro rfl
        exact ⟨[c], cs, rfl, .one (by simp), (ih cs).2 rfl⟩
  exact h w.toList t

/-- No text of the pattern has the character. -/
def avoids (c : Char) : Pattern → Bool
  | .never => true
  | .nothing => true
  | .one accepts => !accepts c
  | .seq p q => p.avoids c && q.avoids c
  | .alt p q => p.avoids c && q.avoids c
  | .many p => p.avoids c

theorem not_mem_of_avoids {c : Char} {p : Pattern} {t : Text} (h : p.avoids c = true)
    (hm : Matches p t) : c ∉ t := by
  induction hm with
  | nothing => simp
  | one ha =>
    intro hc
    rw [List.mem_singleton.1 hc] at h
    simp [avoids, ha] at h
  | seq _ _ ihp ihq =>
    simp only [avoids, Bool.and_eq_true] at h
    simp [ihp h.1, ihq h.2]
  | left _ ih =>
    simp only [avoids, Bool.and_eq_true] at h
    exact ih h.1
  | right _ ih =>
    simp only [avoids, Bool.and_eq_true] at h
    exact ih h.2
  | stop => simp
  | more _ _ ihp ihm => simp [ihp h, ihm h]

/-- Each text of the pattern that is not empty starts with a character that passes the test. -/
def Starts (f : Char → Bool) : Pattern → Prop
  | .never => True
  | .nothing => True
  | .one accepts => ∀ c, accepts c = true → f c = true
  | .seq p q => Starts f p ∧ (p.nullable = true → Starts f q)
  | .alt p q => Starts f p ∧ Starts f q
  | .many p => Starts f p

theorem Starts.head {f : Char → Bool} {p : Pattern} (h : Starts f p) {c : Char} {t : Text}
    (hm : Matches p (c :: t)) : f c = true := by
  induction p generalizing t with
  | never => exact absurd hm (not_matches_never _)
  | nothing => exact absurd (matches_nothing_iff.1 hm) (List.cons_ne_nil c t)
  | one accepts =>
    obtain ⟨d, hd, heq⟩ := matches_one_iff.1 hm
    cases heq
    exact h c hd
  | seq p q ihp ihq =>
    rcases matches_seq_cons.1 hm with ⟨u, v, -, hp, -⟩ | ⟨hp, hq⟩
    · exact ihp h.1 hp
    · exact ihq (h.2 (nullable_iff.2 hp)) hq
  | alt p q ihp ihq =>
    rcases matches_alt_iff.1 hm with hp | hq
    · exact ihp h.1 hp
    · exact ihq h.2 hq
  | many p ih =>
    obtain ⟨u, v, -, hp, -⟩ := matches_many_cons.1 hm
    exact ih h hp

/-- Each text of the pattern has a character that passes the test. -/
def Has (f : Char → Bool) : Pattern → Prop
  | .never => True
  | .nothing => False
  | .one accepts => ∀ c, accepts c = true → f c = true
  | .seq p q => Has f p ∨ Has f q
  | .alt p q => Has f p ∧ Has f q
  | .many _ => False

theorem Has.exists_mem {f : Char → Bool} {p : Pattern} {t : Text} (h : Has f p)
    (hm : Matches p t) : ∃ c ∈ t, f c = true := by
  induction hm with
  | nothing => exact h.elim
  | one ha => exact ⟨_, List.mem_singleton_self _, h _ ha⟩
  | seq _ _ ihp ihq =>
    rcases h with h | h
    · obtain ⟨c, hc, hf⟩ := ihp h
      exact ⟨c, List.mem_append_left _ hc, hf⟩
    · obtain ⟨c, hc, hf⟩ := ihq h
      exact ⟨c, List.mem_append_right _ hc, hf⟩
  | left _ ih => exact ih h.1
  | right _ ih => exact ih h.2
  | stop => exact h.elim
  | more => exact h.elim

/-- No text is of two patterns when one has a character that the other one avoids. -/
theorem Has.not_matches {cs : String} {p q : Pattern} (hp : Has (fun c => cs.toList.contains c) p)
    (hq : cs.toList.all q.avoids = true) {t : Text} (h : Matches p t) : ¬Matches q t := by
  intro h'
  obtain ⟨c, hc, hf⟩ := hp.exists_mem h
  exact not_mem_of_avoids (List.all_eq_true.1 hq c (by simpa using hf)) h' hc

theorem longest?_of_matches {p : Pattern} {t : Text} (h : Matches p t) :
    p.longest? t = some t.length :=
  longest?_eq_some_iff.2 ⟨Nat.le_refl _, by simpa using h, fun k hk _ => hk⟩

end Pattern

namespace Piece

theorem mem_marks_of_matches {mark : Text} (h : Pattern.Matches Rule.encodingMark mark) :
    mark ∈ marks := by
  simp only [Rule.encodingMark, Pattern.opt, Pattern.any, List.foldr_cons, List.foldr_nil,
    Pattern.matches_alt_iff, Pattern.matches_word_iff, Pattern.matches_nothing_iff] at h
  rcases h with (rfl | rfl | rfl | rfl | h) | rfl
  · simp [marks]
  · simp [marks]
  · simp [marks]
  · simp [marks]
  · exact absurd h (Pattern.not_matches_never _)
  · simp [marks]

/-- A literal is a mark, a quote, a body and the quote again. -/
theorem matches_quoted_iff {q : Char} {t : Text} :
    Pattern.Matches (Rule.quoted q) t ↔
      ∃ mark ∈ marks, ∃ u, Pattern.Matches (body q) u ∧ t = mark ++ q :: (u ++ [q]) := by
  constructor
  · intro h
    have hq : ∀ v, Pattern.Matches (.char q) v → v = [q] := by
      intro v hv
      obtain ⟨c, hc, rfl⟩ := Pattern.matches_one_iff.1 hv
      simpa using hc
    unfold Rule.quoted Pattern.all at h
    simp only [List.foldr_cons, List.foldr_nil] at h
    obtain ⟨mark, v, rfl, hmark, hv⟩ := Pattern.matches_seq_iff.1 h
    obtain ⟨a, w, rfl, ha, hw⟩ := Pattern.matches_seq_iff.1 hv
    obtain ⟨u, x, rfl, hu, hx⟩ := Pattern.matches_seq_iff.1 hw
    obtain ⟨b, y, rfl, hb, hy⟩ := Pattern.matches_seq_iff.1 hx
    rw [hq a ha, hq b hb, Pattern.matches_nothing_iff.1 hy]
    exact ⟨mark, mem_marks_of_matches hmark, u, hu, by simp⟩
  · rintro ⟨mark, hmark, u, hu, rfl⟩
    exact matches_quoted hmark hu

end Piece

namespace Rule

open Pattern

/-! ## Fixed texts -/

/-- The rules of one text each, by this text. -/
def fixed : List (String × Outcome) :=
  ("/*", .comment) :: spellings.map fun (w, k) => (w, .token k)

/-- The rules between tokens that have many texts. -/
def blanks : List Rule := between.take 3

theorem mem_grammar_iff {r : Rule} :
    r ∈ grammar ↔ (∃ w o, (w, o) ∈ fixed ∧ r = ⟨.word w, o⟩) ∨ r ∈ blanks ∨ r ∈ varying := by
  have hbetween : between = blanks ++ [⟨.word "/*", .comment⟩] := rfl
  unfold grammar fixed
  rw [hbetween]
  simp only [List.mem_append, List.mem_map, List.mem_cons, List.not_mem_nil, or_false]
  constructor
  · rintro (((h | rfl) | ⟨⟨w, k⟩, hw, rfl⟩) | h)
    · exact .inr (.inl h)
    · exact .inl ⟨_, _, .inl rfl, rfl⟩
    · exact .inl ⟨_, _, .inr ⟨(w, k), hw, rfl⟩, rfl⟩
    · exact .inr (.inr h)
  · rintro (⟨w, o, h | ⟨⟨w', k⟩, hw, h⟩, rfl⟩ | h | h)
    · cases h
      exact .inl (.inl (.inr rfl))
    · cases h
      exact .inl (.inr ⟨(w', k), hw, rfl⟩)
    · exact .inl (.inl (.inl h))
    · exact .inr h

theorem outcome_of_fixed {w : String} {o o' : Outcome} (h : (w, o) ∈ fixed)
    (h' : (w, o') ∈ fixed) : o = o' := by
  have hall : ∀ e ∈ fixed, (fixed.find? (·.1 = e.1)).map (·.2) = some e.2 := by decide +kernel
  exact Option.some.inj ((hall _ h).symm.trans (hall _ h'))

/-- Of the rules with many texts only the identifiers have a fixed text. -/
theorem outcome_of_matches_fixed {w : String} {o : Outcome} (hw : (w, o) ∈ fixed) {r : Rule}
    (hr : r ∈ blanks ∨ r ∈ varying) (hm : Pattern.Matches r.pattern w.toList) :
    r.outcome = .token .identifier ∧ ∃ k, (w, k) ∈ spellings := by
  have hall : ∀ e ∈ fixed, ∀ r ∈ blanks ++ varying,
      r.pattern.longest? e.1.toList = some e.1.toList.length →
      r.outcome = .token .identifier ∧ e.1 ≠ "/*" := by decide +kernel
  obtain ⟨houtcome, hne⟩ := hall _ hw r (List.mem_append.2 hr) (Pattern.longest?_of_matches hm)
  refine ⟨houtcome, ?_⟩
  simp only [fixed, List.mem_cons, List.mem_map] at hw
  rcases hw with h | ⟨⟨w', k⟩, hw', h⟩
  · cases h
    exact absurd rfl hne
  · cases h
    exact ⟨k, hw'⟩

/-! ## Texts that vary -/

-- The rules whose texts vary fall into families by the first character of their texts.

def integers : List Rule := varying.take 3

def floatings : List Rule := (varying.drop 3).take 3

/-- The rule of the literals between two quotes. -/
def literal (q : Char) (sort : LiteralSort) : Rule := ⟨quoted q, .token (.literal sort)⟩

def names : Rule :=
  ⟨.seq (.one isLetter) (.many (.one fun c => isLetter c || isDigit c)), .token .identifier⟩

def words : List Rule := [literal '\'' .character, literal '"' .string, names]

theorem mem_varying_iff {r : Rule} :
    r ∈ varying ↔ r ∈ integers ∨ r ∈ floatings ∨ r ∈ words := by
  have hvarying : varying = integers ++ (floatings ++ words) := rfl
  rw [hvarying, List.mem_append, List.mem_append]

/-- The character may start what stands between tokens. -/
def startsBlank (c : Char) : Bool := " \t\r\n\x0c\x0b/#".toList.contains c

/-- The character may start a number. -/
def startsNumber (c : Char) : Bool := isDigit c || c == '.'

/-- The character may start a literal in quotes or an identifier. -/
def startsWord (c : Char) : Bool := isLetter c || c == '\'' || c == '"'

theorem isLetter_of_isDigit {c : Char} (h : isDigit c = true) : isLetter c = false := by
  have hne : c ≠ '_' := by
    rintro rfl
    exact absurd h (by decide)
  have h9 : ('9' : Char).val.toNat = 57 := rfl
  have ha : ('a' : Char).val.toNat = 97 := rfl
  have hA : ('A' : Char).val.toNat = 65 := rfl
  simp only [isDigit, Bool.and_eq_true, decide_eq_true_eq, Char.le_def,
    UInt32.le_iff_toNat_le] at h
  simp only [isLetter, Char.le_def, UInt32.le_iff_toNat_le, Bool.or_eq_false_iff,
    Bool.and_eq_false_iff, decide_eq_false_iff_not, beq_eq_false_iff_ne, ne_eq, hne,
    not_false_eq_true, and_true]
  omega

theorem startsWord_of_number {c : Char} (h : startsNumber c = true) : startsWord c = false := by
  have hquote : c ≠ '\'' ∧ c ≠ '"' := by
    constructor
    · rintro rfl
      exact absurd h (by decide)
    · rintro rfl
      exact absurd h (by decide)
  unfold startsNumber at h
  rw [Bool.or_eq_true, beq_iff_eq] at h
  rcases h with h | rfl
  · simp [startsWord, isLetter_of_isDigit h, hquote]
  · decide

theorem starts_of_blank {c : Char} (h : startsBlank c = true) :
    startsNumber c = false ∧ startsWord c = false := by
  have hall : " \t\r\n\x0c\x0b/#".toList.all
      (fun d => !startsNumber d && !startsWord d) = true := by decide
  have hc := List.all_eq_true.1 hall c (by simpa [startsBlank] using h)
  simpa using hc

theorem startsBlank_of_matches {r : Rule} (hr : r ∈ blanks) {c : Char} {t : Text}
    (hm : Matches r.pattern (c :: t)) : startsBlank c = true := by
  have hword : ∀ (w : String) (d : Char) (v : Text) (q : Pattern), w.toList = d :: v →
      startsBlank d = true → Matches (.seq (word w) q) (c :: t) → startsBlank c = true := by
    intro w d v q hw hd h
    obtain ⟨x, y, heq, hx, -⟩ := matches_seq_iff.1 h
    rw [matches_word_iff.1 hx, hw] at heq
    cases heq
    exact hd
  simp only [blanks, between, List.take_succ_cons, List.take_zero, List.mem_cons,
    List.not_mem_nil, or_false] at hr
  rcases hr with rfl | rfl | rfl
  · have hstarts : Starts startsBlank (oneOrMore (.oneOf " \t\r\n\x0c\x0b")) := by
      refine ⟨?_, nofun⟩
      intro d hd
      have hall : " \t\r\n\x0c\x0b".toList.all startsBlank = true := by decide
      exact List.all_eq_true.1 hall d (by simpa using hd)
    exact hstarts.head hm
  · exact hword "//" '/' ['/'] _ rfl (by decide) hm
  · exact hword "#" '#' [] _ rfl (by decide) hm

theorem startsNumber_of_matches {r : Rule} (hr : r ∈ integers ∨ r ∈ floatings) {c : Char}
    {t : Text} (hm : Matches r.pattern (c :: t)) : startsNumber c = true := by
  have hdigit : ∀ d, isDigit d = true → startsNumber d = true := by
    intro d hd
    simp [startsNumber, hd]
  have hzero : startsNumber '0' = true := by decide
  have hdot : startsNumber '.' = true := by decide
  suffices hstarts : Starts startsNumber r.pattern from hstarts.head hm
  simp only [integers, floatings, varying, List.take_succ_cons, List.take_zero,
    List.drop_succ_cons, List.drop_zero, List.mem_cons, List.not_mem_nil, or_false] at hr
  rcases hr with (rfl | rfl | rfl) | rfl | rfl | rfl
  all_goals
    simp [Starts, nullable, all, oneOrMore, grouped, digit, Pattern.char, hzero, hdot]
  all_goals exact hdigit

/-- A mark and a quote start with a character of a word. -/
theorem startsWord_of_mark {mark rest t : Text} {q c : Char} (hmark : mark ∈ Piece.marks)
    (hq : startsWord q = true) (h : c :: t = mark ++ q :: rest) : startsWord c = true := by
  cases mark with
  | nil =>
    cases h
    exact hq
  | cons d mark =>
    cases h
    have hall : (Piece.marks.all fun m => m.head?.all startsWord) = true := by decide
    exact List.all_eq_true.1 hall _ hmark

theorem startsWord_of_matches {r : Rule} (hr : r ∈ words) {c : Char} {t : Text}
    (hm : Matches r.pattern (c :: t)) : startsWord c = true := by
  have hquoted : ∀ q, startsWord q = true → Matches (quoted q) (c :: t) →
      startsWord c = true := by
    intro q hq h
    obtain ⟨mark, hmark, u, -, heq⟩ := Piece.matches_quoted_iff.1 h
    exact startsWord_of_mark hmark hq heq
  simp only [words, List.mem_cons, List.not_mem_nil, or_false] at hr
  rcases hr with rfl | rfl | rfl
  · exact hquoted '\'' (by decide) hm
  · exact hquoted '"' (by decide) hm
  · have hstarts : Starts startsWord names.pattern := by
      refine ⟨?_, nofun⟩
      intro d hd
      simp [startsWord, hd]
    exact hstarts.head hm

/-- No text is an integer and a floating number: only the floating numbers have a point, and of
an exponent and the mark of another base a number has one at most. -/
theorem not_floating_of_integer {r r' : Rule} (hr : r ∈ integers) (hr' : r' ∈ floatings)
    {t : Text} (hm : Matches r.pattern t) : ¬Matches r'.pattern t := by
  intro hm'
  have hpoint : Has (fun c => ".".toList.contains c) r'.pattern → False := by
    intro h
    have hall : ∀ r ∈ integers, ".".toList.all r.pattern.avoids = true := by decide
    exact h.not_matches (hall r hr) hm' hm
  have hdot : Has (fun c => ".".toList.contains c) (.char '.') := by
    intro c hc
    simpa using hc
  have hone : ∀ cs : String, Has (fun c => cs.toList.contains c) (.oneOf cs) := fun cs c hc => hc
  simp only [floatings, varying, List.take_succ_cons, List.take_zero, List.drop_succ_cons,
    List.drop_zero, List.mem_cons, List.not_mem_nil, or_false] at hr'
  rcases hr' with rfl | rfl | rfl
  · exact hpoint (.inr (.inl hdot))
  · exact hpoint (.inl hdot)
  · have hexponent : Has (fun c => "eE".toList.contains c) (all [oneOrMore digit, exponent,
        floatingEnd]) := .inr (.inl (.inl (hone "eE")))
    simp only [integers, varying, List.take_succ_cons, List.take_zero, List.mem_cons,
      List.not_mem_nil, or_false] at hr
    rcases hr with rfl | rfl | rfl
    · exact hexponent.not_matches (by decide) hm' hm
    · have hbase : Has (fun c => "xX".toList.contains c) (all [.char '0', .oneOf "xX",
          grouped isHexDigit, integerEnd]) := .inr (.inl (hone "xX"))
      exact hbase.not_matches (by decide) hm hm'
    · exact hexponent.not_matches (by decide) hm' hm

/-- Literals of two quotes end with different quotes, and an identifier has no quote. -/
theorem outcome_of_words {r r' : Rule} (hr : r ∈ words) (hr' : r' ∈ words) {t : Text}
    (hm : Matches r.pattern t) (hm' : Matches r'.pattern t) : r.outcome = r'.outcome := by
  have hlast : ∀ q, Matches (quoted q) t → t.getLast? = some q := by
    intro q h
    obtain ⟨mark, -, u, -, rfl⟩ := Piece.matches_quoted_iff.1 h
    rw [List.getLast?_append, List.getLast?_cons, List.getLast?_append]
    rfl
  have hname : ∀ q, names.pattern.avoids q = true → Matches (quoted q) t →
      ¬Matches names.pattern t := by
    intro q hq h h'
    exact not_mem_of_avoids hq h' (List.mem_of_getLast? (hlast q h))
  have hquotes : Matches (quoted '\'') t → ¬Matches (quoted '"') t := by
    intro h h'
    exact absurd ((hlast _ h).symm.trans (hlast _ h')) (by decide)
  simp only [words, List.mem_cons, List.not_mem_nil, or_false] at hr hr'
  rcases hr with rfl | rfl | rfl
  · rcases hr' with rfl | rfl | rfl
    · rfl
    · exact absurd hm' (hquotes hm)
    · exact absurd hm' (hname _ (by decide) hm)
  · rcases hr' with rfl | rfl | rfl
    · exact absurd hm (hquotes hm')
    · rfl
    · exact absurd hm' (hname _ (by decide) hm)
  · rcases hr' with rfl | rfl | rfl
    · exact absurd hm (hname _ (by decide) hm')
    · exact absurd hm (hname _ (by decide) hm')
    · rfl

theorem outcome_of_blanks : ∀ r ∈ blanks, r.outcome = .blank := by decide

theorem outcome_of_integers : ∀ r ∈ integers, r.outcome = .token (.literal .integer) := by decide

theorem outcome_of_floatings : ∀ r ∈ floatings, r.outcome = .token (.literal .floating) := by
  decide

/-- Rules of many texts with one text in common make the same of it. -/
theorem outcome_of_varying {r r' : Rule} (hr : r ∈ blanks ∨ r ∈ varying)
    (hr' : r' ∈ blanks ∨ r' ∈ varying) {c : Char} {t : Text} (hm : Matches r.pattern (c :: t))
    (hm' : Matches r'.pattern (c :: t)) : r.outcome = r'.outcome := by
  -- the first character tells blanks, numbers and words apart
  have hclass : ∀ {r : Rule}, r ∈ blanks ∨ r ∈ varying → Matches r.pattern (c :: t) →
      r ∈ blanks ∧ startsBlank c = true ∨
      (r ∈ integers ∨ r ∈ floatings) ∧ startsNumber c = true ∨
      r ∈ words ∧ startsWord c = true := by
    intro r hr hm
    rw [mem_varying_iff] at hr
    rcases hr with hr | hr | hr | hr
    · exact .inl ⟨hr, startsBlank_of_matches hr hm⟩
    · exact .inr (.inl ⟨.inl hr, startsNumber_of_matches (.inl hr) hm⟩)
    · exact .inr (.inl ⟨.inr hr, startsNumber_of_matches (.inr hr) hm⟩)
    · exact .inr (.inr ⟨hr, startsWord_of_matches hr hm⟩)
  have hnumber : startsNumber c = true → startsWord c = true → False := by
    intro h h'
    rw [startsWord_of_number h] at h'
    cases h'
  have hblank : startsBlank c = true → startsNumber c = true ∨ startsWord c = true → False := by
    intro h h'
    rw [(starts_of_blank h).1, (starts_of_blank h).2] at h'
    rcases h' with h' | h' <;> cases h'
  rcases hclass hr hm with ⟨h, hc⟩ | ⟨h, hc⟩ | ⟨h, hc⟩
  · rcases hclass hr' hm' with ⟨h', hc'⟩ | ⟨h', hc'⟩ | ⟨h', hc'⟩
    · rw [outcome_of_blanks r h, outcome_of_blanks r' h']
    · exact (hblank hc (.inl hc')).elim
    · exact (hblank hc (.inr hc')).elim
  · rcases hclass hr' hm' with ⟨h', hc'⟩ | ⟨h', hc'⟩ | ⟨h', hc'⟩
    · exact (hblank hc' (.inl hc)).elim
    · rcases h with h | h <;> rcases h' with h' | h'
      · rw [outcome_of_integers r h, outcome_of_integers r' h']
      · exact absurd hm' (not_floating_of_integer h h' hm)
      · exact absurd hm (not_floating_of_integer h' h hm')
      · rw [outcome_of_floatings r h, outcome_of_floatings r' h']
    · exact (hnumber hc hc').elim
  · rcases hclass hr' hm' with ⟨h', hc'⟩ | ⟨h', hc'⟩ | ⟨h', hc'⟩
    · exact (hblank hc' (.inr hc)).elim
    · exact (hnumber hc' hc).elim
    · exact outcome_of_words h h' hm hm'

/-! ## The rule that counts -/

/-- The outcome and the length of the longest match at the head of a text. A text that is a fixed
spelling is no identifier. -/
structure Taken (t : Text) (o : Outcome) (n : Nat) : Prop where
  le_length : n ≤ t.length
  matched : ∃ r ∈ grammar, r.outcome = o ∧ Matches r.pattern (t.take n)
  longest : ∀ r ∈ grammar, ∀ k ≤ t.length, Matches r.pattern (t.take k) → k ≤ n
  spelled : o = .token .identifier → ∀ w k, (w, k) ∈ spellings → t.take n ≠ w.toList

/-- Rules with one text in common make the same of it, or one is the rule of the identifiers and
the text is a fixed spelling. -/
theorem outcome_unique {r r' : Rule} (hr : r ∈ grammar) (hr' : r' ∈ grammar) {t : Text}
    (hm : Matches r.pattern t) (hm' : Matches r'.pattern t) :
    r.outcome = r'.outcome ∨
      (r.outcome = .token .identifier ∨ r'.outcome = .token .identifier) ∧
        ∃ w k, (w, k) ∈ spellings ∧ t = w.toList := by
  have hfixed : ∀ {w : String} {o : Outcome} {r : Rule}, (w, o) ∈ fixed → t = w.toList →
      r ∈ grammar → Matches r.pattern t → r.outcome = o ∨
        r.outcome = .token .identifier ∧ ∃ w k, (w, k) ∈ spellings ∧ t = w.toList := by
    intro w o r hw ht hr hm
    rcases mem_grammar_iff.1 hr with ⟨w', o', hw', rfl⟩ | hr
    · rw [ht] at hm
      have heq : w = w' := String.toList_inj.1 (matches_word_iff.1 hm)
      rw [← heq] at hw'
      exact .inl (outcome_of_fixed hw' hw)
    · rw [ht] at hm
      obtain ⟨houtcome, k, hk⟩ := outcome_of_matches_fixed hw hr hm
      exact .inr ⟨houtcome, w, k, hk, ht⟩
  -- when one of the two is the rule of a fixed text, all there is to know is about this text
  rcases mem_grammar_iff.1 hr with ⟨w, o, hw, rfl⟩ | hvary
  · rcases hfixed hw (matches_word_iff.1 hm) hr' hm' with h | ⟨h, hspelled⟩
    · exact .inl h.symm
    · exact .inr ⟨.inr h, hspelled⟩
  · rcases mem_grammar_iff.1 hr' with ⟨w, o, hw, rfl⟩ | hvary'
    · rcases hfixed hw (matches_word_iff.1 hm') hr hm with h | ⟨h, hspelled⟩
      · exact .inl h
      · exact .inr ⟨.inl h, hspelled⟩
    · cases t with
      | nil =>
        have hnull := nullable_iff.2 hm
        rw [nullable_of_mem_grammar hr] at hnull
        cases hnull
      | cons c t => exact .inl (outcome_of_varying hvary hvary' hm hm')

/-- A match stays the best one when no later rule has a longer one. -/
theorem bestOf_eq_of_le {rules : List Rule} {t : Text} {o : Outcome} {n : Nat}
    (h : ∀ r ∈ rules, ∀ k, r.pattern.longest? t = some k → k ≤ n) :
    bestOf (some (o, n)) rules t = some (o, n) := by
  induction rules with
  | nil => rfl
  | cons r rules ih =>
    have hstay : better (some (o, n)) r.outcome (r.pattern.longest? t) = some (o, n) := by
      cases hk : r.pattern.longest? t with
      | none => rfl
      | some k =>
        have hle := h r (List.mem_cons_self ..) k hk
        exact if_neg (Nat.not_lt.2 hle)
    rw [bestOf_cons, hstay]
    exact ih fun r' hr' => h r' (List.mem_cons_of_mem r hr')

/-- The rules before those of the texts that vary. -/
def front : List Rule := between ++ spellings.map fun (w, k) => ⟨word w, .token k⟩

/-- The identifiers do not count for a fixed spelling: its rule stands before theirs. -/
theorem not_identifier_of_spelled {t : Text} {n : Nat}
    (h : longestOf grammar t = some (.token .identifier, n)) {w : String} {k : Kind}
    (hw : (w, k) ∈ spellings) : t.take n ≠ w.toList := by
  intro heq
  obtain ⟨⟨r, -, -, hr⟩, hlongest⟩ := longestOf_cases h
  have hle := (longest?_eq_some_iff.1 hr).le_length
  have hgrammar : grammar = front ++ varying := rfl
  have hword : ⟨word w, .token k⟩ ∈ front :=
    List.mem_append_right _ (List.mem_map.2 ⟨(w, k), hw, rfl⟩)
  obtain ⟨o, m, hm, hnm⟩ := exists_longestOf hword hle (matches_word_iff.2 heq)
  -- what the rules up to the spellings find is as long as any match, so the later ones lose
  have hstay : longestOf grammar t = some (o, m) := by
    rw [longestOf_eq_bestOf, hgrammar, bestOf, List.foldl_append]
    change bestOf (longestOf front t) varying t = some (o, m)
    rw [hm]
    apply bestOf_eq_of_le
    intro r hr k hk
    have hk' := hlongest r (by rw [hgrammar]; exact List.mem_append_right _ hr) k hk
    exact Nat.le_trans hk' hnm
  rw [h] at hstay
  cases hstay
  obtain ⟨⟨r, hr, houtcome, -⟩, -⟩ := longestOf_cases hm
  have hall : ∀ r ∈ front, r.outcome ≠ .token .identifier := by decide +kernel
  exact hall r hr houtcome

/-- The search through the rules in their order finds the longest match and what it counts as. -/
theorem longestOf_grammar_iff {t : Text} {o : Outcome} {n : Nat} :
    longestOf grammar t = some (o, n) ↔ Taken t o n := by
  have hfound : ∀ {o : Outcome} {n : Nat}, longestOf grammar t = some (o, n) → Taken t o n := by
    intro o n h
    obtain ⟨⟨r, hr, ho, hn⟩, -⟩ := longestOf_cases h
    have hl := longest?_eq_some_iff.1 hn
    refine ⟨hl.le_length, ⟨r, hr, ho, hl.matched⟩, ?_, ?_⟩
    · intro r' hr' k hk hm
      obtain ⟨o', n', hn', hle⟩ := exists_longestOf hr' hk hm
      rw [h] at hn'
      cases hn'
      exact hle
    · rintro rfl w k hw
      exact not_identifier_of_spelled h hw
  constructor
  · exact hfound
  · intro h
    obtain ⟨r, hr, rfl, hm⟩ := h.matched
    obtain ⟨o', n', hn', -⟩ := exists_longestOf hr h.le_length hm
    have h' := hfound hn'
    obtain ⟨r', hr', rfl, hm'⟩ := h'.matched
    have hlength : n' = n := Nat.le_antisymm (h.longest r' hr' n' h'.le_length hm')
      (h'.longest r hr n h.le_length hm)
    rw [hlength] at hm' h' hn'
    rcases outcome_unique hr hr' hm hm' with heq | ⟨hname | hname, w, k, hw, heq⟩
    · rw [hn', heq]
    · exact absurd heq (h.spelled hname w k hw)
    · exact absurd heq (h'.spelled hname w k hw)

end Rule
end Stylometry
