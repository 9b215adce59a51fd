-- Tokens that stand apart. White space after a token ends it, and white space, comments and
-- directives give no tokens. So tokens of any sources with these between them are read back one by
-- one, and what is counted over them does not depend on what stands between them.
import Stylometry.Ngram.Table
import Stylometry.Proofs.DeclaredScan
import Stylometry.Proofs.Frequencies

namespace Stylometry

/-! ## What stands between tokens -/

/-- The white space of a source. -/
def whites : Text := [' ', '\t', '\r', '\n', '\x0c', '\x0b']

theorem not_mem_of_all_not_white {c : Char} (hc : c ∈ whites) {t : Text}
    (h : t.all (· ∉ whites) = true) : c ∉ t := by
  intro hmem
  simpa [hc] using List.all_eq_true.1 h c hmem

/-- The longest front of a text whose characters all have a property, and what is left. -/
theorem exists_longest_front (p : Char → Bool) (t : Text) :
    ∃ u v, t = u ++ v ∧ (∀ c ∈ u, p c = true) ∧ ∀ c, v.head? = some c → ¬p c = true := by
  refine ⟨t.takeWhile p, t.dropWhile p, List.takeWhile_append_dropWhile.symm, ?_, ?_⟩
  · exact List.all_eq_true.1 List.all_takeWhile
  · intro c hc
    have hdark := List.head?_dropWhile_not p t
    rw [hc] at hdark
    simpa using hdark

/-- White space, complete block comments, and lines of a comment or a directive with the character
that ends the line, in any number and order. -/
inductive Filling : Text → Prop
  | nil : Filling []
  | white {c t} : c ∈ whites → Filling t → Filling (c :: t)
  | comment {u t} : ¬['*', '/'] <:+: u → Filling t →
      Filling ('/' :: '*' :: (u ++ '*' :: '/' :: t))
  | line {mark : String} {u c t} : mark ∈ ["//", "#"] → '\r' ∉ u ∧ '\n' ∉ u →
      c = '\r' ∨ c = '\n' → Filling t → Filling (mark.toList ++ (u ++ c :: t))

/-- What keeps two tokens apart: white space first, and then any filling. -/
inductive Separates : Text → Prop
  | mk {c t} : c ∈ whites → Filling t → Separates (c :: t)

/-- Some tokens, each with the text that follows it, after a first text. -/
def spread (first : Text) (parts : List (Lexeme × Text)) : Text :=
  first ++ parts.flatMap fun p => p.1.2 ++ p.2

/-! ## Rules of the texts between tokens -/

namespace Pattern

theorem matches_many_one_iff {accepts : Char → Bool} {t : Text} :
    Matches (.many (.one accepts)) t ↔ ∀ c ∈ t, accepts c = true := by
  induction t with
  | nil => exact ⟨fun _ => by simp, fun _ => .stop⟩
  | cons c t ih =>
    rw [matches_many_cons, List.forall_mem_cons, ← ih]
    constructor
    · rintro ⟨u, v, rfl, hu, hv⟩
      obtain ⟨d, hd, heq⟩ := matches_one_iff.1 hu
      cases heq
      exact ⟨hd, hv⟩
    · rintro ⟨hc, ht⟩
      exact ⟨[], t, rfl, .one hc, ht⟩

end Pattern

namespace Rule

open Pattern

/-- White space, one character at least. -/
def whiteSpace : Pattern := oneOrMore (.oneOf " \t\r\n\x0c\x0b")

/-- The rest of a line after a mark. -/
def lineAfter (mark : String) : Pattern := .seq (word mark) (.many (.noneOf "\r\n"))

theorem mem_blanks_iff {r : Rule} :
    r ∈ blanks ↔ r = ⟨whiteSpace, .blank⟩ ∨ ∃ mark ∈ ["//", "#"], r = ⟨lineAfter mark, .blank⟩ := by
  have hblanks : blanks =
      [⟨whiteSpace, .blank⟩, ⟨lineAfter "//", .blank⟩, ⟨lineAfter "#", .blank⟩] := rfl
  rw [hblanks]
  simp

theorem matches_whiteSpace_iff {t : Text} :
    Matches whiteSpace t ↔ t ≠ [] ∧ ∀ c ∈ t, c ∈ whites := by
  have haccepts : ∀ c, " \t\r\n\x0c\x0b".toList.contains c = true ↔ c ∈ whites := by
    intro c
    rw [List.contains_iff_mem]
    rfl
  cases t with
  | nil =>
    have hnull : whiteSpace.nullable = false := rfl
    rw [← nullable_iff, hnull]
    simp
  | cons c t =>
    unfold whiteSpace oneOrMore oneOf
    rw [matches_seq_cons, List.forall_mem_cons]
    constructor
    · rintro (⟨u, v, rfl, hu, hv⟩ | ⟨h, -⟩)
      · obtain ⟨d, hd, heq⟩ := matches_one_iff.1 hu
        cases heq
        exact ⟨List.cons_ne_nil _ _, (haccepts c).1 hd,
          fun d hd => (haccepts d).1 (matches_many_one_iff.1 hv d hd)⟩
      · obtain ⟨d, -, heq⟩ := matches_one_iff.1 h
        cases heq
    · rintro ⟨-, hc, ht⟩
      exact .inl ⟨[], t, rfl, .one ((haccepts c).2 hc),
        matches_many_one_iff.2 fun d hd => (haccepts d).2 (ht d hd)⟩

theorem matches_lineAfter_iff {mark : String} {t : Text} :
    Matches (lineAfter mark) t ↔ ∃ u, t = mark.toList ++ u ∧ '\r' ∉ u ∧ '\n' ∉ u := by
  have hrest : ∀ u, Matches (.many (.noneOf "\r\n")) u ↔ '\r' ∉ u ∧ '\n' ∉ u := by
    intro u
    have haccepts : ∀ c, (!"\r\n".toList.contains c) = true ↔ c ≠ '\r' ∧ c ≠ '\n' := by
      intro c
      simp
    unfold noneOf
    rw [matches_many_one_iff]
    simp only [haccepts]
    constructor
    · intro h
      exact ⟨fun hc => (h _ hc).1 rfl, fun hc => (h _ hc).2 rfl⟩
    · rintro ⟨hr, hn⟩ c hc
      exact ⟨fun h => hr (h ▸ hc), fun h => hn (h ▸ hc)⟩
  unfold lineAfter
  rw [matches_seq_iff]
  constructor
  · rintro ⟨v, u, rfl, hv, hu⟩
    exact ⟨u, by rw [matches_word_iff.1 hv], (hrest u).1 hu⟩
  · rintro ⟨u, rfl, hu⟩
    exact ⟨_, u, rfl, matches_word_iff.2 rfl, (hrest u).2 hu⟩

/-- Where what stands between tokens may start, only the rules of fixed texts and those of what
stands between tokens have a text. -/
theorem rule_of_startsBlank {r : Rule} (hr : r ∈ grammar) {c : Char} {t : Text}
    (hc : startsBlank c = true) (hm : Matches r.pattern (c :: t)) :
    (∃ w o, (w, o) ∈ fixed ∧ w.toList = c :: t) ∨ r ∈ blanks := by
  obtain ⟨hnumber, hword⟩ := starts_of_blank hc
  rcases mem_grammar_iff.1 hr with ⟨w, o, hw, rfl⟩ | hr | hr
  · exact .inl ⟨w, o, hw, (matches_word_iff.1 hm).symm⟩
  · exact .inr hr
  · rcases mem_varying_iff.1 hr with hr | hr | hr
    · rw [startsNumber_of_matches (.inl hr) hm] at hnumber
      cases hnumber
    · rw [startsNumber_of_matches (.inr hr) hm] at hnumber
      cases hnumber
    · rw [startsWord_of_matches hr hm] at hword
      cases hword

/-- A fixed text starts with no white space and with no mark of a directive, and after a slash it
has one character at most. -/
theorem head_of_fixed {w : String} {o : Outcome} (hw : (w, o) ∈ fixed) {c : Char} {t : Text}
    (h : w.toList = c :: t) : c ∉ whites ∧ c ≠ '#' ∧ (c = '/' → t.length ≤ 1) := by
  have hall : ∀ e ∈ fixed, e.1.toList.head?.all (fun c =>
      c ∉ whites ∧ c ≠ '#' ∧ (c = '/' → e.1.toList.tail.length ≤ 1)) = true := by decide +kernel
  have hword := hall _ hw
  rw [h, List.head?_cons, Option.all_some] at hword
  exact of_decide_eq_true hword

theorem head_of_mark {mark : String} (h : mark ∈ ["//", "#"]) :
    ∃ c t, mark.toList = c :: t ∧ startsBlank c = true ∧ c ∉ whites := by
  simp only [List.mem_cons, List.not_mem_nil, or_false] at h
  rcases h with rfl | rfl
  · exact ⟨'/', ['/'], rfl, by decide, by decide⟩
  · exact ⟨'#', [], rfl, by decide, by decide⟩

theorem not_mem_mark {mark : String} (h : mark ∈ ["//", "#"]) {c : Char} (hc : c ∈ whites) :
    c ∉ mark.toList := by
  have hall : ∀ mark ∈ ["//", "#"], mark.toList.all (· ∉ whites) = true := by decide
  exact not_mem_of_all_not_white hc (hall mark h)

/-- A text of a rule is taken when no rule goes on with the character after it. -/
theorem taken_append {u rest : Text} {o : Outcome}
    (hm : ∃ r ∈ grammar, r.outcome = o ∧ Matches r.pattern u)
    (hlonger : ∀ r ∈ grammar, ∀ d x, rest.head? = some d → ¬Matches r.pattern (u ++ d :: x))
    (hspelled : o = .token .identifier → ∀ w k, (w, k) ∈ spellings → u ≠ w.toList) :
    Taken (u ++ rest) o u.length := by
  have htake : (u ++ rest).take u.length = u := List.take_left
  refine ⟨by simp, by rwa [htake], ?_, by rwa [htake]⟩
  intro r hr k hk hmatch
  by_contra hlt
  obtain ⟨j, rfl⟩ : ∃ j, k = u.length + (j + 1) := ⟨k - u.length - 1, by omega⟩
  cases rest with
  | nil =>
    rw [List.append_nil] at hk
    omega
  | cons d rest =>
    rw [List.take_length_add_append, List.take_succ_cons] at hmatch
    exact hlonger r hr d _ rfl hmatch

end Rule

/-! ## The scan between tokens -/

/-- Where nothing is emitted the tokens are those of the rest. -/
theorem lexemes_of_next_none {t : Text} {n : Nat} (ht : t ≠ []) (h : Next t none n) :
    lexemes t = lexemes (t.drop n) := by
  obtain ⟨rfl, hkind⟩ := next_iff.1 h
  have hlexeme : ∀ p : Piece, p.kind? = none → p.lexeme? = none := by
    intro p hp
    cases p with
    | token => cases hp
    | blank => rfl
    | stray => rfl
  rw [lexemes_eq, lexemes_eq, Piece.ofText_of_ne_nil ht,
    List.filterMap_cons_none (hlexeme _ (hkind _))]

/-- Where a token is emitted it stands before the tokens of the rest. -/
theorem lexemes_of_next_some {t : Text} {k : Kind} {n : Nat} (ht : t ≠ [])
    (h : Next t (some k) n) : lexemes t = (k, t.take n) :: lexemes (t.drop n) := by
  obtain ⟨rfl, hkind⟩ := next_iff.1 h
  have hlexeme : ∀ p : Piece, p.kind? = some k → p.lexeme? = some (k, p.text) := by
    intro p hp
    cases p with
    | token => cases hp; rfl
    | blank => cases hp
    | stray => cases hp
  rw [lexemes_eq, lexemes_eq, Piece.ofText_of_ne_nil ht,
    List.filterMap_cons_some (hlexeme _ (hkind _)), Piece.text_headLength]

theorem closed_of_startsBlank {c : Char} {t : Text} (hc : Rule.startsBlank c = true) (m : Nat) :
    ¬Piece.Unfinished (c :: t) m := by
  rintro ⟨mark, hmark, q, rest, k, hq, heq, -⟩
  have hquote : Rule.startsWord q = true := by rcases hq with rfl | rfl <;> decide
  have hword := (Rule.starts_of_blank hc).2
  rw [Rule.startsWord_of_mark hmark hquote heq] at hword
  cases hword

theorem startsBlank_of_mem_whites {c : Char} (h : c ∈ whites) : Rule.startsBlank c = true := by
  have hall : whites.all Rule.startsBlank = true := by decide
  exact List.all_eq_true.1 hall c h

theorem lexemes_append_of_next {u rest : Text} (hu : u ≠ []) (h : Next (u ++ rest) none u.length) :
    lexemes (u ++ rest) = lexemes rest :=
  (lexemes_of_next_none (List.append_ne_nil_of_left_ne_nil hu rest) h).trans
    (congrArg lexemes List.drop_left)

/-- A text between tokens is passed over when no rule goes on with the character after it. -/
theorem next_blank_append {c : Char} {u rest : Text} {r : Rule}
    (hc : Rule.startsBlank c = true) (hr : r ∈ Rule.blanks)
    (hm : Pattern.Matches r.pattern (c :: u))
    (hlonger : ∀ r ∈ Rule.grammar, ∀ d x, rest.head? = some d →
      ¬Pattern.Matches r.pattern (c :: u ++ d :: x)) :
    Next (c :: u ++ rest) none (c :: u).length := by
  have hmatch : ∃ r ∈ Rule.grammar, r.outcome = .blank ∧ Pattern.Matches r.pattern (c :: u) :=
    ⟨r, Rule.mem_grammar_iff.2 (.inr (.inl hr)), Rule.outcome_of_blanks r hr, hm⟩
  exact .blank (closed_of_startsBlank hc) (Rule.taken_append hmatch hlonger nofun)

/-- White space is passed over as far as it goes. -/
theorem next_whites_append {c : Char} {u rest : Text} (hu : ∀ d ∈ c :: u, d ∈ whites)
    (hrest : ∀ d, rest.head? = some d → d ∉ whites) :
    Next (c :: u ++ rest) none (c :: u).length := by
  have hc := hu c (List.mem_cons_self ..)
  have hblank := startsBlank_of_mem_whites hc
  refine next_blank_append hblank (Rule.mem_blanks_iff.2 (.inl rfl))
    (Rule.matches_whiteSpace_iff.2 ⟨List.cons_ne_nil c u, hu⟩) ?_
  intro r hr d x hd hm
  rcases Rule.rule_of_startsBlank hr hblank hm with ⟨w, o, hw, heq⟩ | hr
  · exact (Rule.head_of_fixed hw heq).1 hc
  · rcases Rule.mem_blanks_iff.1 hr with rfl | ⟨mark, hmark, rfl⟩
    · obtain ⟨-, hwhite⟩ := Rule.matches_whiteSpace_iff.1 hm
      exact hrest d hd (hwhite d (by simp))
    · obtain ⟨v, heq, -⟩ := Rule.matches_lineAfter_iff.1 hm
      obtain ⟨e, w, hmark, -, hwhite⟩ := Rule.head_of_mark hmark
      rw [hmark] at heq
      exact hwhite ((List.cons.inj heq).1 ▸ hc)

theorem lexemes_whites_append {c : Char} {u rest : Text} (hu : ∀ d ∈ c :: u, d ∈ whites)
    (hrest : ∀ d, rest.head? = some d → d ∉ whites) :
    lexemes (c :: u ++ rest) = lexemes rest :=
  lexemes_append_of_next (List.cons_ne_nil c u) (next_whites_append hu hrest)

/-- White space gives no tokens, whatever follows. -/
theorem lexemes_white_cons {c : Char} (hc : c ∈ whites) (t : Text) :
    lexemes (c :: t) = lexemes t := by
  obtain ⟨u, v, rfl, hu, hv⟩ := exists_longest_front (· ∈ whites) t
  simp only [decide_eq_true_eq] at hu hv
  have hlong : lexemes (c :: u ++ v) = lexemes v :=
    lexemes_whites_append (List.forall_mem_cons.2 ⟨hc, hu⟩) hv
  cases u with
  | nil => exact hlong
  | cons d u => exact hlong.trans (lexemes_whites_append hu hv).symm

/-- A line of a comment or a directive is passed over up to the end of the line. -/
theorem next_line_append {mark : String} {u rest : Text} (hmark : mark ∈ ["//", "#"])
    (hu : '\r' ∉ u ∧ '\n' ∉ u) (hrest : ∀ c, rest.head? = some c → c = '\r' ∨ c = '\n') :
    Next (mark.toList ++ u ++ rest) none (mark.toList ++ u).length := by
  obtain ⟨d, v, hd, hblank, hdark⟩ := Rule.head_of_mark hmark
  have hline : Pattern.Matches (Rule.lineAfter mark) (d :: (v ++ u)) :=
    Rule.matches_lineAfter_iff.2 ⟨u, by rw [hd]; rfl, hu⟩
  have hr := Rule.mem_blanks_iff.2 (.inr ⟨mark, hmark, rfl⟩)
  rw [hd]
  refine next_blank_append hblank hr hline ?_
  intro r hr c x hhead hm
  have hc := hrest c hhead
  rcases Rule.rule_of_startsBlank hr hblank hm with ⟨w, o, hw, heq⟩ | hr
  · obtain ⟨-, hhash, hslash⟩ := Rule.head_of_fixed hw heq
    simp only [List.mem_cons, List.not_mem_nil, or_false] at hmark
    rcases hmark with rfl | rfl
    · cases hd
      have := hslash rfl
      simp at this
    · cases hd
      exact hhash rfl
  · rcases Rule.mem_blanks_iff.1 hr with rfl | ⟨mark', hmark', rfl⟩
    · exact hdark ((Rule.matches_whiteSpace_iff.1 hm).2 d (by simp))
    · -- the character that ends the line is in no mark and in no line
      obtain ⟨u', heq, hr', hn'⟩ := Rule.matches_lineAfter_iff.1 hm
      have hwhite : c ∈ whites := by rcases hc with rfl | rfl <;> decide
      have hmem : c ∈ mark'.toList ++ u' := heq ▸ by simp
      rcases List.mem_append.1 hmem with h | h
      · exact Rule.not_mem_mark hmark' hwhite h
      · rcases hc with rfl | rfl
        · exact hr' h
        · exact hn' h

/-- A line of a comment or a directive gives no tokens. -/
theorem lexemes_line_append {mark : String} {u t : Text} {c : Char} (hmark : mark ∈ ["//", "#"])
    (hu : '\r' ∉ u ∧ '\n' ∉ u) (hc : c = '\r' ∨ c = '\n') :
    lexemes (mark.toList ++ (u ++ c :: t)) = lexemes t := by
  have hwhite : c ∈ whites := by rcases hc with rfl | rfl <;> decide
  obtain ⟨d, v, hd, -, -⟩ := Rule.head_of_mark hmark
  have hne : mark.toList ++ u ≠ [] := by simp [hd]
  have hend : ∀ d, (c :: t).head? = some d → d = '\r' ∨ d = '\n' := by
    rintro d ⟨⟩
    exact hc
  have hskip := lexemes_append_of_next hne (next_line_append hmark hu hend)
  rw [← List.append_assoc, hskip, lexemes_white_cons hwhite]

/-- A comment ends where its end stands first. -/
theorem commentEnds_append {u : Text} (hu : ¬['*', '/'] <:+: u) (t : Text) :
    Piece.CommentEnds (u ++ '*' :: '/' :: t) (u.length + 2) := by
  refine .closed ?_
  intro u' v heq
  rcases List.append_eq_append_iff.1 heq with ⟨a, rfl, -⟩ | ⟨a, rfl, hend⟩
  · simp
  · -- an end that stands before this one lies in the comment
    match a with
    | [] => simp
    | [c] => cases hend
    | c :: d :: a =>
      cases hend
      exact absurd ⟨u', a, by simp⟩ hu

/-- A block comment is passed over up to and with its end. -/
theorem next_comment_append {u : Text} (hu : ¬['*', '/'] <:+: u) (t : Text) :
    Next ('/' :: '*' :: (u ++ ['*', '/']) ++ t) none ('/' :: '*' :: (u ++ ['*', '/'])).length := by
  have hblank : Rule.startsBlank '/' = true := by decide
  have htaken : Rule.Taken (['/', '*'] ++ (u ++ '*' :: '/' :: t)) .comment 2 := by
    refine Rule.taken_append ⟨⟨.word "/*", .comment⟩, ?_, rfl, Piece.matches_word "/*"⟩ ?_ nofun
    · exact Rule.mem_grammar_iff.2 (.inl ⟨_, _, List.mem_cons_self .., rfl⟩)
    · intro r hr d x _ hm
      rcases Rule.rule_of_startsBlank hr hblank hm with ⟨w, o, hw, heq⟩ | hr
      · have := (Rule.head_of_fixed hw heq).2.2 rfl
        simp at this
      · rcases Rule.mem_blanks_iff.1 hr with rfl | ⟨mark, hmark, rfl⟩
        · have := (Rule.matches_whiteSpace_iff.1 hm).2 '/' (by simp)
          exact absurd this (by decide)
        · obtain ⟨v, heq, -⟩ := Rule.matches_lineAfter_iff.1 hm
          simp only [List.mem_cons, List.not_mem_nil, or_false] at hmark
          rcases hmark with rfl | rfl <;> cases heq
  have hnext : Next ('/' :: '*' :: (u ++ '*' :: '/' :: t)) none (2 + (u.length + 2)) :=
    .comment (closed_of_startsBlank hblank) htaken (commentEnds_append hu t)
  have htext : '/' :: '*' :: (u ++ ['*', '/']) ++ t = '/' :: '*' :: (u ++ '*' :: '/' :: t) := by
    simp
  have hlength : ('/' :: '*' :: (u ++ ['*', '/'])).length = 2 + (u.length + 2) := by
    simp
    omega
  rwa [htext, hlength]

/-- A block comment gives no tokens. -/
theorem lexemes_comment_append {u : Text} (hu : ¬['*', '/'] <:+: u) (t : Text) :
    lexemes ('/' :: '*' :: (u ++ '*' :: '/' :: t)) = lexemes t := by
  have hskip := lexemes_append_of_next (List.cons_ne_nil _ _) (next_comment_append hu t)
  rw [← hskip]
  simp

/-- Filling gives no tokens, whatever follows. -/
theorem lexemes_filling_append {s : Text} (h : Filling s) (t : Text) :
    lexemes (s ++ t) = lexemes t := by
  induction h with
  | nil => rfl
  | white hc _ ih => exact (lexemes_white_cons hc _).trans ih
  | @comment u s hu _ ih =>
    calc lexemes ('/' :: '*' :: (u ++ '*' :: '/' :: s) ++ t)
        = lexemes ('/' :: '*' :: (u ++ '*' :: '/' :: (s ++ t))) := by simp
      _ = lexemes (s ++ t) := lexemes_comment_append hu _
      _ = lexemes t := ih
  | @line mark u c s hmark hu hc _ ih =>
    calc lexemes (mark.toList ++ (u ++ c :: s) ++ t)
        = lexemes (mark.toList ++ (u ++ c :: (s ++ t))) := by simp
      _ = lexemes (s ++ t) := lexemes_line_append hmark hu hc
      _ = lexemes t := ih

/-- What keeps tokens apart gives no tokens itself. -/
theorem lexemes_separator_append {s : Text} (h : Separates s) (t : Text) :
    lexemes (s ++ t) = lexemes t := by
  cases h with
  | mk hc hfilling => exact (lexemes_white_cons hc _).trans (lexemes_filling_append hfilling t)

/-! ## Tokens before white space -/

/-- A part that lacks the first character after a cut lies before the cut. -/
theorem exists_of_append_eq {t r m u : Text} {c : Char} (h : t ++ c :: r = m ++ u) (hc : c ∉ m) :
    ∃ u', t = m ++ u' ∧ u = u' ++ c :: r := by
  rcases List.append_eq_append_iff.1 h with ⟨a, rfl, hrest⟩ | ⟨a, rfl, hrest⟩
  · cases a with
    | nil => exact ⟨[], by simp, hrest.symm⟩
    | cons d a =>
      cases hrest
      exact absurd (by simp) hc
  · exact ⟨a, rfl, hrest⟩

namespace Piece

open Pattern

/-- A body ends at the first quote at which a body can end. -/
theorem body_unique {q : Char} (hq : q ≠ '\\') {x : Text} : ∀ u v : Text,
    Matches (body q) u → Matches (body q) v → u ++ [q] = v ++ q :: x → x = []
  | [], v, _, _, h => by
    cases v with
    | nil => simpa using h.symm
    | cons d v => simp at h
  | c :: u, [], hu, _, h => by
    obtain ⟨rfl, -⟩ := List.cons.inj h
    rcases matches_body_cons.1 hu with ⟨⟨hcq, -⟩, -⟩ | ⟨hslash, -⟩
    · exact absurd rfl hcq
    · exact absurd hslash hq
  | c :: u, d :: v, hu, hv, h => by
    obtain ⟨rfl, hrest⟩ := List.cons.inj h
    rcases matches_body_cons.1 hu with ⟨⟨-, hplain, -⟩, hu'⟩ | ⟨hslash, e, u', rfl, -, hu'⟩
    · rcases matches_body_cons.1 hv with ⟨-, hv'⟩ | ⟨hslash, -⟩
      · exact body_unique hq u v hu' hv' hrest
      · exact absurd hslash hplain
    · rcases matches_body_cons.1 hv with ⟨⟨-, hplain, -⟩, -⟩ | ⟨-, e', v', rfl, -, hv'⟩
      · exact absurd hslash hplain
      · exact body_unique hq u' v' hu' hv' (List.cons.inj hrest).2
termination_by u => u.length

/-- A mark and its quote have no white space. -/
theorem not_mem_opening {c q : Char} {mark : Text} (hc : c ∈ whites) (hmark : mark ∈ marks)
    (hq : q = '\'' ∨ q = '"') : c ∉ mark ++ [q] := by
  have hmarks : ∀ mark ∈ marks, mark.all (· ∉ whites) = true := by decide
  have hquote : [q].all (· ∉ whites) = true := by rcases hq with rfl | rfl <;> decide
  apply not_mem_of_all_not_white hc
  rw [List.all_append, hmarks mark hmark, hquote]
  rfl

/-- In a text without an open literal each opening quote has a body with its quote after it. -/
theorem exists_body {mark rest : Text} {q : Char} (hmark : mark ∈ marks) (hq : q = '\'' ∨ q = '"')
    (hno : ∀ m, ¬Unfinished (mark ++ q :: rest) m) :
    ∃ u v, rest = u ++ q :: v ∧ Matches (body q) u := by
  have hslash : q ≠ '\\' := by rcases hq with rfl | rfl <;> decide
  have hopen := openQuote?_eq_some_iff.2 ⟨mark, hmark, rest, rfl, hq, rfl⟩
  have hclosed := unfinished?_eq_none (unfinished?_none_iff.2 hno) hopen
  have hdrop : (mark ++ q :: rest).drop (mark.length + 1) = rest := by
    rw [List.drop_length_add_append]
    rfl
  rw [hdrop] at hclosed
  obtain ⟨u, v, hrest, hu, -⟩ := openBody?_of_none hslash hclosed
  exact ⟨u, v, hrest, hu⟩

/-- White space after a text opens no literal in it. -/
theorem closed_append {t : Text} {c : Char} (h : ∀ m, ¬Unfinished t m) (hc : c ∈ whites) (r : Text)
    (m : Nat) : ¬Unfinished (t ++ c :: r) m := by
  rintro ⟨mark, hmark, q, rest, k, hq, heq, hno, -⟩
  have hsplit : t ++ c :: r = (mark ++ [q]) ++ rest := by simpa using heq
  obtain ⟨rest, rfl, rfl⟩ := exists_of_append_eq hsplit (not_mem_opening hc hmark hq)
  have ht : mark ++ [q] ++ rest = mark ++ q :: rest := by simp
  rw [ht] at h
  obtain ⟨u, v, rfl, hu⟩ := exists_body hmark hq h
  have hliteral : mark ++ [q] ++ (u ++ q :: v) ++ c :: r =
      (mark ++ q :: (u ++ [q])) ++ (v ++ c :: r) := by simp
  apply hno (mark ++ q :: (u ++ [q])).length
  rw [hliteral, List.take_left]
  exact matches_quoted hmark hu

end Piece

namespace Rule

open Pattern

/-- A token has no text of what stands between tokens. -/
theorem not_matches_blank {t : Text} {k : Kind} (h : Taken t (.token k) t.length) {r : Rule}
    (hr : r ∈ blanks) : ¬Matches r.pattern t := by
  intro hm
  obtain ⟨r', hr', houtcome, hm'⟩ := h.matched
  rw [List.take_length] at hm'
  have hblank := outcome_of_blanks r hr
  rcases outcome_unique hr' (mem_grammar_iff.2 (.inr (.inl hr))) hm' hm with
    heq | ⟨hname | hname, w, k', hw, heq⟩
  · rw [houtcome, hblank] at heq
    cases heq
  · have hspelled := h.spelled (houtcome.symm.trans hname) w k' hw
    rw [List.take_length] at hspelled
    exact hspelled heq
  · rw [hblank] at hname
    cases hname

/-- A literal ends before the white space after it. -/
theorem not_matches_quoted_append {t : Text} {c q : Char} (hno : ∀ m, ¬Piece.Unfinished t m)
    (hc : c ∈ whites) (hq : q = '\'' ∨ q = '"') (x : Text) :
    ¬Matches (quoted q) (t ++ c :: x) := by
  intro hm
  have hslash : q ≠ '\\' := by rcases hq with rfl | rfl <;> decide
  obtain ⟨mark, hmark, u, hu, heq⟩ := Piece.matches_quoted_iff.1 hm
  have hsplit : t ++ c :: x = (mark ++ [q]) ++ (u ++ [q]) := by simpa using heq
  obtain ⟨rest, rfl, hrest⟩ := exists_of_append_eq hsplit (Piece.not_mem_opening hc hmark hq)
  have ht : mark ++ [q] ++ rest = mark ++ q :: rest := by simp
  rw [ht] at hno
  obtain ⟨v, w, rfl, hv⟩ := Piece.exists_body hmark hq hno
  have hnil := Piece.body_unique hslash u v hu hv (x := w ++ c :: x) (by simpa using hrest)
  simp at hnil

/-- No rule goes on from a token to the white space after it. -/
theorem not_matches_append {t : Text} {k : Kind} {c : Char} (ht : t ≠ [])
    (hno : ∀ m, ¬Piece.Unfinished t m) (h : Taken t (.token k) t.length) (hc : c ∈ whites)
    {r : Rule} (hr : r ∈ grammar) (x : Text) : ¬Matches r.pattern (t ++ c :: x) := by
  intro hm
  have hmem : c ∈ t ++ c :: x := by simp
  have hall : ∀ r ∈ integers ++ floatings ++ [names], whites.all r.pattern.avoids = true := by
    decide
  have havoids : ∀ r ∈ integers ++ floatings ++ [names], r.pattern.avoids c = true := by
    intro r hr
    exact List.all_eq_true.1 (hall r hr) c hc
  rcases mem_grammar_iff.1 hr with ⟨w, o, hw, rfl⟩ | hr | hr
  · have hdark : ∀ e ∈ fixed, e.1.toList.all (· ∉ whites) = true := by decide +kernel
    rw [matches_word_iff.1 hm] at hmem
    exact not_mem_of_all_not_white hc (hdark _ hw) hmem
  · rcases mem_blanks_iff.1 hr with rfl | ⟨mark, hmark, rfl⟩
    · obtain ⟨-, hwhite⟩ := matches_whiteSpace_iff.1 hm
      refine not_matches_blank h hr (matches_whiteSpace_iff.2 ⟨ht, ?_⟩)
      intro d hd
      exact hwhite d (List.mem_append_left _ hd)
    · obtain ⟨u, heq, hreturn, hfeed⟩ := matches_lineAfter_iff.1 hm
      obtain ⟨u, rfl, rfl⟩ := exists_of_append_eq heq (not_mem_mark hmark hc)
      rw [List.mem_append, not_or] at hreturn hfeed
      exact not_matches_blank h hr (matches_lineAfter_iff.2 ⟨u, rfl, hreturn.1, hfeed.1⟩)
  · rcases mem_varying_iff.1 hr with hr | hr | hr
    · exact not_mem_of_avoids (havoids r (by simp [hr])) hm hmem
    · exact not_mem_of_avoids (havoids r (by simp [hr])) hm hmem
    · simp only [words, List.mem_cons, List.not_mem_nil, or_false] at hr
      rcases hr with rfl | rfl | rfl
      · exact not_matches_quoted_append hno hc (.inl rfl) x hm
      · exact not_matches_quoted_append hno hc (.inr rfl) x hm
      · exact not_mem_of_avoids (havoids names (by simp)) hm hmem

end Rule

/-- The text of a token is the token that the scan emits at its head. -/
theorem next_of_mem_lexemes {source : Text} {l : Lexeme} (hl : l ∈ lexemes source) :
    l.2 ≠ [] ∧ Next l.2 (some l.1) l.2.length := by
  obtain ⟨a, ha, rfl⟩ := List.mem_map.1 hl
  obtain ⟨i, hi⟩ := List.mem_iff_getElem?.1 ha
  obtain ⟨ht, hpiece, htext, -⟩ := Piece.ofText_eq_cons (ofText_between_self hi).2
  have hlength : (Piece.headLength a.text).2 = a.text.length := by
    have hle := (Piece.headLength_bounds ht).2
    have htake : a.text.length = (a.text.take (Piece.headLength a.text).2).length :=
      congrArg List.length htext
    rw [List.length_take] at htake
    omega
  obtain ⟨out, hnext⟩ := exists_next a.text
  have hout := (next_iff.1 hnext).2 (a.text.take (Piece.headLength a.text).2)
  rw [← hpiece] at hout
  obtain rfl : some a.kind = out := hout
  rw [hlength] at hnext
  exact ⟨ht, hnext⟩

/-- A token with white space after it is read back as it is. -/
theorem lexemes_token_append {source : Text} {l : Lexeme} (hl : l ∈ lexemes source) {c : Char}
    (hc : c ∈ whites) (r : Text) : lexemes (l.2 ++ c :: r) = l :: lexemes (c :: r) := by
  obtain ⟨ht, hnext⟩ := next_of_mem_lexemes hl
  obtain ⟨hno, htaken⟩ : (∀ m, ¬Piece.Unfinished l.2 m) ∧
      Rule.Taken l.2 (.token l.1) l.2.length := by
    cases hnext with
    | token hno htaken => exact ⟨hno, htaken⟩
  have hmatched := htaken.matched
  have hspelled := htaken.spelled
  rw [List.take_length] at hmatched hspelled
  have hlonger : Next (l.2 ++ c :: r) (some l.1) l.2.length := by
    refine .token (Piece.closed_append hno hc r) (Rule.taken_append hmatched ?_ hspelled)
    rintro r hr _ x ⟨⟩
    exact Rule.not_matches_append ht hno htaken hc hr x
  rw [lexemes_of_next_some (by simp) hlonger, List.take_left, List.drop_left]

/-! ## Tokens that stand apart -/

/-- Tokens of any sources that stand apart are read back one by one. -/
theorem lexemes_spread {first : Text} {parts : List (Lexeme × Text)} (hfirst : Separates first)
    (hparts : ∀ p ∈ parts, (∃ source, p.1 ∈ lexemes source) ∧ Separates p.2) :
    lexemes (spread first parts) = parts.map (·.1) := by
  rw [spread, lexemes_separator_append hfirst]
  clear hfirst
  induction parts with
  | nil => rw [lexemes_eq, List.flatMap_nil, Piece.ofText]; rfl
  | cons p parts ih =>
    obtain ⟨⟨⟨source, hsource⟩, hseparates⟩, hrest⟩ := List.forall_mem_cons.1 hparts
    obtain ⟨l, s⟩ := p
    have hskip := lexemes_separator_append hseparates (parts.flatMap fun p => p.1.2 ++ p.2)
    cases hseparates with
    | @mk c t hc ht =>
      calc lexemes (((l, c :: t) :: parts).flatMap fun p => p.1.2 ++ p.2)
          = lexemes (l.2 ++ c :: (t ++ parts.flatMap fun p => p.1.2 ++ p.2)) := by simp
        _ = l :: lexemes (c :: (t ++ parts.flatMap fun p => p.1.2 ++ p.2)) :=
            lexemes_token_append hsource hc _
        _ = l :: parts.map (·.1) := by rw [← ih hrest, ← hskip]; rfl

/-- Tokens of any sources that stand apart are read back with their texts and kinds. So the tables
and the lexical measures are those of the tokens alone, whatever stands between them. -/
theorem tokenize_spread {first : Text} {parts : List (Lexeme × Text)} (hfirst : Separates first)
    (hparts : ∀ p ∈ parts, (∃ source, p.1 ∈ lexemes source) ∧ Separates p.2) :
    (tokenize (spread first parts)).map Token.lexeme = parts.map (·.1) ∧
      ∀ ts : List Token, ts.map Token.lexeme = parts.map (·.1) →
        Ngram.countAll ((tokenize (spread first parts)).map (·.kind)) =
            Ngram.countAll (ts.map (·.kind)) ∧
          ∀ (α : Type) [Scalar α] (classes : TokenClasses),
            (Lexical.ofTokens (tokenize (spread first parts)) classes :
              Except Degeneracy (Lexical α)) = Lexical.ofTokens ts classes := by
  have hread : (tokenize (spread first parts)).map Token.lexeme = parts.map (·.1) :=
    lexemes_spread hfirst hparts
  refine ⟨hread, ?_⟩
  intro ts hts
  have hkinds : (tokenize (spread first parts)).map (·.kind) = ts.map (·.kind) := by
    have h := congrArg (List.map (·.1)) (hread.trans hts.symm)
    rwa [List.map_map, List.map_map] at h
  refine ⟨by rw [hkinds], ?_⟩
  intro α _ classes
  exact Lexical.ofTokens_perm (.of_eq hkinds) classes

/-- Tokens that a quote, a slash or a digit after them would change, with such characters in the
comments and directives between them. -/
def apart : List (Lexeme × Text) :=
  [((.identifier, ['u', '8']), [' ', '/', '*', '"', '*', '*', '/']),
    ((.punctuator .Div, ['/']), ['\t', '/', '/', '*', '\'', '\n']),
    ((.literal .integer, ['1', '\'', '0']), ['\n', '#', 'e', '+', '\r', ' ']),
    ((.literal .string, ['"', 'a', ' ', 'b', '"']), [' '])]

theorem tokenize_spread_apart :
    (Separates ['\n'] ∧ ∀ p ∈ apart, (∃ source, p.1 ∈ lexemes source) ∧ Separates p.2) ∧
      (tokenize (spread ['\n'] apart)).map Token.lexeme =
        [(.identifier, ['u', '8']), (.punctuator .Div, ['/']),
          (.literal .integer, ['1', '\'', '0']), (.literal .string, ['"', 'a', ' ', 'b', '"'])] := by
  have hfirst : Separates ['\n'] := .mk (by decide) .nil
  have htokens : apart.map (·.1) = lexemes "u8/1'0\"a b\"".toList := by decide +kernel
  have hseparates : ∀ p ∈ apart, Separates p.2 := by
    have hcomment : Separates [' ', '/', '*', '"', '*', '*', '/'] :=
      .mk (by decide) (.comment (u := ['"', '*']) (by decide) .nil)
    have hline : Separates ['\t', '/', '/', '*', '\'', '\n'] :=
      .mk (by decide) (@Filling.line "//" ['*', '\''] _ _ (by decide) (by decide) (by decide)
        .nil)
    have hdirective : Separates ['\n', '#', 'e', '+', '\r', ' '] :=
      .mk (by decide) (@Filling.line "#" ['e', '+'] _ _ (by decide) (by decide) (by decide)
        (.white (by decide) .nil))
    have hspace : Separates [' '] := .mk (by decide) .nil
    intro p hp
    simp only [apart, List.mem_cons, List.not_mem_nil, or_false] at hp
    rcases hp with rfl | rfl | rfl | rfl
    · exact hcomment
    · exact hline
    · exact hdirective
    · exact hspace
  have hparts : ∀ p ∈ apart, (∃ source, p.1 ∈ lexemes source) ∧ Separates p.2 := by
    intro p hp
    exact ⟨⟨_, htokens ▸ List.mem_map_of_mem hp⟩, hseparates p hp⟩
  exact ⟨⟨hfirst, hparts⟩, (tokenize_spread hfirst hparts).1⟩

end Stylometry
