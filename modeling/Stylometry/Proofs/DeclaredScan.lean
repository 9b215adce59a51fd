-- The scan told by the patterns alone. At each place an open literal is dropped, or the longest
-- text of a rule is taken, or one character is dropped when no rule has a text there. The token
-- stream is the only list of tokens that such a scan gives.
import Stylometry.Proofs.RuleChoice
import Stylometry.Proofs.TokenStream

namespace Stylometry

namespace Piece

open Pattern

/-! ## Open literals -/

/-- A literal is opened that its pattern does not complete. The scan drops its mark, its quote,
the characters that the body has, and a backslash that the body stops at. -/
def Unfinished (t : Text) (n : Nat) : Prop :=
  ∃ mark ∈ marks, ∃ q rest k, (q = '\'' ∨ q = '"') ∧ t = mark ++ q :: rest ∧
    (∀ m, ¬Matches (Rule.quoted q) (t.take m)) ∧ Longest (body q) rest k ∧
    n = mark.length + 1 + k + if (rest.drop k).head? = some '\\' then 1 else 0

/-- A body starts with a plain character or with a backslash that takes one along. -/
theorem matches_body_cons {q c : Char} {t : Text} :
    Matches (body q) (c :: t) ↔
      (c ≠ q ∧ c ≠ '\\' ∧ c ≠ '\r' ∧ c ≠ '\n') ∧ Matches (body q) t ∨
        c = '\\' ∧ ∃ d u, t = d :: u ∧ d ≠ '\n' ∧ Matches (body q) u := by
  unfold body
  rw [matches_many_cons]
  constructor
  · rintro ⟨u, v, rfl, hu, hv⟩
    rcases matches_alt_iff.1 hu with h | h
    · obtain ⟨d, hd, heq⟩ := matches_one_iff.1 h
      cases heq
      exact .inl ⟨by simpa [and_assoc] using hd, hv⟩
    · obtain ⟨x, y, heq, hx, hy⟩ := matches_seq_iff.1 h
      obtain ⟨a, ha, rfl⟩ := matches_one_iff.1 hx
      obtain ⟨d, hd, rfl⟩ := matches_one_iff.1 hy
      cases heq
      exact .inr ⟨by simpa using ha, d, v, rfl, by simpa using hd, hv⟩
  · rintro (⟨h, ht⟩ | ⟨rfl, d, u, rfl, hd, hu⟩)
    · exact ⟨[], t, rfl, .left (.one (by simpa [and_assoc] using h)), ht⟩
    · have hpair : Matches (.seq (.char '\\') (.one (· ≠ '\n'))) (['\\'] ++ [d]) :=
        .seq (.one (by simp)) (.one (by simpa using hd))
      exact ⟨[d], u, rfl, .right hpair, hu⟩

theorem longest_body_plain {q c : Char} {t : Text} {k : Nat}
    (hc : c ≠ q ∧ c ≠ '\\' ∧ c ≠ '\r' ∧ c ≠ '\n') (h : Longest (body q) t k) :
    Longest (body q) (c :: t) (k + 1) := by
  refine ⟨Nat.succ_le_succ h.le_length, ?_, ?_⟩
  · rw [List.take_succ_cons, matches_body_cons]
    exact .inl ⟨hc, h.matched⟩
  · intro m hm hmatch
    cases m with
    | zero => exact Nat.zero_le _
    | succ m =>
      rw [List.take_succ_cons, matches_body_cons] at hmatch
      rcases hmatch with ⟨-, hmatch⟩ | ⟨hslash, -⟩
      · exact Nat.succ_le_succ (h.longest m (Nat.le_of_succ_le_succ hm) hmatch)
      · exact absurd hslash hc.2.1

theorem longest_body_pair {q d : Char} {t : Text} {k : Nat} (hd : d ≠ '\n')
    (h : Longest (body q) t k) : Longest (body q) ('\\' :: d :: t) (k + 2) := by
  refine ⟨Nat.succ_le_succ (Nat.succ_le_succ h.le_length), ?_, ?_⟩
  · rw [List.take_succ_cons, List.take_succ_cons, matches_body_cons]
    exact .inr ⟨rfl, d, t.take k, rfl, hd, h.matched⟩
  · intro m hm hmatch
    match m with
    | 0 => exact Nat.zero_le _
    | 1 => omega
    | m + 2 =>
      rw [List.take_succ_cons, List.take_succ_cons, matches_body_cons] at hmatch
      rcases hmatch with ⟨hplain, -⟩ | ⟨-, d', u, heq, -, hu⟩
      · exact absurd rfl hplain.2.1
      · cases heq
        simp only [List.length_cons] at hm
        have := h.longest m (by omega) hu
        omega

/-- Where no character can be taken the body is empty. -/
theorem longest_body_stuck {q : Char} {t : Text}
    (h : ∀ u, u <+: t → Matches (body q) u → u = []) : Longest (body q) t 0 := by
  refine ⟨Nat.zero_le _, .stop, ?_⟩
  intro m hm hmatch
  have hnil := h _ (List.take_prefix m t) hmatch
  rw [List.take_eq_nil_iff] at hnil
  rcases hnil with rfl | rfl
  · exact Nat.le_refl 0
  · exact hm

/-- The body of an open literal takes what it can, and a backslash that it stops at counts. -/
theorem longest_of_openBody? {q : Char} {t : Text} {j : Nat} (h : openBody? q t = some j) :
    ∃ k, Longest (body q) t k ∧ j = k + if (t.drop k).head? = some '\\' then 1 else 0 := by
  have hstuck : ∀ {c : Char} {t : Text}, (∀ u, u <+: t → ¬Matches (body q) (c :: u)) →
      Longest (body q) (c :: t) 0 := by
    intro c t hno
    apply longest_body_stuck
    intro u hu hm
    cases u with
    | nil => rfl
    | cons d u =>
      obtain ⟨rfl, hrest⟩ := List.cons_prefix_cons.1 hu
      exact absurd hm (hno u hrest)
  fun_induction openBody? q t generalizing j with
  | case1 =>
    cases h
    exact ⟨0, longest_body_stuck fun u hu _ => List.prefix_nil.1 hu, rfl⟩
  | case2 t =>
    cases h
    refine ⟨0, hstuck ?_, rfl⟩
    intro u hu hm
    rcases matches_body_cons.1 hm with ⟨hplain, -⟩ | ⟨-, d, w, rfl, hd, -⟩
    · exact hplain.2.1 rfl
    · exact hd (List.cons_prefix_cons.1 hu).1
  | case3 c t hc ih =>
    obtain ⟨i, hi, rfl⟩ := Option.map_eq_some_iff.1 h
    obtain ⟨k, hk, rfl⟩ := ih hi
    exact ⟨k + 2, longest_body_pair hc hk, by simp only [List.drop_succ_cons]; omega⟩
  | case4 => cases h
  | case5 c t hx hq hend =>
    cases h
    have hc : ¬(c ≠ '\r' ∧ c ≠ '\n') ∧ c ≠ '\\' := by
      simp only [Bool.or_eq_true, decide_eq_true_eq] at hend
      rcases hend with rfl | rfl <;> simp
    refine ⟨0, hstuck ?_, by simp [hc.2]⟩
    intro u _ hm
    rcases matches_body_cons.1 hm with ⟨hplain, -⟩ | ⟨hslash, -⟩
    · exact hc.1 hplain.2.2
    · exact hc.2 hslash
  | case6 c t hx hq hend ih =>
    obtain ⟨i, hi, rfl⟩ := Option.map_eq_some_iff.1 h
    simp only [Bool.or_eq_true, decide_eq_true_eq, not_or] at hend
    by_cases hslash : c = '\\'
    · -- a backslash at the end of the text takes no character along
      obtain rfl : t = [] := by
        cases t with
        | nil => rfl
        | cons d u => exact absurd rfl (hx d u hslash)
      cases hi
      refine ⟨0, hstuck ?_, by simp [hslash]⟩
      intro u hu hm
      obtain rfl := List.prefix_nil.1 hu
      rcases matches_body_cons.1 hm with ⟨hplain, -⟩ | ⟨-, d, w, hnil, -⟩
      · exact hplain.2.1 hslash
      · cases hnil
    · obtain ⟨k, hk, rfl⟩ := ih hi
      exact ⟨k + 1, longest_body_plain ⟨hq, hslash, hend⟩ hk,
        by simp only [List.drop_succ_cons]; omega⟩

/-- A body with its quote after it closes the literal. -/
theorem openBody?_of_body {q : Char} (hq : q ≠ '\\') (v : Text) : ∀ u : Text,
    Matches (body q) u → openBody? q (u ++ q :: v) = none
  | [], _ => by rw [List.nil_append, openBody?_cons fun h => absurd h hq, if_pos rfl]
  | c :: u, h => by
    rcases matches_body_cons.1 h with ⟨⟨hcq, hslash, hr, hn⟩, hu⟩ | ⟨rfl, d, w, rfl, hd, hw⟩
    · rw [List.cons_append, openBody?_cons fun h => absurd h hslash, if_neg hcq,
        if_neg (by simp [hr, hn]), openBody?_of_body hq v u hu]
      rfl
    · rw [List.cons_append, List.cons_append, openBody?, if_neg hd, openBody?_of_body hq v w hw]
      rfl
termination_by u => u.length

/-- An opened literal is complete when its body is closed. -/
theorem matches_quoted_take {mark rest : Text} {q : Char} (hmark : mark ∈ marks)
    (hq : q = '\'' ∨ q = '"') :
    (∃ m, Matches (Rule.quoted q) ((mark ++ q :: rest).take m)) ↔ openBody? q rest = none := by
  have hslash : q ≠ '\\' := by rcases hq with rfl | rfl <;> decide
  constructor
  · rintro ⟨m, hm⟩
    obtain ⟨mark', hmark', u, hu, htake⟩ := matches_quoted_iff.1 hm
    have hsplit : mark ++ q :: rest =
        mark' ++ q :: (u ++ q :: (mark ++ q :: rest).drop m) := by
      calc mark ++ q :: rest = (mark ++ q :: rest).take m ++ (mark ++ q :: rest).drop m :=
            (List.take_append_drop m _).symm
        _ = mark' ++ q :: (u ++ q :: (mark ++ q :: rest).drop m) := by rw [htake]; simp
    -- the literal that matches opens with the same mark, for the text says which one it is
    have hopen := openQuote?_eq_some_iff.2 ⟨mark, hmark, rest, rfl, hq, rfl⟩
    have hopen' := openQuote?_eq_some_iff.2 ⟨mark', hmark', _, hsplit, hq, rfl⟩
    rw [hopen] at hopen'
    have hlength : mark.length = mark'.length := by simpa using hopen'
    obtain ⟨-, hrest⟩ := List.append_inj hsplit hlength
    rw [List.cons.inj hrest |>.2]
    exact openBody?_of_body hslash _ u hu
  · intro h
    obtain ⟨u, v, rfl, hu, -⟩ := openBody?_of_none hslash h
    refine ⟨(mark ++ q :: (u ++ [q])).length, ?_⟩
    have hsplit : mark ++ q :: (u ++ q :: v) = (mark ++ q :: (u ++ [q])) ++ v := by simp
    rw [hsplit, List.take_left]
    exact matches_quoted hmark hu

theorem unfinished?_iff {t : Text} {n : Nat} : unfinished? t = some n ↔ Unfinished t n := by
  constructor
  · intro h
    obtain ⟨q, m, j, hopen, hbody, rfl⟩ := unfinished?_eq_some h
    obtain ⟨mark, hmark, rest, rfl, hq, rfl⟩ := openQuote?_eq_some_iff.1 hopen
    rw [List.drop_length_add_append] at hbody
    obtain ⟨k, hk, rfl⟩ := longest_of_openBody? hbody
    refine ⟨mark, hmark, q, rest, k, hq, rfl, ?_, hk, (Nat.add_assoc ..).symm⟩
    intro m hm
    have hnone := (matches_quoted_take hmark hq).1 ⟨m, hm⟩
    rw [List.drop_succ_cons, List.drop_zero, hnone] at hbody
    cases hbody
  · rintro ⟨mark, hmark, q, rest, k, hq, rfl, hno, hk, rfl⟩
    have hopen := openQuote?_eq_some_iff.2 ⟨mark, hmark, rest, rfl, hq, rfl⟩
    have hdrop : (mark ++ q :: rest).drop (mark.length + 1) = rest := by
      rw [List.drop_length_add_append]
      rfl
    unfold unfinished?
    rw [hopen, Option.bind_some]
    dsimp only
    rw [hdrop]
    cases hbody : openBody? q rest with
    | none =>
      obtain ⟨m, hm⟩ := (matches_quoted_take hmark hq).2 hbody
      exact absurd hm (hno m)
    | some j =>
      obtain ⟨k', hk', rfl⟩ := longest_of_openBody? hbody
      rw [hk'.unique hk, Option.map_some, ← Nat.add_assoc]

/-! ## Comments -/

/-- A block comment goes up to and with the next end of a comment, or to the end of the text. -/
inductive CommentEnds : Text → Nat → Prop
  | closed {u v : Text} : (∀ u' v', u ++ '*' :: '/' :: v = u' ++ '*' :: '/' :: v' →
      u.length ≤ u'.length) → CommentEnds (u ++ '*' :: '/' :: v) (u.length + 2)
  | unclosed {t : Text} : (∀ u v, t ≠ u ++ '*' :: '/' :: v) → CommentEnds t t.length

theorem commentEnds_commentLength (t : Text) : CommentEnds t (commentLength t) := by
  induction t with
  | nil => exact .unclosed (by simp)
  | cons c t ih =>
    rw [commentLength_cons]
    split
    · next hhead =>
      obtain ⟨v, hv⟩ := List.isPrefixOf_iff_prefix.1 hhead
      rw [← hv]
      exact .closed (u := []) fun u' v' _ => Nat.zero_le _
    · next hhead =>
      have hcons : ∀ u v, c :: t = u ++ '*' :: '/' :: v → ∃ w, u = c :: w ∧
          t = w ++ '*' :: '/' :: v := by
        intro u v heq
        cases u with
        | nil =>
          rw [heq] at hhead
          exact absurd (List.isPrefixOf_iff_prefix.2 ⟨v, rfl⟩) hhead
        | cons d u =>
          cases heq
          exact ⟨u, rfl, rfl⟩
      generalize commentLength t = n at ih
      cases ih with
      | @closed u v hfirst =>
        refine .closed (u := c :: u) ?_
        intro u' v' heq
        obtain ⟨w, rfl, hw⟩ := hcons u' v' heq
        exact Nat.succ_le_succ (hfirst w v' hw)
      | unclosed hno =>
        refine .unclosed ?_
        intro u v heq
        obtain ⟨w, -, hw⟩ := hcons u v heq
        exact hno w v hw

theorem CommentEnds.unique {t : Text} {m n : Nat} (hm : CommentEnds t m) (hn : CommentEnds t n) :
    m = n := by
  cases hm with
  | @closed u v hfirst =>
    generalize ht : u ++ '*' :: '/' :: v = t at hn
    cases hn with
    | @closed u' v' hfirst' =>
      have h := hfirst u' v' ht
      have h' := hfirst' u v ht.symm
      omega
    | unclosed hno => exact absurd ht.symm (hno u v)
  | unclosed hno =>
    cases hn with
    | @closed u v => exact absurd rfl (hno u v)
    | unclosed => rfl

end Piece

/-! ## The scan -/

/-- What the scan does at the head of a text: it takes some characters and emits a token of a kind
or nothing. -/
inductive Next (t : Text) : Option Kind → Nat → Prop
  | unfinished {n} : Piece.Unfinished t n → Next t none n
  | token {k n} : (∀ m, ¬Piece.Unfinished t m) → Rule.Taken t (.token k) n → Next t (some k) n
  | blank {n} : (∀ m, ¬Piece.Unfinished t m) → Rule.Taken t .blank n → Next t none n
  | comment {n m} : (∀ m, ¬Piece.Unfinished t m) → Rule.Taken t .comment n →
      Piece.CommentEnds (t.drop n) m → Next t none (n + m)
  | stray : (∀ m, ¬Piece.Unfinished t m) →
      (∀ r ∈ Rule.grammar, ∀ m, ¬Pattern.Matches r.pattern (t.take m)) → Next t none 1

/-- The tokens that the scan of a source emits from a place on, with the text before the place and
the text after it. -/
inductive Scans (source : Text) : Text → Text → List Token → Prop
  | done {before} : Scans source before [] []
  | drop {before t ts n} : t ≠ [] → Next t none n →
      Scans source (before ++ t.take n) (t.drop n) ts → Scans source before t ts
  | emit {before t ts k n} : t ≠ [] → Next t (some k) n →
      Scans source (before ++ t.take n) (t.drop n) ts →
      Scans source before t
        (⟨k, t.take n, (LineTable.ofText source).position (Text.byteLength before)⟩ :: ts)

theorem unfinished?_none_iff {t : Text} :
    Piece.unfinished? t = none ↔ ∀ m, ¬Piece.Unfinished t m := by
  constructor
  · intro h m hm
    rw [Piece.unfinished?_iff.2 hm] at h
    cases h
  · intro h
    cases hn : Piece.unfinished? t with
    | none => rfl
    | some n => exact absurd (Piece.unfinished?_iff.1 hn) (h n)

theorem longestOf_grammar_none_iff {t : Text} :
    Rule.longestOf Rule.grammar t = none ↔
      ∀ r ∈ Rule.grammar, ∀ m, ¬Pattern.Matches r.pattern (t.take m) := by
  constructor
  · intro h r hr m hm
    have htake : t.take (min m t.length) = t.take m := by
      rcases Nat.le_total m t.length with hle | hle
      · rw [Nat.min_eq_left hle]
      · rw [Nat.min_eq_right hle, List.take_length, List.take_of_length_le hle]
    have hnone := Pattern.longest?_eq_none_iff.1 (Rule.longestOf_eq_none h r hr)
    exact hnone (min m t.length) (Nat.min_le_right ..) (htake ▸ hm)
  · intro h
    cases hl : Rule.longestOf Rule.grammar t with
    | none => rfl
    | some b =>
      obtain ⟨r, hr, -, hm⟩ := (Rule.longestOf_grammar_iff.1 hl).matched
      exact absurd hm (h r hr _)

/-- The kind of the token that a piece is. -/
def Piece.kind? : Piece → Option Kind
  | .token k _ => some k
  | .blank _ => none
  | .stray _ => none

/-- The step of the scan is the piece at the head. -/
theorem next_iff {t : Text} {out : Option Kind} {n : Nat} :
    Next t out n ↔ (Piece.headLength t).2 = n ∧ ∀ u, ((Piece.headLength t).1 u).kind? = out := by
  unfold Piece.headLength
  constructor
  · intro h
    cases h with
    | unfinished h =>
      rw [Piece.unfinished?_iff.2 h]
      exact ⟨rfl, fun u => rfl⟩
    | token hno h =>
      rw [unfinished?_none_iff.2 hno, Rule.longestOf_grammar_iff.2 h]
      exact ⟨rfl, fun u => rfl⟩
    | blank hno h =>
      rw [unfinished?_none_iff.2 hno, Rule.longestOf_grammar_iff.2 h]
      exact ⟨rfl, fun u => rfl⟩
    | @comment k m hno h hend =>
      rw [unfinished?_none_iff.2 hno, Rule.longestOf_grammar_iff.2 h]
      have hlength := (Piece.commentEnds_commentLength (t.drop k)).unique hend
      exact ⟨congrArg (k + ·) hlength, fun u => rfl⟩
    | stray hno h =>
      rw [unfinished?_none_iff.2 hno, longestOf_grammar_none_iff.2 h]
      exact ⟨rfl, fun u => rfl⟩
  · rintro ⟨rfl, h⟩
    obtain rfl := h []
    cases hun : Piece.unfinished? t with
    | some n => exact .unfinished (Piece.unfinished?_iff.1 hun)
    | none =>
      have hno := unfinished?_none_iff.1 hun
      cases hl : Rule.longestOf Rule.grammar t with
      | none => exact .stray hno (longestOf_grammar_none_iff.1 hl)
      | some b =>
        obtain ⟨o, n⟩ := b
        have htaken := Rule.longestOf_grammar_iff.1 hl
        cases o with
        | token k => exact .token hno htaken
        | blank => exact .blank hno htaken
        | comment => exact .comment hno htaken (Piece.commentEnds_commentLength _)

theorem exists_next (t : Text) : ∃ out, Next t out (Piece.headLength t).2 := by
  refine ⟨((Piece.headLength t).1 []).kind?, next_iff.2 ⟨rfl, ?_⟩⟩
  intro u
  unfold Piece.headLength
  split
  · rfl
  · split <;> rfl

theorem place_cons (table : LineTable) (offset : Nat) (p : Piece) (ps : List Piece) :
    Token.place table offset (p :: ps) =
      (p.kind?.map fun k => ⟨k, p.text, table.position offset⟩).toList ++
        Token.place table (offset + Text.byteLength p.text) ps := by
  cases p <;> rfl

/-- The tokens that a scan emits are those of the pieces. -/
theorem scans_iff {source before t : Text} {ts : List Token} :
    Scans source before t ts ↔
      ts = Token.place (.ofText source) (Text.byteLength before) (Piece.ofText t) := by
  constructor
  · intro h
    induction h with
    | done => rw [Piece.ofText, Token.place]
    | drop ht hnext _ ih =>
      obtain ⟨rfl, hkind⟩ := next_iff.1 hnext
      rw [Piece.ofText_of_ne_nil ht, place_cons, hkind, Piece.text_headLength, ih,
        Text.byteLength_append]
      rfl
    | emit ht hnext _ ih =>
      obtain ⟨rfl, hkind⟩ := next_iff.1 hnext
      rw [Piece.ofText_of_ne_nil ht, place_cons, hkind, Piece.text_headLength, ih,
        Text.byteLength_append]
      rfl
  · rintro rfl
    -- induction on the length of what is left
    induction hlength : t.length using Nat.strongRecOn generalizing t before with
    | ind len ih =>
      by_cases ht : t = []
      · rw [ht, Piece.ofText, Token.place]
        exact .done
      · obtain ⟨hpos, -⟩ := Piece.headLength_bounds ht
        obtain ⟨out, hnext⟩ := exists_next t
        obtain ⟨-, hkind⟩ := next_iff.1 hnext
        generalize hn : (Piece.headLength t).2 = n at hnext hpos
        have hshorter : (t.drop n).length < len := by
          have := List.length_pos_iff.2 ht
          rw [List.length_drop]
          omega
        have hrest : Scans source (before ++ t.take n) (t.drop n)
            (Token.place (.ofText source) (Text.byteLength (before ++ t.take n))
              (Piece.ofText (t.drop n))) := ih _ hshorter rfl
        rw [Text.byteLength_append] at hrest
        rw [Piece.ofText_of_ne_nil ht, place_cons, Piece.text_headLength, hkind, hn]
        cases out with
        | none => exact .drop ht hnext hrest
        | some k => exact .emit ht hnext hrest

/-! ## What the scan emits -/

theorem matches_of_scans {source before t : Text} {ts : List Token}
    (h : Scans source before t ts) : ∀ a ∈ ts, ∃ r ∈ Rule.grammar,
      r.outcome = .token a.kind ∧ Pattern.Matches r.pattern a.text := by
  induction h with
  | done => simp
  | drop _ _ _ ih => exact ih
  | emit _ hnext _ ih =>
    intro a ha
    rcases List.mem_cons.1 ha with rfl | ha
    · cases hnext with
      | token _ htaken => exact htaken.matched
    · exact ih a ha

/-- A number opens with a digit, or with a point and a digit. -/
def OpensNumber (t : Text) : Prop :=
  ∃ c u, Rule.isDigit c = true ∧ (t = c :: u ∨ t = '.' :: c :: u)

theorem not_opensNumber_of_fixed {w : String} {o : Outcome} (hw : (w, o) ∈ Rule.fixed) :
    ¬OpensNumber w.toList := by
  have hall : ∀ e ∈ Rule.fixed, (match e.1.toList with
      | c :: d :: _ => !Rule.isDigit c && !(c == '.' && Rule.isDigit d)
      | [c] => !Rule.isDigit c
      | [] => true) = true := by decide +kernel
  have hword := hall _ hw
  rintro ⟨c, u, hc, h | h⟩
  · dsimp only at hword
    rw [h] at hword
    cases u with
    | nil => simp [hc] at hword
    | cons d u => simp [hc] at hword
  · dsimp only at hword
    rw [h] at hword
    simp [hc] at hword

theorem OpensNumber.head {t : Text} (h : OpensNumber t) :
    ∃ c u, t = c :: u ∧ Rule.startsNumber c = true := by
  obtain ⟨c, u, hc, rfl | rfl⟩ := h
  · exact ⟨c, u, rfl, by simp [Rule.startsNumber, hc]⟩
  · exact ⟨'.', c :: u, rfl, rfl⟩

/-- A rule with a text that opens a number is a rule of the numbers. -/
theorem number_of_matches {r : Rule} (hr : r ∈ Rule.grammar) {t : Text} (ht : OpensNumber t)
    (hm : Pattern.Matches r.pattern t) : r ∈ Rule.integers ∨ r ∈ Rule.floatings := by
  obtain ⟨c, u, rfl, hc⟩ := ht.head
  have hword := Rule.startsWord_of_number hc
  rcases Rule.mem_grammar_iff.1 hr with ⟨w, o, hw, rfl⟩ | hr | hr
  · rw [Pattern.matches_word_iff.1 hm] at ht
    exact absurd ht (not_opensNumber_of_fixed hw)
  · have hblank := (Rule.starts_of_blank (Rule.startsBlank_of_matches hr hm)).1
    rw [hc] at hblank
    cases hblank
  · rcases Rule.mem_varying_iff.1 hr with hr | hr | hr
    · exact .inl hr
    · exact .inr hr
    · rw [Rule.startsWord_of_matches hr hm] at hword
      cases hword

/-- A number that opens is no literal in quotes, and its first characters are a number. -/
theorem OpensNumber.closed {t : Text} (h : OpensNumber t) (m : Nat) : ¬Piece.Unfinished t m := by
  obtain ⟨c, u, rfl, hc⟩ := h.head
  have hword := Rule.startsWord_of_number hc
  rintro ⟨mark, hmark, q, rest, k, hq, heq, -⟩
  have hquote : Rule.startsWord q = true := by rcases hq with rfl | rfl <;> decide
  rw [Rule.startsWord_of_mark hmark hquote heq] at hword
  cases hword

theorem OpensNumber.exists_matches {t : Text} (h : OpensNumber t) :
    ∃ r ∈ Rule.grammar, ∃ k ≤ t.length, Pattern.Matches r.pattern (t.take k) ∧
      ∀ n, k ≤ n → OpensNumber (t.take n) := by
  have hmem : ∀ {r : Rule}, r ∈ Rule.varying → r ∈ Rule.grammar :=
    fun hr => Rule.mem_grammar_iff.2 (.inr (.inr hr))
  obtain ⟨c, u, hc, rfl | rfl⟩ := h
  · have hnumber : Pattern.Matches (.seq (Rule.grouped Rule.isDigit) Rule.integerEnd)
        (([c] ++ []) ++ []) := .seq (.seq (.one hc) .stop) .stop
    refine ⟨_, hmem (List.mem_cons_self ..), 1, by simp, hnumber, ?_⟩
    intro n hn
    obtain ⟨j, rfl⟩ : ∃ j, n = j + 1 := ⟨n - 1, by omega⟩
    exact ⟨c, u.take j, hc, .inl rfl⟩
  · have hnumber : Pattern.Matches (.all [.char '.', .oneOrMore Rule.digit, .opt Rule.exponent,
        Rule.floatingEnd]) (['.'] ++ (([c] ++ []) ++ ([] ++ ([] ++ [])))) :=
      .seq (.one rfl) (.seq (.seq (.one hc) .stop)
        (.seq (.right .nothing) (.seq (.right .nothing) .nothing)))
    refine ⟨_, hmem (List.mem_of_getElem? (i := 4) rfl), 2, by simp, hnumber, ?_⟩
    intro n hn
    obtain ⟨j, rfl⟩ : ∃ j, n = j + 2 := ⟨n - 2, by omega⟩
    exact ⟨c, u.take j, hc, .inr rfl⟩

/-- Where a number opens the longest text of a number is the next token. -/
theorem next_of_opensNumber {t : Text} (h : OpensNumber t) :
    ∃ sort n, Next t (some (.literal sort)) n ∧
      (∃ r ∈ Rule.integers ++ Rule.floatings, r.outcome = .token (.literal sort) ∧
        Pattern.Matches r.pattern (t.take n)) ∧
      ∀ r ∈ Rule.integers ++ Rule.floatings, ∀ m ≤ t.length,
        Pattern.Matches r.pattern (t.take m) → m ≤ n := by
  obtain ⟨r, hr, k, hk, hm, hopens⟩ := h.exists_matches
  obtain ⟨o, n, hfound, hkn⟩ := Rule.exists_longestOf hr hk hm
  have htaken := Rule.longestOf_grammar_iff.1 hfound
  obtain ⟨r', hr', rfl, hm'⟩ := htaken.matched
  have hlongest : ∀ r ∈ Rule.integers ++ Rule.floatings, ∀ m ≤ t.length,
      Pattern.Matches r.pattern (t.take m) → m ≤ n := by
    intro r hr m hle
    rw [List.mem_append] at hr
    refine htaken.longest r (Rule.mem_grammar_iff.2 (.inr (.inr (Rule.mem_varying_iff.2 ?_)))) m hle
    exact hr.imp_right .inl
  rcases number_of_matches hr' (hopens n hkn) hm' with hnumber | hnumber
  · have houtcome := Rule.outcome_of_integers r' hnumber
    rw [houtcome] at htaken
    exact ⟨.integer, n, .token h.closed htaken,
      ⟨r', List.mem_append_left _ hnumber, houtcome, hm'⟩, hlongest⟩
  · have houtcome := Rule.outcome_of_floatings r' hnumber
    rw [houtcome] at htaken
    exact ⟨.floating, n, .token h.closed htaken,
      ⟨r', List.mem_append_right _ hnumber, houtcome, hm'⟩, hlongest⟩

/-- The token stream is what the declared patterns say: the only tokens that a scan of the source
emits. None of them is two signs of a right shift. A number that does not go on is cut back to
the longest text of a number. -/
theorem tokenize_by_patterns (source : Text) :
    (∀ ts, Scans source [] source ts ↔ ts = tokenize source) ∧
      (∀ a ∈ tokenize source, a.text ≠ ['>', '>'] ∧ a.text ≠ ['>', '>', '=']) ∧
      ∀ t, OpensNumber t → ∃ sort n, Next t (some (.literal sort)) n ∧
        (∃ r ∈ Rule.integers ++ Rule.floatings, r.outcome = .token (.literal sort) ∧
          Pattern.Matches r.pattern (t.take n)) ∧
        ∀ r ∈ Rule.integers ++ Rule.floatings, ∀ m ≤ t.length,
          Pattern.Matches r.pattern (t.take m) → m ≤ n := by
  have hscans : ∀ ts, Scans source [] source ts ↔ ts = tokenize source := fun ts => scans_iff
  refine ⟨hscans, ?_, fun t => next_of_opensNumber⟩
  intro a ha
  obtain ⟨r, hr, -, hm⟩ := matches_of_scans ((hscans _).2 rfl) a ha
  have hshift : ∀ r ∈ Rule.grammar, ∀ t ∈ [['>', '>'], ['>', '>', '=']],
      r.pattern.longest? t ≠ some t.length := by decide +kernel
  constructor
  · intro heq
    rw [heq] at hm
    exact hshift r hr _ (by simp) (Pattern.longest?_of_matches hm)
  · intro heq
    rw [heq] at hm
    exact hshift r hr _ (by simp) (Pattern.longest?_of_matches hm)

end Stylometry
