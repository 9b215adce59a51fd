-- The scan looks ahead only as far as the piece that it cuts off and one character more. So
-- a text that is cut off after a token has the same pieces up to that token.
import Stylometry.Proofs.PatternMatch
import Stylometry.Token.Scan

namespace Stylometry

/-! ## The rule that counts -/

namespace Rule

/-- The best match so far, after some rules more. -/
def bestOf (best : Option (Outcome × Nat)) (rules : List Rule) (t : Text) :
    Option (Outcome × Nat) :=
  rules.foldl (fun best r => better best r.outcome (r.pattern.longest? t)) best

theorem bestOf_cons (best : Option (Outcome × Nat)) (r : Rule) (rules : List Rule) (t : Text) :
    bestOf best (r :: rules) t =
      bestOf (better best r.outcome (r.pattern.longest? t)) rules t := rfl

theorem longestOf_eq_bestOf (rules : List Rule) (t : Text) :
    longestOf rules t = bestOf none rules t := rfl

/-- A match counts when it is found, unless the one before is as long. -/
theorem better_cases (best : Option (Outcome × Nat)) (o : Outcome) (n : Option Nat) :
    better best o n = best ∧ (∀ k, n = some k → ∃ o' m, best = some (o', m) ∧ k ≤ m) ∨
      ∃ k, n = some k ∧ better best o n = some (o, k) ∧
        ∀ o' m, best = some (o', m) → m < k := by
  cases n with
  | none => exact .inl ⟨rfl, by simp⟩
  | some k =>
    cases best with
    | none => exact .inr ⟨k, rfl, rfl, by simp⟩
    | some b =>
      obtain ⟨o', m⟩ := b
      by_cases h : m < k
      · refine .inr ⟨k, rfl, if_pos h, ?_⟩
        rintro _ _ ⟨⟩
        exact h
      · refine .inl ⟨if_neg h, ?_⟩
        rintro _ ⟨⟩
        exact ⟨o', m, rfl, Nat.le_of_not_lt h⟩

/-- The best match is one of the matches, and no match is longer. -/
theorem bestOf_cases (rules : List Rule) (t : Text) (best : Option (Outcome × Nat)) :
    (bestOf best rules t = best ∨ ∃ r ∈ rules, ∃ n, r.pattern.longest? t = some n ∧
        bestOf best rules t = some (r.outcome, n)) ∧
      (∀ o' m, best = some (o', m) → ∃ o n, bestOf best rules t = some (o, n) ∧ m ≤ n) ∧
      ∀ r ∈ rules, ∀ k, r.pattern.longest? t = some k →
        ∃ o n, bestOf best rules t = some (o, n) ∧ k ≤ n := by
  induction rules generalizing best with
  | nil => exact ⟨.inl rfl, fun o' m h => ⟨o', m, h, Nat.le_refl m⟩, by simp⟩
  | cons r rules ih =>
    rw [bestOf_cons]
    obtain ⟨hfrom, hbest, hrules⟩ := ih (better best r.outcome (r.pattern.longest? t))
    have hmem : ∀ x, (x ∈ r :: rules) ↔ x = r ∨ x ∈ rules := fun x => List.mem_cons
    rcases better_cases best r.outcome (r.pattern.longest? t) with ⟨heq, hk⟩ | ⟨k, hk, heq, hlt⟩
    · rw [heq] at hfrom hbest hrules ⊢
      refine ⟨?_, hbest, ?_⟩
      · rcases hfrom with h | ⟨r', hr', h⟩
        · exact .inl h
        · exact .inr ⟨r', List.mem_cons_of_mem r hr', h⟩
      · intro r' hr' k' hk'
        rcases (hmem r').1 hr' with rfl | hr'
        · obtain ⟨o', m, hm, hle⟩ := hk k' hk'
          obtain ⟨o, n, hn, hle'⟩ := hbest o' m hm
          exact ⟨o, n, hn, Nat.le_trans hle hle'⟩
        · exact hrules r' hr' k' hk'
    · rw [heq] at hfrom hbest hrules ⊢
      obtain ⟨o, n, hn, hle⟩ := hbest _ _ rfl
      refine ⟨?_, ?_, ?_⟩
      · rcases hfrom with h | ⟨r', hr', h⟩
        · exact .inr ⟨r, List.mem_cons_self .., k, hk, h⟩
        · exact .inr ⟨r', List.mem_cons_of_mem r hr', h⟩
      · intro o' m hm
        exact ⟨o, n, hn, by have := hlt o' m hm; omega⟩
      · intro r' hr' k' hk'
        rcases (hmem r').1 hr' with rfl | hr'
        · rw [hk] at hk'
          cases hk'
          exact ⟨o, n, hn, hle⟩
        · exact hrules r' hr' k' hk'

theorem longestOf_cases {rules : List Rule} {t : Text} {o : Outcome} {n : Nat}
    (h : longestOf rules t = some (o, n)) :
    (∃ r ∈ rules, r.outcome = o ∧ r.pattern.longest? t = some n) ∧
      ∀ r ∈ rules, ∀ k, r.pattern.longest? t = some k → k ≤ n := by
  obtain ⟨hfrom, -, hrules⟩ := bestOf_cases rules t none
  rw [← longestOf_eq_bestOf, h] at hfrom hrules
  constructor
  · rcases hfrom with hno | ⟨r, hr, k, hk, heq⟩
    · cases hno
    · cases heq
      exact ⟨r, hr, rfl, hk⟩
  · intro r hr k hk
    obtain ⟨o', n', heq, hle⟩ := hrules r hr k hk
    cases heq
    exact hle

/-- A match of one rule is not longer than the match that counts. -/
theorem exists_longestOf {rules : List Rule} {t : Text} {r : Rule} {k : Nat} (hr : r ∈ rules)
    (hk : k ≤ t.length) (hm : Pattern.Matches r.pattern (t.take k)) :
    ∃ o n, longestOf rules t = some (o, n) ∧ k ≤ n := by
  rcases Pattern.longest?_cases r.pattern t with ⟨-, hno⟩ | ⟨n, hn, hl⟩
  · exact absurd hm (hno k hk)
  · obtain ⟨o, n', heq, hle⟩ := (bestOf_cases rules t none).2.2 r hr n hn
    exact ⟨o, n', heq, Nat.le_trans (hl.longest k hk hm) hle⟩

theorem longestOf_eq_none {rules : List Rule} {t : Text} (h : longestOf rules t = none) :
    ∀ r ∈ rules, r.pattern.longest? t = none := by
  intro r hr
  cases hk : r.pattern.longest? t with
  | none => rfl
  | some k =>
    obtain ⟨o, n, heq, -⟩ := (bestOf_cases rules t none).2.2 r hr k hk
    rw [← longestOf_eq_bestOf, h] at heq
    cases heq

theorem bestOf_congr {rules : List Rule} {s t : Text} (best : Option (Outcome × Nat))
    (h : ∀ r ∈ rules, r.pattern.longest? s = r.pattern.longest? t) :
    bestOf best rules s = bestOf best rules t := by
  induction rules generalizing best with
  | nil => rfl
  | cons r rules ih =>
    rw [bestOf_cons, bestOf_cons, h r (List.mem_cons_self ..)]
    exact ih _ fun r' hr' => h r' (List.mem_cons_of_mem r hr')

/-- The match that counts is the same in a text that is cut off after it. -/
theorem longestOf_take {rules : List Rule} {t : Text} {o : Outcome} {n m : Nat}
    (h : longestOf rules t = some (o, n)) (hm : n ≤ m) :
    longestOf rules (t.take m) = some (o, n) := by
  rw [← h, longestOf_eq_bestOf, longestOf_eq_bestOf]
  apply bestOf_congr
  intro r hr
  rcases Pattern.longest?_cases r.pattern t with ⟨hnone, -⟩ | ⟨k, hk, hl⟩
  · rw [hnone, Pattern.longest?_take_of_none hnone]
  · rw [hk, Pattern.longest?_eq_some_iff]
    exact hl.take (Nat.le_trans ((longestOf_cases h).2 r hr k hk) hm)

theorem longestOf_take_of_none {rules : List Rule} {t : Text} (h : longestOf rules t = none)
    (m : Nat) : longestOf rules (t.take m) = none := by
  cases hk : longestOf rules (t.take m) with
  | none => rfl
  | some b =>
    obtain ⟨o, n⟩ := b
    obtain ⟨⟨r, hr, -, hn⟩, -⟩ := longestOf_cases hk
    rw [Pattern.longest?_take_of_none (longestOf_eq_none h r hr)] at hn
    cases hn

theorem nullable_of_mem_grammar {r : Rule} (h : r ∈ grammar) : r.pattern.nullable = false := by
  have hall : grammar.all (fun r => !r.pattern.nullable) = true := by decide +kernel
  simpa using List.all_eq_true.1 hall r h

/-- The match that counts takes a character at least and lies in the text. -/
theorem longestOf_grammar_bounds {t : Text} {o : Outcome} {n : Nat}
    (h : longestOf grammar t = some (o, n)) : 0 < n ∧ n ≤ t.length := by
  obtain ⟨⟨r, hr, -, hn⟩, -⟩ := longestOf_cases h
  have hl := Pattern.longest?_eq_some_iff.1 hn
  refine ⟨Nat.pos_of_ne_zero ?_, hl.le_length⟩
  rintro rfl
  have hnull := Pattern.nullable_iff.2 hl.matched
  rw [nullable_of_mem_grammar hr] at hnull
  cases hnull

end Rule

/-! ## Literals that are not finished -/

namespace Piece

/-- The marks that may stand before the quote of a literal. -/
def marks : List Text := [[], ['u', '8'], ['u'], ['U'], ['L']]

theorem openQuote?_eq_some_iff {t : Text} {q : Char} {k : Nat} :
    openQuote? t = some (q, k) ↔
      ∃ mark ∈ marks, ∃ rest, t = mark ++ q :: rest ∧ (q = '\'' ∨ q = '"') ∧
        k = mark.length + 1 := by
  constructor
  · intro h
    unfold openQuote? at h
    split at h
    all_goals cases h
    · exact ⟨[], by simp [marks], _, rfl, by simp, rfl⟩
    · exact ⟨[], by simp [marks], _, rfl, by simp, rfl⟩
    · exact ⟨['u', '8'], by simp [marks], _, rfl, by simp, rfl⟩
    · exact ⟨['u', '8'], by simp [marks], _, rfl, by simp, rfl⟩
    · exact ⟨['u'], by simp [marks], _, rfl, by simp, rfl⟩
    · exact ⟨['u'], by simp [marks], _, rfl, by simp, rfl⟩
    · exact ⟨['U'], by simp [marks], _, rfl, by simp, rfl⟩
    · exact ⟨['U'], by simp [marks], _, rfl, by simp, rfl⟩
    · exact ⟨['L'], by simp [marks], _, rfl, by simp, rfl⟩
    · exact ⟨['L'], by simp [marks], _, rfl, by simp, rfl⟩
  · rintro ⟨mark, hmark, rest, rfl, hq, rfl⟩
    simp only [marks, List.mem_cons, List.not_mem_nil, or_false] at hmark
    rcases hmark with rfl | rfl | rfl | rfl | rfl <;> rcases hq with rfl | rfl <;> rfl

theorem openQuote?_take {t : Text} {q : Char} {k m : Nat} (h : openQuote? t = some (q, k))
    (hm : k ≤ m) : openQuote? (t.take m) = some (q, k) := by
  obtain ⟨mark, hmark, rest, rfl, hq, rfl⟩ := openQuote?_eq_some_iff.1 h
  refine openQuote?_eq_some_iff.2 ⟨mark, hmark, rest.take (m - (mark.length + 1)), ?_, hq, rfl⟩
  obtain ⟨j, rfl⟩ : ∃ j, m = mark.length + 1 + j := ⟨m - (mark.length + 1), by omega⟩
  have hj : mark.length + 1 + j = mark.length + (j + 1) := by omega
  rw [hj, List.take_length_add_append, List.take_succ_cons]
  congr 3
  omega

theorem openQuote?_of_take {t : Text} {q : Char} {k m : Nat}
    (h : openQuote? (t.take m) = some (q, k)) : openQuote? t = some (q, k) := by
  obtain ⟨mark, hmark, rest, heq, hq, rfl⟩ := openQuote?_eq_some_iff.1 h
  refine openQuote?_eq_some_iff.2 ⟨mark, hmark, rest ++ t.drop m, ?_, hq, rfl⟩
  calc t = t.take m ++ t.drop m := (List.take_append_drop m t).symm
    _ = mark ++ q :: (rest ++ t.drop m) := by rw [heq]; simp

theorem openBody?_cons {q c : Char} {t : Text} (h : c = '\\' → t = []) :
    openBody? q (c :: t) =
      if c = q then none
      else if c = '\r' || c = '\n' then some 0
      else (openBody? q t).map (· + 1) := by
  rw [openBody?]
  intro d u hc ht
  rw [h hc] at ht
  cases ht

/-- The body of an open literal lies in the text. When it is cut off after the character that
ends it, it is the same. -/
theorem openBody?_of_some {q : Char} {t : Text} {k : Nat} (h : openBody? q t = some k) :
    k ≤ t.length ∧ ∀ m, k < m → openBody? q (t.take m) = some k := by
  fun_induction openBody? q t generalizing k with
  | case1 =>
    cases h
    refine ⟨Nat.le_refl 0, ?_⟩
    intro m _
    rw [List.take_nil]
    rfl
  | case2 t =>
    cases h
    refine ⟨by simp, ?_⟩
    intro m hm
    obtain ⟨j, rfl⟩ : ∃ j, m = j + 2 := ⟨m - 2, by omega⟩
    rfl
  | case3 c t hc ih =>
    obtain ⟨j, hj, rfl⟩ := Option.map_eq_some_iff.1 h
    obtain ⟨hle, htake⟩ := ih hj
    refine ⟨by simp only [List.length_cons]; omega, ?_⟩
    intro m hm
    obtain ⟨i, rfl⟩ : ∃ i, m = i + 2 := ⟨m - 2, by omega⟩
    rw [List.take_succ_cons, List.take_succ_cons, openBody?, if_neg hc, htake i (by omega)]
    rfl
  | case4 => cases h
  | case5 c t hx hq hend =>
    cases h
    refine ⟨Nat.zero_le _, ?_⟩
    intro m hm
    obtain ⟨j, rfl⟩ : ∃ j, m = j + 1 := ⟨m - 1, by omega⟩
    have hno : c ≠ '\\' := by
      rintro rfl
      simp at hend
    rw [List.take_succ_cons, openBody?_cons fun h => absurd h hno, if_neg hq, if_pos hend]
  | case6 c t hx hq hend ih =>
    obtain ⟨j, hj, rfl⟩ := Option.map_eq_some_iff.1 h
    obtain ⟨hle, htake⟩ := ih hj
    refine ⟨by simp only [List.length_cons]; omega, ?_⟩
    intro m hm
    obtain ⟨i, rfl⟩ : ∃ i, m = i + 1 := ⟨m - 1, by omega⟩
    have hnil : c = '\\' → t.take i = [] := by
      intro hc
      cases t with
      | nil => simp
      | cons d u => exact absurd rfl (hx d u hc)
    rw [List.take_succ_cons, openBody?_cons hnil, if_neg hq, if_neg hend, htake i (by omega)]
    rfl

/-- The characters between two quotes. -/
def body (q : Char) : Pattern :=
  .many (.alt (.one fun c => c ≠ q && c ≠ '\\' && c ≠ '\r' && c ≠ '\n')
    (.seq (.char '\\') (.one (· ≠ '\n'))))

/-- A literal is closed when a body and the quote follow. Then it does not matter what
stands after the quote. -/
theorem openBody?_of_none {q : Char} (hq : q ≠ '\\') {t : Text} (h : openBody? q t = none) :
    ∃ u v, t = u ++ q :: v ∧ Pattern.Matches (body q) u ∧
      ∀ w, openBody? q (u ++ q :: w) = none := by
  fun_induction openBody? q t with
  | case1 => cases h
  | case2 t => cases h
  | case3 c t hc ih =>
    obtain ⟨u, v, rfl, hu, hw⟩ := ih (Option.map_eq_none_iff.1 h)
    refine ⟨'\\' :: c :: u, v, rfl, ?_, ?_⟩
    · have hpair : Pattern.Matches (.seq (.char '\\') (.one (· ≠ '\n'))) (['\\'] ++ [c]) :=
        .seq (.one (by simp)) (.one (by simpa using hc))
      exact .more (.right hpair) hu
    · intro w
      rw [List.cons_append, List.cons_append, openBody?, if_neg hc, hw w]
      rfl
  | case4 t hx =>
    refine ⟨[], t, rfl, .stop, ?_⟩
    intro w
    rw [List.nil_append, openBody?_cons fun h => absurd h hq, if_pos rfl]
  | case5 => cases h
  | case6 c t hx hne hend ih =>
    obtain ⟨u, v, rfl, hu, hw⟩ := ih (Option.map_eq_none_iff.1 h)
    have hc : c ≠ '\\' := by
      intro hc
      cases hcs : u ++ q :: v with
      | nil => simp at hcs
      | cons d r => exact hx d r hc hcs
    refine ⟨c :: u, v, rfl, ?_, ?_⟩
    · have hone : Pattern.Matches (.one fun c => c ≠ q && c ≠ '\\' && c ≠ '\r' && c ≠ '\n')
          [c] := .one (by simpa [hne, hc] using hend)
      exact .more (.left hone) hu
    · intro w
      rw [List.cons_append, openBody?_cons fun h => absurd h hc, if_neg hne, if_neg hend, hw w]
      rfl

/-! ## Closed literals -/

theorem matches_word (w : String) : Pattern.Matches (.word w) w.toList := by
  have h : ∀ cs : Text,
      Pattern.Matches (cs.foldr (fun c p => .seq (.char c) p) .nothing) cs := by
    intro cs
    induction cs with
    | nil => exact .nothing
    | cons c cs ih => exact .seq (.one (by simp)) ih
  exact h w.toList

theorem matches_encodingMark {mark : Text} (h : mark ∈ marks) :
    Pattern.Matches Rule.encodingMark mark := by
  simp only [marks, List.mem_cons, List.not_mem_nil, or_false] at h
  rcases h with rfl | rfl | rfl | rfl | rfl
  · exact .right .nothing
  · exact .left (.left (matches_word "u8"))
  · exact .left (.right (.left (matches_word "u")))
  · exact .left (.right (.right (.left (matches_word "U"))))
  · exact .left (.right (.right (.right (.left (matches_word "L")))))

/-- A mark, a quote, a body and the quote again are a literal. -/
theorem matches_quoted {mark u : Text} {q : Char} (hmark : mark ∈ marks)
    (hu : Pattern.Matches (body q) u) :
    Pattern.Matches (Rule.quoted q) (mark ++ q :: (u ++ [q])) := by
  have hq : Pattern.Matches (.char q) [q] := .one (by simp)
  have hrest : Pattern.Matches (.seq (.char q) (.seq (body q) (.seq (.char q) .nothing)))
      ([q] ++ (u ++ ([q] ++ []))) := .seq hq (.seq hu (.seq hq .nothing))
  exact .seq (matches_encodingMark hmark) hrest

/-- When an open quote is closed, a rule takes the whole literal, and it is closed in each
text that is cut off after it. -/
theorem closed_literal {t : Text} {q : Char} {k : Nat} (hopen : openQuote? t = some (q, k))
    (hclosed : openBody? q (t.drop k) = none) :
    ∃ o n, Rule.longestOf Rule.grammar t = some (o, n) ∧
      ∀ m, n ≤ m → openBody? q ((t.take m).drop k) = none := by
  obtain ⟨mark, hmark, rest, rfl, hq, rfl⟩ := openQuote?_eq_some_iff.1 hopen
  have hslash : q ≠ '\\' := by rcases hq with rfl | rfl <;> decide
  have hdrop : ∀ r, (mark ++ q :: r).drop (mark.length + 1) = r := by
    intro r
    rw [List.drop_length_add_append]
    rfl
  rw [hdrop] at hclosed
  obtain ⟨u, v, rfl, hu, hw⟩ := openBody?_of_none hslash hclosed
  have hrule : ∃ r ∈ Rule.grammar, r.pattern = Rule.quoted q := by
    rcases hq with rfl | rfl
    · exact ⟨⟨Rule.quoted '\'', .token (.literal .character)⟩, by simp [Rule.grammar, Rule.varying],
        rfl⟩
    · exact ⟨⟨Rule.quoted '"', .token (.literal .string)⟩, by simp [Rule.grammar, Rule.varying],
        rfl⟩
  obtain ⟨r, hr, hpattern⟩ := hrule
  have hsplit : ∀ w, mark ++ q :: (u ++ q :: w) = (mark ++ q :: (u ++ [q])) ++ w := by simp
  obtain ⟨len, hlen⟩ : ∃ len, (mark ++ q :: (u ++ [q])).length = len := ⟨_, rfl⟩
  have hle : len ≤ (mark ++ q :: (u ++ q :: v)).length := by
    rw [hsplit, List.length_append, hlen]
    exact Nat.le_add_right len v.length
  have hmatch : Pattern.Matches r.pattern ((mark ++ q :: (u ++ q :: v)).take len) := by
    rw [hsplit, List.take_left' hlen, hpattern]
    exact matches_quoted hmark hu
  obtain ⟨o, n, hn, hlong⟩ := Rule.exists_longestOf hr hle hmatch
  refine ⟨o, n, hn, ?_⟩
  intro m hm
  obtain ⟨j, rfl⟩ : ∃ j, m = len + j := ⟨m - len, by omega⟩
  have htake : (mark ++ q :: (u ++ q :: v)).take (len + j) =
      mark ++ q :: (u ++ q :: v.take j) := by
    rw [hsplit v, hsplit (v.take j), ← hlen, List.take_length_add_append]
  rw [htake, hdrop]
  exact hw _

/-! ## The piece at the head -/

theorem unfinished?_eq_none {t : Text} (h : unfinished? t = none) {q : Char} {k : Nat}
    (hopen : openQuote? t = some (q, k)) : openBody? q (t.drop k) = none := by
  unfold unfinished? at h
  rw [hopen] at h
  exact Option.map_eq_none_iff.1 h

theorem unfinished?_eq_some {t : Text} {n : Nat} (h : unfinished? t = some n) :
    ∃ q k j, openQuote? t = some (q, k) ∧ openBody? q (t.drop k) = some j ∧ n = k + j := by
  unfold unfinished? at h
  obtain ⟨⟨q, k⟩, hopen, hbody⟩ := Option.bind_eq_some_iff.1 h
  obtain ⟨j, hj, rfl⟩ := Option.map_eq_some_iff.1 hbody
  exact ⟨q, k, j, hopen, hj, rfl⟩

theorem openQuote?_bounds {t : Text} {q : Char} {k : Nat} (h : openQuote? t = some (q, k)) :
    0 < k ∧ k ≤ t.length := by
  obtain ⟨mark, -, rest, rfl, -, rfl⟩ := openQuote?_eq_some_iff.1 h
  refine ⟨Nat.succ_pos _, ?_⟩
  rw [List.length_append, List.length_cons]
  omega

theorem unfinished?_bounds {t : Text} {n : Nat} (h : unfinished? t = some n) :
    0 < n ∧ n ≤ t.length := by
  obtain ⟨q, k, j, hopen, hbody, rfl⟩ := unfinished?_eq_some h
  have hk := openQuote?_bounds hopen
  have hj := (openBody?_of_some hbody).1
  rw [List.length_drop] at hj
  omega

/-- A literal that is not finished is the same when the text is cut off after the character
that ends it. -/
theorem unfinished?_take {t : Text} {n m : Nat} (h : unfinished? t = some n) (hm : n < m) :
    unfinished? (t.take m) = some n := by
  obtain ⟨q, k, j, hopen, hbody, rfl⟩ := unfinished?_eq_some h
  unfold unfinished?
  rw [openQuote?_take hopen (by omega)]
  have hrest : openBody? q ((t.take m).drop k) = some j := by
    rw [List.drop_take]
    exact (openBody?_of_some hbody).2 (m - k) (by omega)
  simp [hrest]

theorem commentLength_le (t : Text) : commentLength t ≤ t.length := by
  unfold commentLength
  split
  · omega
  · exact Nat.le_refl _

theorem after?_length {needle t rest : Text} (h : Text.after? needle t = some rest) :
    rest.length + needle.length ≤ t.length := by
  induction t with
  | nil =>
    unfold Text.after? at h
    split at h
    · rename_i hempty
      cases h
      simp [List.isEmpty_iff.1 hempty]
    · cases h
  | cons c t ih =>
    unfold Text.after? at h
    split at h
    · rename_i hhead
      cases h
      have := (List.isPrefixOf_iff_prefix.1 hhead).length_le
      rw [List.length_drop]
      omega
    · have := ih h
      rw [List.length_cons]
      omega

theorem commentLength_cons (c : Char) (t : Text) :
    commentLength (c :: t) =
      if ['*', '/'].isPrefixOf (c :: t) then 2 else commentLength t + 1 := by
  unfold commentLength
  rw [Text.after?]
  by_cases hhead : ['*', '/'].isPrefixOf (c :: t)
  · have := (List.isPrefixOf_iff_prefix.1 hhead).length_le
    rw [if_pos hhead, if_pos hhead]
    simp only [List.length_drop, List.length_cons, List.length_nil] at this ⊢
    omega
  · rw [if_neg hhead, if_neg hhead]
    cases hrest : Text.after? ['*', '/'] t with
    | none => rfl
    | some rest =>
      have := after?_length hrest
      simp only [List.length_cons, List.length_nil] at this ⊢
      omega

/-- A comment that is cut off after its end has the same length. -/
theorem commentLength_take (t : Text) {m : Nat} (hm : commentLength t ≤ m) :
    commentLength (t.take m) = commentLength t := by
  induction t generalizing m with
  | nil => rw [List.take_nil]
  | cons c t ih =>
    rw [commentLength_cons] at hm ⊢
    split at hm
    · rename_i hhead
      obtain ⟨rest, hrest⟩ := List.isPrefixOf_iff_prefix.1 hhead
      obtain ⟨j, rfl⟩ : ∃ j, m = j + 2 := ⟨m - 2, by omega⟩
      rw [if_pos hhead, ← hrest]
      change commentLength ('*' :: '/' :: rest.take j) = 2
      rw [commentLength_cons]
      simp
    · rename_i hhead
      obtain ⟨j, rfl⟩ : ∃ j, m = j + 1 := ⟨m - 1, by omega⟩
      have hcut : ¬ ['*', '/'].isPrefixOf (c :: t.take j) := by
        intro h
        refine hhead (List.isPrefixOf_iff_prefix.2 ?_)
        exact (List.isPrefixOf_iff_prefix.1 h).trans (List.take_prefix (j + 1) (c :: t))
      rw [List.take_succ_cons, commentLength_cons, if_neg hcut, if_neg hhead, ih (by omega)]

theorem headLength_of_some {t : Text} {n : Nat} (h : unfinished? t = some n) :
    headLength t = (.stray, n) := by
  unfold headLength
  rw [h]

theorem headLength_bounds {t : Text} (ht : t ≠ []) :
    0 < (headLength t).2 ∧ (headLength t).2 ≤ t.length := by
  have hpos : 0 < t.length := List.length_pos_iff.2 ht
  unfold headLength
  split
  · rename_i n h
    exact unfinished?_bounds h
  · split
    · exact Rule.longestOf_grammar_bounds ‹_›
    · exact Rule.longestOf_grammar_bounds ‹_›
    · rename_i n h
      obtain ⟨h0, hle⟩ := Rule.longestOf_grammar_bounds h
      have := commentLength_le (t.drop n)
      rw [List.length_drop] at this
      change 0 < n + commentLength (t.drop n) ∧ n + commentLength (t.drop n) ≤ t.length
      omega
    · exact ⟨Nat.one_pos, hpos⟩

theorem text_headLength (t u : Text) : ((headLength t).1 u).text = u := by
  unfold headLength
  split
  · rfl
  · split <;> rfl

/-- A literal that is closed stays closed when the text is cut off after the piece. -/
theorem unfinished?_take_of_none {t : Text} (h : unfinished? t = none) {m : Nat}
    (hm : (headLength t).2 ≤ m) : unfinished? (t.take m) = none := by
  unfold unfinished?
  cases hopen : openQuote? (t.take m) with
  | none => rfl
  | some b =>
    obtain ⟨q, k⟩ := b
    have hopen' := openQuote?_of_take hopen
    obtain ⟨o, n, hn, hclosed⟩ := closed_literal hopen' (unfinished?_eq_none h hopen')
    have hle : n ≤ (headLength t).2 := by
      unfold headLength
      simp only [h, hn]
      cases o with
      | token => exact Nat.le_refl n
      | blank => exact Nat.le_refl n
      | comment => exact Nat.le_add_right n _
    have hbody : openBody? q ((t.take m).drop k) = none := hclosed m (Nat.le_trans hle hm)
    simp [hbody]

/-- A piece that is no open literal is the same when the text is cut off after it. -/
theorem headLength_take_of_none {t : Text} (h : unfinished? t = none) {m : Nat}
    (hm : (headLength t).2 ≤ m) : headLength (t.take m) = headLength t := by
  have hcut := unfinished?_take_of_none h hm
  revert hm
  unfold headLength
  rw [h, hcut]
  intro hm
  cases hl : Rule.longestOf Rule.grammar t with
  | none => rw [Rule.longestOf_take_of_none hl]
  | some b =>
    obtain ⟨o, n⟩ := b
    rw [hl] at hm
    cases o with
    | token k => rw [Rule.longestOf_take hl hm]
    | blank => rw [Rule.longestOf_take hl hm]
    | comment =>
      have hm' : n + commentLength (t.drop n) ≤ m := hm
      rw [Rule.longestOf_take hl (Nat.le_trans (Nat.le_add_right n _) hm')]
      have hcomment : commentLength ((t.take m).drop n) = commentLength (t.drop n) := by
        rw [List.drop_take]
        exact commentLength_take _ (by omega)
      simp only [hcomment]

/-- The piece at the head is the same when the text is cut off after one character more. -/
theorem headLength_take {t : Text} {m : Nat} (hm : (headLength t).2 < m) :
    headLength (t.take m) = headLength t := by
  cases h : unfinished? t with
  | none => exact headLength_take_of_none h (Nat.le_of_lt hm)
  | some n =>
    have hn := headLength_of_some h
    rw [hn] at hm ⊢
    exact headLength_of_some (unfinished?_take h hm)

/-! ## All the pieces -/

theorem ofText_of_ne_nil {t : Text} (ht : t ≠ []) :
    ofText t = (headLength t).1 (t.take (headLength t).2) :: ofText (t.drop (headLength t).2) := by
  cases t with
  | nil => exact absurd rfl ht
  | cons c t =>
    obtain ⟨n, hn⟩ : ∃ n, (headLength (c :: t)).2 = n + 1 :=
      ⟨(headLength (c :: t)).2 - 1, by have := (headLength_bounds ht).1; omega⟩
    rw [ofText, hn]
    simp [hn]

theorem ofText_eq_cons {t : Text} {p : Piece} {ps : List Piece} (h : ofText t = p :: ps) :
    t ≠ [] ∧ p = (headLength t).1 (t.take (headLength t).2) ∧
      p.text = t.take (headLength t).2 ∧ ofText (t.drop (headLength t).2) = ps := by
  have ht : t ≠ [] := by
    rintro rfl
    rw [ofText] at h
    cases h
  rw [ofText_of_ne_nil ht] at h
  cases h
  exact ⟨ht, rfl, text_headLength t _, rfl⟩

/-- The pieces are the whole text, cut apart. -/
theorem flatMap_text_of_eq {t : Text} {ps : List Piece} (h : ofText t = ps) :
    ps.flatMap text = t := by
  induction ps generalizing t with
  | nil =>
    cases t with
    | nil => rfl
    | cons c t => rw [ofText_of_ne_nil (List.cons_ne_nil c t)] at h; cases h
  | cons p ps ih =>
    obtain ⟨-, -, htext, hrest⟩ := ofText_eq_cons h
    rw [List.flatMap_cons, htext, ih hrest, List.take_append_drop]

theorem text_ne_nil_of_mem {t : Text} {p : Piece} (hp : p ∈ ofText t) : p.text ≠ [] := by
  obtain ⟨ps, hps⟩ : ∃ ps, ofText t = ps := ⟨_, rfl⟩
  rw [hps] at hp
  induction ps generalizing t with
  | nil => cases hp
  | cons q ps ih =>
    obtain ⟨ht, -, htext, hrest⟩ := ofText_eq_cons hps
    rcases List.mem_cons.1 hp with rfl | hp
    · have hpos := (headLength_bounds ht).1
      rw [htext]
      simp only [ne_eq, List.take_eq_nil_iff, ht, or_false]
      omega
    · exact ih hp hrest

/-- The scan goes on after a piece as if the text started there. -/
theorem ofText_of_append {t : Text} {ps qs : List Piece} (h : ofText t = ps ++ qs) :
    ofText (qs.flatMap text) = qs := by
  induction ps generalizing t with
  | nil =>
    have hqs : ofText t = qs := h
    rw [flatMap_text_of_eq hqs, hqs]
  | cons p ps ih => exact ih (ofText_eq_cons h).2.2.2

/-- A text that is cut off after a token has the same pieces up to that token. -/
theorem ofText_cut {t : Text} {ps qs : List Piece} {k : Kind} {x : Text}
    (h : ofText t = ps ++ .token k x :: qs) :
    ofText (ps.flatMap text ++ x) = ps ++ [.token k x] := by
  induction ps generalizing t with
  | nil =>
    obtain ⟨ht, hp, htext, -⟩ := ofText_eq_cons h
    have hbounds := headLength_bounds ht
    have hclosed : unfinished? t = none := by
      cases hn : unfinished? t with
      | none => rfl
      | some n =>
        rw [headLength_of_some hn] at hp
        cases hp
    have hhead := headLength_take_of_none hclosed (Nat.le_refl _)
    have hx : x = t.take (headLength t).2 := htext
    have hne : x ≠ [] := text_ne_nil_of_mem (t := t) (p := .token k x) (by rw [h]; simp)
    rw [List.flatMap_nil, List.nil_append, List.nil_append, ofText_of_ne_nil hne, hx, hhead,
      List.take_take, Nat.min_self, ← hp, List.drop_take_self, ofText, ← hx]
  | cons p ps ih =>
    obtain ⟨ht, hp, htext, hrest⟩ := ofText_eq_cons h
    have hcut := ih hrest
    obtain ⟨s, hs⟩ : ∃ s, ps.flatMap text ++ x = s := ⟨_, rfl⟩
    have hpos : 0 < s.length := by
      refine List.length_pos_iff.2 ?_
      rintro rfl
      rw [hs, ofText] at hcut
      simp at hcut
    have hdrop : t.drop (headLength t).2 = s ++ qs.flatMap text := by
      rw [← flatMap_text_of_eq hrest, ← hs]
      simp [text]
    -- the text up to the token is the text cut off past its first piece
    have htake : t.take ((headLength t).2 + s.length) = p.text ++ s := by
      rw [List.take_add, hdrop, List.take_left, htext]
    have hhead := headLength_take (t := t) (Nat.lt_add_of_pos_right hpos)
    have hne : t.take ((headLength t).2 + s.length) ≠ [] := by
      rw [htake]
      simp [List.length_pos_iff.1 hpos]
    have hlength : p.text.length = (headLength t).2 := by
      rw [htext, List.length_take]
      exact Nat.min_eq_left (headLength_bounds ht).2
    rw [List.flatMap_cons, List.append_assoc, hs, ← htake, ofText_of_ne_nil hne, hhead, htake,
      ← hlength, List.take_left, List.drop_left, ← hs, hcut, htext, ← hp]
    rfl

end Piece
end Stylometry
