-- The search for the longest match finds what the patterns match: derivatives follow the
-- meaning of a pattern character by character.
import Mathlib.Tactic.ByContra
import Stylometry.Pattern

namespace Stylometry.Pattern

/-! ## What each form of pattern matches -/

theorem matches_one_iff {accepts : Char → Bool} {t : Text} :
    Matches (.one accepts) t ↔ ∃ c, accepts c = true ∧ t = [c] := by
  constructor
  · rintro (_ | h)
    exact ⟨_, h, rfl⟩
  · rintro ⟨c, h, rfl⟩
    exact .one h

theorem matches_seq_iff {p q : Pattern} {t : Text} :
    Matches (.seq p q) t ↔ ∃ u v, t = u ++ v ∧ Matches p u ∧ Matches q v := by
  constructor
  · rintro (_ | _ | ⟨hp, hq⟩)
    exact ⟨_, _, rfl, hp, hq⟩
  · rintro ⟨u, v, rfl, hp, hq⟩
    exact .seq hp hq

theorem matches_alt_iff {p q : Pattern} {t : Text} :
    Matches (.alt p q) t ↔ Matches p t ∨ Matches q t := by
  constructor
  · intro h
    cases h with
    | left h => exact .inl h
    | right h => exact .inr h
  · rintro (h | h)
    · exact .left h
    · exact .right h

theorem not_matches_never (t : Text) : ¬Matches .never t := by
  intro h
  cases h

theorem matches_nothing_iff {t : Text} : Matches .nothing t ↔ t = [] := by
  constructor
  · intro h
    cases h
    rfl
  · rintro rfl
    exact .nothing

/-- A match of many texts that is not empty starts with a text of the body that is not
empty. -/
theorem matches_many_cons {p : Pattern} {c : Char} {t : Text} :
    Matches (.many p) (c :: t) ↔
      ∃ u v, t = u ++ v ∧ Matches p (c :: u) ∧ Matches (.many p) v := by
  constructor
  · intro h
    generalize hq : Pattern.many p = q at h
    generalize hw : c :: t = w at h
    induction h with
    | @more _ s t' hs ht _ iht =>
      cases hq
      cases s with
      | nil => exact iht rfl hw
      | cons d s =>
        cases hw
        exact ⟨s, t', rfl, hs, ht⟩
    | stop => cases hw
    | nothing | one | seq | left | right => cases hq
  · rintro ⟨u, v, rfl, hp, hq⟩
    exact .more hp hq

theorem nullable_iff {p : Pattern} : p.nullable = true ↔ Matches p [] := by
  induction p with
  | never => simp [nullable, not_matches_never]
  | nothing => simp [nullable, matches_nothing_iff]
  | one accepts => simp [nullable, matches_one_iff]
  | seq p q ihp ihq =>
    rw [nullable, Bool.and_eq_true, ihp, ihq, matches_seq_iff]
    constructor
    · rintro ⟨hp, hq⟩
      exact ⟨[], [], rfl, hp, hq⟩
    · rintro ⟨u, v, h, hp, hq⟩
      obtain ⟨rfl, rfl⟩ := List.append_eq_nil_iff.1 h.symm
      exact ⟨hp, hq⟩
  | alt p q ihp ihq => rw [nullable, Bool.or_eq_true, ihp, ihq, matches_alt_iff]
  | many p ih => exact ⟨fun _ => .stop, fun _ => rfl⟩

/-! ## Derivatives -/

theorem matches_seqOf {p q : Pattern} {t : Text} :
    Matches (seqOf p q) t ↔ Matches (.seq p q) t := by
  unfold seqOf
  split
  · simp [matches_seq_iff, not_matches_never]
  · simp only [matches_seq_iff, matches_nothing_iff]
    constructor
    · intro h
      exact ⟨[], t, rfl, rfl, h⟩
    · rintro ⟨u, v, rfl, rfl, h⟩
      exact h
  · rfl

theorem matches_altOf {p q : Pattern} {t : Text} :
    Matches (altOf p q) t ↔ Matches (.alt p q) t := by
  unfold altOf
  split
  · simp [matches_alt_iff, not_matches_never]
  · simp [matches_alt_iff, not_matches_never]
  · rfl

/-- A sequence takes its first character from the first part, or from the second part when
the first part is empty. -/
theorem matches_seq_cons {p q : Pattern} {c : Char} {t : Text} :
    Matches (.seq p q) (c :: t) ↔
      (∃ u v, t = u ++ v ∧ Matches p (c :: u) ∧ Matches q v) ∨
        Matches p [] ∧ Matches q (c :: t) := by
  rw [matches_seq_iff]
  constructor
  · rintro ⟨u, v, h, hp, hq⟩
    cases u with
    | nil =>
      rw [List.nil_append] at h
      exact .inr ⟨hp, h ▸ hq⟩
    | cons d u =>
      cases h
      exact .inl ⟨u, v, rfl, hp, hq⟩
  · rintro (⟨u, v, rfl, hp, hq⟩ | ⟨hp, hq⟩)
    · exact ⟨c :: u, v, rfl, hp, hq⟩
    · exact ⟨[], c :: t, rfl, hp, hq⟩

theorem matches_deriv {p : Pattern} {c : Char} {t : Text} :
    Matches (p.deriv c) t ↔ Matches p (c :: t) := by
  induction p generalizing t with
  | never => simp [deriv, not_matches_never]
  | nothing => simp [deriv, not_matches_never, matches_nothing_iff]
  | one accepts =>
    have hcons : Matches (.one accepts) (c :: t) ↔ accepts c = true ∧ t = [] := by
      rw [matches_one_iff]
      constructor
      · rintro ⟨d, h, hd⟩
        cases hd
        exact ⟨h, rfl⟩
      · rintro ⟨h, rfl⟩
        exact ⟨c, h, rfl⟩
    rw [hcons]
    unfold deriv
    split
    · next h => simp [matches_nothing_iff, h]
    · next h => simp [not_matches_never, h]
  | seq p q ihp ihq =>
    rw [matches_seq_cons]
    unfold deriv
    split
    · next h =>
      rw [matches_altOf, matches_alt_iff, matches_seqOf, matches_seq_iff, ihq]
      simp only [ihp, nullable_iff.1 h, true_and]
    · next h =>
      have hno : ¬Matches p [] := fun hp => h (nullable_iff.2 hp)
      rw [matches_seqOf, matches_seq_iff]
      simp only [ihp, hno, false_and, or_false]
  | alt p q ihp ihq => rw [deriv, matches_altOf, matches_alt_iff, matches_alt_iff, ihp, ihq]
  | many p ih =>
    rw [deriv, matches_seqOf, matches_seq_iff, matches_many_cons]
    simp only [ih]

/-! ## The longest match -/

/-- The text begins with a match of `n` characters and with no longer one. -/
structure Longest (p : Pattern) (t : Text) (n : Nat) : Prop where
  le_length : n ≤ t.length
  matched : Matches p (t.take n)
  longest : ∀ k ≤ t.length, Matches p (t.take k) → k ≤ n

/-- The search gives the longest match that takes a character at least, and otherwise what
it had before. -/
theorem longestFrom_eq (p : Pattern) (read : Nat) (best : Option Nat) (t : Text) :
    (p.longestFrom read best t = best ∧
        ∀ k, 0 < k → k ≤ t.length → ¬Matches p (t.take k)) ∨
      ∃ n, 0 < n ∧ Longest p t n ∧ p.longestFrom read best t = some (read + n) := by
  induction t generalizing p read best with
  | nil =>
    refine .inl ⟨rfl, ?_⟩
    intro k hk hle
    simp at hle
    omega
  | cons c t ih =>
    have hstep : ∀ k, 0 < k →
        (Matches p ((c :: t).take k) ↔ Matches (p.deriv c) (t.take (k - 1))) := by
      intro k hk
      obtain ⟨k, rfl⟩ : ∃ j, k = j + 1 := ⟨k - 1, by omega⟩
      rw [List.take_succ_cons, matches_deriv, Nat.add_sub_cancel]
    rw [longestFrom]
    split
    · next hnever =>
      refine .inl ⟨rfl, ?_⟩
      intro k hk _ hm
      rw [hstep k hk] at hm
      unfold isNever at hnever
      split at hnever
      · next h => exact not_matches_never _ (h ▸ hm)
      · cases hnever
    · rcases ih (p.deriv c) (read + 1)
        (if (p.deriv c).nullable then some (read + 1) else best) with ⟨heq, hno⟩ | ⟨n, hn, hl, heq⟩
      · rw [heq]
        split
        · next hnull =>
          refine .inr ⟨1, Nat.one_pos, ⟨by simp, ?_, ?_⟩, rfl⟩
          · rw [hstep 1 Nat.one_pos]
            simpa using nullable_iff.1 hnull
          · intro k hk hm
            by_contra hlt
            rw [hstep k (by omega)] at hm
            simp only [List.length_cons] at hk
            exact hno (k - 1) (by omega) (by omega) hm
        · next hnull =>
          refine .inl ⟨rfl, ?_⟩
          intro k hk hle hm
          rw [hstep k hk] at hm
          simp only [List.length_cons] at hle
          by_cases hk1 : k = 1
          · subst hk1
            exact hnull (nullable_iff.2 (by simpa using hm))
          · exact hno (k - 1) (by omega) (by omega) hm
      · refine .inr ⟨n + 1, Nat.succ_pos n, ⟨?_, ?_, ?_⟩, ?_⟩
        · simpa using hl.le_length
        · rw [hstep (n + 1) (Nat.succ_pos n)]
          exact hl.matched
        · intro k hk hm
          by_cases hk0 : k = 0
          · omega
          · rw [hstep k (by omega)] at hm
            simp only [List.length_cons] at hk
            have := hl.longest (k - 1) (by omega) hm
            omega
        · rw [heq]
          congr 1
          omega

theorem longest?_cases (p : Pattern) (t : Text) :
    (p.longest? t = none ∧ ∀ k ≤ t.length, ¬Matches p (t.take k)) ∨
      ∃ n, p.longest? t = some n ∧ Longest p t n := by
  rcases longestFrom_eq p 0 (if p.nullable then some 0 else none) t with ⟨heq, hno⟩ | ⟨n, _, hl, heq⟩
  · have hsome : ∀ k ≤ t.length, Matches p (t.take k) → k = 0 := by
      intro k hk hm
      by_contra h
      exact hno k (by omega) hk hm
    have hfound : p.longest? t = if p.nullable then some 0 else none := heq
    cases hnull : p.nullable with
    | true =>
      rw [if_pos hnull] at hfound
      refine .inr ⟨0, hfound, Nat.zero_le _, ?_, fun k hk hm => Nat.le_of_eq (hsome k hk hm)⟩
      simpa using nullable_iff.1 hnull
    | false =>
      rw [if_neg (by simp [hnull])] at hfound
      refine .inl ⟨hfound, ?_⟩
      intro k hk hm
      rw [hsome k hk hm] at hm
      exact absurd (nullable_iff.2 hm) (by simp [hnull])
  · exact .inr ⟨n, by rw [longest?, heq, Nat.zero_add], hl⟩

theorem Longest.unique {p : Pattern} {t : Text} {m n : Nat} (hm : Longest p t m)
    (hn : Longest p t n) : m = n :=
  Nat.le_antisymm (hn.longest m hm.le_length hm.matched) (hm.longest n hn.le_length hn.matched)

theorem longest?_eq_some_iff {p : Pattern} {t : Text} {n : Nat} :
    p.longest? t = some n ↔ Longest p t n := by
  rcases longest?_cases p t with ⟨hnone, hno⟩ | ⟨m, hsome, hl⟩
  · constructor
    · intro h
      rw [hnone] at h
      cases h
    · intro h
      exact absurd h.matched (hno n h.le_length)
  · rw [hsome, Option.some.injEq]
    constructor
    · rintro rfl
      exact hl
    · exact hl.unique

theorem longest?_eq_none_iff {p : Pattern} {t : Text} :
    p.longest? t = none ↔ ∀ k ≤ t.length, ¬Matches p (t.take k) := by
  rcases longest?_cases p t with ⟨hnone, hno⟩ | ⟨m, hsome, hl⟩
  · exact ⟨fun _ => hno, fun _ => hnone⟩
  · constructor
    · intro h
      rw [hsome] at h
      cases h
    · intro h
      exact absurd hl.matched (h m hl.le_length)

/-! ## Matches in a text that is cut off -/

/-- A longest match that lies before the cut stays the longest one. -/
theorem Longest.take {p : Pattern} {t : Text} {n m : Nat} (h : Longest p t n) (hm : n ≤ m) :
    Longest p (t.take m) n := by
  have hlen : ∀ k ≤ (t.take m).length, (t.take m).take k = t.take k := by
    intro k hk
    rw [List.length_take] at hk
    rw [List.take_take, Nat.min_eq_left (by omega)]
  have hn : n ≤ (t.take m).length := by
    rw [List.length_take]
    have := h.le_length
    omega
  refine ⟨hn, ?_, ?_⟩
  · rw [hlen n hn]
    exact h.matched
  · intro k hk hmatch
    rw [hlen k hk] at hmatch
    rw [List.length_take] at hk
    exact h.longest k (by omega) hmatch

theorem longest?_take_of_none {p : Pattern} {t : Text} (h : p.longest? t = none) (m : Nat) :
    p.longest? (t.take m) = none := by
  rw [longest?_eq_none_iff] at h ⊢
  intro k hk hmatch
  rw [List.length_take] at hk
  rw [List.take_take, Nat.min_eq_left (by omega)] at hmatch
  exact h k (by omega) hmatch

end Stylometry.Pattern
