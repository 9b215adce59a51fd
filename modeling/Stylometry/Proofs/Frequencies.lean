-- How often the kinds of tokens occur in a stream. The kinds are counted into a table that is kept
-- in their order, so the table, and every sum over it, is the same for all orders of the tokens.
import Mathlib.Algebra.BigOperators.Group.List.Basic
import Mathlib.Data.List.Dedup
import Stylometry.Measure.Lexical

namespace Stylometry

/-! ## Kinds in order -/

namespace Kind

theorem map_code_all : all.map code = List.range 127 := by decide

theorem pairwise_all : all.Pairwise fun j k => j.code < k.code := by
  rw [← List.pairwise_map, map_code_all]
  exact List.pairwise_lt_range

theorem nodup_all : all.Nodup := by
  refine pairwise_all.imp ?_
  rintro j k hlt rfl
  exact Nat.lt_irrefl _ hlt

end Kind

namespace Lexical

/-! ## One token after the other -/

/-- One more token of a kind. A kind that is new goes before the kinds with greater numbers. -/
def meet (k : Kind) : List (Kind × Nat) → List (Kind × Nat)
  | [] => [(k, 1)]
  | (j, n) :: rest =>
    if k = j then (j, n + 1) :: rest
    else if k.code < j.code then (k, 1) :: (j, n) :: rest
    else (j, n) :: meet k rest

/-- The table after the tokens of a stream were met one after the other. -/
def meetAll (kinds : List Kind) : List (Kind × Nat) := kinds.foldl (fun table k => meet k table) []

theorem meet_of_lt {k : Kind} {table : List (Kind × Nat)} (h : ∀ e ∈ table, k.code < e.1.code) :
    meet k table = (k, 1) :: table := by
  cases table with
  | nil => rfl
  | cons e rest =>
    have hlt : k.code < e.1.code := h e (List.mem_cons_self ..)
    have hne : k ≠ e.1 := by
      rintro rfl
      exact Nat.lt_irrefl _ hlt
    rw [meet, if_neg hne, if_pos hlt]

/-- The kinds of a list that occur, with their counts. -/
def occurring (among kinds : List Kind) : List (Kind × Nat) :=
  (among.map fun k => (k, kinds.count k)).filter fun e => 0 < e.2

theorem frequencies_eq (kinds : List Kind) : frequencies kinds = occurring Kind.all kinds := rfl

theorem occurring_cons (j : Kind) (among kinds : List Kind) :
    occurring (j :: among) kinds =
      if 0 < kinds.count j then (j, kinds.count j) :: occurring among kinds
      else occurring among kinds := by
  rw [occurring, List.map_cons, List.filter_cons]
  simp only [decide_eq_true_eq]
  rfl

theorem mem_of_mem_occurring {among kinds : List Kind} {e : Kind × Nat}
    (h : e ∈ occurring among kinds) : e.1 ∈ among ∧ 0 < e.2 := by
  obtain ⟨hmap, hpos⟩ := List.mem_filter.1 h
  obtain ⟨k, hk, rfl⟩ := List.mem_map.1 hmap
  exact ⟨hk, of_decide_eq_true hpos⟩

theorem occurring_concat_of_not_mem {among : List Kind} {k : Kind} (hk : k ∉ among)
    (kinds : List Kind) : occurring among (kinds ++ [k]) = occurring among kinds := by
  have hcount : ∀ j ∈ among, (kinds ++ [k]).count j = kinds.count j := by
    intro j hj
    have hne : k ≠ j := fun h => hk (h ▸ hj)
    rw [List.count_append, List.count_singleton, if_neg (by simpa using hne), Nat.add_zero]
  unfold occurring
  rw [List.map_congr_left fun j hj => by rw [hcount j hj]]

/-- To meet one more token keeps the table: it says how often each kind occurs, in order. -/
theorem meet_occurring {among : List Kind} (hsorted : among.Pairwise fun j k => j.code < k.code)
    {k : Kind} (hk : k ∈ among) (kinds : List Kind) :
    meet k (occurring among kinds) = occurring among (kinds ++ [k]) := by
  induction among with
  | nil => cases hk
  | cons j among ih =>
    obtain ⟨hbelow, hrest⟩ := List.pairwise_cons.1 hsorted
    have hcount : (kinds ++ [k]).count j = kinds.count j + if k = j then 1 else 0 := by
      rw [List.count_append, List.count_singleton]
      simp
    rw [occurring_cons, occurring_cons, hcount]
    by_cases hkj : k = j
    · -- the token is of the first kind, which is not among the others
      subst hkj
      have hnot : k ∉ among := fun hmem => Nat.lt_irrefl _ (hbelow k hmem)
      have habove : ∀ e ∈ occurring among kinds, k.code < e.1.code :=
        fun e he => hbelow e.1 (mem_of_mem_occurring he).1
      rw [occurring_concat_of_not_mem hnot, if_pos rfl, if_pos (Nat.succ_pos _)]
      split
      · rw [meet, if_pos rfl]
      · next hzero =>
        rw [meet_of_lt habove, Nat.eq_zero_of_not_pos hzero]
    · have hmem : k ∈ among := (List.mem_cons.1 hk).resolve_left hkj
      have hlt : ¬k.code < j.code := Nat.lt_asymm (hbelow k hmem)
      rw [if_neg hkj, Nat.add_zero]
      split
      · rw [meet, if_neg hkj, if_neg hlt, ih hrest hmem]
      · exact ih hrest hmem

theorem foldl_meet (earlier kinds : List Kind) :
    kinds.foldl (fun table k => meet k table) (frequencies earlier) =
      frequencies (earlier ++ kinds) := by
  induction kinds generalizing earlier with
  | nil => rw [List.foldl_nil, List.append_nil]
  | cons k kinds ih =>
    have hstep := meet_occurring Kind.pairwise_all (Kind.mem_all k) earlier
    rw [List.foldl_cons, frequencies_eq, hstep, ← frequencies_eq, ih, List.append_assoc]
    rfl

/-- The table that the tokens fill one by one says how often each kind occurs. -/
theorem meetAll_eq (kinds : List Kind) : meetAll kinds = frequencies kinds :=
  foldl_meet [] kinds

theorem frequencies_of_perm {js ks : List Kind} (h : js.Perm ks) :
    frequencies js = frequencies ks := by
  unfold frequencies
  simp only [h.count_eq]

/-! ## Sums over a class -/

/-- One more token of a class raises its occurrences by one. -/
theorem classCounts_meet (k : Kind) (table : List (Kind × Nat)) (inClass : List Kind) :
    (classCounts (meet k table) inClass).1 =
      (classCounts table inClass).1 + if k ∈ inClass then 1 else 0 := by
  have hcons : ∀ (e : Kind × Nat) (rest : List (Kind × Nat)), (classCounts (e :: rest) inClass).1 =
      (if e.1 ∈ inClass then e.2 else 0) + (classCounts rest inClass).1 := by
    intro e rest
    unfold classCounts
    rw [List.filter_cons]
    by_cases h : e.1 ∈ inClass <;> simp [h]
  induction table with
  | nil => rw [meet, hcons, Nat.add_comm]
  | cons e rest ih =>
    rw [meet]
    split
    · next h =>
      subst h
      rw [hcons, hcons]
      dsimp only
      split <;> omega
    · split
      · rw [hcons (k, 1), Nat.add_comm]
      · rw [hcons, hcons, ih, Nat.add_assoc]

theorem occurrences_eq (kinds inClass : List Kind) :
    (classCounts (frequencies kinds) inClass).1 = kinds.countP (· ∈ inClass) := by
  have hrun : ∀ table : List (Kind × Nat),
      (classCounts (kinds.foldl (fun table k => meet k table) table) inClass).1 =
        (classCounts table inClass).1 + kinds.countP (· ∈ inClass) := by
    induction kinds with
    | nil => exact fun table => rfl
    | cons k kinds ih =>
      intro table
      rw [List.foldl_cons, ih, classCounts_meet, List.countP_cons]
      simp only [decide_eq_true_eq]
      omega
  rw [← meetAll_eq]
  exact (hrun []).trans (Nat.zero_add _)

theorem distinct_eq (kinds inClass : List Kind) :
    (classCounts (frequencies kinds) inClass).2 = inClass.dedup.countP (· ∈ kinds) := by
  have hkeys : (frequencies kinds).map (·.1) = Kind.all.filter (· ∈ kinds) := by
    unfold frequencies
    rw [List.filter_map, List.map_map]
    simp [Function.comp_def, List.count_pos_iff]
  have hlength : (classCounts (frequencies kinds) inClass).2 =
      ((Kind.all.filter (· ∈ kinds)).filter (· ∈ inClass)).length := by
    rw [← hkeys, List.filter_map, List.length_map]
    rfl
  have hperm : ((Kind.all.filter (· ∈ kinds)).filter (· ∈ inClass)).Perm
      (inClass.dedup.filter (· ∈ kinds)) := by
    rw [List.perm_ext_iff_of_nodup ((Kind.nodup_all.filter _).filter _)
      (inClass.nodup_dedup.filter _)]
    intro k
    simp [Kind.mem_all, and_comm]
  rw [hlength, hperm.length_eq, List.countP_eq_length_filter]

/-- How often a class occurs among some kinds, and how many of its kinds do. -/
structure CountsClass (kinds inClass : List Kind) (counts : Nat × Nat) : Prop where
  occurrences : counts.1 = kinds.countP (· ∈ inClass)
  distinct : counts.2 = inClass.dedup.countP (· ∈ kinds)
  distinct_le : counts.2 ≤ counts.1
  distinct_eq_zero : counts.2 = 0 ↔ counts.1 = 0

theorem countsClass (kinds inClass : List Kind) :
    CountsClass kinds inClass (classCounts (frequencies kinds) inClass) := by
  obtain ⟨met, hmet⟩ : ∃ met, (frequencies kinds).filter (·.1 ∈ inClass) = met := ⟨_, rfl⟩
  have hcounts : classCounts (frequencies kinds) inClass = ((met.map (·.2)).sum, met.length) := by
    rw [classCounts, hmet]
  have hpos : ∀ n ∈ met.map (·.2), 0 < n := by
    intro n hn
    obtain ⟨e, he, rfl⟩ := List.mem_map.1 hn
    rw [← hmet] at he
    exact (mem_of_mem_occurring (List.mem_filter.1 he).1).2
  have hle : met.length ≤ (met.map (·.2)).sum := by
    rw [← List.length_map (·.2)]
    exact List.length_le_sum_of_one_le _ hpos
  refine ⟨occurrences_eq kinds inClass, distinct_eq kinds inClass, ?_, ?_⟩
  · rw [hcounts]
    exact hle
  · rw [hcounts]
    constructor
    · intro hzero
      rw [List.length_eq_zero_iff.1 hzero]
      rfl
    · intro hzero
      dsimp only at hzero ⊢
      omega

/-! ## The measures -/

theorem ofTokens_eq_ok [Scalar α] {tokens : List Token} (h : tokens ≠ []) (classes : TokenClasses) :
    ∃ l : Lexical α, ofTokens tokens classes = .ok l ∧ l.tokenCount = tokens.length ∧
      l.entropy = entropyOf (frequencies (tokens.map (·.kind))) tokens.length ∧
      CountsClass (tokens.map (·.kind)) classes.keywords
        (l.keywordOccurrences, l.distinctKeywords) ∧
      CountsClass (tokens.map (·.kind)) classes.operators
        (l.operatorOccurrences, l.distinctOperators) := by
  have hempty : tokens.isEmpty = false := by simpa using h
  unfold ofTokens
  rw [hempty]
  exact ⟨_, rfl, rfl, rfl, countsClass _ _, countsClass _ _⟩

/-- A class occurs at most as often as there are tokens, and each of its kinds that occurs does so
at least once. -/
theorem occurrences_le [Scalar α] {tokens : List Token} {classes : TokenClasses} {l : Lexical α}
    (h : ofTokens tokens classes = .ok l) :
    l.distinctKeywords ≤ l.keywordOccurrences ∧ l.distinctOperators ≤ l.operatorOccurrences ∧
      l.keywordOccurrences ≤ tokens.length ∧ l.operatorOccurrences ≤ tokens.length := by
  have hne : tokens ≠ [] := by
    rintro rfl
    cases h
  obtain ⟨l', hl, -, -, hkeywords, hoperators⟩ := ofTokens_eq_ok (α := α) hne classes
  cases hl.symm.trans h
  have hlength : ∀ p : Kind → Bool, (tokens.map (·.kind)).countP p ≤ tokens.length := by
    intro p
    rw [← List.length_map (·.kind)]
    exact List.countP_le_length
  refine ⟨hkeywords.distinct_le, hoperators.distinct_le, ?_, ?_⟩
  · exact Nat.le_trans (Nat.le_of_eq hkeywords.occurrences) (hlength _)
  · exact Nat.le_trans (Nat.le_of_eq hoperators.occurrences) (hlength _)

/-- The measures are made of the kinds alone, and their order does not matter. -/
theorem ofTokens_perm [Scalar α] {ts us : List Token}
    (h : (us.map (·.kind)).Perm (ts.map (·.kind))) (classes : TokenClasses) :
    (ofTokens us classes : Except Degeneracy (Lexical α)) = ofTokens ts classes := by
  have hlength : us.length = ts.length := by simpa using h.length_eq
  have hempty : us.isEmpty = ts.isEmpty := by simpa using h.isEmpty_eq
  unfold ofTokens
  rw [frequencies_of_perm h, hlength, hempty]

/-- The counts of two classes that share no kind are counts of different tokens. -/
theorem countP_add_countP_le {kinds ks ls : List Kind} (h : ks.Disjoint ls) :
    kinds.countP (· ∈ ks) + kinds.countP (· ∈ ls) ≤ kinds.length := by
  have hle : kinds.countP (· ∈ ls) ≤ kinds.countP (fun k => ¬decide (k ∈ ks) = true) := by
    refine List.countP_mono_left ?_
    intro k _ hk
    have hls : k ∈ ls := of_decide_eq_true hk
    simpa using fun hks => h hks hls
  have hlength := List.length_eq_countP_add_countP (fun k => decide (k ∈ ks)) (l := kinds)
  omega

/-- A stream has measures unless it is empty, and they are the same for every order of its tokens:
the tokens fill the same table, in whatever order they are met, and the entropy is one sum over
that table, however the numbers round. The tokens of each class are counted, and its kinds once
each. -/
theorem measures_of_perm [Scalar α] (tokens : List Token) (classes : TokenClasses) :
    let kinds := tokens.map (·.kind)
    ((∃ why, (ofTokens tokens classes : Except Degeneracy (Lexical α)) = .error why) ↔
      tokens = []) ∧
    (tokens ≠ [] → ∃ l : Lexical α,
      (∀ us : List Token, us.Perm tokens → ofTokens us classes = .ok l ∧
        l.entropy = entropyOf (meetAll (us.map (·.kind))) us.length) ∧
      l.tokenCount = tokens.length ∧
      CountsClass kinds classes.keywords (l.keywordOccurrences, l.distinctKeywords) ∧
      CountsClass kinds classes.operators (l.operatorOccurrences, l.distinctOperators) ∧
      (classes.keywords.Disjoint classes.operators →
        l.keywordOccurrences + l.operatorOccurrences ≤ l.tokenCount)) := by
  intro kinds
  constructor
  · constructor
    · rintro ⟨why, hwhy⟩
      by_contra hne
      obtain ⟨l, hl, -⟩ := ofTokens_eq_ok (α := α) hne classes
      rw [hl] at hwhy
      cases hwhy
    · rintro rfl
      exact ⟨_, rfl⟩
  · intro hne
    obtain ⟨l, hl, hcount, hentropy, hkeywords, hoperators⟩ := ofTokens_eq_ok (α := α) hne classes
    refine ⟨l, ?_, hcount, hkeywords, hoperators, ?_⟩
    · intro us hus
      have hkinds : (us.map (·.kind)).Perm kinds := hus.map _
      refine ⟨(ofTokens_perm hkinds classes).trans hl, ?_⟩
      rw [meetAll_eq, frequencies_of_perm hkinds, hus.length_eq, hentropy]
    · intro hdisjoint
      have hkeyword : l.keywordOccurrences = kinds.countP (· ∈ classes.keywords) :=
        hkeywords.occurrences
      have hoperator : l.operatorOccurrences = kinds.countP (· ∈ classes.operators) :=
        hoperators.occurrences
      have hlength : kinds.length = tokens.length := List.length_map _
      rw [hkeyword, hoperator, hcount, ← hlength]
      exact countP_add_countP_le hdisjoint

/-- The tokens of `if (a) return b + c; else return 0;` without their texts. -/
def choice : List Token :=
  [.keyword .If, .punctuator .LeftParen, .identifier, .punctuator .RightParen, .keyword .Return,
    .identifier, .punctuator .Plus, .identifier, .punctuator .Semi, .keyword .Else,
    .keyword .Return, .literal .integer, .punctuator .Semi].map .synthetic

/-- The tokens from the last to the first have the measures of the choice. -/
theorem measures_of_perm_choice :
    choice ≠ [] ∧ choice.reverse.Perm choice ∧
      TokenClasses.standard.keywords.Disjoint TokenClasses.standard.operators ∧
      ∃ l : Lexical Float, ofTokens choice .standard = .ok l ∧
        ofTokens choice.reverse .standard = .ok l ∧
        (l.keywordOccurrences, l.distinctKeywords) = (4, 3) ∧
        (l.operatorOccurrences, l.distinctOperators) = (4, 3) ∧
        l.keywordOccurrences + l.operatorOccurrences ≤ l.tokenCount := by
  have hne : choice ≠ [] := by decide
  have hperm : choice.reverse.Perm choice := List.reverse_perm choice
  have hdisjoint : TokenClasses.standard.keywords.Disjoint TokenClasses.standard.operators := by
    intro k hkeyword hoperator
    obtain ⟨word, -, rfl⟩ := List.mem_map.1 hkeyword
    obtain ⟨sign, -, hsign⟩ := List.mem_map.1 hoperator
    cases hsign
  obtain ⟨l, hl, -, hkeywords, hoperators, hle⟩ :=
    (measures_of_perm (α := Float) choice .standard).2 hne
  refine ⟨hne, hperm, hdisjoint, l, (hl choice (.refl _)).1, (hl _ hperm).1, ?_, ?_, hle hdisjoint⟩
  · refine Prod.ext (hkeywords.occurrences.trans ?_) (hkeywords.distinct.trans ?_)
    · decide +kernel
    · decide +kernel
  · refine Prod.ext (hoperators.occurrences.trans ?_) (hoperators.distinct.trans ?_)
    · decide +kernel
    · decide +kernel

end Lexical
end Stylometry
