-- The sums that the Halstead measures of a source are made of. They are exact when the vocabulary
-- and the length of the source fit into 64 bits, and no other sum in its measures can be too large.
import Stylometry.Measure.Values

namespace Stylometry

/-! ## Sums of counts -/

theorem foldlM_addCounts {n : Nat} (hn : n < countLimit) (counts : List Nat) :
    counts.foldlM addCounts n =
      if n + counts.sum < countLimit then .ok (n + counts.sum) else .error .overflow := by
  induction counts generalizing n with
  | nil =>
    rw [List.sum_nil, Nat.add_zero, if_pos hn]
    rfl
  | cons m counts ih =>
    rw [List.foldlM_cons, List.sum_cons, ← Nat.add_assoc, addCounts]
    by_cases h : n + m < countLimit
    · rw [if_pos h]
      exact ih h
    · rw [if_neg h, if_neg (by omega)]
      rfl

/-- Counts add up unless their sum is too large: the sums on the way are smaller. -/
theorem sumCounts_eq (counts : List Nat) :
    sumCounts counts = if counts.sum < countLimit then .ok counts.sum else .error .overflow := by
  have h := foldlM_addCounts (n := 0) (by decide) counts
  rwa [Nat.zero_add] at h

theorem MeasureError.sum_eq_ok {counts : List Nat} (h : counts.sum < countLimit) :
    MeasureError.sum counts = .ok counts.sum := by
  rw [MeasureError.sum, sumCounts_eq, if_pos h]
  rfl

theorem MeasureError.sum_three {a b c : Nat} (h : a + b + c < countLimit) :
    MeasureError.sum [a, b, c] = .ok (a + b + c) := by
  have hsum : [a, b, c].sum = a + b + c := by
    simp only [List.sum_cons, List.sum_nil]
    omega
  rw [sum_eq_ok (hsum ▸ h), hsum]

/-! ## What stops a measure -/

/-- Only the given faults can stop the computation. It may also be degenerate. -/
def FaultsOnly (P : Fault → Prop) (x : Except MeasureError α) : Prop :=
  ∀ f, x = .error (.fault f) → P f

namespace FaultsOnly

variable {α β : Type} {P : Fault → Prop}

theorem ok (a : α) : FaultsOnly P (.ok a : Except MeasureError α) := by
  intro f h
  cases h

theorem degenerate (why : Degeneracy) :
    FaultsOnly P (.error (.degenerate why) : Except MeasureError α) := by
  intro f h
  cases h

theorem bind {x : Except MeasureError α} {g : α → Except MeasureError β} (hx : FaultsOnly P x)
    (hg : ∀ a, x = .ok a → FaultsOnly P (g a)) : FaultsOnly P (x >>= g) := by
  intro f h
  cases x with
  | error e =>
    cases h
    exact hx f rfl
  | ok a => exact hg a rfl f h

theorem sum (h : P .overflow) (counts : List Nat) : FaultsOnly P (MeasureError.sum counts) := by
  intro f hf
  rw [MeasureError.sum, sumCounts_eq] at hf
  split at hf
  · cases hf
  · cases hf
    exact h

theorem quotient [Scalar α] (dividend divisor : α) (what : Divisor) :
    FaultsOnly P (quotient dividend divisor what) := by
  unfold Stylometry.quotient
  split
  · exact degenerate _
  · exact ok _

theorem lnQuotient [Scalar α] (dividend divisor : α) (what : Divisor) :
    FaultsOnly P (lnQuotient dividend divisor what) := by
  refine bind (quotient dividend divisor what) ?_
  intro q _
  dsimp only
  split
  · exact degenerate _
  · exact ok _

end FaultsOnly

/-! ## Operators and operands -/

namespace HalsteadCounts

/-- The distinct operators and operands. -/
def vocabulary (c : HalsteadCounts) : Nat := c.distinctOperators + c.distinctOperands

/-- All uses of operators and operands. -/
def length (c : HalsteadCounts) : Nat := c.totalOperators + c.totalOperands

/-- The vocabulary and the length fit into 64 bits. -/
def Fit (c : HalsteadCounts) : Prop := c.vocabulary < countLimit ∧ c.length < countLimit

theorem faultsOnly_measure [Scalar α] {P : Fault → Prop} (h : P .overflow) (c : HalsteadCounts) :
    FaultsOnly P (c.measure (α := α)) := by
  refine .bind (.sum h _) ?_
  intro vocabulary _
  dsimp only
  split
  · exact .degenerate _
  · split
    · exact .degenerate _
    · exact .bind (.sum h _) fun _ _ => .ok _

theorem Fit.sum_vocabulary {c : HalsteadCounts} (h : c.Fit) :
    MeasureError.sum [c.distinctOperators, c.distinctOperands] = .ok c.vocabulary :=
  MeasureError.sum_eq_ok h.1

theorem Fit.sum_length {c : HalsteadCounts} (h : c.Fit) :
    MeasureError.sum [c.totalOperators, c.totalOperands] = .ok c.length :=
  MeasureError.sum_eq_ok h.2

theorem Fit.faultsOnly_measure [Scalar α] {P : Fault → Prop} {c : HalsteadCounts} (h : c.Fit) :
    FaultsOnly P (c.measure (α := α)) := by
  unfold HalsteadCounts.measure
  rw [h.sum_vocabulary, h.sum_length]
  refine .bind (.ok _) ?_
  intro vocabulary _
  dsimp only
  split
  · exact .degenerate _
  · split
    · exact .degenerate _
    · exact .bind (.ok _) fun _ _ => .ok _

end HalsteadCounts

namespace Tally

/-- The counts of operators and operands of a source, however large they are. -/
def halstead (s : Tally) (lexical : Lexical α) : HalsteadCounts where
  distinctOperators :=
    lexical.distinctKeywords +
      (lexical.distinctOperators + (if 0 < s.rightShifts then 1 else 0) +
        if 0 < s.rightShiftAssigns then 1 else 0) +
      s.operators.length
  distinctOperands := s.operands.length
  totalOperators :=
    lexical.keywordOccurrences +
      (lexical.operatorOccurrences + s.rightShifts + s.rightShiftAssigns) + s.operators.total
  totalOperands := s.operands.total

/-- The counts of a source are exact when they fit. -/
theorem halsteadCounts_of_fit {s : Tally} {lexical : Lexical α} (h : (s.halstead lexical).Fit) :
    s.halsteadCounts lexical = .ok (s.halstead lexical) := by
  obtain ⟨hvocabulary, hlength⟩ := h
  simp only [HalsteadCounts.vocabulary, HalsteadCounts.length, halstead, Occurrences.total] at *
  unfold halsteadCounts
  -- every sum is a part of the vocabulary or of the length
  rw [MeasureError.sum_three (by omega), MeasureError.sum_three (by omega),
    MeasureError.sum_eq_ok (by omega), MeasureError.sum_eq_ok (by omega)]
  dsimp only [bind, Except.bind]
  rw [MeasureError.sum_three (by omega)]
  dsimp only
  rw [MeasureError.sum_three (by omega)]
  rfl

theorem faultsOnly_halsteadCounts {P : Fault → Prop} (h : P .overflow) (s : Tally)
    (lexical : Lexical α) : FaultsOnly P (s.halsteadCounts lexical) :=
  .bind (.sum h _) fun _ _ => .bind (.sum h _) fun _ _ => .bind (.sum h _) fun _ _ =>
    .bind (.sum h _) fun _ _ => .bind (.sum h _) fun _ _ => .bind (.sum h _) fun _ _ => .ok _

/-- Only the sums of the Halstead measures can stop the measures of a source. -/
theorem faultsOnly_measure [Scalar α] {P : Fault → Prop} {s : Tally} {inputs : MeasureInputs α}
    (hcounts : FaultsOnly P (s.halsteadCounts inputs.lexical))
    (hmeasure : ∀ c, s.halsteadCounts inputs.lexical = .ok c →
      FaultsOnly P (c.measure (α := α))) : FaultsOnly P (s.measure inputs) := by
  have hquotient := @FaultsOnly.quotient α P _
  have hln := @FaultsOnly.lnQuotient α P _
  refine hcounts.bind fun c hc => (hmeasure c hc).bind fun _ _ => ?_
  -- the nine quotients, then the two logarithms
  refine (hquotient _ _ _).bind fun _ _ => (hquotient _ _ _).bind fun _ _ => ?_
  refine (hquotient _ _ _).bind fun _ _ => (hquotient _ _ _).bind fun _ _ => ?_
  refine (hquotient _ _ _).bind fun _ _ => (hquotient _ _ _).bind fun _ _ => ?_
  refine (hquotient _ _ _).bind fun _ _ => (hquotient _ _ _).bind fun _ _ => ?_
  refine (hquotient _ _ _).bind fun _ _ => ?_
  exact (hln _ _ _).bind fun _ _ => (hln _ _ _).bind fun _ _ => .ok _

theorem fault_of_measure [Scalar α] {s : Tally} {inputs : MeasureInputs α} {f : Fault}
    (h : s.measure inputs = .error (.fault f)) :
    f = .overflow ∧ ¬(s.halstead inputs.lexical).Fit := by
  constructor
  · have hsums : FaultsOnly (· = .overflow) (s.measure inputs) :=
      faultsOnly_measure (faultsOnly_halsteadCounts (P := (· = .overflow)) rfl s _)
        fun c _ => c.faultsOnly_measure (P := (· = .overflow)) rfl
    exact hsums f h
  · intro hfit
    have hcounts := halsteadCounts_of_fit hfit
    have hnone : FaultsOnly (fun _ => False) (s.measure inputs) := by
      refine faultsOnly_measure (hcounts ▸ .ok _) ?_
      intro c hc
      cases hcounts.symm.trans hc
      exact hfit.faultsOnly_measure
    exact hnone f h

end Tally
end Stylometry
