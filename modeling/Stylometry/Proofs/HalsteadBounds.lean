-- How large the sums of the Halstead measures can become. A token counts at most once among the
-- keywords and once among the operators, and a node is charged at most once besides. So the sums
-- are bounded by what was read, and none of them overflows for a source that fits.
import Stylometry.Proofs.Frequencies
import Stylometry.Proofs.HalsteadSums
import Stylometry.Proofs.OperandTexts
import Stylometry.Proofs.WalkTotals

namespace Stylometry

theorem Occurrences.length_ofList_le_total {α : Type} [DecidableEq α] (as : List α) :
    (ofList as).length ≤ (ofList as).total := by
  rw [length_ofList, total_ofList]
  exact as.dedup_sublist.length_le

namespace Tally

/-! ## Numbers that a node raises at most once -/

/-- A number of the tally that a node raises by at most one. -/
structure OncePerNode (g : Tally → Nat) : Prop where
  enter : ∀ s t depth, g (s.enter t depth) ≤ g s + 1
  leave : ∀ s t depth, g (s.leave t depth) = g s

section
variable {g : Tally → Nat}

theorem OncePerNode.afterSteps (h : OncePerNode g) (s : Tally) (es : List Step) :
    g (s.afterSteps es) ≤ g s + (Step.entered es).length := by
  induction es generalizing s with
  | nil => exact Nat.le_refl _
  | cons e es ih =>
    cases e with
    | enter x =>
      have henter := h.enter s x.tree (x.address.length + 1)
      have hrest := ih (s.enter x.tree (x.address.length + 1))
      rw [afterSteps_enter, Step.entered_enter, List.length_cons]
      omega
    | leave x =>
      rw [afterSteps_leave, Step.entered_leave, ← h.leave s x.tree (x.address.length + 1)]
      exact ih _

theorem OncePerNode.ofTree (h : OncePerNode g) (hg : g {} = 0) (k : NodeKind) (span : Span)
    (cs : List Tree) :
    g (ofTree (.node k span cs)) ≤ (Tree.node k span cs).allNodes.length := by
  have hsteps := h.afterSteps {} ((Tree.node k span cs).steps [])
  rw [Tree.entered_steps, hg, Nat.zero_add] at hsteps
  rw [ofTree_eq_afterSteps, Tree.allNodes, List.length_map]
  exact hsteps

end

/-- The uses of operators and operands that nodes are charged for. -/
def charge (s : Tally) : Nat :=
  s.rightShifts + s.rightShiftAssigns + s.operators.total + s.operands.total

/-- The branches of the flow of control. -/
def branches (s : Tally) : Nat := s.flowControl + s.conditionalBranches + s.jumps

/-- A node is a shift, a callee, a declared name or an operand, or none of them. -/
theorem length_names_add_shifts_le (context : CallContext) (t : Tree) :
    hits [.RightShift] t + hits [.RightShiftAssign] t + (operatorIn? context t).toList.length +
      (operandIn? context t).toList.length ≤ 1 := by
  unfold hits operatorIn? operandIn?
  cases t.kind with
  | Identifier | Literal | Declaration => cases context <;> simp [NodeKind.isUse]
  | FunctionDeclarator => cases declaredName? t <;> simp [NodeKind.isUse]
  | _ => simp [NodeKind.isUse]

theorem oncePerNode_charge : OncePerNode charge where
  enter s t depth := by
    have hle := length_names_add_shifts_le s.context t
    rw [enter_eq]
    simp only [charge, afterEnter, afterKind, afterTokens, Occurrences.total_bumpAll]
    omega
  leave s t depth := by
    rw [leave_eq]
    rfl

theorem oncePerNode_branches : OncePerNode branches where
  enter s t depth := by
    have hle : (if t.kind.isFlow then 1 else 0) + hits [.LogicalAnd, .LogicalOr] t +
        hits [.Jump] t ≤ 1 := by
      unfold hits
      cases t.kind <;> simp [NodeKind.isFlow]
    rw [enter_eq]
    simp only [branches, afterEnter, afterKind, afterTokens]
    omega
  leave s t depth := by
    rw [leave_eq]
    rfl

/-! ## Vocabulary and length -/

/-- A table has no more entries than uses. -/
theorem length_tables_le (k : NodeKind) (span : Span) (cs : List Tree) :
    (ofTree (.node k span cs)).operators.length ≤ (ofTree (.node k span cs)).operators.total ∧
      (ofTree (.node k span cs)).operands.length ≤ (ofTree (.node k span cs)).operands.total := by
  obtain ⟨hoperators, hoperands⟩ := tables_follow {} ((Tree.node k span cs).events 1)
  rw [ofTree_node, hoperators, hoperands]
  exact ⟨Occurrences.length_ofList_le_total _, Occurrences.length_ofList_le_total _⟩

/-- A walk over a tree and a stream of tokens bound the vocabulary and the length of a source: twice
the tokens and once the nodes. Operators and operands are used at least once each. When that bound
fits into 64 bits, the counts are exact, the branches fit as well and no sum in the measures
overflows. -/
theorem halstead_of_walk [Scalar α] {tokens : List Token} {classes : TokenClasses}
    {lexical : Lexical α} (h : Lexical.ofTokens tokens classes = .ok lexical) (k : NodeKind)
    (span : Span) (cs : List Tree) :
    let root := Tree.node k span cs
    let bound := 2 * tokens.length + root.allNodes.length
    let counts := (ofTree root).halstead lexical
    counts.vocabulary ≤ bound ∧ counts.length ≤ bound ∧
      counts.distinctOperators ≤ counts.totalOperators ∧
      counts.distinctOperands ≤ counts.totalOperands ∧
      (bound < countLimit →
        (ofTree root).halsteadCounts lexical = .ok counts ∧
        (ofTree root).branches < countLimit ∧
        (∀ f, counts.measure (α := α) ≠ .error (.fault f)) ∧
        ∀ (size : SourceSize) (readability : Readability α) (f : Fault),
          (ofTree root).measure ⟨size, lexical, readability⟩ ≠ .error (.fault f)) := by
  intro root bound counts
  obtain ⟨hdistinct, hdistinct', hkeywords, hoperators⟩ := Lexical.occurrences_le h
  obtain ⟨hlength, hlength'⟩ := length_tables_le k span cs
  have hcharge := oncePerNode_charge.ofTree rfl k span cs
  have hbranches := oncePerNode_branches.ofTree rfl k span cs
  have hshift : ∀ n : Nat, (if 0 < n then 1 else 0) ≤ n := by
    intro n
    split <;> omega
  have hshifts := hshift (ofTree root).rightShifts
  have hshifts' := hshift (ofTree root).rightShiftAssigns
  have hoperator : counts.distinctOperators ≤ counts.totalOperators := by
    simp only [counts, halstead, root] at *
    omega
  have hoperand : counts.distinctOperands ≤ counts.totalOperands := hlength'
  have hlong : counts.length ≤ bound := by
    simp only [counts, halstead, HalsteadCounts.length, charge, bound, root] at *
    omega
  have hvocabulary : counts.vocabulary ≤ counts.length := Nat.add_le_add hoperator hoperand
  refine ⟨Nat.le_trans hvocabulary hlong, hlong, hoperator, hoperand, ?_⟩
  intro hbound
  have hfit : counts.Fit :=
    ⟨Nat.lt_of_le_of_lt (Nat.le_trans hvocabulary hlong) hbound, Nat.lt_of_le_of_lt hlong hbound⟩
  refine ⟨halsteadCounts_of_fit hfit, ?_, ?_, ?_⟩
  · exact Nat.lt_of_le_of_lt (Nat.le_trans hbranches (Nat.le_add_left _ _)) hbound
  · intro f
    have hnone : FaultsOnly (fun _ => False) (counts.measure (α := α)) := hfit.faultsOnly_measure
    exact hnone f
  · intro size readability f hfault
    exact (fault_of_measure hfault).2 hfit

/-- The kinds of the tokens of `return a >> 1`. -/
def shiftedTokens : List Token :=
  [.keyword .Return, .identifier, .punctuator .Greater, .punctuator .Greater,
    .literal .integer].map .synthetic

/-- A function that returns `a >> 1`. -/
def shiftedTree : List Tree :=
  [.plain .FunctionDefinition
    [.plain .Jump
      [.token (.synthetic (.keyword .Return)),
        .plain .Other
          [.plain .Identifier [.token ⟨.identifier, ['a'], .zero⟩],
            .plain .RightShift
              [.token (.synthetic (.punctuator .Greater)),
                .token (.synthetic (.punctuator .Greater))],
            .plain .Literal [.token ⟨.literal .integer, ['1'], .zero⟩]]]]]

/-- The shift counts as one operator more than its two tokens. -/
theorem halstead_of_walk_shifted :
    let root := Tree.plain .TranslationUnit shiftedTree
    ∃ lexical : Lexical Float, Lexical.ofTokens shiftedTokens .standard = .ok lexical ∧
      2 * shiftedTokens.length + root.allNodes.length = 17 ∧
      (ofTree root).halsteadCounts lexical = .ok ⟨3, 2, 4, 2⟩ ∧
      ∀ f, (ofTree root).measure ⟨⟨1, 20⟩, lexical, .standard⟩ ≠ .error (.fault f) := by
  intro root
  let lexical : Lexical Float :=
    ⟨5, Lexical.entropyOf (Lexical.frequencies (shiftedTokens.map (·.kind))) 5, 1, 1, 2, 1⟩
  have hlexical : Lexical.ofTokens shiftedTokens .standard = .ok lexical := rfl
  have hbound : 2 * shiftedTokens.length + root.allNodes.length = 17 := by decide
  have hfits : 2 * shiftedTokens.length + root.allNodes.length < countLimit := by
    rw [hbound]
    decide
  have hcounts : (ofTree root).halstead lexical = ⟨3, 2, 4, 2⟩ := by cbv
  obtain ⟨-, -, -, -, hsums⟩ := halstead_of_walk hlexical .TranslationUnit .zero shiftedTree
  obtain ⟨hexact, -, -, hmeasure⟩ := hsums hfits
  exact ⟨lexical, hlexical, hbound, hexact.trans (congrArg _ hcounts), hmeasure _ _⟩

end Tally
end Stylometry
