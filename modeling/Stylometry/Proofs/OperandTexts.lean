-- What an operand is known by. A name, literal or declaration counts under the text of all its
-- tokens with nothing between them, so operands of different words share an entry when the words
-- join to the same text.
import Mathlib.Data.List.Dedup
import Mathlib.Data.List.Permutation
import Stylometry.Measure.Values
import Stylometry.Proofs.Callees
import Stylometry.Proofs.Leaves

namespace Stylometry

namespace Tree

/-- The texts of the tokens below a node, in document order. -/
def words (t : Tree) : List Text := (leavesAll t.children).map Token.text

theorem text_eq_flatten_words (t : Tree) : t.text = t.words.flatten := by
  rw [text_eq_leaves, List.flatMap_def, words]

end Tree

theorem Occurrences.length_ofList {α : Type} [DecidableEq α] (as : List α) :
    (ofList as).length = as.dedup.length := by
  have hperm : (ofList as).keys.Perm as.dedup := by
    rw [List.perm_ext_iff_of_nodup (nodup_keys_ofList as) as.nodup_dedup]
    intro a
    rw [mem_keys_ofList, List.mem_dedup]
  rw [← hperm.length_eq, keys, List.length_map]

namespace Tally

/-! ## The entry of an operand -/

/-- The node is a name, a literal or a declaration that is met while no callee is awaited. -/
def Moment.isOperand (m : Moment) : Bool := m.node.kind.isUse && m.before.context = .idle

/-- The node is counted among the operands under the key. -/
def Moment.CountsUnder (m : Moment) (key : Text) : Prop :=
  m.after.operands.count key = m.before.operands.count key + 1

theorem operandIn?_moment (m : Moment) :
    operandIn? m.before.context m.node =
      if m.isOperand then some m.node.words.flatten else none := by
  unfold operandIn? Moment.isOperand
  simp [Tree.text_eq_flatten_words]

/-- An operand is counted under its joined words and under nothing else. -/
theorem countsUnder_iff {m : Moment} {depth : Nat} (h : m.after = m.before.enter m.node depth)
    (key : Text) : m.CountsUnder key ↔ m.isOperand = true ∧ key = m.node.words.flatten := by
  unfold Moment.CountsUnder
  rw [h, operands_enter, operandIn?_moment, Occurrences.count_bumpAll]
  cases m.isOperand with
  | true => simp [eq_comm]
  | false => simp

theorem exists_depth_of_mem_moments {s : Tally} {es : List Tree.Event} {m : Moment}
    (h : m ∈ moments s es) : ∃ depth, m.after = m.before.enter m.node depth := by
  induction es generalizing s with
  | nil => cases h
  | cons e es ih =>
    cases e with
    | enter t depth =>
      rcases List.mem_cons.1 h with rfl | h
      · exact ⟨depth, rfl⟩
      · exact ih h
    | leave t depth => exact ih h

theorem filterMap_operandIn? (ms : List Moment) :
    (ms.filterMap fun m => operandIn? m.before.context m.node) =
      (ms.filter (·.isOperand)).map (·.node.words.flatten) := by
  induction ms with
  | nil => rfl
  | cons m ms ih =>
    rw [List.filterMap_cons, operandIn?_moment, ih]
    cases hm : m.isOperand <;> simp [hm]

theorem exists_of_bind_eq_ok {ε α β : Type} {x : Except ε α} {g : α → Except ε β} {b : β}
    (h : x >>= g = .ok b) : ∃ a, g a = .ok b := by
  cases x with
  | error e => cases h
  | ok a => exact ⟨a, h⟩

/-- The formulas are handed the number of entries for operands. -/
theorem distinctOperands_of_halsteadCounts {α : Type} {s : Tally} {lexical : Lexical α}
    {c : HalsteadCounts} (h : s.halsteadCounts lexical = .ok c) :
    c.distinctOperands = s.operands.length := by
  unfold halsteadCounts at h
  -- each of the six sums exists, and none of them is the number in question
  obtain ⟨_, h⟩ := exists_of_bind_eq_ok h
  obtain ⟨_, h⟩ := exists_of_bind_eq_ok h
  obtain ⟨_, h⟩ := exists_of_bind_eq_ok h
  obtain ⟨_, h⟩ := exists_of_bind_eq_ok h
  obtain ⟨_, h⟩ := exists_of_bind_eq_ok h
  obtain ⟨_, h⟩ := exists_of_bind_eq_ok h
  cases h
  rfl

/-! ## Operands of a walk -/

/-- In a walk over a tree, two operands count in the same entry just when their words join to the
same text. So the formulas are handed the number of different joined texts of the operands. -/
theorem operands_of_walk {α : Type} (k : NodeKind) (span : Span) (cs : List Tree) :
    let root := Tree.node k span cs
    ∃ ms, root.walk probe ({}, []) = (ofTree root, ms) ∧
      (∀ m ∈ ms, ∀ m' ∈ ms, m.isOperand = true → m'.isOperand = true →
        ((∃ key, m.CountsUnder key ∧ m'.CountsUnder key) ↔
          m.node.words.flatten = m'.node.words.flatten)) ∧
      (ofTree root).operands.length =
        ((ms.filter (·.isOperand)).map (·.node.words.flatten)).dedup.length ∧
      ∀ (lexical : Lexical α) (c : HalsteadCounts),
        (ofTree root).halsteadCounts lexical = .ok c →
          c.distinctOperands = (ofTree root).operands.length := by
  intro root
  obtain ⟨ms, hwalk, -, hfollow, hms, -⟩ := fits_walk k span cs
  obtain ⟨-, hoperands⟩ := tables_follow {} (root.events 1)
  rw [← hfollow, ← hms, filterMap_operandIn?] at hoperands
  refine ⟨ms, hwalk, ?_, ?_, fun _ _ => distinctOperands_of_halsteadCounts⟩
  · intro m hm m' hm' hoperand hoperand'
    rw [hms] at hm hm'
    obtain ⟨depth, hafter⟩ := exists_depth_of_mem_moments hm
    obtain ⟨depth', hafter'⟩ := exists_depth_of_mem_moments hm'
    simp [countsUnder_iff hafter, countsUnder_iff hafter', hoperand, hoperand']
  · rw [hoperands]
    exact Occurrences.length_ofList _

/-- The declarations `unsigned int x;` and `unsigned intx;` of two different variables. -/
def joinedNames : Tree :=
  .plain .TranslationUnit
    [.plain .Declaration
      [.token (.synthetic (.keyword .Unsigned)), .token (.synthetic (.keyword .Int)),
        .plain .Name [.token ⟨.identifier, "x".toList, .zero⟩],
        .token (.synthetic (.punctuator .Semi))],
    .plain .Declaration
      [.token (.synthetic (.keyword .Unsigned)),
        .plain .Name [.token ⟨.identifier, "intx".toList, .zero⟩],
        .token (.synthetic (.punctuator .Semi))]]

/-- Different words can share an entry: there is one entry for two declarations. -/
theorem operands_share_entry :
    ∃ ms, joinedNames.walk probe ({}, []) = (ofTree joinedNames, ms) ∧
      (∃ m ∈ ms, ∃ m' ∈ ms, m.isOperand = true ∧ m'.isOperand = true ∧
        (∃ key, m.CountsUnder key ∧ m'.CountsUnder key) ∧ m.node.words ≠ m'.node.words) ∧
      (ofTree joinedNames).operands.length = 1 ∧
      ((ms.filter (·.isOperand)).map (·.node.words)).dedup.length = 2 := by
  obtain ⟨ms, hwalk, -, -, hms, -⟩ := fits_walk .TranslationUnit .zero joinedNames.children
  have hwords : (ms.filter (·.isOperand)).map (·.node.words) =
      [["unsigned".toList, "int".toList, "x".toList, ";".toList],
        ["unsigned".toList, "intx".toList, ";".toList]] := by
    rw [hms]
    cbv
  have hentries : (ofTree joinedNames).operands.length = 1 := by cbv
  refine ⟨ms, hwalk, ?_, hentries, by rw [hwords]; decide⟩
  have hfind : ∀ ws ∈ (ms.filter (·.isOperand)).map (·.node.words),
      ∃ m ∈ ms, m.isOperand = true ∧ m.node.words = ws ∧ m.CountsUnder ws.flatten := by
    intro ws hws
    obtain ⟨m, hm, rfl⟩ := List.mem_map.1 hws
    obtain ⟨hmem, hoperand⟩ := List.mem_filter.1 hm
    obtain ⟨depth, hafter⟩ := exists_depth_of_mem_moments (hms ▸ hmem)
    exact ⟨m, hmem, hoperand, rfl, (countsUnder_iff hafter _).2 ⟨hoperand, rfl⟩⟩
  rw [hwords] at hfind
  obtain ⟨m, hm, hoperand, hlong, hcounts⟩ := hfind _ (List.mem_cons_self ..)
  obtain ⟨m', hm', hoperand', hshort, hcounts'⟩ :=
    hfind _ (List.mem_cons_of_mem _ (List.mem_cons_self ..))
  refine ⟨m, hm, m', hm', hoperand, hoperand', ⟨_, hcounts, hcounts'⟩, ?_⟩
  rw [hlong, hshort]
  decide

end Tally
end Stylometry
