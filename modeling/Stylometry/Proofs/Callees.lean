-- What counts as an operator: the callee of a call. A tally decides it by a context that
-- nine kinds of node set or clear; here it is read off the nodes before in preorder. The
-- last of them that sets or clears the context has to be a call around the name.
import Mathlib.Data.List.Forall2
import Stylometry.Proofs.Addresses
import Stylometry.Proofs.TallySteps

namespace Stylometry

/-! ## The rule for names -/

namespace Placed

/-- The last of some nodes that sets or clears the context. -/
def lastMark? (earlier : List Placed) : Option Placed :=
  (earlier.filter (·.tree.kind.isMark)).getLast?

/-- The call whose callee `x` is: the last mark before `x`, if it is a call above `x`. -/
def call? (earlier : List Placed) (x : Placed) : Option Placed :=
  (lastMark? earlier).filter fun c =>
    c.tree.kind = .FunctionCall ∧ c.address <+: x.address ∧ c.address ≠ x.address

/-- The call whose callee is a use: a name, a literal or a declaration. -/
def callee? (earlier : List Placed) (x : Placed) : Option Placed :=
  if x.tree.kind.isUse then call? earlier x else none

/-- The name that a declarator declares: the text of its first node, if that is not its
parameters. -/
def declared? (x : Placed) : Option Text :=
  if x.tree.kind = .FunctionDeclarator then
    (x.tree.nodes.head?.filter fun first => first.kind ≠ .ParameterClause).map Tree.text
  else none

/-- What a node counts for among the operators: a callee and a declared name count. -/
def operator? (earlier : List Placed) (x : Placed) : Option Text :=
  if x.tree.kind.isUse then (call? earlier x).map fun _ => x.tree.text else x.declared?

/-- What a node counts for among the operands: each use that is no callee counts. -/
def operand? (earlier : List Placed) (x : Placed) : Option Text :=
  if x.tree.kind.isUse ∧ call? earlier x = none then some x.tree.text else none

end Placed

namespace Tree

/-- The nodes of a tree in preorder, each with the nodes before it. -/
def visits (t : Tree) : List (List Placed × Placed) := withEarlier [] (t.placed [])

/-- The texts that count as operators. -/
def operatorTexts (t : Tree) : List Text := t.visits.filterMap fun v => Placed.operator? v.1 v.2

/-- The texts that count as operands. -/
def operandTexts (t : Tree) : List Text := t.visits.filterMap fun v => Placed.operand? v.1 v.2

/-- The calls that have a callee, once for each callee. -/
def calls (t : Tree) : List Placed := t.visits.filterMap fun v => Placed.callee? v.1 v.2

end Tree

namespace Placed

theorem lastMark?_append (e f : List Placed) :
    lastMark? (e ++ f) = (lastMark? f).or (lastMark? e) := by
  rw [lastMark?, List.filter_append, List.getLast?_append]
  rfl

theorem lastMark?_of_isMark {x : Placed} (h : x.tree.kind.isMark = true) (e : List Placed) :
    lastMark? (e ++ [x]) = some x := by
  rw [lastMark?_append]
  simp [lastMark?, h]

theorem lastMark?_of_not_isMark {x : Placed} (h : x.tree.kind.isMark = false)
    (e : List Placed) : lastMark? (e ++ [x]) = lastMark? e := by
  rw [lastMark?_append]
  simp [lastMark?, h]

theorem mem_of_lastMark? {e : List Placed} {c : Placed} (h : lastMark? e = some c) : c ∈ e :=
  (List.mem_filter.1 (List.mem_of_getLast? h)).1

theorem exists_lastMark? {x : Placed} (h : x.tree.kind.isMark = true) (e : List Placed) :
    ∃ c ∈ x :: e, lastMark? (x :: e) = some c := by
  obtain ⟨c, hc⟩ : ∃ c, lastMark? (x :: e) = some c := by
    rw [lastMark?, List.filter_cons, if_pos h]
    exact ⟨_, List.getLast?_eq_some_getLast (by simp)⟩
  exact ⟨c, mem_of_lastMark? hc, hc⟩

/-! ## The context that the nodes before give -/

/-- The context of a call that is open or of none. -/
def contextOf (call : Option Placed) : CallContext :=
  if call.isSome then .expectingOperator else .idle

/-- The context at a node, by the nodes before it. -/
def contextAt (e : List Placed) (a : List Nat) : CallContext :=
  contextOf ((lastMark? e).filter fun c =>
    c.tree.kind = .FunctionCall ∧ c.address <+: a ∧ c.address ≠ a)

/-- The context between two nodes right below the node with the given address. -/
def contextIn (e : List Placed) (a : List Nat) : CallContext :=
  contextOf ((lastMark? e).filter fun c => c.tree.kind = .FunctionCall ∧ c.address <+: a)

/-- The context at a child is the context between the children. -/
theorem contextAt_child (e : List Placed) (a : List Nat) (i : Nat) :
    contextAt e (a ++ [i]) = contextIn e a := by
  have h : ∀ b : List Nat, (b <+: a ++ [i] ∧ b ≠ a ++ [i]) ↔ b <+: a := by
    intro b
    rw [List.prefix_concat_iff]
    constructor
    · rintro ⟨h | h, hne⟩
      · exact absurd h hne
      · exact h
    · intro h
      refine ⟨.inr h, ?_⟩
      rintro rfl
      have hlength := h.length_le
      rw [List.length_append, List.length_singleton] at hlength
      omega
  simp only [contextAt, contextIn, h]

/-- The context at a node is the context inside it when the last mark is not the node. -/
theorem contextAt_eq_contextIn {e : List Placed} {a : List Nat}
    (h : ∀ c, lastMark? e = some c → c.tree.kind = .FunctionCall → c.address ≠ a) :
    contextAt e a = contextIn e a := by
  unfold contextAt contextIn
  cases hc : lastMark? e with
  | none => rfl
  | some c =>
    by_cases hk : c.tree.kind = .FunctionCall
    · simp [Option.filter, h c hc hk]
    · simp [Option.filter, hk]

/-- No call is open at a node when the last mark is the node or below it. -/
theorem contextAt_eq_idle {e : List Placed} {a : List Nat} {c : Placed}
    (h : lastMark? e = some c) (ha : a <+: c.address) : contextAt e a = .idle := by
  have hno : ¬(c.tree.kind = .FunctionCall ∧ c.address <+: a ∧ c.address ≠ a) := by
    rintro ⟨-, hp, hne⟩
    exact hne (hp.eq_of_length_le ha.length_le)
  simp [contextAt, contextOf, h, hno]

end Placed

namespace Tally

/-! ## What one walk does -/

/-- A node that was entered, with the tallies before and after. -/
structure Moment where
  before : Tally
  node : Tree
  after : Tally

/-- Counts as ever and takes down each node that is entered. -/
def probe : Listener (Tally × List Moment) where
  enter s t depth := (s.1.enter t depth, s.2 ++ [⟨s.1, t, s.1.enter t depth⟩])
  leave s t depth := (s.1.leave t depth, s.2)

/-- What the probe takes down along some events. -/
def moments (s : Tally) : List Tree.Event → List Moment
  | [] => []
  | .enter t depth :: es => ⟨s, t, s.enter t depth⟩ :: moments (s.enter t depth) es
  | .leave t depth :: es => moments (s.leave t depth) es

theorem moments_append (s : Tally) (es fs : List Tree.Event) :
    moments s (es ++ fs) = moments s es ++ moments (s.follow es) fs := by
  induction es generalizing s with
  | nil => rfl
  | cons e es ih =>
    cases e with
    | enter t depth => simp [moments, ih]
    | leave t depth => simp [moments, ih]

theorem foldl_probe (s : Tally) (log : List Moment) (es : List Tree.Event) :
    es.foldl (Tree.Event.apply probe) (s, log) = (s.follow es, log ++ moments s es) := by
  induction es generalizing s log with
  | nil => simp [moments]
  | cons e es ih =>
    cases e with
    | enter t depth =>
      have hstep : Tree.Event.apply probe (s, log) (.enter t depth) =
          (s.enter t depth, log ++ [⟨s, t, s.enter t depth⟩]) := rfl
      rw [List.foldl_cons, hstep, ih]
      simp [moments]
    | leave t depth =>
      have hstep : Tree.Event.apply probe (s, log) (.leave t depth) =
          (s.leave t depth, log) := rfl
      rw [List.foldl_cons, hstep, ih]
      simp [moments]

/-- The tables after some events are bumped at the nodes that were entered. -/
theorem tables_follow (s : Tally) (es : List Tree.Event) :
    (s.follow es).operators = s.operators.bumpAll
        ((moments s es).filterMap fun m => operatorIn? m.before.context m.node) ∧
      (s.follow es).operands = s.operands.bumpAll
        ((moments s es).filterMap fun m => operandIn? m.before.context m.node) := by
  have hcons : ∀ (f : Moment → Option Text) (m : Moment) (rest : List Moment),
      (m :: rest).filterMap f = (f m).toList ++ rest.filterMap f := by
    intro f m rest
    cases h : f m <;> simp [h]
  induction es generalizing s with
  | nil => exact ⟨rfl, rfl⟩
  | cons e es ih =>
    cases e with
    | enter t depth =>
      obtain ⟨hops, hands⟩ := ih (s.enter t depth)
      rw [follow_enter, hops, hands, operators_enter, operands_enter, moments, hcons, hcons,
        Occurrences.bumpAll_append, Occurrences.bumpAll_append]
      exact ⟨rfl, rfl⟩
    | leave t depth =>
      obtain ⟨hops, hands⟩ := ih (s.leave t depth)
      rw [follow_leave, hops, hands, operators_leave, operands_leave]
      exact ⟨rfl, rfl⟩

/-! ## The context at every node -/

/-- The moment is the visit of a node, and the context is the one that the nodes before
give. -/
def Fits (m : Moment) (v : List Placed × Placed) : Prop :=
  m.node = v.2.tree ∧ m.before.context = Placed.contextAt v.1 v.2.address ∧
    ∃ depth, m.after = m.before.enter m.node depth

/-- A node that is entered leaves the context for what is below it. -/
theorem contextIn_of_enter (x : Placed) (e : List Placed) (depth : Nat) (s : Tally)
    (he : ∀ c ∈ e, ¬x.address <+: c.address)
    (hs : s.context = Placed.contextAt e x.address) :
    (s.enter x.tree depth).context = Placed.contextIn (e ++ [x]) x.address := by
  rw [context_enter, contextAfter]
  cases hm : x.tree.kind.isMark with
  | true =>
    rw [Placed.contextIn, Placed.lastMark?_of_isMark hm]
    by_cases hk : x.tree.kind = .FunctionCall
    · simp [hk, Placed.contextOf]
    · simp [hk, Placed.contextOf]
  | false =>
    have hk : x.tree.kind ≠ .FunctionCall := by
      intro hk
      rw [hk] at hm
      cases hm
    rw [if_neg hk, if_neg (by simp), hs, Placed.contextIn, Placed.lastMark?_of_not_isMark hm]
    apply Placed.contextAt_eq_contextIn
    intro c hc _ heq
    exact he c (Placed.mem_of_lastMark? hc) (heq ▸ List.prefix_refl _)

/-- A node that is left leaves the context for the node after it. -/
theorem contextAt_of_leave (x : Placed) (e below : List Placed) (depth : Nat) (s : Tally)
    (he : ∀ c ∈ e, ¬x.address <+: c.address)
    (hbelow : ∀ c ∈ below, ∃ j, 0 ≤ j ∧ x.address ++ [j] <+: c.address)
    (hs : s.context = Placed.contextIn (e ++ [x] ++ below) x.address) :
    (s.leave x.tree depth).context = Placed.contextAt (e ++ x :: below) x.address := by
  rw [context_leave]
  have hlist : e ++ [x] ++ below = e ++ x :: below := by simp
  rw [hlist] at hs
  by_cases hk : x.tree.kind = .FunctionCall
  · -- The last mark is the call itself or below it, so no call is open after it.
    rw [if_pos hk]
    obtain ⟨c, hc, hlast⟩ := Placed.exists_lastMark? (by rw [hk]; rfl) below
    have hall : Placed.lastMark? (e ++ x :: below) = some c := by
      rw [Placed.lastMark?_append, hlast]
      rfl
    have hprefix : x.address <+: c.address := by
      rcases List.mem_cons.1 hc with rfl | hc
      · exact List.prefix_refl _
      · obtain ⟨j, -, hj⟩ := hbelow c hc
        exact (List.prefix_append _ [j]).trans hj
    rw [Placed.contextAt_eq_idle hall hprefix]
  · -- No call stands at this address, so it does not matter whether the node is left.
    rw [if_neg hk, hs]
    symm
    apply Placed.contextAt_eq_contextIn
    intro c hc hcall heq
    rcases List.mem_append.1 (Placed.mem_of_lastMark? hc) with hmem | hmem
    · exact he c hmem (heq ▸ List.prefix_refl _)
    · rcases List.mem_cons.1 hmem with rfl | hmem
      · exact hk hcall
      · obtain ⟨j, -, hj⟩ := hbelow c hmem
        have := hj.length_le
        rw [heq] at this
        simp only [List.length_append, List.length_singleton] at this
        omega

mutual
/-- The events of a tree visit its nodes with the contexts that the nodes before give. -/
theorem fits_events : ∀ (t : Tree) (e : List Placed) (a : List Nat) (depth : Nat) (s : Tally),
    (∀ c ∈ e, ¬a <+: c.address) → s.context = Placed.contextAt e a →
    (s.follow (t.events depth)).context = Placed.contextAt (e ++ t.placed a) a ∧
      List.Forall₂ Fits (moments s (t.events depth)) (withEarlier e (t.placed a))
  | .token t, e, a, depth, s, he, hs => by
    simpa [moments, withEarlier] using hs
  | .node k span cs, e, a, depth, s, he, hs => by
    let x : Placed := ⟨a, .node k span cs⟩
    have hin := contextIn_of_enter x e depth s he hs
    have hfresh : ∀ c ∈ e ++ [x], ∀ j, 0 ≤ j → ¬a ++ [j] <+: c.address := by
      intro c hc j _ hprefix
      rcases List.mem_append.1 hc with hc | hc
      · exact he c hc ((List.prefix_append a [j]).trans hprefix)
      · rw [List.mem_singleton.1 hc] at hprefix
        have := hprefix.length_le
        simp only [x, List.length_append, List.length_singleton] at this
        omega
    obtain ⟨hctx, hfits⟩ := fits_eventsAll cs (e ++ [x]) a 0 (depth + 1) _ hfresh hin
    have hout := contextAt_of_leave x e (Tree.placedAll a 0 cs) depth _ he
      (fun c hc => Tree.prefix_of_mem_placedAll cs a 0 c hc) hctx
    rw [Tree.events_node, Tree.placed_node, follow_enter, follow_append, follow_leave, follow_nil]
    refine ⟨hout, ?_⟩
    rw [moments, moments_append]
    simp only [moments, List.append_nil, withEarlier]
    exact .cons ⟨rfl, hs, depth, rfl⟩ hfits

/-- The events of the nodes below a node visit them with the contexts that the nodes before
give. -/
theorem fits_eventsAll : ∀ (cs : List Tree) (e : List Placed) (a : List Nat) (i depth : Nat)
    (s : Tally), (∀ c ∈ e, ∀ j, i ≤ j → ¬a ++ [j] <+: c.address) →
    s.context = Placed.contextIn e a →
    (s.follow (Tree.eventsAll depth cs)).context =
        Placed.contextIn (e ++ Tree.placedAll a i cs) a ∧
      List.Forall₂ Fits (moments s (Tree.eventsAll depth cs))
        (withEarlier e (Tree.placedAll a i cs))
  | [], e, a, i, depth, s, he, hs => by
    simpa [moments, withEarlier] using hs
  | c :: cs, e, a, i, depth, s, he, hs => by
    have hat : s.context = Placed.contextAt e (a ++ [i]) := by
      rw [hs, Placed.contextAt_child]
    obtain ⟨hctx, hfits⟩ := fits_events c e (a ++ [i]) depth s
      (fun x hx => he x hx i (Nat.le_refl i)) hat
    rw [Placed.contextAt_child] at hctx
    have hfresh : ∀ x ∈ e ++ c.placed (a ++ [i]), ∀ j, i + 1 ≤ j → ¬a ++ [j] <+: x.address := by
      intro x hx j hj hprefix
      rcases List.mem_append.1 hx with hx | hx
      · exact he x hx j (by omega) hprefix
      · have := Tree.child_eq_of_prefix (Tree.prefix_of_mem_placed c _ x hx) hprefix
        omega
    obtain ⟨hctx', hfits'⟩ := fits_eventsAll cs (e ++ c.placed (a ++ [i])) a (i + 1) depth _
      hfresh hctx
    rw [Tree.eventsAll_cons, Tree.placedAll_cons, follow_append, moments_append,
      withEarlier_append, ← List.append_assoc]
    exact ⟨hctx', List.rel_append hfits hfits'⟩
end

/-! ## Names by the rule -/

theorem declaredName?_eq (t : Tree) :
    declaredName? t =
      (t.nodes.head?.filter fun first => first.kind ≠ .ParameterClause).map Tree.text := by
  unfold declaredName?
  cases t.nodes with
  | nil => rfl
  | cons first rest => by_cases h : first.kind = .ParameterClause <;> simp [Option.filter, h]

theorem operatorIn?_contextAt (e : List Placed) (x : Placed) :
    operatorIn? (Placed.contextAt e x.address) x.tree = Placed.operator? e x := by
  have hctx : Placed.contextAt e x.address = Placed.contextOf (Placed.call? e x) := rfl
  rw [hctx]
  unfold operatorIn? Placed.operator? Placed.declared? Placed.contextOf
  rw [declaredName?_eq]
  cases Placed.call? e x <;> simp

theorem operandIn?_contextAt (e : List Placed) (x : Placed) :
    operandIn? (Placed.contextAt e x.address) x.tree = Placed.operand? e x := by
  have hctx : Placed.contextAt e x.address = Placed.contextOf (Placed.call? e x) := rfl
  rw [hctx]
  unfold operandIn? Placed.operand? Placed.contextOf
  cases Placed.call? e x <;> simp

/-- At the moment a node is entered, the tables take what the rule gives for it. -/
def Tallied (m : Moment) (v : List Placed × Placed) : Prop :=
  m.node = v.2.tree ∧
    m.after.operators = m.before.operators.bumpAll (Placed.operator? v.1 v.2).toList ∧
    m.after.operands = m.before.operands.bumpAll (Placed.operand? v.1 v.2).toList

theorem tallied_of_fits {m : Moment} {v : List Placed × Placed} (h : Fits m v) :
    Tallied m v := by
  obtain ⟨hnode, hctx, depth, hafter⟩ := h
  refine ⟨hnode, ?_, ?_⟩
  · rw [hafter, operators_enter, hctx, hnode, operatorIn?_contextAt]
  · rw [hafter, operands_enter, hctx, hnode, operandIn?_contextAt]

/-- What the moments count for among the operators and operands is what the rule gives. -/
theorem texts_of_fits {ms : List Moment} {vs : List (List Placed × Placed)}
    (h : List.Forall₂ Fits ms vs) :
    (ms.filterMap fun m => operatorIn? m.before.context m.node) =
        vs.filterMap (fun v => Placed.operator? v.1 v.2) ∧
      (ms.filterMap fun m => operandIn? m.before.context m.node) =
        vs.filterMap (fun v => Placed.operand? v.1 v.2) := by
  induction h with
  | nil => exact ⟨rfl, rfl⟩
  | @cons m v ms vs hfit _ ih =>
    obtain ⟨hnode, hctx, -⟩ := hfit
    simp only [List.filterMap_cons, hnode, hctx, operatorIn?_contextAt, operandIn?_contextAt,
      ih.1, ih.2, and_self]

end Tally

namespace Placed

/-! ## How many nodes count -/

/-- A node counts once when it is a name, a literal, a declaration or a declarator with a
name, and otherwise not at all. -/
theorem length_operator?_add_operand? (e : List Placed) (x : Placed) :
    (operator? e x).toList.length + (operand? e x).toList.length =
      if x.tree.kind.isUse || x.declared?.isSome then 1 else 0 := by
  unfold operator? operand?
  cases hu : x.tree.kind.isUse with
  | true => cases call? e x <;> simp
  | false => cases x.declared? <;> simp

theorem length_texts (vs : List (List Placed × Placed)) :
    (vs.filterMap fun v => operator? v.1 v.2).length +
        (vs.filterMap fun v => operand? v.1 v.2).length =
      (vs.map (·.2)).countP fun x => x.tree.kind.isUse || x.declared?.isSome := by
  induction vs with
  | nil => rfl
  | cons v vs ih =>
    have hv := length_operator?_add_operand? v.1 v.2
    rw [List.map_cons, List.countP_cons, ← ih, ← hv, List.filterMap_cons, List.filterMap_cons]
    cases operator? v.1 v.2 <;> cases operand? v.1 v.2 <;> simp <;> omega

/-! ## Callees of one call -/

/-- The call of a callee is the last mark before it. -/
theorem lastMark?_of_callee? {e : List Placed} {x c : Placed} (h : callee? e x = some c) :
    lastMark? e = some c ∧ x.tree.kind.isUse = true ∧ c.tree.kind = .FunctionCall := by
  unfold callee? call? at h
  split at h
  · next hu =>
    rw [Option.filter_eq_some_iff] at h
    obtain ⟨hlast, hc⟩ := h
    exact ⟨hlast, hu, (of_decide_eq_true hc).1⟩
  · cases h

/-- The calls of some visits stand before or among the visited nodes. -/
theorem mem_callees {e l : List Placed} {c : Placed}
    (h : c ∈ (withEarlier e l).filterMap fun v => callee? v.1 v.2) :
    c.tree.kind = .FunctionCall ∧ (lastMark? e = some c ∨ c ∈ l) := by
  induction l generalizing e with
  | nil => simp [withEarlier] at h
  | cons x l ih =>
    obtain ⟨v, hv, hc⟩ := List.mem_filterMap.1 h
    rw [withEarlier, List.mem_cons] at hv
    rcases hv with rfl | hv
    · obtain ⟨hlast, -, hcall⟩ := lastMark?_of_callee? hc
      exact ⟨hcall, .inl hlast⟩
    · obtain ⟨hcall, hlast | hmem⟩ := ih (List.mem_filterMap.2 ⟨v, hv, hc⟩)
      · refine ⟨hcall, ?_⟩
        cases hm : x.tree.kind.isMark with
        | true =>
          rw [lastMark?_of_isMark hm, Option.some.injEq] at hlast
          exact .inr (hlast ▸ List.mem_cons_self ..)
        | false => exact .inl (lastMark?_of_not_isMark hm e ▸ hlast)
      · exact ⟨hcall, .inr (List.mem_cons_of_mem x hmem)⟩

/-- No call has two callees: the first one is a mark that the second would have to pass. -/
theorem nodup_callees {e l : List Placed} (h : ((e ++ l).map (·.address)).Nodup) :
    (((withEarlier e l).filterMap fun v => callee? v.1 v.2).map (·.address)).Nodup := by
  induction l generalizing e with
  | nil => simp [withEarlier]
  | cons x l ih =>
    have hrest := ih (by simpa using h : (((e ++ [x]) ++ l).map (·.address)).Nodup)
    rw [withEarlier, List.filterMap_cons]
    cases hc : callee? e x with
    | none => exact hrest
    | some c =>
      obtain ⟨hlast, huse, -⟩ := lastMark?_of_callee? hc
      rw [List.map_cons, List.nodup_cons]
      refine ⟨?_, hrest⟩
      intro hmem
      obtain ⟨d, hd, heq⟩ := List.mem_map.1 hmem
      obtain ⟨hcall, hd | hd⟩ := mem_callees hd
      · have hmark : x.tree.kind.isMark = true := by
          revert huse
          cases x.tree.kind <;> simp [NodeKind.isUse, NodeKind.isMark]
        rw [lastMark?_of_isMark hmark, Option.some.injEq] at hd
        rw [hd, hcall] at huse
        cases huse
      · rw [List.map_append, List.nodup_append] at h
        exact h.2.2 c.address (List.mem_map_of_mem (mem_of_lastMark? hlast)) d.address
          (List.mem_map_of_mem (List.mem_cons_of_mem x hd)) heq.symm

end Placed

namespace Tally

/-- A walk tallies every node by the rule. -/
theorem fits_walk (k : NodeKind) (span : Span) (cs : List Tree) :
    let root := Tree.node k span cs
    ∃ ms, root.walk probe ({}, []) = (ofTree root, ms) ∧ List.Forall₂ Fits ms root.visits ∧
      ofTree root = follow {} (root.events 1) ∧ ms = moments {} (root.events 1) ∧
      (ofTree root).context = .idle := by
  have hwalk := ofTree_node k span cs
  obtain ⟨hctx, hfits⟩ := fits_events (.node k span cs) [] [] 1 {} (by simp) rfl
  refine ⟨_, ?_, hfits, hwalk, rfl, ?_⟩
  · rw [Tree.walk_node, foldl_probe, List.nil_append, hwalk]
  · rw [hwalk, hctx]
    -- No address stands properly before the empty one, so no call is open around the root.
    simp [Placed.contextAt, Placed.contextOf]

/-- A walk over a tree tallies every name, literal and declaration once: as an operator when
it is the callee of a call, that is when the last mark before it is a call around it, and as
an operand otherwise. Besides them only the names of declarators are operators. So the tables
together count each of these nodes once, no call has two callees, and no call is left open. -/
theorem names_of_walk (k : NodeKind) (span : Span) (cs : List Tree) :
    let root := Tree.node k span cs
    (∃ ms, root.walk probe ({}, []) = (ofTree root, ms) ∧
        List.Forall₂ Tallied ms root.visits) ∧
      (ofTree root).operators = .ofList root.operatorTexts ∧
      (ofTree root).operands = .ofList root.operandTexts ∧
      (ofTree root).operators.total + (ofTree root).operands.total =
        (root.placed []).countP (fun x => x.tree.kind.isUse || x.declared?.isSome) ∧
      (root.calls.map (·.address)).Nodup ∧
      (ofTree root).context = .idle := by
  intro root
  obtain ⟨ms, hwalk, hfits, hfollow, hms, hidle⟩ := fits_walk k span cs
  obtain ⟨hops, hands⟩ := tables_follow {} (root.events 1)
  obtain ⟨htexts, htexts'⟩ := texts_of_fits hfits
  rw [← hms, htexts] at hops
  rw [← hms, htexts'] at hands
  have hoperators : (ofTree root).operators = .ofList root.operatorTexts := by
    rw [hfollow]
    exact hops
  have hoperands : (ofTree root).operands = .ofList root.operandTexts := by
    rw [hfollow]
    exact hands
  refine ⟨⟨ms, hwalk, hfits.imp fun _ _ => tallied_of_fits⟩, hoperators, hoperands, ?_, ?_,
    hidle⟩
  · rw [hoperators, hoperands, Occurrences.total_ofList, Occurrences.total_ofList]
    have hlength := Placed.length_texts root.visits
    rwa [show root.visits.map (·.2) = root.placed [] from map_snd_withEarlier ..] at hlength
  · exact Placed.nodup_callees (Tree.nodup_placed root [])

end Tally
end Stylometry
