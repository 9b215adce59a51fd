-- The leaves of a tree: its tokens in document order. The text of a tree is the text of its
-- leaves, and what a walk counts at tokens it counts at the leaves, each once.
import Stylometry.Proofs.TallySteps

namespace Stylometry

namespace Tree

/-! ## Leaves -/

mutual
/-- The tokens of the tree, in document order. -/
def leaves : Tree → List Token
  | .token t => [t]
  | .node _ _ cs => leavesAll cs

/-- The tokens of several trees, one after the other. -/
def leavesAll : List Tree → List Token
  | [] => []
  | c :: cs => c.leaves ++ leavesAll cs
end

@[simp] theorem leaves_token (t : Token) : (Tree.token t).leaves = [t] := by rw [leaves]

@[simp] theorem leaves_node (k : NodeKind) (s : Span) (cs : List Tree) :
    (Tree.node k s cs).leaves = leavesAll cs := by rw [leaves]

@[simp] theorem leavesAll_nil : leavesAll [] = [] := by rw [leavesAll]

@[simp] theorem leavesAll_cons (c : Tree) (cs : List Tree) :
    leavesAll (c :: cs) = c.leaves ++ leavesAll cs := by rw [leavesAll]

theorem leavesAll_append (cs ds : List Tree) :
    leavesAll (cs ++ ds) = leavesAll cs ++ leavesAll ds := by
  induction cs with
  | nil => simp
  | cons c cs ih => simp [ih]

theorem leavesAll_map_token (ts : List Token) : leavesAll (ts.map .token) = ts := by
  induction ts with
  | nil => simp
  | cons t ts ih => simp [ih]

/-- A stack of rows of trees stands for the leaves of the rows, the top row first. -/
theorem textOf_eq_leaves (rows : List (List Tree)) :
    textOf rows = (rows.flatMap leavesAll).flatMap Token.text := by
  fun_induction textOf rows with
  | case1 => rfl
  | case2 rows ih => rw [ih, List.flatMap_cons, leavesAll_nil, List.nil_append]
  | case3 rows t row ih =>
    rw [ih]
    simp
  | case4 rows k s cs row ih =>
    rw [ih]
    simp

theorem text_eq_leaves (t : Tree) : t.text = (leavesAll t.children).flatMap Token.text := by
  rw [text, textOf_eq_leaves, List.flatMap_cons, List.flatMap_nil, List.append_nil]

/-- How many tokens with a property stand alone: one for such a token, none for a node. -/
def loose (p : Token → Bool) : Tree → Nat
  | .token t => if p t then 1 else 0
  | .node .. => 0

theorem sum_loose (p : Token → Bool) (k : NodeKind) (s : Span) (cs : List Tree) :
    (cs.map (loose p)).sum = (Tree.node k s cs).tokens.countP p := by
  induction cs with
  | nil => rfl
  | cons c cs ih =>
    rw [List.map_cons, List.sum_cons, ih]
    cases c with
    | token t =>
      have htokens : (Tree.node k s (.token t :: cs)).tokens = t :: (Tree.node k s cs).tokens := rfl
      rw [htokens, List.countP_cons, loose]
      omega
    | node k' s' cs' =>
      have htokens : (Tree.node k s (.node k' s' cs' :: cs)).tokens =
          (Tree.node k s cs).tokens := rfl
      rw [htokens, loose, Nat.zero_add]

end Tree

/-! ## Counts of tokens -/

namespace Tally

/-- A number of the tally that counts the tokens with a property. -/
structure Counts (g : Tally → Nat) (p : Token → Bool) : Prop where
  enter : ∀ s t depth, g (s.enter t depth) = g s + t.tokens.countP p
  leave : ∀ s t depth, g (s.leave t depth) = g s

section
variable {g : Tally → Nat} {p : Token → Bool}

mutual
/-- The events of a tree count its leaves. A token alone is counted by the node around it. -/
theorem Counts.events (h : Counts g p) : ∀ (t : Tree) (depth : Nat) (s : Tally),
    g (s.follow (t.events depth)) + t.loose p = g s + t.leaves.countP p
  | .token t, depth, s => by
    rw [Tree.events_token, follow_nil, Tree.leaves_token, List.countP_singleton]
    rfl
  | .node k span cs, depth, s => by
    have hall := h.eventsAll cs (depth + 1) (s.enter (.node k span cs) depth)
    rw [h.enter, Tree.sum_loose p k span] at hall
    have hleave : ∀ s', g (s'.follow [.leave (.node k span cs) depth]) = g s' :=
      fun s' => h.leave s' (.node k span cs) depth
    rw [Tree.events_node, follow_enter, follow_append, hleave, Tree.leaves_node, Tree.loose]
    omega

theorem Counts.eventsAll (h : Counts g p) : ∀ (cs : List Tree) (depth : Nat) (s : Tally),
    g (s.follow (Tree.eventsAll depth cs)) + (cs.map (Tree.loose p)).sum =
      g s + (Tree.leavesAll cs).countP p
  | [], depth, s => by simp
  | c :: cs, depth, s => by
    have hc := h.events c depth s
    have hcs := h.eventsAll cs depth (s.follow (c.events depth))
    rw [Tree.eventsAll_cons, follow_append, List.map_cons, List.sum_cons, Tree.leavesAll_cons,
      List.countP_append]
    omega
end

theorem Counts.ofTree (h : Counts g p) (hg : g {} = 0) (k : NodeKind) (span : Span)
    (cs : List Tree) :
    g (Tally.ofTree (.node k span cs)) = (Tree.leavesAll cs).countP p := by
  have hevents := h.events (.node k span cs) 1 {}
  rw [Tree.loose, Tree.leaves_node, hg] at hevents
  rw [ofTree_node]
  omega

end

theorem counts_identifiers : Counts identifiers isName where
  enter s t depth := by
    rw [enter_eq]
    rfl
  leave s t depth := by
    rw [leave_eq]
    rfl

theorem counts_periods : Counts periods isPeriod where
  enter s t depth := by
    rw [enter_eq]
    rfl
  leave s t depth := by
    rw [leave_eq]
    rfl

theorem counts_parentheses : Counts parentheses isParenthesis where
  enter s t depth := by
    rw [enter_eq]
    rfl
  leave s t depth := by
    rw [leave_eq]
    rfl

/-! ## Characters -/

/-- Only a translation unit sets the number of characters. -/
theorem characters_enter (s : Tally) (t : Tree) (depth : Nat) :
    (s.enter t depth).characters =
      if t.kind = .TranslationUnit then t.text.length else s.characters := by
  rw [enter_eq]
  rfl

theorem characters_leave (s : Tally) (t : Tree) (depth : Nat) :
    (s.leave t depth).characters = s.characters := by
  rw [leave_eq]
  rfl

mutual
/-- The number of characters stays where no translation unit is entered. -/
theorem characters_events : ∀ (t : Tree) (depth : Nat) (s : Tally),
    (∀ x ∈ t.preorder depth, x.2.kind ≠ .TranslationUnit) →
    (s.follow (t.events depth)).characters = s.characters
  | .token t, depth, s, _ => by rw [Tree.events_token, follow_nil]
  | .node k span cs, depth, s, h => by
    rw [Tree.preorder] at h
    have hk : (Tree.node k span cs).kind ≠ .TranslationUnit := h _ (List.mem_cons_self ..)
    have hall := characters_eventsAll cs (depth + 1) (s.enter (.node k span cs) depth)
      fun x hx => h x (List.mem_cons_of_mem _ hx)
    rw [Tree.events_node, follow_enter, follow_append, follow_leave, follow_nil,
      characters_leave, hall, characters_enter, if_neg hk]

theorem characters_eventsAll : ∀ (cs : List Tree) (depth : Nat) (s : Tally),
    (∀ x ∈ Tree.preorderAll depth cs, x.2.kind ≠ .TranslationUnit) →
    (s.follow (Tree.eventsAll depth cs)).characters = s.characters
  | [], depth, s, _ => by rw [Tree.eventsAll_nil, follow_nil]
  | c :: cs, depth, s, h => by
    rw [Tree.preorderAll] at h
    rw [Tree.eventsAll_cons, follow_append,
      characters_eventsAll cs depth _ fun x hx => h x (List.mem_append_right _ hx),
      characters_events c depth s fun x hx => h x (List.mem_append_left _ hx)]
end

/-- A walk counts the characters of a translation unit that has no other one in it. -/
theorem characters_ofTree (span : Span) (cs : List Tree)
    (h : ∀ x ∈ Tree.preorderAll 2 cs, x.2.kind ≠ .TranslationUnit) :
    (ofTree (.node .TranslationUnit span cs)).characters =
      ((Tree.leavesAll cs).map (·.text.length)).sum := by
  have hkind : (Tree.node .TranslationUnit span cs).kind = .TranslationUnit := rfl
  rw [ofTree_node, Tree.events_node, follow_enter, follow_append, follow_leave, follow_nil,
    characters_leave, characters_eventsAll cs 2 _ h, characters_enter, if_pos hkind,
    Tree.text_eq_leaves, List.length_flatMap]
  rfl

end Tally
end Stylometry
