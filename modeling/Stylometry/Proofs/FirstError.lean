-- The first error of a parse tree. The search passes over each tree whose flag says that there
-- is no error in it and climbs back on one cursor; where the flags are right it misses no error.
import Stylometry.Analysis
import Stylometry.Proofs.ConversionTokens

namespace Stylometry

namespace ParseTree

/-- The node holds text that the parser could not place, or the parser put it in. -/
def isFault (t : ParseTree) : Bool := t.mark.isError || t.mark.missing

/-- The node is flagged just when it or a node below it is at fault. -/
def FlagTells (t : ParseTree) : Prop := t.mark.hasError = true ↔ ∃ u ∈ t.nodes, u.isFault = true

instance : DecidablePred FlagTells := fun _ => inferInstanceAs (Decidable (_ ↔ _))

end ParseTree

/-! ## What is left to search -/

namespace Cursor

/-- The nodes after the current node and everything below it, in preorder. -/
def upcoming (c : Cursor) : List ParseTree :=
  ParseTree.nodesAll c.later ++ c.above.flatMap fun a => ParseTree.nodesAll a.2

/-- The nodes from the current one on. -/
def pending (c : Cursor) : List ParseTree := c.current.nodes ++ c.upcoming

theorem current_mem_pending (c : Cursor) : c.current ∈ c.pending := by
  rw [pending, ParseTree.nodes_eq]
  exact List.mem_cons_self ..

theorem pending_firstChild {c d : Cursor} (h : c.firstChild? = some d) :
    c.pending = c.current :: d.pending := by
  unfold firstChild? at h
  split at h
  · cases h
  · next child later hc =>
    cases h
    simp [pending, upcoming, ParseTree.nodes_eq c.current, hc, ParseTree.nodesAll_cons]

theorem pending_of_not_firstChild {c : Cursor} (h : c.firstChild? = none) :
    c.pending = c.current :: c.upcoming := by
  unfold firstChild? at h
  split at h
  · next hc => rw [pending, ParseTree.nodes_eq, hc, ParseTree.nodesAll_nil]; rfl
  · cases h

theorem pending_nextSibling {c d : Cursor} (h : c.nextSibling? = some d) :
    d.pending = c.upcoming := by
  unfold nextSibling? at h
  split at h
  · cases h
  · next child later hc =>
    cases h
    simp [pending, upcoming, hc, ParseTree.nodesAll_cons]

theorem upcoming_parent {c d : Cursor} (hn : c.nextSibling? = none) (h : c.parent? = some d) :
    d.upcoming = c.upcoming := by
  unfold nextSibling? at hn
  unfold parent? at h
  split at hn
  · next hl =>
    split at h
    · cases h
    · next parent later above ha =>
      cases h
      simp [upcoming, hl, ha, ParseTree.nodesAll_nil]
  · cases hn

theorem upcoming_eq_nil {c : Cursor} (hn : c.nextSibling? = none) (h : c.parent? = none) :
    c.upcoming = [] := by
  unfold nextSibling? at hn
  unfold parent? at h
  split at hn
  · next hl =>
    split at h
    · next ha => simp [upcoming, hl, ha, ParseTree.nodesAll_nil]
    · cases h
  · cases hn

/-- The climb to the next node loses no node, however many levels it goes up. -/
theorem upcoming_eq (c : Cursor) : c.upcoming = (c.next?.map pending).getD [] := by
  fun_induction next? c with
  | case1 c d hn => rw [Option.map_some, Option.getD_some, pending_nextSibling hn]
  | case2 c hn hp => exact upcoming_eq_nil hn hp
  | case3 c hn d hp _ ih => rw [← ih, upcoming_parent hn hp]

end Cursor

namespace Grammar

/-- A tree that the search passes over has no fault in it. -/
theorem find?_pending_of_passed {c : Cursor} (hf : c.current.isFault = false)
    (h : c.current.FlagTells)
    (hpassed : ∀ d, c.current.mark.hasError = true → c.firstChild? = some d → False) :
    c.pending.find? ParseTree.isFault = c.upcoming.find? ParseTree.isFault := by
  cases hd : c.firstChild? with
  | none => rw [Cursor.pending_of_not_firstChild hd, List.find?_cons_of_neg (by simp [hf])]
  | some d =>
    have hnone : c.current.nodes.find? ParseTree.isFault = none := by
      rw [List.find?_eq_none]
      intro u hu hfault
      exact hpassed d (h.2 ⟨u, hu, hfault⟩) hd
    rw [Cursor.pending, List.find?_append, hnone, Option.none_or]

/-- From wherever the cursor stands, the search finds the first fault from there on. -/
theorem firstError?_eq_find? (c : Cursor) (h : ∀ t ∈ c.pending, t.FlagTells) :
    firstError? c = c.pending.find? ParseTree.isFault := by
  fun_induction firstError? c with
  | case1 c hf =>
    have hfault : c.current.isFault = true := hf
    rw [Cursor.pending, ParseTree.nodes_eq, List.cons_append, List.find?_cons_of_pos hfault]
  | case2 c hf d hd _ _ ih =>
    have hfault : ¬c.current.isFault = true := hf
    rw [Cursor.pending_firstChild hd] at h ⊢
    rw [List.find?_cons_of_neg hfault]
    exact ih fun t ht => h t (List.mem_cons_of_mem _ ht)
  | case3 c hf d hn _ hpassed ih =>
    have hupcoming : c.upcoming = d.pending := by rw [Cursor.upcoming_eq, hn]; rfl
    have hfault : c.current.isFault = false := eq_false_of_ne_true hf
    rw [find?_pending_of_passed hfault (h _ c.current_mem_pending) hpassed, hupcoming]
    exact ih fun t ht => h t (List.mem_append_right _ (hupcoming ▸ ht))
  | case4 c hf hn hpassed =>
    have hupcoming : c.upcoming = [] := by rw [Cursor.upcoming_eq, hn]; rfl
    have hfault : c.current.isFault = false := eq_false_of_ne_true hf
    rw [find?_pending_of_passed hfault (h _ c.current_mem_pending) hpassed, hupcoming]
    rfl

/-- A parse tree whose flags are right has no syntax tree exactly when its root is flagged. Then the
search gives the first node in preorder that is at fault, and the error tells where this node starts
and quotes at most forty characters of its text. -/
theorem parse_of_flags {root : ParseTree} (h : ∀ t ∈ root.nodes, t.FlagTells) (source : Text) :
    ((∃ e, parse source root = .error e) ↔ root.mark.hasError = true) ∧
    (root.mark.hasError = true →
      ∃ earlier t later, root.nodes = earlier ++ t :: later ∧ t.isFault = true ∧
        (∀ u ∈ earlier, u.isFault = false) ∧ firstError? (.atRoot root) = some t ∧
      ∃ e, parse source root = .error e ∧
        e.position = t.start ∧ e.near = (t.text source).take 40 ∧
        (SourceFailure.syntaxError e).message =
        s!"Parse failure at {e.position.render}: syntax error near '{String.ofList e.near}'") := by
  have hroot : root.FlagTells := h root (by rw [ParseTree.nodes_eq]; exact List.mem_cons_self ..)
  have hpending : (Cursor.atRoot root).pending = root.nodes := List.append_nil _
  have hfind : firstError? (.atRoot root) = root.nodes.find? ParseTree.isFault := by
    rw [← hpending]
    exact firstError?_eq_find? _ (hpending ▸ h)
  constructor
  · unfold parse
    cases hflag : root.mark.hasError with
    | false => simp
    | true =>
      rw [if_pos rfl]
      split <;> simp
  · intro hflag
    obtain ⟨t, ht⟩ : ∃ t, root.nodes.find? ParseTree.isFault = some t := by
      obtain ⟨u, hu, hfault⟩ := hroot.1 hflag
      exact Option.isSome_iff_exists.1 (List.find?_isSome.2 ⟨u, hu, hfault⟩)
    obtain ⟨hfault, earlier, later, hnodes, hearlier⟩ := List.find?_eq_some_iff_append.1 ht
    have hfirst : firstError? (.atRoot root) = some t := hfind.trans ht
    have hparse : parse source root = .error ⟨(t.text source).take 40, t.start⟩ := by
      rw [parse, if_pos hflag, hfirst]
    refine ⟨earlier, t, later, hnodes, hfault, ?_, hfirst, _, hparse, rfl, rfl, rfl⟩
    intro u hu
    simpa using hearlier u hu

/-- A bracket that has no place in the text. -/
def strayBracket : ParseTree :=
  .node { kind := "ERROR", isError := true, hasError := true, start := 7, stop := 8 }
    [.node { kind := ")", named := false, start := 7, stop := 8 } []]

/-- The tree of `int a; ) int b`, where the parser also puts in a semicolon after the bracket. -/
def strayTree : ParseTree :=
  .node { kind := "translation_unit", hasError := true, start := 0, stop := 14 }
    [.node { kind := "declaration", start := 0, stop := 6 }
      [.node { kind := "primitive_type", field := some "type", start := 0, stop := 3 } [],
        .node { kind := "identifier", field := some "declarator", start := 4, stop := 5 } [],
        .node { kind := ";", named := false, start := 5, stop := 6 } []],
      strayBracket,
      .node { kind := "declaration", hasError := true, start := 9, stop := 14 }
        [.node { kind := "primitive_type", field := some "type", start := 9, stop := 12 } [],
          .node { kind := "identifier", field := some "declarator", start := 13, stop := 14 } [],
          .node
            { kind := ";", named := false, missing := true, hasError := true,
              start := 14, stop := 14 }
            []]]

theorem parse_of_strayTree :
    (∀ t ∈ strayTree.nodes, t.FlagTells) ∧ strayTree.mark.hasError = true ∧
      ∃ e, parse "int a; ) int b".toList strayTree = .error e ∧
        e.position = ⟨1, 8, 7⟩ ∧ e.near = [')'] := by
  have hflags : ∀ t ∈ strayTree.nodes, t.FlagTells := by decide
  have hflag : strayTree.mark.hasError = true := rfl
  obtain ⟨-, h⟩ := parse_of_flags hflags "int a; ) int b".toList
  obtain ⟨earlier, t, later, hnodes, hfault, hearlier, -, e, he, hposition, hnear, -⟩ := h hflag
  have ht : strayTree.nodes.find? ParseTree.isFault = some t :=
    List.find?_eq_some_iff_append.2 ⟨hfault, earlier, later, hnodes, by simpa using hearlier⟩
  have hbracket : strayTree.nodes.find? ParseTree.isFault = some strayBracket := rfl
  obtain rfl : strayBracket = t := Option.some.inj (hbracket.symm.trans ht)
  exact ⟨hflags, hflag, e, he, hposition, hnear⟩

end Grammar
end Stylometry
