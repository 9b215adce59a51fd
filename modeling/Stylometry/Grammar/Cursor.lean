-- A cursor on a parse tree. It stands on one node and can step down to the first child,
-- across to the next sibling and up to the parent.
import Stylometry.Grammar.ParseTree

namespace Stylometry

/-- A node of a parse tree, with the siblings after it and with each node above it and the
siblings after that one, the nearest first. -/
structure Cursor where
  current : ParseTree
  later : List ParseTree
  above : List (ParseTree × List ParseTree)

namespace Cursor

/-- The cursor on the root of a tree. -/
def atRoot (t : ParseTree) : Cursor := ⟨t, [], []⟩

/-- The step down. -/
def firstChild? (c : Cursor) : Option Cursor :=
  match c.current.children with
  | [] => none
  | child :: later => some ⟨child, later, (c.current, c.later) :: c.above⟩

/-- The step across. -/
def nextSibling? (c : Cursor) : Option Cursor :=
  match c.later with
  | [] => none
  | next :: later => some ⟨next, later, c.above⟩

/-- The step up. -/
def parent? (c : Cursor) : Option Cursor :=
  match c.above with
  | [] => none
  | (parent, later) :: above => some ⟨parent, later, above⟩

/-! ## What is left to visit -/

/-- The number of nodes after the current node and everything below it. -/
def ahead (c : Cursor) : Nat :=
  ParseTree.sizeAll c.later + (c.above.map fun a => ParseTree.sizeAll a.2).sum

/-- The number of nodes from the current one on. -/
def remaining (c : Cursor) : Nat := c.current.size + c.ahead

theorem ahead_lt_remaining (c : Cursor) : c.ahead < c.remaining := by
  have := c.current.size_pos
  simp only [remaining]
  omega

/-- A step down leaves one node less. -/
theorem remaining_firstChild {c d : Cursor} (h : c.firstChild? = some d) :
    d.remaining < c.remaining := by
  have hs := c.current.size_eq
  unfold firstChild? at h
  split at h
  · cases h
  · next child later hc =>
    cases h
    simp only [remaining, ahead, hs, hc, List.map_cons, List.sum_cons, ParseTree.sizeAll_cons]
    omega

/-- A step across leaves what was ahead. -/
theorem remaining_nextSibling {c d : Cursor} (h : c.nextSibling? = some d) :
    d.remaining = c.ahead := by
  unfold nextSibling? at h
  split at h
  · cases h
  · next child later hc =>
    cases h
    simp only [remaining, ahead, hc, ParseTree.sizeAll_cons]
    omega

/-- A step up where no step across is left keeps what is ahead. -/
theorem ahead_parent {c d : Cursor} (hn : c.nextSibling? = none) (h : c.parent? = some d) :
    d.ahead = c.ahead := by
  unfold nextSibling? at hn
  unfold parent? at h
  split at hn
  · next hl =>
    split at h
    · cases h
    · next parent later above ha =>
      cases h
      simp [ahead, hl, ha]
  · cases hn

theorem length_above_parent {c d : Cursor} (h : c.parent? = some d) :
    d.above.length < c.above.length := by
  unfold parent? at h
  split at h
  · cases h
  · next parent later above ha => cases h; simp [ha]

/-- The next node after the current one and everything below it. -/
def next? (c : Cursor) : Option Cursor :=
  match c.nextSibling? with
  | some d => some d
  | none =>
    match hp : c.parent? with
    | none => none
    | some d =>
      have := length_above_parent hp
      next? d
termination_by c.above.length

theorem remaining_next {c d : Cursor} (h : c.next? = some d) : d.remaining = c.ahead := by
  fun_induction next? c with
  | case1 c e hn => cases h; exact remaining_nextSibling hn
  | case2 c hn hp => cases h
  | case3 c hn e hp _ ih => rw [ih h, ahead_parent hn hp]

end Cursor
end Stylometry
