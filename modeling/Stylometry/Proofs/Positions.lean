-- Places in a text. The table of line starts gives the place after a front of the text by the line
-- feeds in it and the bytes after the last of them, and a longer front ends at a later place.
import Mathlib.Data.List.DropRight
import Stylometry.Text.Position

namespace Stylometry

namespace Text

/-- What stands after the last line feed. -/
def openLine (t : Text) : Text := t.rtakeWhile (· ≠ '\n')

theorem openLine_concat (t : Text) (c : Char) :
    openLine (t ++ [c]) = if c = '\n' then [] else openLine t ++ [c] := by
  unfold openLine
  rw [List.rtakeWhile_concat]
  by_cases hc : c = '\n' <;> simp [hc]

end Text

namespace Position

/-- The place after a text. -/
def after (t : Text) : Position :=
  ⟨t.count '\n' + 1, Text.byteLength t.openLine + 1, Text.byteLength t⟩

/-- The place lies in an earlier line, or further left in the same line. -/
def Before (p q : Position) : Prop := p.line < q.line ∨ p.line = q.line ∧ p.column < q.column

theorem Before.trans {p q r : Position} (hpq : p.Before q) (hqr : q.Before r) : p.Before r := by
  unfold Before at *
  omega

/-- One more character leads to a later place. -/
theorem before_after_concat (t : Text) (c : Char) : (after t).Before (after (t ++ [c])) := by
  unfold Before after
  rw [Text.openLine_concat]
  by_cases hc : c = '\n'
  · simp [hc]
  · have := c.utf8Size_pos
    simp [hc]
    omega

theorem before_after_append (t : Text) {u : Text} (hu : u ≠ []) :
    (after t).Before (after (t ++ u)) := by
  induction u using List.reverseRecOn with
  | nil => exact absurd rfl hu
  | append_singleton u c ih =>
    rw [← List.append_assoc]
    have hlast := before_after_concat (t ++ u) c
    by_cases hempty : u = []
    · simpa [hempty] using hlast
    · exact (ih hempty).trans hlast

end Position

/-! ## The table of line starts -/

namespace LineTable

theorem startsAfter_cons (pos : Nat) (c : Char) (t : Text) :
    startsAfter pos (c :: t) =
      (if c = '\n' then [pos + 1] else []) ++ startsAfter (pos + c.utf8Size) t := by
  by_cases hc : c = '\n'
  · have hsize : '\n'.utf8Size = 1 := by decide
    simp [startsAfter, hc, hsize]
  · simp [startsAfter, hc]

theorem startsAfter_append (pos : Nat) (u v : Text) :
    startsAfter pos (u ++ v) = startsAfter pos u ++ startsAfter (pos + Text.byteLength u) v := by
  induction u generalizing pos with
  | nil => simp [startsAfter]
  | cons c u ih => simp [startsAfter_cons, ih, Nat.add_assoc]

/-- A line starts after the character before it and no later than the text ends. -/
theorem bounds_of_mem_startsAfter {pos s : Nat} {t : Text} (h : s ∈ startsAfter pos t) :
    pos < s ∧ s ≤ pos + Text.byteLength t := by
  induction t generalizing pos with
  | nil => simp [startsAfter] at h
  | cons c t ih =>
    have hsize := c.utf8Size_pos
    rw [startsAfter_cons, List.mem_append] at h
    rw [Text.byteLength_cons]
    rcases h with h | h
    · split at h
      · simp at h
        omega
      · simp at h
    · have := ih h
      omega

theorem length_startsAfter (pos : Nat) (t : Text) : (startsAfter pos t).length = t.count '\n' := by
  induction t generalizing pos with
  | nil => simp [startsAfter]
  | cons c t ih => by_cases hc : c = '\n' <;> simp [startsAfter, hc, ih]

/-- The open line goes from the last line start to the end. -/
theorem lastStart_add_openLine (t : Text) :
    (0 :: startsAfter 0 t).getLastD 0 + Text.byteLength t.openLine = Text.byteLength t := by
  induction t using List.reverseRecOn with
  | nil => simp [startsAfter, Text.openLine]
  | append_singleton t c ih =>
    rw [startsAfter_append, Text.openLine_concat, ← List.cons_append]
    by_cases hc : c = '\n'
    · have hsize : '\n'.utf8Size = 1 := by decide
      rw [hc, startsAfter_cons, if_pos rfl, if_pos rfl, startsAfter, List.append_nil,
        List.getLastD_concat]
      simp [hsize]
    · rw [startsAfter_cons, if_neg hc, if_neg hc, startsAfter, List.append_nil, List.append_nil,
        Text.byteLength_append, Text.byteLength_append]
      omega

/-- The place where a front of a text ends. -/
theorem position_byteLength (u v : Text) :
    (ofText (u ++ v)).position (Text.byteLength u) = .after u := by
  have hfront : ∀ s ∈ 0 :: startsAfter 0 u, decide (s ≤ Text.byteLength u) = true := by
    intro s hs
    rcases List.mem_cons.1 hs with rfl | hs
    · simp
    · simpa using (bounds_of_mem_startsAfter hs).2
  -- every line start of the rest lies behind the front
  have hrest : (startsAfter (0 + Text.byteLength u) v).takeWhile
      (fun s => decide (s ≤ Text.byteLength u)) = [] := by
    rw [List.takeWhile_eq_nil_iff]
    intro hlength
    have := (bounds_of_mem_startsAfter (List.get_mem _ ⟨0, hlength⟩)).1
    rw [decide_eq_true_eq]
    omega
  have hbegun : (ofText (u ++ v)).starts.takeWhile (fun s => decide (s ≤ Text.byteLength u)) =
      0 :: startsAfter 0 u := by
    rw [ofText, startsAfter_append, ← List.cons_append, List.takeWhile_append_of_pos hfront, hrest,
      List.append_nil]
  have hlast := lastStart_add_openLine u
  unfold position Position.after
  simp only [hbegun, List.length_cons, length_startsAfter, Position.mk.injEq, and_true, true_and]
  omega

end LineTable
end Stylometry
