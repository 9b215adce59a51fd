-- Parts of texts. What is split at a separator are the parts that were joined with it, when no part
-- has the separator itself, so a list that is written part by part is read back. A text holds what
-- stands somewhere in it.
import Stylometry.Text.Basic

namespace Stylometry.Text

/-! ## Splitting -/

theorem splitOn_ne_nil (sep : Char) (t : Text) : splitOn sep t ≠ [] := by
  induction t with
  | nil => simp [splitOn]
  | cons c t ih =>
    rw [splitOn]
    split
    · simp
    · split <;> simp

/-- The parts before a separator and the parts after it. -/
theorem splitOn_append (sep : Char) (u v : Text) :
    splitOn sep (u ++ sep :: v) = splitOn sep u ++ splitOn sep v := by
  induction u with
  | nil => simp [splitOn]
  | cons c u ih =>
    rw [List.cons_append, splitOn, splitOn, ih]
    by_cases h : c = sep
    · rw [if_pos h, if_pos h]
      rfl
    · rw [if_neg h, if_neg h]
      cases hu : splitOn sep u with
      | nil => exact absurd hu (splitOn_ne_nil sep u)
      | cons part parts => rfl

theorem splitOn_of_not_mem {sep : Char} {t : Text} (h : sep ∉ t) : splitOn sep t = [t] := by
  induction t with
  | nil => rfl
  | cons c t ih =>
    obtain ⟨hc, ht⟩ := not_or.1 fun h' => h (List.mem_cons.2 h')
    rw [splitOn, if_neg fun h' => hc h'.symm, ih ht]

/-! ## Joining -/

theorem join_concat (sep part : Text) {parts : List Text} (h : parts ≠ []) :
    join sep (parts ++ [part]) = join sep parts ++ sep ++ part := by
  induction parts with
  | nil => exact absurd rfl h
  | cons p parts ih =>
    cases parts with
    | nil => simp [join]
    | cons q parts =>
      have hrest := ih (List.cons_ne_nil q parts)
      simp only [List.cons_append, join] at hrest ⊢
      rw [hrest]
      simp

/-- With one more separator in front, each part has a separator before it. -/
theorem append_join (sep : Text) {parts : List Text} (h : parts ≠ []) :
    sep ++ join sep parts = parts.flatMap (sep ++ ·) := by
  induction parts with
  | nil => exact absurd rfl h
  | cons p parts ih =>
    cases parts with
    | nil => simp [join]
    | cons q parts =>
      have hjoin : join sep (p :: q :: parts) = p ++ (sep ++ join sep (q :: parts)) := by
        simp [join]
      rw [hjoin, List.flatMap_cons, ← ih (List.cons_ne_nil q parts), List.append_assoc]

/-- Parts that are joined are split again. -/
theorem splitOn_join {sep : Char} {parts : List Text} (hne : parts ≠ [])
    (h : ∀ part ∈ parts, sep ∉ part) : splitOn sep (join [sep] parts) = parts := by
  induction parts with
  | nil => exact absurd rfl hne
  | cons p parts ih =>
    obtain ⟨hp, hparts⟩ := List.forall_mem_cons.1 h
    cases parts with
    | nil => exact splitOn_of_not_mem hp
    | cons q parts =>
      have hjoin : join [sep] (p :: q :: parts) = p ++ sep :: join [sep] (q :: parts) := by
        simp [join]
      rw [hjoin, splitOn_append, splitOn_of_not_mem hp, ih (List.cons_ne_nil q parts) hparts]
      rfl

/-- What is written part by part is read back, when the separator is in no part. -/
theorem mapM_splitOn_join {α : Type} {sep : Char} {write : α → Text} {read? : Text → Option α}
    (hsep : ∀ a, sep ∉ write a) (hread : ∀ a, read? (write a) = some a) {as : List α}
    (hne : as ≠ []) : (splitOn sep (join [sep] (as.map write))).mapM read? = some as := by
  have hparts : ∀ part ∈ as.map write, sep ∉ part := by
    intro part hpart
    obtain ⟨a, -, rfl⟩ := List.mem_map.1 hpart
    exact hsep a
  rw [splitOn_join (by simpa using hne) hparts]
  clear hparts hne
  induction as with
  | nil => rfl
  | cons a as ih => rw [List.map_cons, List.mapM_cons, hread, ih]; rfl

/-! ## Searching -/

theorem holds_iff {needle t : Text} : holds needle t = true ↔ needle <:+: t := by
  unfold holds
  induction t with
  | nil =>
    rw [after?, List.infix_nil]
    cases needle with
    | nil => exact iff_of_true rfl rfl
    | cons c needle => exact iff_of_false Bool.false_ne_true (List.cons_ne_nil c needle)
  | cons c t ih =>
    rw [after?, List.infix_cons_iff, ← List.isPrefixOf_iff_prefix]
    by_cases h : needle.isPrefixOf (c :: t) = true
    · rw [if_pos h]
      exact iff_of_true rfl (.inl h)
    · rw [if_neg h, ih]
      exact (or_iff_right h).symm

end Stylometry.Text
