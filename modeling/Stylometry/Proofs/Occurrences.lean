-- Laws of tallies of things: sums of many tallies, and when two tallies are one.
import Stylometry.Count

namespace Stylometry

namespace Occurrences

variable {α : Type} [DecidableEq α]

/-! ## Things met one by one -/

/-- Every thing of a list is met once more, from the first to the last. -/
def bumpAll (o : Occurrences α) (as : List α) : Occurrences α := as.foldl (fun o a => o.bump a) o

/-- How often the things of a list stand in it. -/
def ofList (as : List α) : Occurrences α := bumpAll [] as

theorem bumpAll_append (o : Occurrences α) (as bs : List α) :
    o.bumpAll (as ++ bs) = (o.bumpAll as).bumpAll bs := List.foldl_append

theorem total_bumpAll (o : Occurrences α) (as : List α) :
    (o.bumpAll as).total = o.total + as.length := by
  induction as generalizing o with
  | nil => rfl
  | cons a as ih =>
    have hstep : o.bumpAll (a :: as) = (o.bump a).bumpAll as := rfl
    rw [hstep, ih, total_bump, List.length_cons]
    omega

theorem total_ofList (as : List α) : (ofList as).total = as.length := by
  rw [ofList, total_bumpAll]
  simp [total]

theorem count_bumpAll (a : α) (o : Occurrences α) (as : List α) :
    count a (o.bumpAll as) = count a o + as.countP (· = a) := by
  induction as generalizing o with
  | nil => rfl
  | cons b as ih =>
    have hstep : o.bumpAll (b :: as) = (o.bump b).bumpAll as := rfl
    rw [hstep, ih, count_bump, List.countP_cons]
    by_cases h : a = b
    · simp only [h, if_true, decide_true]
      omega
    · simp [h, Ne.symm h]

theorem count_ofList (a : α) (as : List α) : count a (ofList as) = as.countP (· = a) :=
  (count_bumpAll a [] as).trans (Nat.zero_add _)

/-! ## Two tallies that are one -/

/-- A tally is known by the things in it, in their order, and their counts. -/
theorem ext_keys {o p : Occurrences α} (ho : (keys o).Nodup) (hkeys : keys o = keys p)
    (hcount : ∀ a, count a o = count a p) : o = p := by
  induction o generalizing p with
  | nil =>
    cases p with
    | nil => rfl
    | cons y p => cases hkeys
  | cons x o ih =>
    cases p with
    | nil => cases hkeys
    | cons y p =>
      obtain ⟨a, m⟩ := x
      obtain ⟨b, n⟩ := y
      obtain ⟨rfl, htail⟩ : a = b ∧ keys o = keys p := List.cons.inj hkeys
      obtain ⟨ha, hnodup⟩ := List.nodup_cons.1 ho
      have hmn : m = n := by
        have := hcount a
        simpa [count] using this
      have hrest : ∀ c, count c o = count c p := by
        intro c
        by_cases hc : c = a
        · subst hc
          rw [count_eq_zero ha, count_eq_zero (htail ▸ ha)]
        · have := hcount c
          simpa [count, hc] using this
      rw [hmn, ih hnodup htail hrest]

theorem count_le_total (a : α) (o : Occurrences α) : count a o ≤ total o := by
  induction o with
  | nil => exact Nat.le_refl 0
  | cons x o ih =>
    have htotal : total (x :: o) = x.2 + total o := rfl
    rw [htotal, count]
    split
    · exact Nat.le_add_right x.2 _
    · omega

/-- What is met stands in the tally with its count. -/
theorem mem_of_mem_keys {a : α} {o : Occurrences α} (h : a ∈ keys o) : (a, count a o) ∈ o := by
  induction o with
  | nil => cases h
  | cons x o ih =>
    by_cases hx : a = x.1
    · subst hx
      simp [count]
    · have hrest : a ∈ keys o := (List.mem_cons.1 h).resolve_left hx
      rw [count, if_neg hx]
      exact List.mem_cons_of_mem x (ih hrest)

theorem count_of_mem {o : Occurrences α} (ho : (keys o).Nodup) {e : α × Nat} (h : e ∈ o) :
    count e.1 o = e.2 := by
  induction o with
  | nil => cases h
  | cons x o ih =>
    obtain ⟨hx, hnodup⟩ := List.nodup_cons.1 ho
    rcases List.mem_cons.1 h with rfl | h
    · simp [count]
    · have hkey : e.1 ∈ keys o := List.mem_map_of_mem h
      have hne : e.1 ≠ x.1 := by
        intro heq
        rw [heq] at hkey
        exact hx hkey
      rw [count, if_neg hne, ih hnodup h]

/-! ## Sums of tallies -/

/-- Every entry of a list is added, from the first to the last. -/
def addAll (o : Occurrences α) (es : List (α × Nat)) : Occurrences α :=
  es.foldl (fun o e => o.add e.1 e.2) o

/-- How often some entries say that a thing was met. -/
def weight (a : α) (es : List (α × Nat)) : Nat := ((es.filter (·.1 = a)).map (·.2)).sum

theorem addAll_cons (o : Occurrences α) (e : α × Nat) (es : List (α × Nat)) :
    o.addAll (e :: es) = (o.add e.1 e.2).addAll es := rfl

theorem addAll_append (o : Occurrences α) (es fs : List (α × Nat)) :
    o.addAll (es ++ fs) = (o.addAll es).addAll fs := List.foldl_append

theorem weight_cons (a : α) (e : α × Nat) (es : List (α × Nat)) :
    weight a (e :: es) = (if a = e.1 then e.2 else 0) + weight a es := by
  unfold weight
  by_cases h : e.1 = a
  · rw [List.filter_cons_of_pos (by simpa using h), List.map_cons, List.sum_cons, if_pos h.symm]
  · rw [List.filter_cons_of_neg (by simpa using h), if_neg fun h' => h h'.symm, Nat.zero_add]

theorem weight_append (a : α) (es fs : List (α × Nat)) :
    weight a (es ++ fs) = weight a es + weight a fs := by
  unfold weight
  rw [List.filter_append, List.map_append, List.sum_append]

theorem count_addAll (a : α) (o : Occurrences α) (es : List (α × Nat)) :
    count a (o.addAll es) = count a o + weight a es := by
  induction es generalizing o with
  | nil => rfl
  | cons e es ih =>
    rw [addAll_cons, ih, count_add, weight_cons]
    omega

/-- The entries of a tally say how often each thing was met. -/
theorem weight_eq_count {o : Occurrences α} (ho : (keys o).Nodup) (a : α) :
    weight a o = count a o := by
  induction o with
  | nil => rfl
  | cons x o ih =>
    obtain ⟨hx, hnodup⟩ := List.nodup_cons.1 ho
    rw [weight_cons, ih hnodup]
    by_cases h : a = x.1
    · rw [if_pos h, h, count_eq_zero hx]
      simp [count]
    · rw [if_neg h]
      simp [count, h]

theorem nodup_addAll {o : Occurrences α} (ho : (keys o).Nodup) (es : List (α × Nat)) :
    (keys (o.addAll es)).Nodup := by
  induction es generalizing o with
  | nil => exact ho
  | cons e es ih => exact ih (nodup_add ho)

theorem total_addAll (o : Occurrences α) (es : List (α × Nat)) :
    (o.addAll es).total = o.total + (es.map (·.2)).sum := by
  induction es generalizing o with
  | nil => rfl
  | cons e es ih =>
    rw [addAll_cons, ih, total_add, List.map_cons, List.sum_cons]
    omega

/-- Things that are new go to the end, in the order in which they are met. -/
def insertAll (ks as : List α) : List α :=
  as.foldl (fun ks a => if a ∈ ks then ks else ks ++ [a]) ks

theorem insertAll_append (ks as bs : List α) :
    insertAll ks (as ++ bs) = insertAll (insertAll ks as) bs := List.foldl_append

theorem insertAll_singleton (ks : List α) (a : α) :
    insertAll ks [a] = if a ∈ ks then ks else ks ++ [a] := rfl

theorem keys_addAll (o : Occurrences α) (es : List (α × Nat)) :
    keys (o.addAll es) = insertAll (keys o) (es.map (·.1)) := by
  induction es generalizing o with
  | nil => rfl
  | cons e es ih =>
    rw [addAll_cons, ih, keys_add]
    rfl

theorem mem_insertAll {a : α} {ks as : List α} : a ∈ insertAll ks as ↔ a ∈ ks ∨ a ∈ as := by
  induction as generalizing ks with
  | nil => simp [insertAll]
  | cons b as ih =>
    have hstep : insertAll ks (b :: as) = insertAll (if b ∈ ks then ks else ks ++ [b]) as := rfl
    rw [hstep, ih]
    split
    · rename_i hb
      simp only [List.mem_cons]
      constructor
      · rintro (h | h)
        · exact .inl h
        · exact .inr (.inr h)
      · rintro (h | rfl | h)
        · exact .inl h
        · exact .inl hb
        · exact .inr h
    · simp only [List.mem_append, List.mem_cons, List.not_mem_nil, or_false]
      exact or_assoc

theorem bumpAll_eq_addAll (o : Occurrences α) (as : List α) :
    o.bumpAll as = o.addAll (as.map (·, 1)) := by
  induction as generalizing o with
  | nil => rfl
  | cons a as ih => exact ih (o.bump a)

theorem nodup_keys_ofList (as : List α) : (keys (ofList as)).Nodup := by
  have hnil : (keys ([] : Occurrences α)).Nodup := List.nodup_nil
  rw [ofList, bumpAll_eq_addAll]
  exact nodup_addAll hnil _

theorem mem_keys_ofList {a : α} {as : List α} : a ∈ keys (ofList as) ↔ a ∈ as := by
  rw [ofList, bumpAll_eq_addAll, keys_addAll, mem_insertAll, List.map_map]
  simp [keys]

/-- To leave out repetitions first does not change what is inserted. -/
theorem insertAll_insertAll (ks as : List α) : insertAll ks (insertAll [] as) = insertAll ks as := by
  obtain ⟨bs, rfl⟩ : ∃ bs, as = bs.reverse := ⟨as.reverse, by simp⟩
  induction bs with
  | nil => rfl
  | cons a bs ih =>
    rw [List.reverse_cons, insertAll_append, insertAll_append, insertAll_singleton,
      insertAll_singleton]
    by_cases h : a ∈ bs.reverse
    · rw [if_pos (mem_insertAll.2 (.inr h)), if_pos (mem_insertAll.2 (.inr h)), ih]
    · have hno : a ∉ insertAll [] bs.reverse := by
        intro hmem
        rcases mem_insertAll.1 hmem with h' | h'
        · cases h'
        · exact h h'
      rw [if_neg hno, insertAll_append, ih]
      rfl

/-- To sum up some entries first does not change what is added. -/
theorem addAll_addAll {o : Occurrences α} (ho : (keys o).Nodup) (es : List (α × Nat)) :
    o.addAll (addAll [] es) = o.addAll es := by
  have hnil : (keys ([] : Occurrences α)).Nodup := List.nodup_nil
  refine ext_keys (nodup_addAll ho _) ?_ ?_
  · have hkeys : (addAll [] es).map (·.1) = insertAll [] (es.map (·.1)) := keys_addAll [] es
    rw [keys_addAll, keys_addAll, hkeys, insertAll_insertAll]
  · intro a
    rw [count_addAll, count_addAll, weight_eq_count (nodup_addAll hnil es), count_addAll]
    simp [count]

end Occurrences

end Stylometry
