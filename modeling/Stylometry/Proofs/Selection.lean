-- Which keys a vocabulary has. The keys of a table are ranked by their counts, and keys with equal
-- counts by the order in which they were first met. A vocabulary has the keys of the highest ranks,
-- from the lowest of them on.
import Mathlib.Data.Prod.Lex
import Stylometry.Ngram.Vocabulary
import Stylometry.Proofs.CorpusSums

namespace Stylometry.Ngram

/-! ## Ranks -/

namespace CorpusTable

/-- The rank of a key: its count, and among equal counts the place where the key was first met. -/
def rank (t : CorpusTable) (key : String) : Nat ×ₗ Nat :=
  toLex (t.get key, (Occurrences.keys t.entries).idxOf key)

theorem rank_of_getElem? {t : CorpusTable} {i : Nat} {e : String × Nat}
    (h : t.entries[i]? = some e) : t.rank e.1 = toLex (e.2, i) := by
  have hcount : t.get e.1 = e.2 :=
    Occurrences.count_of_mem t.nodup_entries (List.mem_of_getElem? h)
  have hkey : (Occurrences.keys t.entries)[i]? = some e.1 := by
    rw [Occurrences.keys, List.getElem?_map, h]
    rfl
  obtain ⟨hi, hget⟩ := List.getElem?_eq_some_iff.1 hkey
  have hplace : (Occurrences.keys t.entries).idxOf e.1 = i := by
    rw [← hget, t.nodup_entries.idxOf_getElem i hi]
  rw [rank, hcount, hplace]

/-- The keys from the lowest rank to the highest. -/
def ranked (t : CorpusTable) : List String := (t.entries.mergeSort fun a b => a.2 ≤ b.2).map (·.1)

theorem perm_ranked (t : CorpusTable) : t.ranked.Perm (Occurrences.keys t.entries) :=
  (List.mergeSort_perm ..).map _

/-- Sorting by counts keeps keys with equal counts in their order, so it sorts by ranks. -/
theorem pairwise_ranked (t : CorpusTable) : t.ranked.Pairwise (t.rank · < t.rank ·) := by
  let le : String × Nat → String × Nat → Bool := fun a b => a.2 ≤ b.2
  let sorted := t.entries.zipIdx.mergeSort (List.zipIdxLE le)
  have hranked : t.ranked = sorted.map (·.1.1) := by
    rw [ranked, ← List.mergeSort_zipIdx, List.map_map]
    rfl
  have hle : sorted.Pairwise (List.zipIdxLE le · ·) :=
    List.pairwise_mergeSort
      (List.zipIdxLE_trans fun a b c hab hbc => by simp only [le, decide_eq_true_eq] at *; omega)
      (List.zipIdxLE_total fun a b => by simp only [le, Bool.or_eq_true, decide_eq_true_eq]; omega)
      _
  have hne : sorted.Pairwise (·.1.1 ≠ ·.1.1) := by
    have hnodup := t.perm_ranked.nodup_iff.2 t.nodup_entries
    rw [hranked] at hnodup
    exact List.pairwise_map.1 hnodup
  have hplace : ∀ x ∈ sorted, t.entries[x.2]? = some x.1 := fun x hx =>
    List.mem_zipIdx_iff_getElem?.1 ((List.mergeSort_perm ..).mem_iff.1 hx)
  rw [hranked, List.pairwise_map]
  refine (hle.and hne).imp_of_mem ?_
  rintro a b ha hb ⟨hab, hkeys⟩
  rw [rank_of_getElem? (hplace a ha), rank_of_getElem? (hplace b hb), Prod.Lex.toLex_lt_toLex]
  have hindex : a.2 ≠ b.2 := by
    intro heq
    have hentry := hplace a ha
    rw [heq, hplace b hb] at hentry
    exact hkeys (congrArg Prod.fst (Option.some.inj hentry).symm)
  have hcounts : a.1.2 ≤ b.1.2 ∧ (b.1.2 ≤ a.1.2 → a.2 ≤ b.2) := by
    simp only [List.zipIdxLE, le, decide_eq_true_eq] at hab
    split_ifs at hab with h h'
    · exact ⟨h, fun _ => of_decide_eq_true hab⟩
    · exact ⟨h, fun hle => absurd hle h'⟩
  dsimp only
  omega

end CorpusTable

/-! ## Vocabularies -/

namespace Vocabulary

theorem keys_select (t : CorpusTable) (k : Nat) :
    (select t k).keys = t.ranked.drop (t.size - k) := by
  rw [select, CorpusTable.ranked, List.map_drop, List.length_mergeSort]
  rfl

/-- A vocabulary of `k` keys has `k` different keys of the table, or all of them if there are fewer.
Their ranks rise along it, and every key that is left out has a lower rank than every key that is
selected. With more keys a vocabulary grows at its front only. -/
theorem select_by_rank (t : CorpusTable) :
    (∀ k, (select t k).order = t.order ∧
      (select t k).keys.length = min k t.size ∧
      (select t k).keys.Nodup ∧
      (∀ s ∈ (select t k).keys, s ∈ Occurrences.keys t.entries) ∧
      (select t k).keys.Pairwise (t.rank · < t.rank ·) ∧
      ∀ s ∈ Occurrences.keys t.entries, s ∉ (select t k).keys →
        ∀ s' ∈ (select t k).keys, t.rank s < t.rank s') ∧
      ∀ k k', k ≤ k' → (select t k).keys <:+ (select t k').keys := by
  have hlength : t.ranked.length = t.size :=
    t.perm_ranked.length_eq.trans (List.length_map _)
  constructor
  · intro k
    have hkeys := keys_select t k
    have hdrop := List.drop_sublist (t.size - k) t.ranked
    refine ⟨rfl, ?_, ?_, ?_, ?_, ?_⟩
    · rw [hkeys, List.length_drop, hlength]
      omega
    · rw [hkeys]
      exact (t.perm_ranked.nodup_iff.2 t.nodup_entries).sublist hdrop
    · rw [hkeys]
      exact fun s hs => t.perm_ranked.mem_iff.1 (hdrop.mem hs)
    · rw [hkeys]
      exact t.pairwise_ranked.sublist hdrop
    · intro s hs hout s' hs'
      rw [hkeys] at hout hs'
      -- what is not selected stands before what is
      have hranked := t.pairwise_ranked
      have hmem := t.perm_ranked.mem_iff.2 hs
      rw [← List.take_append_drop (t.size - k) t.ranked] at hranked hmem
      exact (List.pairwise_append.1 hranked).2.2 s
        ((List.mem_append.1 hmem).resolve_right hout) s' hs'
  · intro k k' hk
    rw [keys_select, keys_select]
    exact List.drop_suffix_drop_left _ (Nat.sub_le_sub_left hk t.size)

/-- Keys with equal counts around the last place that is selected. -/
def tiedTable : CorpusTable :=
  ⟨.bigram, ⟨[("k1", 2), ("k2", 5), ("k3", 2), ("k4", 9), ("k5", 1)], by decide⟩, by decide⟩

example : (select tiedTable 3).keys = ["k3", "k2", "k4"] := by cbv

end Vocabulary

end Stylometry.Ngram
