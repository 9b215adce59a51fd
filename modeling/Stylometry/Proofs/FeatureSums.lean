-- Features of the files of a corpus. Position by position they add up to the counts of the keys of
-- the vocabulary over the corpus, which rise along it, and their text is read back.
import Stylometry.Ngram.Vocabulary
import Stylometry.Proofs.CorpusSums
import Stylometry.Proofs.StoredTables
import Stylometry.Proofs.WindowCounts

namespace Stylometry

namespace Ngram

/-! ## Position by position -/

/-- The sum of some features, position by position. -/
def Features.sum (width : Nat) (vectors : List Features) : Features :=
  vectors.foldr (List.zipWith (· + ·)) (List.replicate width 0)

/-- At the position of a key the features of some tables add up to the count of the key. -/
theorem Features.sum_map_features (files : List Table) (v : Vocabulary) :
    Features.sum v.keys.length (files.map (·.features v)) =
      v.keys.map fun key => (files.map (·.get key)).sum := by
  induction files with
  | nil => simp [Features.sum, List.map_const']
  | cons f files ih =>
    have hstep : Features.sum v.keys.length ((f :: files).map (·.features v)) =
        List.zipWith (· + ·) (f.features v)
          (Features.sum v.keys.length (files.map (·.features v))) := rfl
    rw [hstep, ih, Table.features, List.zipWith_map, List.zipWith_self]
    rfl

/-! ## The keys of a vocabulary -/

/-- The counts of the keys of a vocabulary are those of the entries that are selected. -/
theorem map_get_select (t : CorpusTable) (k : Nat) :
    (Vocabulary.select t k).keys.map t.get =
      ((t.entries.mergeSort fun a b => a.2 ≤ b.2).drop
        ((t.entries.mergeSort fun a b => a.2 ≤ b.2).length - k)).map (·.2) := by
  unfold Vocabulary.select
  rw [List.map_map]
  refine List.map_congr_left ?_
  intro e he
  have hmem := (List.mergeSort_perm ..).mem_iff.1 (List.mem_of_mem_drop he)
  exact Occurrences.count_of_mem t.nodup_entries hmem

/-- Along a vocabulary the counts of its keys rise. -/
theorem pairwise_select (t : CorpusTable) (k : Nat) :
    ((Vocabulary.select t k).keys.map t.get).Pairwise (· ≤ ·) := by
  have hsorted : (t.entries.mergeSort fun a b => a.2 ≤ b.2).Pairwise (·.2 ≤ ·.2) := by
    have h := @List.pairwise_mergeSort (String × Nat) (fun a b => a.2 ≤ b.2)
      (fun a b c hab hbc => by simp only [decide_eq_true_eq] at *; omega)
      (fun a b => by simp only [Bool.or_eq_true, decide_eq_true_eq]; omega) t.entries
    exact h.imp of_decide_eq_true
  rw [map_get_select, List.pairwise_map]
  exact hsorted.sublist (List.drop_sublist ..)

/-! ## Features as text -/

/-- The text of features is read back. -/
theorem Features.read_render {f : Features} (hf : f ≠ []) :
    (Text.splitOn ',' f.render).mapM Decimal.value? = some f := by
  have hcomma : ∀ n, ',' ∉ Decimal.digits n := Decimal.not_mem_digits (by decide)
  exact Text.mapM_splitOn_join hcomma Decimal.value?_digits hf

/-! ## A whole corpus -/

/-- The features of a token stream. -/
def featuresOf (kinds : List Kind) (o : Order) (v : Vocabulary) : Features :=
  ((countAll kinds).get o).features v

theorem Corpus.IsSum.get_eq {c : Corpus} {files : List (PerOrder Table)} (h : IsSum c files)
    (o : Order) (key : String) :
    (c.get o).get key = (files.map fun f => (f.get o).get key).sum := by
  rw [CorpusTable.get_eq_count, (h o).2, Occurrences.count_addAll, weight_entriesOf]
  exact Nat.zero_add _

theorem total_entriesOf (files : List (PerOrder Table)) (o : Order) :
    ((entriesOf files o).map (·.2)).sum =
      (files.map fun f => (f.get o).entries.total).sum := by
  induction files with
  | nil => rfl
  | cons f files ih =>
    have hcons : entriesOf (f :: files) o = (f.get o).entries ++ entriesOf files o := rfl
    rw [hcons, List.map_append, List.sum_append, ih, List.map_cons, List.sum_cons]
    rfl

theorem Corpus.IsSum.total_eq {c : Corpus} {streams : List (List Kind)}
    (h : IsSum c (streams.map countAll)) (o : Order) :
    Occurrences.total (c.get o).entries =
      (streams.map fun kinds => kinds.length + 1 - o.length).sum := by
  rw [(h o).2, Occurrences.total_addAll, total_entriesOf, List.map_map]
  have hfile : ∀ kinds, ((countAll kinds).get o).entries.total = kinds.length + 1 - o.length := by
    intro kinds
    rw [get_countAll_eq_count, total_count]
  simp only [Function.comp_def, hfile]
  exact Nat.zero_add _

/-- The tables of some token streams add up when no count is too large. Position by position the
features of the streams add up to the counts of the keys of the vocabulary, these rise along the
vocabulary, all counts together are the number of windows, and the text of features that are not
empty is read back. -/
theorem features_add_up {streams : List (List Kind)} (h : Fits (streams.map countAll)) :
    ∃ c, Corpus.ofFiles (streams.map countAll) = .ok c ∧
      ∀ o k v, v = Vocabulary.select (c.get o) k →
        Features.sum v.keys.length (streams.map fun kinds => featuresOf kinds o v) =
            v.keys.map (c.get o).get ∧
          (v.keys.map (c.get o).get).Pairwise (· ≤ ·) ∧
          Occurrences.total (c.get o).entries =
            (streams.map fun kinds => kinds.length + 1 - o.length).sum ∧
          ∀ kinds ∈ streams, (featuresOf kinds o v).length = v.keys.length ∧
            (v.keys ≠ [] → (Text.splitOn ',' (featuresOf kinds o v).render).mapM Decimal.value? =
              some (featuresOf kinds o v)) := by
  obtain ⟨c, hc, hsum⟩ := Corpus.ofFiles_eq_ok h
  refine ⟨c, hc, ?_⟩
  rintro o k v rfl
  refine ⟨?_, pairwise_select _ k, hsum.total_eq o, ?_⟩
  · have hfiles : (streams.map fun kinds => featuresOf kinds o (Vocabulary.select (c.get o) k)) =
        ((streams.map countAll).map (·.get o)).map
          (·.features (Vocabulary.select (c.get o) k)) := by
      rw [List.map_map, List.map_map]
      rfl
    rw [hfiles, Features.sum_map_features]
    refine List.map_congr_left ?_
    intro key _
    rw [hsum.get_eq, List.map_map]
    rfl
  · intro kinds _
    have hlength : (featuresOf kinds o (Vocabulary.select (c.get o) k)).length =
        (Vocabulary.select (c.get o) k).keys.length := List.length_map _
    refine ⟨hlength, ?_⟩
    intro hne
    apply Features.read_render
    intro hnil
    rw [hnil] at hlength
    exact hne (List.length_eq_zero_iff.1 hlength.symm)

/-- Two streams that share a window. -/
def twoStreams : List (List Kind) :=
  [[.identifier, .punctuator .Semi, .identifier, .punctuator .Semi],
    [.identifier, .punctuator .Semi]]

theorem features_add_up_twoStreams :
    Fits (twoStreams.map countAll) ∧ ∃ c, Corpus.ofFiles (twoStreams.map countAll) = .ok c ∧
      Occurrences.total (c.get .bigram).entries = 4 ∧
      ∀ v, v = Vocabulary.select (c.get .bigram) 1 →
        Features.sum v.keys.length (twoStreams.map fun kinds => featuresOf kinds .bigram v) =
          v.keys.map (c.get .bigram).get := by
  have hfits : Fits (twoStreams.map countAll) := fits_of_length (by decide)
  obtain ⟨c, hc, h⟩ := features_add_up hfits
  exact ⟨hfits, c, hc, (h .bigram 1 _ rfl).2.2.1, fun v hv => (h .bigram 1 v hv).1⟩

end Ngram
end Stylometry
