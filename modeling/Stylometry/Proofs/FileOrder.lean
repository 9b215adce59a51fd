-- The order of the files of a corpus. It decides in which order keys are first met, and so how ties
-- between equal counts go in a vocabulary, but nothing else about the vocabulary.
import Mathlib.Data.List.Permutation
import Stylometry.Proofs.FeatureSums
import Stylometry.Proofs.Selection

namespace Stylometry.Ngram

/-! ## Counts along a vocabulary -/

namespace CorpusTable

theorem get_le_of_rank_lt {t : CorpusTable} {key key' : String} (h : t.rank key < t.rank key') :
    t.get key ≤ t.get key' := by
  rcases Prod.Lex.toLex_lt_toLex.1 h with hlt | ⟨heq, -⟩
  · exact Nat.le_of_lt hlt
  · exact Nat.le_of_eq heq

/-- The counts of all keys, the smallest first. -/
theorem pairwise_map_get_ranked (t : CorpusTable) : (t.ranked.map t.get).Pairwise (· ≤ ·) :=
  List.pairwise_map.2 (t.pairwise_ranked.imp get_le_of_rank_lt)

end CorpusTable

namespace Vocabulary

/-- The smallest count of the keys of a vocabulary, where there are keys. -/
def leastCount? (t : CorpusTable) (v : Vocabulary) : Option Nat := (v.keys.map t.get).min?

/-- A key that is met more often than some selected key is selected. -/
theorem mem_select_iff {t : CorpusTable} {k m : Nat} (hm : (select t k).leastCount? t = some m)
    {key : String} (hkey : m < t.get key) :
    key ∈ (select t k).keys ↔ key ∈ Occurrences.keys t.entries := by
  rw [leastCount?, List.min?_eq_some_iff, List.mem_map] at hm
  obtain ⟨least, hleast, rfl⟩ := hm.1
  rw [keys_select] at hleast ⊢
  have hranked := t.pairwise_ranked
  rw [← t.perm_ranked.mem_iff]
  constructor
  · exact List.mem_of_mem_drop
  · intro hmem
    rw [← List.take_append_drop (t.size - k) t.ranked] at hranked hmem
    refine (List.mem_append.1 hmem).resolve_left ?_
    intro hout
    -- a key that is left out has no higher count than one that is selected
    have hrank := (List.pairwise_append.1 hranked).2.2 key hout least hleast
    have hle := CorpusTable.get_le_of_rank_lt hrank
    omega

/-! ## Tables with the same counts -/

/-- Two vocabularies of two tables are the same but for ties: by position their keys have the same
counts, above the smallest count they have the same keys, and as many with the smallest one. -/
structure AlikeButTies (t : CorpusTable) (v : Vocabulary) (u : CorpusTable) (w : Vocabulary) :
    Prop where
  length_eq : v.keys.length = w.keys.length
  counts_eq : v.keys.map t.get = w.keys.map u.get
  keys_above : ∀ m, v.leastCount? t = some m → ∀ n, m < n → ∀ key,
    key ∈ v.keys ∧ t.get key = n ↔ key ∈ w.keys ∧ u.get key = n
  length_least : ∀ m, v.leastCount? t = some m →
    (v.keys.filter (t.get · = m)).length = (w.keys.filter (u.get · = m)).length

theorem map_get_select_congr {t u : CorpusTable}
    (hkeys : (Occurrences.keys t.entries).Perm (Occurrences.keys u.entries))
    (hget : t.get = u.get) (k : Nat) :
    (select t k).keys.map t.get = (select u k).keys.map u.get := by
  have hsize : t.size = u.size := by
    have hlength := hkeys.length_eq
    rwa [Occurrences.keys, Occurrences.keys, List.length_map, List.length_map] at hlength
  have hranked : t.ranked.Perm u.ranked := t.perm_ranked.trans (hkeys.trans u.perm_ranked.symm)
  -- both tables have the same counts, and there is one way to sort them
  have hcounts : t.ranked.map t.get = u.ranked.map u.get := by
    refine List.Perm.eq_of_pairwise ?_ t.pairwise_map_get_ranked u.pairwise_map_get_ranked ?_
    · intro a b _ _ hab hba
      exact Nat.le_antisymm hab hba
    · rw [hget]
      exact hranked.map u.get
  rw [keys_select, keys_select, List.map_drop, List.map_drop, hcounts, hsize]

theorem alikeButTies_select {t u : CorpusTable}
    (hkeys : (Occurrences.keys t.entries).Perm (Occurrences.keys u.entries))
    (hget : t.get = u.get) (k : Nat) : AlikeButTies t (select t k) u (select u k) := by
  have hcounts := map_get_select_congr hkeys hget k
  have hfilter : ∀ (t : CorpusTable) (v : Vocabulary) (m : Nat),
      (v.keys.filter (t.get · = m)).length = (v.keys.map t.get).countP (· = m) := by
    intro t v m
    rw [List.countP_map, List.countP_eq_length_filter]
    rfl
  refine ⟨?_, hcounts, ?_, ?_⟩
  · have hlength := congrArg List.length hcounts
    rwa [List.length_map, List.length_map] at hlength
  · intro m hm n hn key
    have hm' : (select u k).leastCount? u = some m := by
      rw [leastCount?, ← hcounts]
      exact hm
    rw [hget]
    constructor
    · rintro ⟨hmem, rfl⟩
      refine ⟨(mem_select_iff hm' hn).2 (hkeys.mem_iff.1 ?_), rfl⟩
      exact (mem_select_iff hm (hget ▸ hn)).1 hmem
    · rintro ⟨hmem, rfl⟩
      refine ⟨(mem_select_iff hm (hget ▸ hn)).2 (hkeys.mem_iff.2 ?_), rfl⟩
      exact (mem_select_iff hm' hn).1 hmem
  · intro m _
    rw [hfilter, hfilter, hcounts]

end Vocabulary

/-! ## Permuted files -/

theorem Fits.perm {files files' : List (PerOrder Table)} (h : Fits files)
    (hperm : files.Perm files') : Fits files' := by
  intro o key
  rw [← (hperm.map _).sum_nat]
  exact h o key

theorem Corpus.IsSum.keys_perm {c d : Corpus} {files files' : List (PerOrder Table)}
    (hc : IsSum c files) (hd : IsSum d files') (hperm : files.Perm files') (o : Order) :
    (Occurrences.keys (c.get o).entries).Perm (Occurrences.keys (d.get o).entries) := by
  rw [List.perm_ext_iff_of_nodup (c.get o).nodup_entries (d.get o).nodup_entries]
  intro key
  have hentries : (entriesOf files o).Perm (entriesOf files' o) := hperm.flatMap_right _
  rw [(hc o).2, (hd o).2, Occurrences.keys_addAll, Occurrences.keys_addAll,
    Occurrences.mem_insertAll, Occurrences.mem_insertAll, (hentries.map _).mem_iff]

theorem Corpus.IsSum.get_perm {c d : Corpus} {files files' : List (PerOrder Table)}
    (hc : IsSum c files) (hd : IsSum d files') (hperm : files.Perm files') (o : Order) :
    (c.get o).get = (d.get o).get := by
  funext key
  rw [hc.get_eq, hd.get_eq, (hperm.map _).sum_nat]

/-- Files whose counts fit can be added up in any order. From the sums the same vocabularies are
selected but for ties: keys with equal counts may change places, and at the smallest count that is
selected a key may stand for another one with the same count. -/
theorem vocabularies_of_perm {files files' : List (PerOrder Table)} (h : Fits files)
    (hperm : files.Perm files') :
    ∃ c d, Corpus.ofFiles files = .ok c ∧ Corpus.ofFiles files' = .ok d ∧
      ∀ o k, Vocabulary.AlikeButTies (c.get o) (.select (c.get o) k)
        (d.get o) (.select (d.get o) k) := by
  obtain ⟨c, hc, hsum⟩ := Corpus.ofFiles_eq_ok h
  obtain ⟨d, hd, hsum'⟩ := Corpus.ofFiles_eq_ok (h.perm hperm)
  refine ⟨c, d, hc, hd, ?_⟩
  intro o k
  exact Vocabulary.alikeButTies_select (hsum.keys_perm hsum' hperm o)
    (hsum.get_perm hsum' hperm o) k

/-- Two streams with one bigram each. -/
def tiedStreams : List (List Kind) :=
  [[.identifier, .punctuator .Semi], [.punctuator .Semi, .identifier]]

theorem vocabularies_of_perm_tiedStreams :
    Fits (tiedStreams.map countAll) ∧
      (tiedStreams.map countAll).Perm (tiedStreams.reverse.map countAll) ∧
      ∃ c d, Corpus.ofFiles (tiedStreams.map countAll) = .ok c ∧
        Corpus.ofFiles (tiedStreams.reverse.map countAll) = .ok d ∧
        Vocabulary.AlikeButTies (c.get .bigram) (.select (c.get .bigram) 1)
          (d.get .bigram) (.select (d.get .bigram) 1) ∧
        (Vocabulary.select (c.get .bigram) 1).keys = ["118|126"] ∧
        (Vocabulary.select (d.get .bigram) 1).keys = ["126|118"] := by
  have hfits : Fits (tiedStreams.map countAll) := fits_of_length (by decide)
  have hperm : (tiedStreams.map countAll).Perm (tiedStreams.reverse.map countAll) :=
    tiedStreams.reverse_perm.symm.map countAll
  have hkeys : (Corpus.ofFiles (tiedStreams.map countAll)).map
      (fun c => (Vocabulary.select (c.get .bigram) 1).keys) = .ok ["118|126"] := by cbv
  have hkeys' : (Corpus.ofFiles (tiedStreams.reverse.map countAll)).map
      (fun c => (Vocabulary.select (c.get .bigram) 1).keys) = .ok ["126|118"] := by cbv
  obtain ⟨c, d, hc, hd, halike⟩ := vocabularies_of_perm hfits hperm
  rw [hc] at hkeys
  rw [hd] at hkeys'
  exact ⟨hfits, hperm, c, d, hc, hd, halike .bigram 1, Except.ok.inj hkeys, Except.ok.inj hkeys'⟩

end Stylometry.Ngram
