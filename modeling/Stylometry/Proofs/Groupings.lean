-- Sums of tables in any order and grouping. The counts of a sum add up over the tables, so neither
-- their order nor the way they are grouped matters, and a sum is too large in one grouping exactly
-- when it is in every other.
import Stylometry.Proofs.CorpusSums

namespace Stylometry

namespace Ngram

theorem CorpusTable.get_lt (t : CorpusTable) (key : String) : t.get key < countLimit := by
  by_cases h : key ∈ Occurrences.keys t.entries
  · exact t.fits _ (Occurrences.mem_of_mem_keys h)
  · rw [get_eq_count, Occurrences.count_eq_zero h]
    decide

/-! ## Groupings -/

/-- A way to add up tables of files: one after the other into a table of their own, or in two
groups, where the sum of the first absorbs that of the second. -/
inductive Grouping where
  | merged (files : List Table)
  | absorb (left right : Grouping)

namespace Grouping

/-- The tables in the order in which they are added. -/
def files : Grouping → List Table
  | .merged fs => fs
  | .absorb left right => left.files ++ right.files

/-- The sum of the tables, if no sum on the way is too large. -/
def sum (o : Order) : Grouping → Except Fault CorpusTable
  | .merged fs => CorpusTable.merged o fs
  | .absorb left right => do
    let t ← left.sum o
    t.absorb (← right.sum o)

end Grouping

/-! ## What a sum holds -/

/-- The count of a key over some tables. -/
def totalOf (files : List Table) (key : String) : Nat := (files.map (·.get key)).sum

theorem totalOf_append (fs gs : List Table) (key : String) :
    totalOf (fs ++ gs) key = totalOf fs key + totalOf gs key := by
  rw [totalOf, List.map_append, List.sum_append]
  rfl

theorem totalOf_perm {fs gs : List Table} (h : fs.Perm gs) (key : String) :
    totalOf fs key = totalOf gs key := (h.map _).sum_nat

/-- The table holds the counts over some tables, with the keys that they have. -/
structure IsTotal (t : CorpusTable) (o : Order) (files : List Table) : Prop where
  order : t.order = o
  get : ∀ key, t.get key = totalOf files key
  mem_keys : ∀ key, key ∈ Occurrences.keys t.entries ↔ ∃ f ∈ files, key ∈ f.entries.keys

/-- The count of some key over some tables is too large. -/
def TooLarge (files : List Table) : Prop := ∃ key, countLimit ≤ totalOf files key

theorem TooLarge.left {fs : List Table} (h : TooLarge fs) (gs : List Table) :
    TooLarge (fs ++ gs) := by
  obtain ⟨key, hkey⟩ := h
  exact ⟨key, by rw [totalOf_append]; omega⟩

theorem TooLarge.right {gs : List Table} (h : TooLarge gs) (fs : List Table) :
    TooLarge (fs ++ gs) := by
  obtain ⟨key, hkey⟩ := h
  exact ⟨key, by rw [totalOf_append]; omega⟩

/-- A work that adds up some tables gives their sum, or it stops because the sum is too large. -/
inductive AddsUp (o : Order) (files : List Table) : Except Fault CorpusTable → Prop
  | fits {t} : IsTotal t o files → AddsUp o files (.ok t)
  | overflow : TooLarge files → AddsUp o files (.error .overflow)

/-! ## One step -/

/-- Entries that have the keys and counts of some tables add these tables. -/
theorem IsTotal.addAll {t : CorpusTable} {o : Order} {fs gs : List Table} (ht : IsTotal t o fs)
    {es : List (String × Nat)} (hweight : ∀ key, Occurrences.weight key es = totalOf gs key)
    (hkeys : ∀ key, key ∈ es.map (·.1) ↔ ∃ g ∈ gs, key ∈ g.entries.keys) :
    AddsUp o (fs ++ gs) (t.addAll es) := by
  rcases t.addAll_cases es with ⟨u, hu, horder, hentries⟩ | ⟨hu, key, hkey⟩
  · rw [hu]
    refine .fits ⟨horder.trans ht.order, ?_, ?_⟩
    · intro key
      rw [totalOf_append, ← ht.get, ← hweight, CorpusTable.get_eq_count, hentries,
        Occurrences.count_addAll]
      rfl
    · intro key
      rw [hentries, Occurrences.keys_addAll, Occurrences.mem_insertAll, ht.mem_keys, hkeys]
      simp only [List.mem_append, or_and_right, exists_or]
  · rw [hu]
    refine .overflow ⟨key, ?_⟩
    rw [totalOf_append, ← ht.get, ← hweight]
    exact hkey

theorem IsTotal.merge {t : CorpusTable} {o : Order} {fs : List Table} (ht : IsTotal t o fs)
    (f : Table) : AddsUp o (fs ++ [f]) (t.merge f) := by
  refine ht.addAll ?_ ?_
  · intro key
    rw [Occurrences.weight_eq_count f.nodup]
    exact (Nat.add_zero _).symm
  · intro key
    simp [Occurrences.keys]

theorem IsTotal.absorb {t u : CorpusTable} {o : Order} {fs gs : List Table} (ht : IsTotal t o fs)
    (hu : IsTotal u o gs) : AddsUp o (fs ++ gs) (t.absorb u) := by
  rw [CorpusTable.absorb, if_pos (ht.order.trans hu.order.symm)]
  refine ht.addAll ?_ hu.mem_keys
  intro key
  rw [Occurrences.weight_eq_count u.nodup_entries]
  exact hu.get key

/-! ## A whole grouping -/

theorem isTotal_empty (o : Order) : IsTotal (.empty o) o [] :=
  ⟨rfl, fun _ => rfl, fun _ => by simp [CorpusTable.empty, CorpusTable.entries, Table.empty,
    Occurrences.keys]⟩

theorem IsTotal.foldlM_merge {t : CorpusTable} {o : Order} {fs : List Table} (ht : IsTotal t o fs)
    (gs : List Table) : AddsUp o (fs ++ gs) (gs.foldlM CorpusTable.merge t) := by
  induction gs generalizing t fs with
  | nil =>
    rw [List.append_nil]
    exact .fits ht
  | cons g gs ih =>
    have hsplit : fs ++ g :: gs = (fs ++ [g]) ++ gs := by simp
    have hstep := ht.merge g
    rw [List.foldlM_cons, hsplit]
    generalize t.merge g = result at hstep
    cases hstep with
    | fits hu => exact ih hu
    | overflow hlarge => exact .overflow (hlarge.left gs)

/-- Every grouping adds up its tables. -/
theorem Grouping.addsUp (o : Order) (g : Grouping) : AddsUp o g.files (g.sum o) := by
  induction g with
  | merged fs => exact (isTotal_empty o).foldlM_merge fs
  | absorb left right ihl ihr =>
    rw [files, sum]
    generalize left.sum o = l at ihl
    generalize right.sum o = r at ihr
    cases ihl with
    | overflow hlarge => exact .overflow (hlarge.left _)
    | fits ht =>
      cases ihr with
      | overflow hlarge => exact .overflow (hlarge.right _)
      | fits hu => exact ht.absorb hu

theorem AddsUp.perm {o : Order} {fs gs : List Table} (hperm : fs.Perm gs)
    {result : Except Fault CorpusTable} (h : AddsUp o fs result) : AddsUp o gs result := by
  cases h with
  | fits ht =>
    refine .fits ⟨ht.order, fun key => (ht.get key).trans (totalOf_perm hperm key), ?_⟩
    intro key
    rw [ht.mem_keys]
    simp only [hperm.mem_iff]
  | overflow hlarge =>
    obtain ⟨key, hkey⟩ := hlarge
    exact .overflow ⟨key, totalOf_perm hperm key ▸ hkey⟩

theorem IsTotal.not_tooLarge {t : CorpusTable} {o : Order} {files : List Table}
    (h : IsTotal t o files) : ¬TooLarge files := by
  rintro ⟨key, hkey⟩
  rw [← h.get] at hkey
  exact absurd (t.get_lt key) (Nat.not_lt.2 hkey)

/-- Two sums of the same tables have the same counts. -/
theorem IsTotal.sameCounts {t u : CorpusTable} {o : Order} {files : List Table}
    (ht : IsTotal t o files) (hu : IsTotal u o files) : t.sameCounts u = true := by
  have hkeys : ∀ key, key ∈ Occurrences.keys t.entries ↔ key ∈ Occurrences.keys u.entries :=
    fun key => (ht.mem_keys key).trans (hu.mem_keys key).symm
  have hsize : t.table.size = u.table.size := by
    have hperm := (List.perm_ext_iff_of_nodup t.nodup_entries u.nodup_entries).2 hkeys
    have hlength := hperm.length_eq
    rwa [Occurrences.keys, Occurrences.keys, List.length_map, List.length_map] at hlength
  have hentries : ∀ e ∈ t.entries, e ∈ u.entries := by
    intro e he
    have hmem := Occurrences.mem_of_mem_keys ((hkeys e.1).1 (List.mem_map_of_mem he))
    rw [← CorpusTable.get_eq_count, hu.get, ← ht.get, CorpusTable.get_eq_count,
      Occurrences.count_of_mem t.nodup_entries he] at hmem
    exact hmem
  unfold CorpusTable.sameCounts Table.sameCounts
  simp only [Bool.and_eq_true, decide_eq_true_eq, List.all_eq_true]
  exact ⟨ht.order.trans hu.order.symm, hsize, hentries⟩

/-- Tables of files can be added up in any order and grouping. The counts of each key add up, and
the keys are those that some table has. A sum is too large in one order and grouping exactly when it
is in each other one: when the count of some key is. -/
theorem sum_of_perm {files : List Table} {g : Grouping} (hperm : g.files.Perm files) (o : Order) :
    (g.sum o = .error .overflow ↔ ∃ key, countLimit ≤ (files.map (·.get key)).sum) ∧
      ((∀ key, (files.map (·.get key)).sum < countLimit) →
        ∃ t, g.sum o = .ok t ∧ t.order = o ∧
          (∀ key, t.get key = (files.map (·.get key)).sum) ∧
          ∀ key, key ∈ Occurrences.keys t.entries ↔ ∃ f ∈ files, key ∈ f.entries.keys) ∧
      ∀ h : Grouping, h.files.Perm files →
        g.sum o = .error .overflow ∧ h.sum o = .error .overflow ∨
          ∃ t u, g.sum o = .ok t ∧ h.sum o = .ok u ∧ t.sameCounts u = true := by
  have hg := (g.addsUp o).perm hperm
  generalize g.sum o = result at hg
  refine ⟨⟨?_, ?_⟩, ?_, ?_⟩
  · rintro rfl
    cases hg with
    | overflow hlarge => exact hlarge
  · intro hlarge
    cases hg with
    | fits ht => exact absurd hlarge ht.not_tooLarge
    | overflow => rfl
  · intro hfits
    cases hg with
    | fits ht => exact ⟨_, rfl, ht.order, ht.get, ht.mem_keys⟩
    | overflow hlarge =>
      obtain ⟨key, hkey⟩ := hlarge
      exact absurd (hfits key) (Nat.not_lt.2 hkey)
  · intro h hperm'
    have hh := (h.addsUp o).perm hperm'
    generalize h.sum o = result' at hh
    cases hg with
    | fits ht =>
      cases hh with
      | fits hu => exact .inr ⟨_, _, rfl, rfl, ht.sameCounts hu⟩
      | overflow hlarge => exact absurd hlarge ht.not_tooLarge
    | overflow hlarge =>
      cases hh with
      | fits hu => exact absurd hlarge hu.not_tooLarge
      | overflow => exact .inl ⟨rfl, rfl⟩

def largeCounts : Table := ⟨[("1|2", 2 ^ 63)], by decide⟩

def smallCounts : Table := ⟨[("1|2", 1), ("2|3", 4)], by decide⟩

/-- Two groups whose sums fit, but not together. -/
def largeGroups : Grouping := .absorb (.merged [largeCounts, smallCounts]) (.merged [largeCounts])

theorem sum_of_perm_largeGroups :
    largeGroups.files.Perm [smallCounts, largeCounts, largeCounts] ∧
      largeGroups.sum .bigram = .error .overflow ∧
      (Grouping.merged [smallCounts, largeCounts, largeCounts]).sum .bigram = .error .overflow := by
  have hperm : largeGroups.files.Perm [smallCounts, largeCounts, largeCounts] :=
    .swap smallCounts largeCounts [largeCounts]
  have hlarge : countLimit ≤ ([smallCounts, largeCounts, largeCounts].map (·.get "1|2")).sum := by
    decide
  exact ⟨hperm, (sum_of_perm hperm .bigram).1.2 ⟨"1|2", hlarge⟩,
    (sum_of_perm (.refl _) .bigram).1.2 ⟨"1|2", hlarge⟩⟩

end Ngram
end Stylometry
