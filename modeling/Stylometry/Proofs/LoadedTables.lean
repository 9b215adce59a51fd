-- Files that are loaded as tables, and folders that are loaded as a corpus. A file that is no
-- archive is loaded exactly when it begins with a table in bytes, and a folder exactly when each of
-- its files is loaded and holds the order that it is named for.
import Stylometry.Proofs.StoredCorpora

namespace Stylometry

open Files

namespace Ngram

/-! ## One file -/

namespace CorpusTable

variable {s : Store} {path : Path} {bs : Bytes}

theorem load_of_plain (hread : s.read path = .ok bs) (hplain : Gzip.isArchive bs = false) :
    load s path = match decode? bs with
      | some (t, _) => .ok t
      | none => .error (.serialization path .content) := by
  rw [Corpus.load_of_read hread, ofFileBytes_of_plain hplain]
  cases decode? bs with
  | none => rfl
  | some result => rfl

/-- A file that begins with a table in bytes is loaded, whatever follows. A key that is given twice
keeps its first place and takes its last count. -/
theorem load_of_tableBytes (hread : s.read path = .ok bs) (hplain : Gzip.isArchive bs = false)
    {o : Order} {es : List (String × Nat)} {rest : Bytes} (hfit : EntriesFit es)
    (hbytes : bs = tableBytes o es ++ rest) :
    ∃ t, load s path = .ok t ∧ t.order = o ∧ t.entries = Occurrences.putAll [] es := by
  obtain ⟨t, -, rfl, hentries⟩ :=
    ofEntries?_eq_some o fun e he => (hfit.entries e he).2
  refine ⟨t, ?_, rfl, hentries⟩
  rw [load_of_plain hread hplain, decode?_eq_some.2 ⟨es, hfit, hbytes, hentries⟩]

theorem exists_load_iff (hread : s.read path = .ok bs) (hplain : Gzip.isArchive bs = false) :
    (∃ t, load s path = .ok t) ↔
      ∃ o es rest, EntriesFit es ∧ bs = tableBytes o es ++ rest := by
  constructor
  · rintro ⟨t, h⟩
    rw [load_of_plain hread hplain] at h
    cases hdecode : decode? bs with
    | none =>
      rw [hdecode] at h
      cases h
    | some result =>
      obtain ⟨es, hfit, hbytes, -⟩ := decode?_eq_some.1 hdecode
      exact ⟨_, es, _, hfit, hbytes⟩
  · rintro ⟨o, es, rest, hfit, hbytes⟩
    obtain ⟨t, ht, -⟩ := load_of_tableBytes hread hplain hfit hbytes
    exact ⟨t, ht⟩

theorem load_eq_error (hread : s.read path = .ok bs) (hplain : Gzip.isArchive bs = false)
    (h : ¬∃ t, load s path = .ok t) : load s path = .error (.serialization path .content) := by
  have hload := load_of_plain hread hplain
  cases hdecode : decode? bs with
  | none =>
    rw [hdecode] at hload
    exact hload
  | some result =>
    rw [hdecode] at hload
    exact absurd ⟨_, hload⟩ h

/-- No table in bytes begins another one, so what is cut off a table is no table. -/
theorem decode?_front {t : CorpusTable} (h : t.Writable) {front : Bytes}
    (hfront : front <+: t.encode) (hne : front ≠ t.encode) : decode? front = none := by
  obtain ⟨back, hback⟩ := hfront
  cases hdecode : decode? front with
  | none => rfl
  | some result =>
    obtain ⟨es, hfit, hbytes, hentries⟩ := decode?_eq_some.1 hdecode
    have hlonger : decode? (front ++ back) = some (result.1, result.2 ++ back) :=
      decode?_eq_some.2 ⟨es, hfit, by rw [hbytes, List.append_assoc], hentries⟩
    have hwhole := decode?_encode h []
    rw [List.append_nil, ← hback, hlonger] at hwhole
    have hrest : result.2 ++ back = [] := (Prod.mk.inj (Option.some.inj hwhole)).2
    rw [(List.append_eq_nil_iff.1 hrest).2, List.append_nil] at hback
    exact absurd hback hne

theorem isArchive_front {t : CorpusTable} {front : Bytes} (hfront : front <+: t.encode) :
    Gzip.isArchive front = false := by
  cases harchive : Gzip.isArchive front with
  | false => rfl
  | true =>
    have hmagic := (List.isPrefixOf_iff_prefix.1 harchive).trans hfront
    have hwhole : Gzip.isArchive t.encode = true := List.isPrefixOf_iff_prefix.2 hmagic
    rw [isArchive_encode] at hwhole
    cases hwhole

theorem load_front {t : CorpusTable} (h : t.Writable) {front : Bytes}
    (hfront : front <+: t.encode) (hne : front ≠ t.encode) (hread : s.read path = .ok front) :
    load s path = .error (.serialization path .content) := by
  rw [load_of_plain hread (isArchive_front hfront), decode?_front h hfront hne]

/-- Entries with keys of their own are written again as they were read. -/
theorem encode_of_nodup {t : CorpusTable} {es : List (String × Nat)}
    (hentries : t.entries = Occurrences.putAll [] es) (hkeys : (es.map (·.1)).Nodup) :
    t.encode = tableBytes t.order es := by
  have hput : Occurrences.putAll [] es = es := Occurrences.putAll_of_nodup hkeys
  rw [encode_eq, hentries, hput]

end CorpusTable

/-! ## A folder -/

namespace Corpus

variable {s : Store} {folder : Path}

theorem loadTable_eq {o : Order} {t : CorpusTable}
    (h : CorpusTable.load s (tablePath folder o) = .ok t) :
    loadTable s folder o = if t.order = o then .ok t
      else .error (.serialization (tablePath folder o) (.wrongOrder o t.order)) := by
  unfold loadTable
  dsimp only
  rw [h]
  rfl

theorem loadTable_eq_ok {o : Order} {t : CorpusTable} :
    loadTable s folder o = .ok t ↔
      CorpusTable.load s (tablePath folder o) = .ok t ∧ t.order = o := by
  constructor
  · intro h
    cases hload : CorpusTable.load s (tablePath folder o) with
    | error e =>
      unfold loadTable at h
      dsimp only at h
      rw [hload] at h
      cases h
    | ok u =>
      rw [loadTable_eq hload] at h
      split at h
      · cases h
        exact ⟨rfl, ‹_›⟩
      · cases h
  · rintro ⟨hload, horder⟩
    rw [loadTable_eq hload, if_pos horder]

theorem load_eq_ok_iff {c : Corpus} :
    load s folder = .ok c ↔
      ∀ o, CorpusTable.load s (tablePath folder o) = .ok (c.get o) ∧ (c.get o).order = o :=
  PerOrder.ofFnM_eq_ok.trans (forall_congr' fun _ => loadTable_eq_ok)

/-- When each file holds a table, but not each the order that it is named for, the first one that
does not is named in the failure. -/
theorem load_of_misplaced {c : Corpus}
    (h : ∀ o, CorpusTable.load s (tablePath folder o) = .ok (c.get o))
    (hmisplaced : ∃ o, (c.get o).order ≠ o) :
    ∃ o, (c.get o).order ≠ o ∧ (∀ p, p.index < o.index → (c.get p).order = p) ∧
      load s folder =
        .error (.serialization (tablePath folder o) (.wrongOrder o (c.get o).order)) := by
  have hfirst : ∃ o, (c.get o).order ≠ o ∧ ∀ p, p.index < o.index → (c.get p).order = p := by
    obtain ⟨o, ho⟩ := hmisplaced
    induction hindex : o.index using Nat.strongRecOn generalizing o with
    | ind n ih =>
      by_cases hbefore : ∀ p, p.index < o.index → (c.get p).order = p
      · exact ⟨o, ho, hbefore⟩
      · obtain ⟨p, hp⟩ := Classical.not_forall.1 hbefore
        obtain ⟨hlt, hne⟩ := Classical.not_imp.1 hp
        exact ih p.index (hindex ▸ hlt) p hne rfl
  obtain ⟨o, ho, hbefore⟩ := hfirst
  have hfails : loadTable s folder o =
      .error (.serialization (tablePath folder o) (.wrongOrder o (c.get o).order)) := by
    rw [loadTable_eq (h o), if_neg ho]
  refine ⟨o, ho, hbefore, PerOrder.ofFnM_eq_error.2 ⟨o, hfails, ?_⟩⟩
  intro p hp
  exact ⟨c.get p, loadTable_eq_ok.2 ⟨h p, hbefore p hp⟩⟩

end Corpus

/-! ## What is loaded -/

open CorpusTable

/-- A file that is no archive is loaded exactly when it begins with a table in bytes, which may give
a key twice, and all others are refused for their content. When the keys are given once, the loaded
table is stored as the bytes that it was loaded from. What is cut off a stored table is refused. No
more entries are read than the bytes have room for, however many they announce. A folder is loaded
exactly when each of its files is loaded and holds the order that it is named for, so it is refused
when the files of two orders are exchanged. -/
theorem load_iff_tableBytes (packer : Gzip.Packer) (s : Store) (path folder : Path) :
    (∀ bs, s.read path = .ok bs → Gzip.isArchive bs = false →
      ((∃ t, CorpusTable.load s path = .ok t) ↔
          ∃ o es rest, EntriesFit es ∧ bs = tableBytes o es ++ rest) ∧
        ((¬∃ t, CorpusTable.load s path = .ok t) →
          CorpusTable.load s path = .error (.serialization path .content)) ∧
        ∀ o es rest, EntriesFit es → bs = tableBytes o es ++ rest →
          ∃ t, CorpusTable.load s path = .ok t ∧ t.order = o ∧
            Occurrences.keys t.entries = Occurrences.insertAll [] (es.map (·.1)) ∧
            (∀ front key n back, es = front ++ (key, n) :: back → key ∉ back.map (·.1) →
              t.get key = n) ∧
            ((es.map (·.1)).Nodup → t.entries = es ∧
              ∀ copy u u', (t.store packer copy false).run.run u = (.ok (), u') →
                u'.read copy = .ok (tableBytes o es))) ∧
      (∀ t : CorpusTable, t.Writable → ∀ front, front <+: t.fileBytes packer false →
        front ≠ t.fileBytes packer false → s.read path = .ok front →
          CorpusTable.load s path = .error (.serialization path .content)) ∧
      (∀ n bs, readEntries? n bs = readEntries? (min n (bs.length / 16 + 1)) bs) ∧
      (∀ c, Corpus.load s folder = .ok c ↔ ∀ o,
        CorpusTable.load s (Corpus.tablePath folder o) = .ok (c.get o) ∧ (c.get o).order = o) ∧
      (∀ o o' t t', o ≠ o' → CorpusTable.load s (Corpus.tablePath folder o) = .ok t →
        CorpusTable.load s (Corpus.tablePath folder o') = .ok t' → t.order = o' → t'.order = o →
          ∀ c, Corpus.load s folder ≠ .ok c) ∧
      ∀ c : Corpus, (∀ o, CorpusTable.load s (Corpus.tablePath folder o) = .ok (c.get o)) →
        (∃ o, (c.get o).order ≠ o) →
          ∃ o, (c.get o).order ≠ o ∧ (∀ p, p.index < o.index → (c.get p).order = p) ∧
            Corpus.load s folder =
              .error (.serialization (Corpus.tablePath folder o)
                (.wrongOrder o (c.get o).order)) := by
  refine ⟨?_, fun t ht front => load_front ht, readEntries?_min, fun c => Corpus.load_eq_ok_iff,
    ?_, fun c => Corpus.load_of_misplaced⟩
  · intro bs hread hplain
    refine ⟨exists_load_iff hread hplain, load_eq_error hread hplain, ?_⟩
    intro o es rest hfit hbytes
    obtain ⟨t, hload, rfl, hentries⟩ := load_of_tableBytes hread hplain hfit hbytes
    refine ⟨t, hload, rfl, ?_, ?_, ?_⟩
    · rw [hentries, Occurrences.keys_putAll]
      rfl
    · rintro front key n back rfl hkey
      rw [get_eq_count, hentries, Occurrences.count_putAll hkey]
    · intro hkeys
      refine ⟨hentries.trans (Occurrences.putAll_of_nodup hkeys), ?_⟩
      intro copy u u' hstore
      rw [Store.read_of_write (run_store_eq_ok.1 hstore), ← encode_of_nodup hentries hkeys]
      rfl
  · intro o o' t t' hne hload hload' horder horder' c hc
    have hplaced := Corpus.load_eq_ok_iff.1 hc o
    rw [hload] at hplaced
    obtain ⟨heq, hplaced⟩ := hplaced
    rw [← Except.ok.inj heq, horder] at hplaced
    exact hne hplaced.symm

/-- A table in bytes that gives a key twice. -/
def repeatedKey : List (String × Nat) := [("1|2", 1), ("2|1", 2), ("1|2", 3)]

/-- A file with a table in bytes and a byte after it, and a folder with two tables exchanged. -/
def exchangedTables : Store where
  files := [(["t.bin".toList], tableBytes .trigram repeatedKey ++ [255]),
    (["x".toList, "global_bigram.bin".toList], tableBytes .fivegram []),
    (["x".toList, "global_fivegram.bin".toList], tableBytes .bigram [])]
  folders := [["x".toList]]

theorem load_exchangedTables :
    (∃ t, CorpusTable.load exchangedTables "t.bin".toList = .ok t ∧
        Occurrences.keys t.entries = ["1|2", "2|1"] ∧ t.get "1|2" = 3) ∧
      ∀ c, Corpus.load exchangedTables "x".toList ≠ .ok c := by
  obtain ⟨hfile, -, -, -, hexchanged, -⟩ :=
    load_iff_tableBytes .stored exchangedTables "t.bin".toList "x".toList
  have hfit : EntriesFit repeatedKey := ⟨by decide, by unfold EntryFits; decide +kernel⟩
  obtain ⟨-, -, hload⟩ := hfile _ rfl (by decide +kernel)
  obtain ⟨t, ht, -, hkeys, hlast, -⟩ := hload .trigram repeatedKey [255] hfit rfl
  refine ⟨⟨t, ht, hkeys, hlast [("1|2", 1), ("2|1", 2)] "1|2" 3 [] rfl (by decide)⟩, ?_⟩
  exact hexchanged .bigram .fivegram (.empty .fivegram) (.empty .bigram) (by decide) rfl rfl rfl rfl

end Ngram
end Stylometry
