-- Tables that are stored and loaded again. What comes back is what was stored, with its entries in
-- their order, for a table in a file of its own and for the tables of a corpus in a folder.
import Stylometry.Proofs.Archives
import Stylometry.Proofs.TableFolder

namespace Stylometry

open Files

namespace Ngram

/-! ## One table -/

namespace CorpusTable

/-- The file of a table is an archive when the table is compressed, and none when it is not. -/
theorem isArchive_fileBytes (t : CorpusTable) (packer : Gzip.Packer) (compress : Bool) :
    Gzip.isArchive (t.fileBytes packer compress) = compress := by
  cases compress with
  | true => exact packer.isArchive_pack t.encode
  | false => exact t.isArchive_encode

theorem run_store_eq_ok {t : CorpusTable} {packer : Gzip.Packer} {path : Path} {compress : Bool}
    {s s' : Store} :
    (t.store packer path compress).run.run s = (.ok (), s') ↔
      s.write path (t.fileBytes packer compress) = .ok s' := Corpus.run_change

/-- A table can be stored wherever a file can be written. -/
theorem exists_run_store_iff (t : CorpusTable) (packer : Gzip.Packer) (path : Path)
    (compress : Bool) (s : Store) :
    (∃ s', (t.store packer path compress).run.run s = (.ok (), s')) ↔
      ∃ s', s.write path [] = .ok s' := by
  constructor
  · rintro ⟨s', h⟩
    obtain ⟨place, hplace, -⟩ := Store.write_eq_ok.1 (run_store_eq_ok.1 h)
    exact ⟨_, Store.write_eq_ok.2 ⟨place, hplace, rfl⟩⟩
  · rintro ⟨s', h⟩
    obtain ⟨place, hplace, -⟩ := Store.write_eq_ok.1 h
    exact ⟨_, run_store_eq_ok.2 (Store.write_eq_ok.2 ⟨place, hplace, rfl⟩)⟩

theorem load_of_run_store {t : CorpusTable} (h : t.Writable) {packer : Gzip.Packer} {path : Path}
    {compress : Bool} {s s' : Store}
    (hstore : (t.store packer path compress).run.run s = (.ok (), s')) :
    load s' path = .ok t := by
  rw [Corpus.load_of_read (Store.read_of_write (run_store_eq_ok.1 hstore)),
    ofFileBytes_fileBytes h]
  rfl

end CorpusTable

/-! ## All tables of a corpus -/

namespace Corpus

/-- A corpus can be stored wherever a folder can be made and files can be written under the names
of its tables. -/
theorem exists_run_store_iff {c : Corpus} (horder : ∀ o, (c.get o).order = o)
    (packer : Gzip.Packer) (folder : Path) (compress : Bool) (s : Store) :
    (∃ s', (c.store packer folder compress).run.run s = (.ok (), s')) ↔
      ∃ made, s.createFolders folder = .ok made ∧
        ∀ o, ∃ made', made.write (tablePath folder o) [] = .ok made' := by
  constructor
  · rintro ⟨s', h⟩
    obtain ⟨made, place, hmade, hplace, -⟩ := run_store_cases horder h
    exact ⟨made, hmade, fun o => ⟨_, Store.write_eq_ok.2 ⟨_, hplace o, rfl⟩⟩⟩
  · rintro ⟨made, hmade, hwrite⟩
    have hreceives : ∀ o, ∃ place, made.Receives (tablePath folder o) place := by
      intro o
      obtain ⟨made', hmade'⟩ := hwrite o
      obtain ⟨place, hplace, -⟩ := Store.write_eq_ok.1 hmade'
      exact ⟨place, hplace⟩
    obtain ⟨place, hplace⟩ := exists_receivesTables hreceives
    exact ⟨_, run_store hmade hplace horder packer compress⟩

theorem load_of_run_store {c : Corpus} (horder : ∀ o, (c.get o).order = o)
    (hwritable : ∀ o, (c.get o).Writable) {packer : Gzip.Packer} {folder : Path} {compress : Bool}
    {s s' : Store} (hstore : (c.store packer folder compress).run.run s = (.ok (), s')) :
    load s' folder = .ok c := by
  obtain ⟨made, place, -, hplace, rfl⟩ := run_store_cases horder hstore
  exact (holds_putTables c packer compress place made).load
    (hplace.putTables c packer compress Order.all) hwritable horder

end Corpus

/-! ## What is stored is loaded -/

/-- A table that is stored, compressed with any packing or not, is loaded again with its order and
with its entries in their order, and so are the tables of a corpus in a folder. To store a table
fails only where no file can be written at all, and to store a corpus only where no folder can be
made or no file can be written into it. A file that is not compressed does not start as an archive
does, and an archive of the bytes of a table is loaded whatever packing it uses. -/
theorem load_of_store {t : CorpusTable} (ht : t.Writable) {c : Corpus}
    (horder : ∀ o, (c.get o).order = o) (hwritable : ∀ o, (c.get o).Writable)
    (packer : Gzip.Packer) (compress : Bool) (path folder : Path) (s : Store) :
    (((∃ s', (t.store packer path compress).run.run s = (.ok (), s')) ↔
          ∃ s', s.write path [] = .ok s') ∧
        ∀ s', (t.store packer path compress).run.run s = (.ok (), s') →
          CorpusTable.load s' path = .ok t) ∧
      (((∃ s', (c.store packer folder compress).run.run s = (.ok (), s')) ↔
          ∃ made, s.createFolders folder = .ok made ∧
            ∀ o, ∃ made', made.write (Corpus.tablePath folder o) [] = .ok made') ∧
        ∀ s', (c.store packer folder compress).run.run s = (.ok (), s') →
          Corpus.load s' folder = .ok c) ∧
      Gzip.isArchive (t.fileBytes packer compress) = compress ∧
      ∀ packed, Gzip.isArchive packed = true → Gzip.unpack? packed = some t.encode →
        s.read path = .ok packed → CorpusTable.load s path = .ok t := by
  refine ⟨⟨t.exists_run_store_iff packer path compress s,
      fun s' => CorpusTable.load_of_run_store ht⟩,
    ⟨Corpus.exists_run_store_iff horder packer folder compress s,
      fun s' => Corpus.load_of_run_store horder hwritable⟩,
    t.isArchive_fileBytes packer compress, ?_⟩
  intro packed harchive hunpack hread
  rw [Corpus.load_of_read hread, CorpusTable.ofFileBytes_of_unpack ht harchive hunpack]
  rfl

/-- A table with an empty key, a key of characters of many bytes, and the smallest and the largest
count. -/
def wideTable (o : Order) : CorpusTable :=
  ⟨o, ⟨[("", 0), ("|µ€😀", 2 ^ 64 - 1), ("1|2", 7)], by decide⟩, by decide⟩

theorem load_of_store_wideTable :
    (∃ s', ((wideTable .fivegram).store .stored "t.bin".toList true).run.run {} = (.ok (), s') ∧
        CorpusTable.load s' "t.bin".toList = .ok (wideTable .fivegram)) ∧
      ∃ s', (Corpus.store (.ofFn wideTable) .stored "a/b".toList false).run.run {} = (.ok (), s') ∧
        Corpus.load s' "a/b".toList = .ok (.ofFn wideTable) := by
  have hwritable : ∀ o, (wideTable o).Writable := by
    intro o
    cases o <;> exact ⟨by decide, by decide +kernel⟩
  have hget : ∀ o, (PerOrder.ofFn wideTable).get o = wideTable o := PerOrder.get_ofFn wideTable
  have horder : ∀ o, ((PerOrder.ofFn wideTable).get o).order = o := fun o =>
    congrArg (·.order) (hget o)
  have h := fun compress => load_of_store (hwritable .fivegram) horder
    (fun o => hget o ▸ hwritable o) .stored compress "t.bin".toList "a/b".toList {}
  obtain ⟨⟨hstore, hload⟩, -⟩ := h true
  obtain ⟨-, ⟨hstore', hload'⟩, -⟩ := h false
  obtain ⟨s', hs'⟩ := hstore.2 ⟨_, rfl⟩
  have hwrite : ∀ o, ∃ made' : Store, Store.write
      ⟨[], [["a".toList, "b".toList], ["a".toList]]⟩ (Corpus.tablePath "a/b".toList o) [] =
        .ok made' := by
    intro o
    cases o <;> exact ⟨_, rfl⟩
  obtain ⟨s'', hs''⟩ := hstore'.2 ⟨_, rfl, hwrite⟩
  exact ⟨⟨s', hs', hload s' hs'⟩, s'', hs'', hload' s'' hs''⟩

end Ngram
end Stylometry
