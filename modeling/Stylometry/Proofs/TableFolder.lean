-- The folder of the tables of a corpus. What is stored in it is loaded again, whether the
-- tables are compressed or not.
import Stylometry.Proofs.Folders
import Stylometry.Proofs.StoredTables

namespace Stylometry

/-! ## Work that may stop -/

section
variable {σ ε α β : Type}

theorem run_bind (x : ExceptT ε (StateM σ) α) (f : α → ExceptT ε (StateM σ) β) (s : σ) :
    (x >>= f).run.run s = match x.run.run s with
      | (.ok a, s') => (f a).run.run s'
      | (.error e, s') => (.error e, s') := by
  unfold ExceptT.run StateT.run
  simp only [bind, ExceptT.bind, ExceptT.mk, StateT.bind]
  cases x s with
  | mk result s' => cases result <;> rfl

theorem run_bind_ok {x : ExceptT ε (StateM σ) α} {f : α → ExceptT ε (StateM σ) β} {s s' : σ}
    {a : α} (h : x.run.run s = (.ok a, s')) : (x >>= f).run.run s = (f a).run.run s' := by
  rw [run_bind, h]

end

namespace Ngram.Corpus

open Files

/-! ## The files of a folder -/

theorem isPlain_fileName (o : Order) : IsPlain (fileName o).toList := by
  cases o <;> decide +kernel

theorem fileName_inj {o o' : Order} (h : (fileName o).toList = (fileName o').toList) : o = o' := by
  revert h
  cases o <;> cases o' <;> decide +kernel

/-- The place of a table in a folder. -/
def tablePlace (place : Place) (o : Order) : Place := place ++ [(fileName o).toList]

theorem tablePlace_inj {place : Place} {o o' : Order}
    (h : tablePlace place o = tablePlace place o') : o = o' := by
  have hlast := List.append_cancel_left h
  exact fileName_inj (List.cons.inj hlast).1

/-- The path leads to a folder, and no folder stands where a table goes. -/
structure TableFolder (s : Store) (folder : Path) (place : Place) : Prop where
  leads : s.Leads folder place
  vacant : ∀ o, s.folderAt (tablePlace place o) = false

/-- The tables can be written into the folder, each to its place. -/
def ReceivesTables (s : Store) (folder : Path) (place : Place) : Prop :=
  ∀ o, s.Receives (tablePath folder o) (tablePlace place o)

theorem TableFolder.receives {s : Store} {folder : Path} {place : Place}
    (h : TableFolder s folder place) : ReceivesTables s folder place :=
  fun o => h.leads.receives_inside (isPlain_fileName o) (h.vacant o)

theorem exists_receivesTables {s : Store} {folder : Path}
    (h : ∀ o, ∃ place, s.Receives (tablePath folder o) place) :
    ∃ place, ReceivesTables s folder place := by
  obtain ⟨place, hplace⟩ := h .bigram
  obtain ⟨parent, -, hparent⟩ :=
    Store.resolve_inside_cases (isPlain_fileName .bigram) hplace.resolved
  refine ⟨parent, ?_⟩
  intro o
  obtain ⟨place', hplace'⟩ := h o
  have hresolved := hparent _ (isPlain_fileName o)
  have heq : place' = tablePlace parent o :=
    Except.ok.inj (hplace'.resolved.symm.trans hresolved)
  rw [← heq]
  exact hplace'

section
variable (c : Corpus) (packer : Gzip.Packer) (compress : Bool)

/-- The store with the tables of some orders. -/
def putTables (place : Place) (s : Store) (orders : List Order) : Store :=
  orders.foldl (fun s o => s.putFile (tablePlace place o) ((c.get o).fileBytes packer compress)) s

theorem TableFolder.putFile {s : Store} {folder : Path} {place : Place}
    (h : TableFolder s folder place) (p : Place) (content : Bytes) :
    TableFolder (s.putFile p content) folder place :=
  ⟨h.leads.putFile p content, h.vacant⟩

theorem TableFolder.putTables {s : Store} {folder : Path} {place : Place}
    (h : TableFolder s folder place) (orders : List Order) :
    TableFolder (putTables c packer compress place s orders) folder place := by
  induction orders generalizing s with
  | nil => exact h
  | cons o orders ih => exact ih (h.putFile _ _)

theorem ReceivesTables.putFile {s : Store} {folder : Path} {place : Place}
    (h : ReceivesTables s folder place) (p : Place) (content : Bytes) :
    ReceivesTables (s.putFile p content) folder place :=
  fun o => Store.receives_putFile.2 (h o)

theorem ReceivesTables.putTables {s : Store} {folder : Path} {place : Place}
    (h : ReceivesTables s folder place) (orders : List Order) :
    ReceivesTables (putTables c packer compress place s orders) folder place := by
  induction orders generalizing s with
  | nil => exact h
  | cons o orders ih => exact ih (h.putFile _ _)

/-- A table that was put stays, and the other files stay as they are. -/
theorem fileAt?_putTables (place : Place) (s : Store) (orders : List Order) (o : Order) :
    (putTables c packer compress place s orders).fileAt? (tablePlace place o) =
      if o ∈ orders then some ((c.get o).fileBytes packer compress)
      else s.fileAt? (tablePlace place o) := by
  induction orders generalizing s with
  | nil => rfl
  | cons o' orders ih =>
    have hstep : putTables c packer compress place s (o' :: orders) =
        putTables c packer compress place
          (s.putFile (tablePlace place o') ((c.get o').fileBytes packer compress)) orders := rfl
    rw [hstep, ih, Store.fileAt?_putFile]
    by_cases ho : o = o'
    · subst ho
      simp
    · have hplace : tablePlace place o ≠ tablePlace place o' := fun h => ho (tablePlace_inj h)
      simp [ho, hplace]

end

/-! ## Storing and loading -/

theorem run_change {path : Path} {operation : Store → Except FileError Store} {s s' : Store} :
    (Storing.change path operation).run.run s = (.ok (), s') ↔ operation s = .ok s' := by
  have hget : (get : Storing Store).run.run s = (.ok s, s) := rfl
  unfold Storing.change
  rw [run_bind_ok hget]
  cases operation s with
  | ok t =>
    constructor
    · intro h
      cases h
      rfl
    · intro h
      cases h
      rfl
  | error e =>
    constructor
    · intro h
      cases h
    · intro h
      cases h

/-- Writes the tables of some orders into a folder. -/
def storeTables (c : Corpus) (packer : Gzip.Packer) (folder : Path) (compress : Bool)
    (orders : List Order) : Storing Unit := do
  for o in orders do
    let t := c.get o
    t.store packer (tablePath folder t.order) compress

theorem store_eq (c : Corpus) (packer : Gzip.Packer) (folder : Path) (compress : Bool) :
    c.store packer folder compress = (do
      Storing.change folder (·.createFolders folder)
      storeTables c packer folder compress Order.all) := rfl

section
variable {s s' made : Store} {folder : Path} {place : Place} {c : Corpus}

theorem storeTables_cons (horder : ∀ o, (c.get o).order = o) (packer : Gzip.Packer)
    (compress : Bool) (o : Order) (orders : List Order) :
    storeTables c packer folder compress (o :: orders) =
      (c.get o).store packer (tablePath folder o) compress >>= fun _ =>
        storeTables c packer folder compress orders := by
  unfold storeTables
  rw [List.forIn_cons]
  simp only [horder, bind_assoc, pure_bind]

theorem run_storeTables (h : ReceivesTables s folder place) (horder : ∀ o, (c.get o).order = o)
    (packer : Gzip.Packer) (compress : Bool) (orders : List Order) :
    (storeTables c packer folder compress orders).run.run s =
      (.ok (), putTables c packer compress place s orders) := by
  induction orders generalizing s with
  | nil => rfl
  | cons o orders ih =>
    have hstore : ((c.get o).store packer (tablePath folder o) compress).run.run s =
        (.ok (), s.putFile (tablePlace place o) ((c.get o).fileBytes packer compress)) :=
      run_change.2 (Store.write_eq_ok.2 ⟨_, h o, rfl⟩)
    rw [storeTables_cons horder, run_bind_ok hstore]
    exact ih (h.putFile _ _)

/-- A folder in which some tables were stored could receive them. -/
theorem receives_of_run_storeTables (horder : ∀ o, (c.get o).order = o) {packer : Gzip.Packer}
    {compress : Bool} {orders : List Order}
    (h : (storeTables c packer folder compress orders).run.run s = (.ok (), s')) :
    ∀ o ∈ orders, ∃ place, s.Receives (tablePath folder o) place := by
  induction orders generalizing s with
  | nil => exact fun _ ho => nomatch ho
  | cons o orders ih =>
    rw [storeTables_cons horder, run_bind] at h
    cases hstore : ((c.get o).store packer (tablePath folder o) compress).run.run s with
    | mk result t =>
      rw [hstore] at h
      cases result with
      | error e => cases h
      | ok _ =>
        obtain ⟨place, hplace, rfl⟩ := Store.write_eq_ok.1 (run_change.1 hstore)
        rw [List.forall_mem_cons]
        refine ⟨⟨place, hplace⟩, ?_⟩
        intro o' ho'
        obtain ⟨place', hplace'⟩ := ih h o' ho'
        exact ⟨place', Store.receives_putFile.1 hplace'⟩

theorem run_store (hmade : s.createFolders folder = .ok made)
    (h : ReceivesTables made folder place) (horder : ∀ o, (c.get o).order = o)
    (packer : Gzip.Packer) (compress : Bool) :
    (c.store packer folder compress).run.run s =
      (.ok (), putTables c packer compress place made Order.all) := by
  rw [store_eq, run_bind_ok (run_change.2 hmade)]
  exact run_storeTables h horder packer compress Order.all

/-- A corpus is stored exactly where a folder for it can be made and its tables can be written. -/
theorem run_store_cases (horder : ∀ o, (c.get o).order = o) {packer : Gzip.Packer} {compress : Bool}
    (h : (c.store packer folder compress).run.run s = (.ok (), s')) :
    ∃ made place, s.createFolders folder = .ok made ∧ ReceivesTables made folder place ∧
      s' = putTables c packer compress place made Order.all := by
  have hstored := h
  rw [store_eq, run_bind] at h
  cases hcreate : (Storing.change folder (·.createFolders folder)).run.run s with
  | mk result made =>
    rw [hcreate] at h
    cases result with
    | error e => cases h
    | ok _ =>
      have hmade := run_change.1 hcreate
      obtain ⟨place, hplace⟩ :=
        exists_receivesTables fun o => receives_of_run_storeTables horder h o o.mem_all
      rw [run_store hmade hplace horder packer compress] at hstored
      cases hstored
      exact ⟨made, place, hmade, hplace, rfl⟩

end

/-- The files of all tables of a corpus, compressed in some way or not. -/
def Holds (s : Store) (place : Place) (c : Corpus) : Prop :=
  ∃ packer compress, ∀ o,
    s.fileAt? (tablePlace place o) = some ((c.get o).fileBytes packer compress)

theorem holds_putTables (c : Corpus) (packer : Gzip.Packer) (compress : Bool) (place : Place)
    (s : Store) : Holds (putTables c packer compress place s Order.all) place c := by
  refine ⟨packer, compress, ?_⟩
  intro o
  rw [fileAt?_putTables, if_pos o.mem_all]

/-- The table in a file is read from its bytes. -/
theorem load_of_read {s : Store} {path : Path} {bs : Bytes} (h : s.read path = .ok bs) :
    CorpusTable.load s path = (CorpusTable.ofFileBytes bs).mapError (.serialization path) := by
  unfold CorpusTable.load
  rw [h]

theorem Holds.load {s : Store} {folder : Path} {place : Place} {c : Corpus}
    (hfolder : ReceivesTables s folder place) (h : Holds s place c)
    (hwritable : ∀ o, (c.get o).Writable) (horder : ∀ o, (c.get o).order = o) :
    Corpus.load s folder = .ok c := by
  obtain ⟨packer, compress, hfiles⟩ := h
  refine PerOrder.ofFnM_eq_ok.2 ?_
  intro o
  have hread : s.read (tablePath folder o) = .ok ((c.get o).fileBytes packer compress) :=
    Store.read_eq_ok.2 ⟨_, (hfolder o).resolved, hfiles o⟩
  have hload : CorpusTable.load s (tablePath folder o) = .ok (c.get o) := by
    rw [load_of_read hread, CorpusTable.ofFileBytes_fileBytes (hwritable o)]
    rfl
  unfold loadTable
  dsimp only
  rw [hload]
  simp only [bind, Except.bind]
  rw [if_pos (horder o)]
  rfl

end Ngram.Corpus
end Stylometry
