-- Runs of the counting command one after the other. A run that keeps the stored tables goes
-- on where the run before stopped, so many runs leave what one run over all files leaves.
import Stylometry.Command.Run
import Stylometry.Proofs.Archives
import Stylometry.Proofs.TableFolder

namespace Stylometry

open Ngram Files

/-! ## What a run counts -/

namespace Command

/-- A run of the counting command. -/
structure CountingRun where
  engine : Engine
  path : Path
  append : Bool

namespace CountingRun

/-- What the run does to the world, with its tables in a folder. -/
def exec (r : CountingRun) (tables : Path) (w : World) : Except Stop Unit × World :=
  (countNgrams r.engine r.path tables r.append).run.run w

/-- The kinds of the tokens of a file. A file that cannot be read has none. -/
def stream (r : CountingRun) (s : Store) (file : Path) : List Kind :=
  match s.readSource file with
  | .ok source => (tokenize (r.engine.prepare source)).map (·.kind)
  | .error _ => []

/-- The token streams of the files of the run. -/
def streams (r : CountingRun) (s : Store) : List (List Kind) :=
  (s.sources r.path).map (r.stream s)

/-- The path of the run exists, and no sum in the measures of its files overflows. -/
structure Ready (r : CountingRun) (s : Store) : Prop where
  present : s.present r.path = true
  measured : ∃ analyses, r.engine.analyzeFiles s (s.sources r.path) = .ok analyses

end CountingRun

/-- Some runs one after the other, up to the first one that stops. -/
def execAll (tables : Path) : List CountingRun → World → Except Stop Unit × World
  | [], w => (.ok (), w)
  | r :: rs, w =>
    match r.exec tables w with
    | (.ok (), w') => execAll tables rs w'
    | (.error e, w') => (.error e, w')

/-- The token streams of each of the runs, read when it is its turn. -/
def fileLists (tables : Path) : List CountingRun → World → List (List (List Kind))
  | [], _ => []
  | r :: rs, w => r.streams w.store :: fileLists tables rs (r.exec tables w).2

/-- Every run is ready when it is its turn. -/
def AllReady (tables : Path) : List CountingRun → World → Prop
  | [], _ => True
  | r :: rs, w => r.Ready w.store ∧ AllReady tables rs (r.exec tables w).2

/-- Nothing stands at the path yet, and a folder without tables can be made there. -/
structure Fresh (s : Store) (tables : Path) : Prop where
  named : tables ≠ []
  missing : s.present tables = false
  makeable : ∃ made, s.createFolders tables = .ok made ∧
    ∀ o, made.present (Corpus.tablePath tables o) = false

/-! ## One run -/

/-- The tables of a file are counted from its token stream. -/
theorem tables_of_analyzeFile {r : CountingRun} {s : Store} {file : Path} {a : Analysis}
    (h : r.engine.analyzeFile s file = .ok a) : a.tables = countAll (r.stream s file) := by
  unfold Engine.analyzeFile at h
  unfold CountingRun.stream
  cases hread : s.readSource file with
  | error e =>
    rw [hread] at h
    cases h
    rfl
  | ok source =>
    rw [hread] at h
    dsimp only at h
    unfold Engine.analyze at h
    dsimp only at h
    cases hrecord : r.engine.record file (r.engine.prepare source)
        (r.engine.requiresExpansion source) with
    | error e =>
      rw [hrecord] at h
      cases h
    | ok record =>
      rw [hrecord] at h
      cases h
      rfl

theorem tables_of_analyzeFiles {r : CountingRun} {s : Store} {files : List Path}
    {analyses : List Analysis} (h : r.engine.analyzeFiles s files = .ok analyses) :
    analyses.map (·.tables) = (files.map (r.stream s)).map countAll := by
  unfold Engine.analyzeFiles at h
  induction files generalizing analyses with
  | nil =>
    cases h
    rfl
  | cons file files ih =>
    rw [List.mapM_cons] at h
    cases hfirst : r.engine.analyzeFile s file with
    | error e =>
      rw [hfirst] at h
      cases h
    | ok a =>
      cases hrest : files.mapM (r.engine.analyzeFile s) with
      | error e =>
        rw [hfirst, hrest] at h
        cases h
      | ok as =>
        rw [hfirst, hrest] at h
        cases h
        rw [List.map_cons, List.map_cons, List.map_cons, tables_of_analyzeFile hfirst, ih hrest]

theorem countFiles_eq_ok {r : CountingRun} {s : Store} (hready : r.Ready s)
    (hfits : Fits ((r.streams s).map countAll)) :
    ∃ c, r.engine.countFiles s (s.sources r.path) = .ok c ∧
      Corpus.IsSum c ((r.streams s).map countAll) := by
  obtain ⟨analyses, hanalyses⟩ := hready.measured
  obtain ⟨c, hc, hsum⟩ := Corpus.ofFiles_eq_ok hfits
  refine ⟨c, ?_, hsum⟩
  unfold Engine.countFiles
  rw [hanalyses]
  simp only [bind, Except.bind]
  rw [tables_of_analyzeFiles hanalyses]
  exact hc

theorem run_sources {w : World} {path : Path} (h : w.store.present path = true) :
    (sources path).run.run w = (.ok (w.store.sources path), w) := by
  have hfiles : Session.files.run.run w = (.ok w.store, w) := rfl
  unfold sources
  rw [run_bind_ok hfiles, h]
  rfl

theorem run_ofStoring {α : Type} {w : World} {work : Storing α} {a : α} {s' : Store}
    (h : work.run.run w.store = (.ok a, s')) (context : Option String) :
    (Session.ofStoring context work).run.run w = (.ok a, { w with store := s' }) := by
  have hget : (get : Session World).run.run w = (.ok w, w) := rfl
  unfold Session.ofStoring
  rw [run_bind_ok hget, h]
  rfl

/-- The tables that a run starts with: the stored ones if they are to stay, else none. -/
def StartsWith (r : CountingRun) (tables : Path) (s : Store) (earlier : Corpus) : Prop :=
  if r.append && s.present tables then Corpus.load s tables = .ok earlier
  else earlier = Corpus.empty

/-- A run adds what it counts to the tables it starts with, and stores the sums. -/
theorem exec_eq_ok {r : CountingRun} {tables : Path} {w : World} {earlier counted sum : Corpus}
    {s' : Store} (hpresent : w.store.present r.path = true)
    (hearlier : StartsWith r tables w.store earlier)
    (hcounted : r.engine.countFiles w.store (w.store.sources r.path) = .ok counted)
    (hsum : earlier.absorb counted = .ok sum)
    (hstore : (sum.store r.engine.packer tables r.engine.settings.compressTables).run.run w.store =
      (.ok (), s')) :
    r.exec tables w = (.ok (), { w with store := s' }) := by
  have hfiles : Session.files.run.run w = (.ok w.store, w) := rfl
  have hfault : ∀ {c : Corpus} {result : Except Fault Corpus}, result = .ok c →
      (Session.ofFault result).run.run w = (.ok c, w) := by
    rintro c _ rfl
    rfl
  unfold CountingRun.exec countNgrams
  rw [run_bind_ok (run_sources hpresent), run_bind_ok hfiles]
  dsimp only
  unfold StartsWith at hearlier
  split at hearlier
  · have hload : ∀ context, (Session.ofStorage context (Corpus.load w.store tables)).run.run w =
        (.ok earlier, w) := by
      intro context
      rw [hearlier]
      rfl
    rw [if_pos ‹_›, run_bind_ok (hload _), run_bind_ok (hfault hcounted),
      run_bind_ok (hfault hsum)]
    exact run_ofStoring hstore _
  · rw [if_neg ‹_›, ← hearlier, pure_bind, run_bind_ok (hfault hcounted),
      run_bind_ok (hfault hsum)]
    exact run_ofStoring hstore _

/-! ## The stored tables -/

/-- The folder holds the sums over some token streams. -/
def Stored (s : Store) (tables : Path) (files : List (List Kind)) : Prop :=
  ∃ place c, Corpus.TableFolder s tables place ∧ Corpus.Holds s place c ∧
    Corpus.IsSum c (files.map countAll)

theorem load_eq_ok {s : Store} {tables : Path} {place : Place} {c : Corpus}
    {files : List (List Kind)} (hfolder : Corpus.TableFolder s tables place)
    (hholds : Corpus.Holds s place c) (hsum : Corpus.IsSum c (files.map countAll)) :
    Corpus.load s tables = .ok c :=
  hholds.load hfolder.receives hsum.writable fun o => (hsum o).1

theorem stored_putTables {made : Store} {tables : Path} {place : Place} {c : Corpus}
    {files : List (List Kind)} (hfolder : Corpus.TableFolder made tables place)
    (hsum : Corpus.IsSum c (files.map countAll)) (packer : Gzip.Packer) (compress : Bool) :
    Stored (Corpus.putTables c packer compress place made Order.all) tables files :=
  ⟨place, c, hfolder.putTables c packer compress Order.all,
    Corpus.holds_putTables c packer compress place made, hsum⟩

/-- In a fresh place a folder for tables can be made. -/
theorem Fresh.exists_folder {s : Store} {tables : Path} (h : Fresh s tables) :
    ∃ made place, s.createFolders tables = .ok made ∧ Corpus.TableFolder made tables place := by
  obtain ⟨made, hmade, hvacant⟩ := h.makeable
  obtain ⟨place, hleads⟩ := Store.exists_leads h.named hmade
  refine ⟨made, place, hmade, hleads, ?_⟩
  intro o
  have hpresent := hvacant o
  unfold Store.present at hpresent
  rw [Corpus.tablePath, hleads.resolve_inside (Corpus.isPlain_fileName o)] at hpresent
  exact (Bool.or_eq_false_iff.1 hpresent).1

/-- The first run stores the sums over its files. -/
theorem exec_fresh {r : CountingRun} {tables : Path} {w : World} (hfresh : Fresh w.store tables)
    (hready : r.Ready w.store) (hfits : Fits ((r.streams w.store).map countAll)) :
    ∃ w', r.exec tables w = (.ok (), w') ∧ Stored w'.store tables (r.streams w.store) := by
  obtain ⟨made, place, hmade, hfolder⟩ := hfresh.exists_folder
  obtain ⟨counted, hcounted, hsum⟩ := countFiles_eq_ok hready hfits
  obtain ⟨c, hc, hsum'⟩ := Corpus.isSum_empty.absorb hsum (by simpa using hfits)
  have hstart : StartsWith r tables w.store Corpus.empty := by
    unfold StartsWith
    rw [hfresh.missing, Bool.and_false]
    rfl
  have hstore := Corpus.run_store hmade hfolder.receives (fun o => (hsum' o).1)
    r.engine.packer r.engine.settings.compressTables
  exact ⟨_, exec_eq_ok hready.present hstart hcounted hc hstore,
    stored_putTables hfolder hsum' r.engine.packer r.engine.settings.compressTables⟩

/-- A run that keeps the stored tables adds its files to them. -/
theorem exec_append {r : CountingRun} {tables : Path} {w : World} {files : List (List Kind)}
    (hstored : Stored w.store tables files) (happend : r.append = true)
    (hready : r.Ready w.store) (hfits : Fits ((files ++ r.streams w.store).map countAll)) :
    ∃ w', r.exec tables w = (.ok (), w') ∧
      Stored w'.store tables (files ++ r.streams w.store) := by
  obtain ⟨place, earlier, hfolder, hholds, hearlier⟩ := hstored
  rw [List.map_append] at hfits
  obtain ⟨counted, hcounted, hsum⟩ := countFiles_eq_ok hready hfits.right
  obtain ⟨c, hc, hsum'⟩ := hearlier.absorb hsum hfits
  rw [← List.map_append] at hsum'
  have hstart : StartsWith r tables w.store earlier := by
    unfold StartsWith
    rw [happend, hfolder.leads.present]
    exact load_eq_ok hfolder hholds hearlier
  have hstore := Corpus.run_store hfolder.leads.createFolders hfolder.receives
    (fun o => (hsum' o).1) r.engine.packer r.engine.settings.compressTables
  exact ⟨_, exec_eq_ok hready.present hstart hcounted hc hstore,
    stored_putTables hfolder hsum' r.engine.packer r.engine.settings.compressTables⟩

/-! ## Many runs -/

/-- Runs that keep the stored tables add their files one after the other. -/
theorem execAll_append {tables : Path} {runs : List CountingRun} {w : World}
    {files : List (List Kind)} (hstored : Stored w.store tables files)
    (happend : ∀ r ∈ runs, r.append = true) (hready : AllReady tables runs w)
    (hfits : Fits ((files ++ (fileLists tables runs w).flatten).map countAll)) :
    ∃ u, execAll tables runs w = (.ok (), u) ∧
      Stored u.store tables (files ++ (fileLists tables runs w).flatten) := by
  induction runs generalizing w files with
  | nil =>
    refine ⟨w, rfl, ?_⟩
    rw [fileLists, List.flatten_nil, List.append_nil]
    exact hstored
  | cons r rs ih =>
    obtain ⟨hr, hrs⟩ := List.forall_mem_cons.1 happend
    obtain ⟨hfirst, hrest⟩ := hready
    rw [fileLists, List.flatten_cons, ← List.append_assoc] at hfits ⊢
    have hfits' := hfits
    rw [List.map_append] at hfits'
    obtain ⟨w', hexec, hstored'⟩ := exec_append hstored hr hfirst hfits'.left
    rw [hexec] at hrest hfits ⊢
    obtain ⟨u, hu, hstored''⟩ := ih hstored' hrs hrest hfits
    refine ⟨u, ?_, hstored''⟩
    rw [execAll, hexec]
    exact hu

/-- Runs of the counting command in a fresh folder, where all but the first keep the stored
tables, leave the tables that one run over all their files leaves: with the same keys, in the
same order and with the same counts. So the vocabularies that are selected are the same. -/
theorem load_execAll_eq_load_exec {tables tables' : Path} {w w' : World} {first single : CountingRun}
    {later : List CountingRun} (hfresh : Fresh w.store tables) (hfresh' : Fresh w'.store tables')
    (happend : ∀ r ∈ later, r.append = true) (hready : AllReady tables (first :: later) w)
    (hready' : single.Ready w'.store)
    (hfiles : single.streams w'.store = (fileLists tables (first :: later) w).flatten)
    (hfits : Fits ((fileLists tables (first :: later) w).flatten.map countAll)) :
    ∃ u u' c, execAll tables (first :: later) w = (.ok (), u) ∧
      single.exec tables' w' = (.ok (), u') ∧
      Corpus.load u.store tables = .ok c ∧ Corpus.load u'.store tables' = .ok c ∧
      Corpus.ofFiles ((fileLists tables (first :: later) w).flatten.map countAll) = .ok c ∧
      ∀ k, (Corpus.load u.store tables).map (·.vocabularies k) =
        (Corpus.load u'.store tables').map (·.vocabularies k) := by
  obtain ⟨hfirst, hlater⟩ := hready
  obtain ⟨c, hc, hsum⟩ := Corpus.ofFiles_eq_ok hfits
  obtain ⟨u', hu', place', c', hfolder', hholds', hsum'⟩ :=
    exec_fresh hfresh' hready' (by rw [hfiles]; exact hfits)
  rw [hfiles] at hsum'
  obtain rfl : c' = c := hsum'.unique hsum
  have hsplit : (fileLists tables (first :: later) w).flatten = first.streams w.store ++
      (fileLists tables later (first.exec tables w).2).flatten := by
    rw [fileLists, List.flatten_cons]
  have hfits' := hfits
  rw [hsplit, List.map_append] at hfits'
  obtain ⟨v, hv, hstored⟩ := exec_fresh hfresh hfirst hfits'.left
  rw [← List.map_append] at hfits'
  rw [hv] at hlater hsplit hfits'
  obtain ⟨u, hu, place, c'', hfolder, hholds, hsum''⟩ :=
    execAll_append hstored happend hlater hfits'
  rw [← hsplit] at hsum''
  obtain rfl : c'' = c' := hsum''.unique hsum
  have hload := load_eq_ok hfolder hholds hsum''
  have hload' := load_eq_ok hfolder' hholds' hsum'
  refine ⟨u, u', c'', ?_, hu', hload, hload', hc, ?_⟩
  · rw [execAll, hv]
    exact hu
  · intro k
    rw [hload, hload']

/-! ## Two sources -/

/-- Two folders with a source in each. -/
def twoSources : Store where
  files := [(["a".toList, "x.cpp".toList], Bytes.ofString "int a"),
    (["b".toList, "y.cpp".toList], Bytes.ofString "int b")]
  folders := [["a".toList], ["b".toList]]

/-- The tools of the program, a parser that places nothing, and archives with stored blocks. -/
def plainOutside : Outside where
  tools := Expansion.tools
  parser _ _ := .node { kind := "ERROR", hasError := true, start := 0, stop := 0 } []
  packer := .stored

/-- An engine that measures nothing. -/
def countingEngine (compress : Bool) : Engine where
  toOutside := plainOutside
  settings := { compressTables := compress }

/-- A source whose parse tree has an error is not measured, so no measure overflows. -/
theorem exists_analyses {e : Engine} (h : ∀ id source, (e.parser id source).mark.hasError = true)
    (s : Store) (files : List Path) : ∃ analyses, e.analyzeFiles s files = .ok analyses := by
  have hrecord : ∀ id prepared required, ∃ r, e.record id prepared required = .ok r := by
    intro id prepared required
    have htally : ∃ why, e.tally id prepared = .error why := by
      unfold Engine.tally
      cases (Lexical.ofTokens (tokenize prepared) e.classes :
          Except Degeneracy (Lexical Float)) with
      | error why => exact ⟨_, rfl⟩
      | ok lexical =>
        have hparse : ∃ why, Grammar.parse prepared (e.parser id prepared) = .error why := by
          unfold Grammar.parse
          rw [if_pos (h id prepared)]
          split
          · exact ⟨_, rfl⟩
          · exact ⟨_, rfl⟩
        obtain ⟨why, hwhy⟩ := hparse
        rw [hwhy]
        exact ⟨_, rfl⟩
    obtain ⟨why, hwhy⟩ := htally
    unfold Engine.record Engine.measure
    rw [hwhy]
    exact ⟨_, rfl⟩
  have hfile : ∀ file, ∃ a, e.analyzeFile s file = .ok a := by
    intro file
    unfold Engine.analyzeFile
    split
    · rename_i source _
      obtain ⟨r, hr⟩ := hrecord file (e.prepare source) (e.requiresExpansion source)
      unfold Engine.analyze
      dsimp only
      rw [hr]
      exact ⟨_, rfl⟩
    · exact ⟨_, rfl⟩
  unfold Engine.analyzeFiles
  induction files with
  | nil => exact ⟨[], rfl⟩
  | cons file files ih =>
    obtain ⟨a, ha⟩ := hfile file
    obtain ⟨as, has⟩ := ih
    rw [List.mapM_cons, ha, has]
    exact ⟨_, rfl⟩

def startWorld : World := { store := twoSources }

def firstRun : CountingRun := ⟨countingEngine true, "a".toList, false⟩

def secondRun : CountingRun := ⟨countingEngine false, "b".toList, true⟩

def singleRun : CountingRun := ⟨countingEngine false, ".".toList, false⟩

theorem sources_twoSources :
    twoSources.sources ".".toList = ["./a/x.cpp".toList, "./b/y.cpp".toList] := by
  have hfile : twoSources.isFile ".".toList = false := by decide +kernel
  have hresolve : twoSources.resolve ".".toList = .ok Place.base := rfl
  have hfound : (twoSources.filesWithin Place.base).filter
      (fun names => isSourceName (names.getLastD [])) =
      [["a".toList, "x.cpp".toList], ["b".toList, "y.cpp".toList]] := by decide +kernel
  unfold Store.sources
  rw [hfile, hresolve]
  simp only [Bool.false_eq_true, if_false]
  rw [hfound, List.mergeSort_of_pairwise (by decide +kernel)]
  decide +kernel

theorem load_twoSources : ∃ u u' c,
    execAll "t".toList [firstRun, secondRun] startWorld = (.ok (), u) ∧
      singleRun.exec "t".toList startWorld = (.ok (), u') ∧
      Corpus.load u.store "t".toList = .ok c ∧ Corpus.load u'.store "t".toList = .ok c := by
  have hfresh : Fresh startWorld.store "t".toList := by
    refine ⟨by decide, by decide +kernel, _, rfl, ?_⟩
    intro o
    cases o <;> decide +kernel
  have hready : ∀ (r : CountingRun) (s : Store) (compress : Bool),
      r.engine = countingEngine compress → s.present r.path = true → r.Ready s := by
    intro r s compress hengine hpresent
    refine ⟨hpresent, exists_analyses ?_ _ _⟩
    intro id source
    rw [hengine]
    rfl
  have happend : ∀ r ∈ [secondRun], r.append = true := by
    intro r hr
    rw [List.mem_singleton.1 hr]
    rfl
  have hall : AllReady "t".toList [firstRun, secondRun] startWorld := by
    rw [AllReady, AllReady, AllReady]
    exact ⟨hready firstRun _ true rfl (by decide +kernel),
      hready secondRun _ false rfl (by decide +kernel), trivial⟩
  have hlists : (fileLists "t".toList [firstRun, secondRun] startWorld).flatten =
      [[.keyword .Int, .identifier], [.keyword .Int, .identifier]] := by decide +kernel
  have hstreams : singleRun.streams startWorld.store =
      [[.keyword .Int, .identifier], [.keyword .Int, .identifier]] := by
    have hpath : singleRun.path = ".".toList := rfl
    have hstore : startWorld.store = twoSources := rfl
    rw [CountingRun.streams, hpath, hstore, sources_twoSources]
    decide +kernel
  have hfits : Fits ((fileLists "t".toList [firstRun, secondRun] startWorld).flatten.map
      countAll) := by
    rw [hlists]
    exact fits_of_length (by decide)
  obtain ⟨u, u', c, hu, hu', hload, hload', -⟩ := load_execAll_eq_load_exec hfresh hfresh happend
    hall (hready singleRun _ false rfl (by decide +kernel)) (hstreams.trans hlists.symm) hfits
  exact ⟨u, u', c, hu, hu', hload, hload'⟩

end Command
end Stylometry
