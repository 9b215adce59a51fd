-- What the commands on a folder of tables do to the store when they succeed. The counting command
-- writes tables, the extracting one writes vocabularies and then its report, and the one that shows
-- meanings writes nothing.
import Mathlib.Data.List.Flatten
import Mathlib.Data.List.Nodup
import Mathlib.Logic.Function.Basic
import Stylometry.Command.Run
import Stylometry.Proofs.LoadedTables
import Stylometry.Proofs.StoredVocabularies
import Stylometry.Proofs.TableFolder

namespace Stylometry

open Files Ngram

/-! ## Work that succeeded -/

theorem run_bind_eq_ok {σ ε α β : Type} {x : ExceptT ε (StateM σ) α}
    {f : α → ExceptT ε (StateM σ) β} {s s' : σ} {b : β} :
    (x >>= f).run.run s = (.ok b, s') ↔
      ∃ a t, x.run.run s = (.ok a, t) ∧ (f a).run.run t = (.ok b, s') := by
  rw [run_bind]
  rcases x.run.run s with ⟨result, t⟩
  cases result with
  | error e =>
    constructor
    · intro h
      cases h
    · rintro ⟨a, u, h, -⟩
      cases h
  | ok a =>
    constructor
    · intro h
      exact ⟨a, t, rfl, h⟩
    · rintro ⟨a, u, heq, h⟩
      cases heq
      exact h

namespace Command

section
variable {α : Type} {w w' : World} {a : α}

theorem run_ofFault_eq_ok {r : Except Fault α} (h : (Session.ofFault r).run.run w = (.ok a, w')) :
    r = .ok a ∧ w' = w := by
  cases r <;> cases h
  exact ⟨rfl, rfl⟩

theorem run_ofStorage_eq_ok {context : Option String} {r : Except StorageError α}
    (h : (Session.ofStorage context r).run.run w = (.ok a, w')) : r = .ok a ∧ w' = w := by
  cases r <;> cases h
  exact ⟨rfl, rfl⟩

theorem run_ofStoring_eq_ok {context : Option String} {work : Storing α}
    (h : (Session.ofStoring context work).run.run w = (.ok a, w')) :
    ∃ s, work.run.run w.store = (.ok a, s) ∧ w' = { w with store := s } := by
  have hget : (get : Session World).run.run w = (.ok w, w) := rfl
  unfold Session.ofStoring at h
  rw [run_bind_ok hget] at h
  rcases hwork : work.run.run w.store with ⟨result, s⟩
  rw [hwork] at h
  cases result <;> cases h
  exact ⟨s, rfl, rfl⟩

theorem run_sources_eq_ok {path : Path} {paths : List Path}
    (h : (sources path).run.run w = (.ok paths, w')) :
    paths = w.store.sources path ∧ w' = w := by
  have hfiles : Session.files.run.run w = (.ok w.store, w) := rfl
  unfold sources at h
  rw [run_bind_ok hfiles] at h
  cases hpresent : w.store.present path with
  | true =>
    rw [hpresent] at h
    cases h
    exact ⟨rfl, rfl⟩
  | false =>
    rw [hpresent] at h
    cases h

end

/-! ## Counting -/

/-- To store the tables of a corpus makes the folder and writes into files that have the names of
tables. -/
theorem writes_of_storeTables {c : Corpus} {packer : Gzip.Packer} {folder : Path} {compress : Bool}
    {orders : List Order} {s s' : Store}
    (h : (Corpus.storeTables c packer folder compress orders).run.run s = (.ok (), s')) :
    ∃ ws, Store.Writes s ws s' ∧ ∀ w ∈ ws, ∃ o, w.1 = Corpus.tablePath folder o := by
  induction orders generalizing s with
  | nil =>
    cases h
    exact ⟨[], .nil, nofun⟩
  | cons o orders ih =>
    have hcons : Corpus.storeTables c packer folder compress (o :: orders) =
        (c.get o).store packer (Corpus.tablePath folder (c.get o).order) compress >>= fun _ =>
          Corpus.storeTables c packer folder compress orders := by
      unfold Corpus.storeTables
      rw [List.forIn_cons]
      simp only [bind_assoc, pure_bind]
    rw [hcons, run_bind_eq_ok] at h
    obtain ⟨_, t, hstore, hrest⟩ := h
    obtain ⟨ws, hws, hpaths⟩ := ih hrest
    exact ⟨_, .cons (Corpus.run_change.1 hstore) hws, List.forall_mem_cons.2 ⟨⟨_, rfl⟩, hpaths⟩⟩

theorem writes_of_countNgrams {e : Engine} {path tables : Path} {append : Bool} {w w' : World}
    (h : (countNgrams e path tables append).run.run w = (.ok (), w')) :
    ∃ made ws, w.store.createFolders tables = .ok made ∧ Store.Writes made ws w'.store ∧
      ∀ x ∈ ws, ∃ o, x.1 = Corpus.tablePath tables o := by
  have hfiles : Session.files.run.run w = (.ok w.store, w) := rfl
  unfold countNgrams at h
  obtain ⟨paths, u, hsources, h⟩ := run_bind_eq_ok.1 h
  obtain ⟨rfl, rfl⟩ := run_sources_eq_ok hsources
  rw [run_bind_ok hfiles] at h
  dsimp only at h
  -- what the run starts with comes from the store as it is
  have hearlier : ∃ earlier : Corpus, ((do
      let counted ← Session.ofFault (e.countFiles u.store (u.store.sources path))
      let corpus ← Session.ofFault (earlier.absorb counted)
      Session.ofStoring (some s!"Failed to store tables to {String.ofList tables}")
        (corpus.store e.packer tables e.settings.compressTables)) : Session Unit).run.run u =
          (.ok (), w') := by
    split at h
    · obtain ⟨earlier, v, hload, h⟩ := run_bind_eq_ok.1 h
      obtain ⟨-, rfl⟩ := run_ofStorage_eq_ok hload
      exact ⟨earlier, h⟩
    · exact ⟨_, h⟩
  obtain ⟨earlier, h⟩ := hearlier
  obtain ⟨counted, _, hcounted, hrest⟩ := run_bind_eq_ok.1 h
  obtain ⟨-, rfl⟩ := run_ofFault_eq_ok hcounted
  obtain ⟨corpus, _, hcorpus, hlast⟩ := run_bind_eq_ok.1 hrest
  obtain ⟨-, rfl⟩ := run_ofFault_eq_ok hcorpus
  obtain ⟨s, hstore, rfl⟩ := run_ofStoring_eq_ok hlast
  rw [Corpus.store_eq] at hstore
  obtain ⟨_, made, hmade, hwrites⟩ := run_bind_eq_ok.1 hstore
  obtain ⟨ws, hws, hpaths⟩ := writes_of_storeTables hwrites
  exact ⟨made, ws, Corpus.run_change.1 hmade, hws, hpaths⟩

/-! ## Extracting -/

/-- A report goes to the file under a path, or is printed when there is no path. -/
def Reports (output : Option Path) (report : Text) (s : Store) (w : World) : Prop :=
  match output with
  | none => w.store = s ∧ w.printed = report
  | some path => s.write path (Bytes.ofString (String.ofList report)) = .ok w.store

theorem reports_of_writeReport {output : Option Path} {report : Text} {s : Store} {w : World}
    (h : (writeReport output report).run.run { store := s } = (.ok (), w)) :
    Reports output report s w := by
  have hget : (get : Session World).run.run { store := s } = (.ok { store := s }, { store := s }) :=
    rfl
  unfold writeReport at h
  cases output with
  | none =>
    cases h
    exact ⟨rfl, rfl⟩
  | some path =>
    dsimp only at h
    rw [run_bind_ok hget] at h
    dsimp only at h
    unfold Reports
    cases hwrite : s.write path (Bytes.ofString (String.ofList report)) with
    | ok s' =>
      rw [hwrite] at h
      cases h
      exact hwrite
    | error e =>
      rw [hwrite] at h
      cases h

/-- A report leaves what is apart from its file. -/
theorem Reports.content? {output : Option Path} {report : Text} {s : Store} {w : World} {q : Path}
    (h : Reports output report s w) (hq : ∀ p ∈ output, s.Apart p q) :
    w.store.content? q = s.content? q := by
  unfold Reports at h
  cases output with
  | none => rw [h.1]
  | some p => exact Store.content?_write h (hq p rfl)

/-- The files of some vocabularies in a folder. -/
def vocabularyFiles (tables : Path) (vs : List Vocabulary) : List (Path × Bytes) :=
  vs.map fun v => (Vocabulary.pathIn tables v.order, v.fileBytes)

/-- Vocabularies of all orders have one file for each order. -/
theorem vocabularyFiles_orders (tables : Path) {v : Order → Vocabulary}
    (horder : ∀ o, (v o).order = o) :
    vocabularyFiles tables (Order.all.map v) =
      Order.all.map fun o => (Vocabulary.pathIn tables o, (v o).fileBytes) := by
  rw [vocabularyFiles, List.map_map]
  simp only [Function.comp_def, horder]

theorem writes_of_vocabularies {tables : Path} {vs : List Vocabulary} {w w' : World} {a : PUnit}
    (h : (forIn vs PUnit.unit fun v _ => do
      Session.ofStoring none (v.store (Vocabulary.pathIn tables v.order))
      pure (ForInStep.yield PUnit.unit) : Session PUnit).run.run w = (.ok a, w')) :
    ∃ s, Store.Writes w.store (vocabularyFiles tables vs) s ∧ w' = { w with store := s } := by
  induction vs generalizing w with
  | nil =>
    cases h
    exact ⟨_, .nil, rfl⟩
  | cons v vs ih =>
    rw [List.forIn_cons] at h
    simp only [bind_assoc, pure_bind] at h
    obtain ⟨_, u, hfirst, hrest⟩ := run_bind_eq_ok.1 h
    obtain ⟨s, hstore, rfl⟩ := run_ofStoring_eq_ok hfirst
    obtain ⟨s', hwrites, rfl⟩ := ih hrest
    exact ⟨s', .cons (Corpus.run_change.1 hstore) hwrites, rfl⟩

/-- The records of some analyses with features for vocabularies. -/
def encodedReport (analyses : List Analysis) (vs : List Vocabulary) : Text :=
  ReportFormat.json.report (Record.encodeAll (analyses.map (·.record))
    (analyses.map fun a => (a.record.id, a.tables)) vs).1

/-- The extracting command stores the vocabularies of the stored tables, and reports the records of
its files with features for these vocabularies. -/
theorem reports_of_extract {e : Engine} {path tables : Path} {output : Option Path} {s : Store}
    {w : World} (h : (extract e path tables output).run.run { store := s } = (.ok (), w)) :
    ∃ c s' analyses, Corpus.load s tables = .ok c ∧
      Store.Writes s (vocabularyFiles tables (c.vocabularies e.settings.vocabularySize)) s' ∧
      e.analyzeFiles s' (s.sources path) = .ok analyses ∧
      Reports output (encodedReport analyses (c.vocabularies e.settings.vocabularySize)) s' w := by
  have hfiles : ∀ u : World, Session.files.run.run u = (.ok u.store, u) := fun _ => rfl
  unfold extract at h
  obtain ⟨paths, _, hsources, hload⟩ := run_bind_eq_ok.1 h
  obtain ⟨rfl, rfl⟩ := run_sources_eq_ok hsources
  rw [run_bind_ok (hfiles _)] at hload
  obtain ⟨c, _, hcorpus, hstore⟩ := run_bind_eq_ok.1 hload
  obtain ⟨hc, rfl⟩ := run_ofStorage_eq_ok hcorpus
  dsimp only at hstore
  obtain ⟨_, _, hvocabularies, hanalyze⟩ := run_bind_eq_ok.1 hstore
  obtain ⟨s', hwrites, rfl⟩ := writes_of_vocabularies hvocabularies
  rw [run_bind_ok (hfiles _)] at hanalyze
  obtain ⟨analyses, _, hanalyses, hreport⟩ := run_bind_eq_ok.1 hanalyze
  obtain ⟨hok, rfl⟩ := run_ofFault_eq_ok hanalyses
  exact ⟨c, s', analyses, hc, hwrites, hok, reports_of_writeReport hreport⟩

/-! ## Meanings -/

/-- The orders that are asked for: one, or all of them. -/
def ordersOf (only : Option Order) : List Order :=
  match only with
  | some o => [o]
  | none => Order.all

/-- A line for each order, with what the vocabulary of the order means. -/
def meaningText (orders : List Order) (v : Order → Vocabulary) : Text :=
  orders.flatMap fun o => o.name.toList ++ '\t' :: (v o).meaning ++ ['\n']

theorem meaningText_congr {orders : List Order} {v v' : Order → Vocabulary}
    (h : ∀ o ∈ orders, v o = v' o) : meaningText orders v = meaningText orders v' :=
  List.flatMap_congr fun o ho => by rw [h o ho]

/-- The vocabulary that is shown for an order: the stored one if something is stored under its
path, and otherwise the one that the stored tables give. -/
def IsShown (s : Store) (tables : Path) (k : Nat) (o : Order) (v : Vocabulary) : Prop :=
  if s.present (Vocabulary.pathIn tables o) then
    Vocabulary.load s (Vocabulary.pathIn tables o) = .ok v
  else ∃ c, Corpus.load s tables = .ok c ∧ v = .select (c.get o) k

theorem isShown_of_vocabularyOf {settings : Settings} {tables : Path} {o : Order} {w w' : World}
    {v : Vocabulary} (h : (vocabularyOf settings tables o).run.run w = (.ok v, w')) :
    w' = w ∧ IsShown w.store tables settings.vocabularySize o v := by
  have hfiles : Session.files.run.run w = (.ok w.store, w) := rfl
  unfold vocabularyOf at h
  rw [run_bind_ok hfiles] at h
  dsimp only at h
  unfold IsShown
  split at h
  · rename_i hpresent
    obtain ⟨hload, rfl⟩ := run_ofStorage_eq_ok h
    rw [if_pos hpresent]
    exact ⟨rfl, hload⟩
  · rename_i hpresent
    obtain ⟨c, _, hcorpus, hselect⟩ := run_bind_eq_ok.1 h
    obtain ⟨hload, rfl⟩ := run_ofStorage_eq_ok hcorpus
    rw [if_neg hpresent]
    cases hselect
    exact ⟨rfl, c, hload, rfl⟩

theorem printed_of_meanings {settings : Settings} {tables : Path} {orders : List Order}
    (hnodup : orders.Nodup) {w w' : World} {a : PUnit}
    (h : (forIn orders PUnit.unit fun o _ => do
      let v ← vocabularyOf settings tables o
      Session.print (o.name.toList ++ '\t' :: v.meaning ++ ['\n'])
      pure (ForInStep.yield PUnit.unit) : Session PUnit).run.run w = (.ok a, w')) :
    ∃ v : Order → Vocabulary,
      (∀ o ∈ orders, IsShown w.store tables settings.vocabularySize o (v o)) ∧
      w' = { w with printed := w.printed ++ meaningText orders v } := by
  induction orders generalizing w with
  | nil =>
    cases h
    refine ⟨fun o => ⟨o, []⟩, nofun, ?_⟩
    rw [meaningText, List.flatMap_nil, List.append_nil]
  | cons o orders ih =>
    obtain ⟨ho, horders⟩ := List.nodup_cons.1 hnodup
    rw [List.forIn_cons] at h
    simp only [bind_assoc, pure_bind] at h
    obtain ⟨first, _, hfirst, hrest⟩ := run_bind_eq_ok.1 h
    obtain ⟨rfl, hshown⟩ := isShown_of_vocabularyOf hfirst
    have hprint : ∀ t (u : World), (Session.print t).run.run u =
        (.ok (), { u with printed := u.printed ++ t }) := fun _ _ => rfl
    rw [run_bind_ok (hprint _ _)] at hrest
    obtain ⟨v, hv, rfl⟩ := ih horders hrest
    have hother : ∀ o' ∈ orders, Function.update v o first o' = v o' := by
      intro o' ho'
      refine Function.update_of_ne ?_ first v
      rintro rfl
      exact ho ho'
    refine ⟨Function.update v o first, ?_, ?_⟩
    · refine List.forall_mem_cons.2 ⟨?_, ?_⟩
      · rw [Function.update_self]
        exact hshown
      · intro o' ho'
        rw [hother o' ho']
        exact hv o' ho'
    · have hlines := meaningText_congr hother
      have hcons : meaningText (o :: orders) (Function.update v o first) =
          (o.name.toList ++ '\t' :: first.meaning ++ ['\n']) ++ meaningText orders v := by
        rw [← hlines, meaningText, List.flatMap_cons, Function.update_self]
        rfl
      rw [hcons]
      simp only [List.append_assoc]

/-- The command that shows meanings prints a line for each order and leaves the store as it is. -/
theorem shown_of_meaning {settings : Settings} {tables : Path} {only : Option Order} {s : Store}
    {w : World} (h : (meaning settings tables only).run.run { store := s } = (.ok (), w)) :
    w.store = s ∧ ∃ v : Order → Vocabulary,
      (∀ o ∈ ordersOf only, IsShown s tables settings.vocabularySize o (v o)) ∧
      w.printed = meaningText (ordersOf only) v := by
  have hnodup : (ordersOf only).Nodup := by
    cases only with
    | none => decide
    | some o => exact List.nodup_singleton o
  unfold meaning at h
  obtain ⟨_, _, hloop, hend⟩ := run_bind_eq_ok.1 h
  cases hend
  obtain ⟨v, hv, rfl⟩ := printed_of_meanings hnodup hloop
  exact ⟨rfl, v, hv, rfl⟩

end Command
end Stylometry
