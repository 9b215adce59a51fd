-- Histories of commands on one folder of tables. Tables are written by the counting command and
-- vocabularies by the extracting one, so the two can be out of step. What a command shows follows
-- the last extraction, and the stored tables as long as there was none.
import Stylometry.Proofs.CommandRuns
import Stylometry.Proofs.CountingRuns

namespace Stylometry.Command

open Files Ngram

/-! ## Turns -/

/-- A command that succeeded, with the store that it found and the world that it left. -/
structure Turn where
  outside : Outside
  invocation : Invocation
  before : Store
  after : World
  succeeded : (runInvocation outside invocation).run.run { store := before } = (.ok (), after)

namespace Turn

def task (t : Turn) : Task := t.invocation.task

/-- The settings of the command: those in its file, or the standard ones. -/
def settings (t : Turn) : Settings :=
  match Settings.loadOrStandard t.before t.invocation.config with
  | .ok settings => settings
  | .error _ => {}

/-- What the command works with. -/
def engine (t : Turn) : Engine where
  toOutside := t.outside
  settings := { t.settings with workers := t.invocation.workers.getD t.settings.workers }

/-- The number of keys that the vocabularies of the command have. -/
def size (t : Turn) : Nat := t.settings.vocabularySize

theorem run_task (t : Turn) :
    (runTask t.engine t.task).run.run { store := t.before } = (.ok (), t.after) := by
  have hfiles : Session.files.run.run { store := t.before } =
      (.ok t.before, { store := t.before }) := rfl
  have h := t.succeeded
  unfold runInvocation at h
  rw [run_bind_ok hfiles] at h
  unfold engine settings
  cases hload : Settings.loadOrStandard t.before t.invocation.config with
  | error e =>
    rw [hload] at h
    cases h
  | ok settings =>
    rw [hload] at h
    exact h

/-- The command counts, extracts or shows meanings, with its tables in the folder. -/
def IsOn (t : Turn) (tables : Path) : Prop :=
  match t.task with
  | .analyze .. => False
  | .countNgrams _ folder _ => folder = tables
  | .extract _ folder _ => folder = tables
  | .meaning folder _ => folder = tables

/-- The report of the command, if it is written into a file, goes to no table and to no vocabulary
of the folder. -/
def ReportsElsewhere (t : Turn) (tables : Path) : Prop :=
  ∀ p ∈ t.invocation.output?, ∀ o, t.before.Apart p (Corpus.tablePath tables o) ∧
    t.before.Apart p (Vocabulary.pathIn tables o)

def counts (t : Turn) : Bool :=
  match t.task with
  | .countNgrams .. => true
  | _ => false

def extracts (t : Turn) : Bool :=
  match t.task with
  | .extract .. => true
  | _ => false

/-- The command reported features for the vocabularies, which it selected from the stored tables
and stored beside them. -/
def Encodes (t : Turn) (tables : Path) (v : Order → Vocabulary) : Prop :=
  ∃ path output c s analyses, t.task = .extract path tables output ∧
    Corpus.load t.before tables = .ok c ∧ (∀ o, v o = .select (c.get o) t.size) ∧
    Store.Writes t.before (vocabularyFiles tables (Order.all.map v)) s ∧
    t.engine.analyzeFiles s (t.before.sources path) = .ok analyses ∧
    Reports output (encodedReport analyses (Order.all.map v)) s t.after

end Turn

/-! ## The folder between two turns -/

/-- No vocabulary is stored in the folder, and none is found there when the folder is made. -/
structure Bare (s : Store) (tables : Path) : Prop where
  now : ∀ o, s.present (Vocabulary.pathIn tables o) = false
  made : ∀ made, s.createFolders tables = .ok made →
    ∀ o, made.present (Vocabulary.pathIn tables o) = false

/-- What happens besides the commands changes no table, changes no vocabulary and brings none. -/
structure Untouched (folder : Path) (s s' : Store) : Prop where
  tables : ∀ o, s'.content? (Corpus.tablePath folder o) = s.content? (Corpus.tablePath folder o)
  vocabularies : ∀ o,
    s'.content? (Vocabulary.pathIn folder o) = s.content? (Vocabulary.pathIn folder o)
  bare : Bare s folder → Bare s' folder

/-- Some commands on the folder ran one after the other, and left the store. -/
inductive History (tables : Path) (start : Store) : List Turn → Store → Prop
  | start : History tables start [] start
  | turn {log : List Turn} {s : Store} {t : Turn} : History tables start log s →
      Untouched tables s t.before → t.IsOn tables → History tables start (log ++ [t]) t.after.store

/-- The last extraction of a history. -/
def lastExtraction? (log : List Turn) : Option Turn := (log.filter (·.extracts)).getLast?

/-- The vocabularies that count: those of the last extraction, which are stored, or none. -/
def InForce (tables : Path) (log : List Turn) (s : Store) : Prop :=
  match lastExtraction? log with
  | none => Bare s tables
  | some e => ∃ v, e.Encodes tables v ∧
      ∀ o, s.content? (Vocabulary.pathIn tables o) = some (v o).fileBytes

/-! ## What one turn does -/

theorem apart_vocabulary_table (s : Store) (folder : Path) (o o' : Order) :
    s.Apart (Vocabulary.pathIn folder o) (Corpus.tablePath folder o') :=
  s.apart_inside folder (Vocabulary.isPlain_fileName o) (Corpus.isPlain_fileName o')
    (Vocabulary.fileName_ne o o')

theorem apart_vocabularies (s : Store) (folder : Path) {o o' : Order} (h : o ≠ o') :
    s.Apart (Vocabulary.pathIn folder o) (Vocabulary.pathIn folder o') :=
  s.apart_inside folder (Vocabulary.isPlain_fileName o) (Vocabulary.isPlain_fileName o')
    fun heq => h (Vocabulary.fileName_inj heq)

namespace Turn

variable {t : Turn} {tables : Path}

theorem exists_of_counts (hon : t.IsOn tables) (h : t.counts = true) :
    ∃ made ws, t.before.createFolders tables = .ok made ∧ Store.Writes made ws t.after.store ∧
      ∀ w ∈ ws, ∀ o, made.Apart w.1 (Vocabulary.pathIn tables o) := by
  have hrun := t.run_task
  unfold IsOn at hon
  unfold counts at h
  cases htask : t.task with
  | countNgrams path folder append =>
    rw [htask] at hon hrun
    subst hon
    obtain ⟨made, ws, hmade, hwrites, hpaths⟩ := writes_of_countNgrams hrun
    refine ⟨made, ws, hmade, hwrites, ?_⟩
    intro w hw o
    obtain ⟨o', ho'⟩ := hpaths w hw
    rw [ho']
    exact (apart_vocabulary_table made folder o o').symm
  | analyze => simp [htask] at h
  | extract => simp [htask] at h
  | meaning => simp [htask] at h

/-- The counting command keeps a folder without vocabularies as it is. -/
theorem bare_of_counts (hon : t.IsOn tables) (h : t.counts = true) (hbare : Bare t.before tables) :
    Bare t.after.store tables := by
  obtain ⟨made, ws, hmade, hwrites, hapart⟩ := exists_of_counts hon h
  have hnow : ∀ o, t.after.store.present (Vocabulary.pathIn tables o) = false := fun o =>
    hwrites.present (fun w hw => hapart w hw o) (hbare.made made hmade o)
  refine ⟨hnow, ?_⟩
  intro made' hmade'
  rw [hwrites.createFolders (Store.createFolders_again hmade)] at hmade'
  cases hmade'
  exact hnow

/-- The counting command keeps the contents of vocabularies. -/
theorem content?_of_counts (hon : t.IsOn tables) (h : t.counts = true) {o : Order} {bs : Bytes}
    (hcontent : t.before.content? (Vocabulary.pathIn tables o) = some bs) :
    t.after.store.content? (Vocabulary.pathIn tables o) = some bs := by
  obtain ⟨made, ws, hmade, hwrites, hapart⟩ := exists_of_counts hon h
  rw [hwrites.content? fun w hw => hapart w hw o]
  exact Store.content?_createFolders hmade hcontent

/-- An extraction that reports elsewhere encodes its features with vocabularies that are stored
afterwards, and keeps the tables. -/
theorem exists_of_extracts (hon : t.IsOn tables) (helsewhere : t.ReportsElsewhere tables)
    (h : t.extracts = true) :
    (∃ v, t.Encodes tables v ∧
      ∀ o, t.after.store.content? (Vocabulary.pathIn tables o) = some (v o).fileBytes) ∧
      ∀ o, t.after.store.content? (Corpus.tablePath tables o) =
        t.before.content? (Corpus.tablePath tables o) := by
  have hrun := t.run_task
  unfold IsOn at hon
  unfold extracts at h
  cases htask : t.task with
  | extract path folder output =>
    rw [htask] at hon hrun
    subst hon
    have houtput : t.invocation.output? = output := by
      unfold task at htask
      rw [Invocation.output?, htask]
    obtain ⟨c, s, analyses, hload, hwrites, hanalyses, hreport⟩ := reports_of_extract hrun
    let v : Order → Vocabulary := fun o => .select (c.get o) t.size
    have hvocabularies : c.vocabularies t.engine.settings.vocabularySize = Order.all.map v := by
      rw [Corpus.vocabularies, PerOrder.toList, List.map_map]
      rfl
    rw [hvocabularies] at hwrites hreport
    have hencodes : t.Encodes folder v :=
      ⟨path, output, c, s, analyses, htask, hload, fun _ => rfl, hwrites, hanalyses, hreport⟩
    rw [vocabularyFiles_orders folder fun o => (Corpus.load_eq_ok_iff.1 hload o).2] at hwrites
    refine ⟨⟨v, hencodes, ?_⟩, ?_⟩
    · intro o
      rw [hreport.content? fun p hp => hwrites.apart.2 (helsewhere p (houtput ▸ hp) o).2]
      refine hwrites.content?_of_mem ?_ (List.mem_map_of_mem o.mem_all)
      refine List.pairwise_map.2 (List.Pairwise.imp ?_ (by decide : Order.all.Pairwise (· ≠ ·)))
      exact fun hne => apart_vocabularies t.before folder hne.symm
    · intro o
      rw [hreport.content? fun p hp => hwrites.apart.2 (helsewhere p (houtput ▸ hp) o).1]
      refine hwrites.content? fun w hw => ?_
      obtain ⟨o', -, rfl⟩ := List.mem_map.1 hw
      exact apart_vocabulary_table t.before folder o' o
  | analyze => simp [htask] at h
  | countNgrams => simp [htask] at h
  | meaning => simp [htask] at h

/-- A command that neither counts nor extracts shows meanings. -/
theorem exists_of_not (hon : t.IsOn tables) (hcounts : t.counts = false)
    (hextracts : t.extracts = false) :
    ∃ only, t.task = .meaning tables only ∧ t.after.store = t.before ∧
      ∃ v : Order → Vocabulary, (∀ o ∈ ordersOf only, IsShown t.before tables t.size o (v o)) ∧
        t.after.printed = meaningText (ordersOf only) v := by
  have hrun := t.run_task
  unfold IsOn at hon
  cases htask : t.task with
  | meaning folder only =>
    rw [htask] at hon hrun
    subst hon
    obtain ⟨hstore, v, hv, hprinted⟩ := shown_of_meaning hrun
    exact ⟨only, rfl, hstore, v, hv, hprinted⟩
  | analyze => simp [htask] at hon
  | countNgrams => simp [counts, htask] at hcounts
  | extract => simp [extracts, htask] at hextracts

end Turn

/-! ## What many turns do -/

theorem lastExtraction?_concat (log : List Turn) (t : Turn) :
    lastExtraction? (log ++ [t]) = if t.extracts then some t else lastExtraction? log := by
  unfold lastExtraction?
  rw [List.filter_append]
  cases h : t.extracts with
  | true => simp [h]
  | false => simp [h]

theorem InForce.untouched {tables : Path} {log : List Turn} {s s' : Store}
    (h : InForce tables log s) (hs : Untouched tables s s') : InForce tables log s' := by
  unfold InForce at h ⊢
  split at h
  · exact hs.bare h
  · obtain ⟨v, hencodes, hcontent⟩ := h
    exact ⟨v, hencodes, fun o => (hs.vocabularies o).trans (hcontent o)⟩

/-- A turn keeps the vocabularies that count, unless it is an extraction, which replaces them. -/
theorem InForce.turn {tables : Path} {log : List Turn} {t : Turn} (h : InForce tables log t.before)
    (hon : t.IsOn tables) (helsewhere : t.ReportsElsewhere tables) :
    InForce tables (log ++ [t]) t.after.store := by
  unfold InForce at h ⊢
  rw [lastExtraction?_concat]
  cases hextracts : t.extracts with
  | true => exact (Turn.exists_of_extracts hon helsewhere hextracts).1
  | false =>
    simp only [Bool.false_eq_true, if_false]
    cases hcounts : t.counts with
    | true =>
      split at h
      · exact Turn.bare_of_counts hon hcounts h
      · obtain ⟨v, hencodes, hcontent⟩ := h
        exact ⟨v, hencodes, fun o => Turn.content?_of_counts hon hcounts (hcontent o)⟩
    | false =>
      obtain ⟨-, -, hstore, -⟩ := Turn.exists_of_not hon hcounts hextracts
      rw [hstore]
      exact h

theorem inForce_of_history {tables : Path} {start s : Store} {log : List Turn}
    (h : History tables start log s) (hbare : Bare start tables)
    (helsewhere : ∀ t ∈ log, t.ReportsElsewhere tables) : InForce tables log s := by
  induction h with
  | start => exact hbare
  | turn _ huntouched hon ih =>
    obtain ⟨hlog, hlast⟩ := List.forall_mem_append.1 helsewhere
    exact ((ih hlog).untouched huntouched).turn hon (hlast _ (List.mem_singleton_self _))

theorem History.split {tables : Path} {start s : Store} {log earlier later : List Turn} {t : Turn}
    (h : History tables start log s) (hlog : log = earlier ++ t :: later) :
    ∃ u, History tables start earlier u ∧ Untouched tables u t.before ∧ t.IsOn tables := by
  induction h generalizing later with
  | start => simp at hlog
  | @turn log u t' hhistory huntouched hon ih =>
    rcases List.eq_nil_or_concat later with rfl | ⟨later, last, rfl⟩
    · obtain ⟨rfl, heq⟩ := List.append_inj' hlog rfl
      cases heq
      exact ⟨u, hhistory, huntouched, hon⟩
    · have hconcat : log ++ [t'] = earlier ++ t :: later ++ [last] := by simpa using hlog
      exact ih (List.append_inj' hconcat rfl).1

theorem History.last {tables : Path} {start s : Store} {log : List Turn} {t : Turn}
    (h : History tables start (log ++ [t]) s) : s = t.after.store := by
  generalize hlog : log ++ [t] = whole at h
  cases h with
  | start => simp at hlog
  | turn =>
    cases (List.append_inj' hlog rfl).2
    rfl

/-! ## The laws of a history -/

namespace Turn

/-- The counting command changes no stored vocabulary, and the others change no stored table. -/
def Keeps (t : Turn) (tables : Path) : Prop :=
  if t.counts then
    ∀ o, t.after.store.content? (Vocabulary.pathIn tables o) =
      t.before.content? (Vocabulary.pathIn tables o)
  else
    ∀ o, t.after.store.content? (Corpus.tablePath tables o) =
      t.before.content? (Corpus.tablePath tables o)

/-- The vocabularies that the command has to show: those that the last extraction encoded with,
and before the first one those that the stored tables give. -/
def MustShow (t : Turn) (tables : Path) (earlier : List Turn) (v : Order → Vocabulary) : Prop :=
  match lastExtraction? earlier with
  | some e => e.Encodes tables v
  | none => ∃ c, Corpus.load t.before tables = .ok c ∧ ∀ o, v o = .select (c.get o) t.size

variable {t : Turn} {tables : Path} {earlier : List Turn}

theorem keeps_of_inForce (h : InForce tables earlier t.before) (hon : t.IsOn tables)
    (helsewhere : t.ReportsElsewhere tables) : t.Keeps tables := by
  unfold Keeps
  cases hcounts : t.counts with
  | true =>
    rw [if_pos rfl]
    intro o
    unfold InForce at h
    split at h
    · have hafter := bare_of_counts hon hcounts h
      rw [Store.content?_of_not_present (hafter.now o), Store.content?_of_not_present (h.now o)]
    · obtain ⟨v, -, hcontent⟩ := h
      rw [content?_of_counts hon hcounts (hcontent o), hcontent o]
  | false =>
    rw [if_neg (by simp)]
    cases hextracts : t.extracts with
    | true => exact (exists_of_extracts hon helsewhere hextracts).2
    | false =>
      obtain ⟨-, -, hstore, -⟩ := exists_of_not hon hcounts hextracts
      exact fun o => by rw [hstore]

/-- Without stored vocabularies the shown ones are selected from the stored tables. -/
theorem exists_of_bare {s : Store} {k : Nat} {only : Option Order} {shown : Order → Vocabulary}
    (h : Bare s tables) (hshown : ∀ o ∈ ordersOf only, IsShown s tables k o (shown o)) :
    ∃ c, Corpus.load s tables = .ok c ∧ ∀ o ∈ ordersOf only, shown o = .select (c.get o) k := by
  have hselected : ∀ o ∈ ordersOf only, ∃ c, Corpus.load s tables = .ok c ∧
      shown o = .select (c.get o) k := by
    intro o ho
    have hone := hshown o ho
    rw [IsShown, if_neg (by simp [h.now o])] at hone
    exact hone
  obtain ⟨first, hfirst⟩ : ∃ o, o ∈ ordersOf only := by
    cases only with
    | none => exact ⟨.bigram, by decide⟩
    | some o => exact ⟨o, List.mem_singleton_self o⟩
  obtain ⟨c, hload, -⟩ := hselected first hfirst
  refine ⟨c, hload, ?_⟩
  intro o ho
  obtain ⟨c', hload', heq⟩ := hselected o ho
  rw [heq, Except.ok.inj (hload'.symm.trans hload)]

/-- A stored vocabulary is the one that is shown. -/
theorem eq_of_stored {s : Store} {k : Nat} {o : Order} {shown v : Vocabulary}
    (h : s.content? (Vocabulary.pathIn tables o) = some v.fileBytes)
    (hshown : IsShown s tables k o shown) : shown = v := by
  rw [IsShown, if_pos (Store.present_of_content h), Vocabulary.load_of_content h] at hshown
  exact (Except.ok.inj hshown).symm

theorem shows_of_inForce (h : InForce tables earlier t.before) (hon : t.IsOn tables)
    {only : Option Order} (htask : t.task = .meaning tables only) :
    ∃ v, t.MustShow tables earlier v ∧ t.after.printed = meaningText (ordersOf only) v := by
  obtain ⟨only', htask', -, shown, hshown, hprinted⟩ :=
    exists_of_not hon (by simp [counts, htask]) (by simp [extracts, htask])
  obtain rfl : only' = only := by
    rw [htask] at htask'
    cases htask'
    rfl
  unfold InForce at h
  unfold MustShow
  rw [hprinted]
  cases hlast : lastExtraction? earlier with
  | none =>
    rw [hlast] at h
    obtain ⟨c, hload, hselected⟩ := exists_of_bare h hshown
    exact ⟨fun o => .select (c.get o) t.size, ⟨c, hload, fun _ => rfl⟩,
      meaningText_congr hselected⟩
  | some e =>
    rw [hlast] at h
    obtain ⟨v, hencodes, hcontent⟩ := h
    exact ⟨v, hencodes, meaningText_congr fun o ho => eq_of_stored (hcontent o) (hshown o ho)⟩

end Turn

/-- The tables are loaded from the contents of their files alone. -/
theorem load_congr {s s' : Store} {folder : Path} {c : Corpus}
    (h : ∀ o, s'.content? (Corpus.tablePath folder o) = s.content? (Corpus.tablePath folder o))
    (hload : Corpus.load s folder = .ok c) : Corpus.load s' folder = .ok c := by
  rw [Corpus.load_eq_ok_iff] at hload ⊢
  intro o
  obtain ⟨htable, horder⟩ := hload o
  refine ⟨?_, horder⟩
  obtain ⟨bs, hread⟩ : ∃ bs, s.read (Corpus.tablePath folder o) = .ok bs := by
    unfold CorpusTable.load at htable
    cases hread : s.read (Corpus.tablePath folder o) with
    | ok bs => exact ⟨bs, rfl⟩
    | error e =>
      rw [hread] at htable
      cases e <;> cases htable
  have hread' := Store.content?_eq_some.1 ((h o).trans (Store.content?_eq_some.2 hread))
  rw [Corpus.load_of_read hread] at htable
  rw [Corpus.load_of_read hread', htable]

/-- Nothing stands at the path of the folder, and no vocabulary is found in the folder when it is
made. -/
structure Missing (s : Store) (tables : Path) : Prop where
  named : tables ≠ []
  absent : s.present tables = false
  vacant : ∀ made, s.createFolders tables = .ok made →
    ∀ o, made.present (Vocabulary.pathIn tables o) = false

theorem Missing.bare {s : Store} {tables : Path} (h : Missing s tables) : Bare s tables := by
  refine ⟨fun o => ?_, h.vacant⟩
  cases hpresent : s.present (Vocabulary.pathIn tables o) with
  | false => rfl
  | true =>
    have hfolder :=
      Store.present_of_present_inside h.named (Vocabulary.isPlain_fileName o) hpresent
    rw [h.absent] at hfolder
    cases hfolder

/-- In a folder that starts missing, that nothing else changes and that no report is written into,
no command changes what another one stores there, and what is shown are the vocabularies of the last
extraction, or of the stored tables before the first one. So the same is shown right before and
right after the first extraction, when both select as many keys. -/
theorem shown_in_history {tables : Path} {start s : Store} {log : List Turn}
    (h : History tables start log s) (hmissing : Missing start tables)
    (helsewhere : ∀ t ∈ log, t.ReportsElsewhere tables) :
    (∀ t ∈ log, t.Keeps tables) ∧
      (∀ earlier t later only, log = earlier ++ t :: later → t.task = .meaning tables only →
        ∃ v, t.MustShow tables earlier v ∧ t.after.printed = meaningText (ordersOf only) v) ∧
      ∀ earlier t e t' later only, log = earlier ++ t :: e :: t' :: later →
        lastExtraction? earlier = none → t.task = .meaning tables only → e.extracts = true →
        t'.task = .meaning tables only → t.size = e.size →
        t'.after.printed = t.after.printed := by
  have hforce : ∀ {earlier t later}, log = earlier ++ t :: later →
      InForce tables earlier t.before ∧ t.IsOn tables := by
    intro earlier t later hlog
    obtain ⟨u, hhistory, huntouched, hon⟩ := h.split hlog
    have hearlier := (List.forall_mem_append.1 (hlog ▸ helsewhere)).1
    exact ⟨(inForce_of_history hhistory hmissing.bare hearlier).untouched huntouched, hon⟩
  have hshows : ∀ earlier t later only, log = earlier ++ t :: later →
      t.task = .meaning tables only →
      ∃ v, t.MustShow tables earlier v ∧ t.after.printed = meaningText (ordersOf only) v := by
    intro earlier t later only hlog htask
    exact Turn.shows_of_inForce (hforce hlog).1 (hforce hlog).2 htask
  have hkeeps : ∀ earlier t later, log = earlier ++ t :: later → t.Keeps tables := by
    intro earlier t later hlog
    exact Turn.keeps_of_inForce (hforce hlog).1 (hforce hlog).2 (helsewhere t (by simp [hlog]))
  refine ⟨?_, hshows, ?_⟩
  · intro t ht
    obtain ⟨earlier, later, hlog⟩ := List.append_of_mem ht
    exact hkeeps earlier t later hlog
  · intro earlier t e t' later only hlog hnone htask hextracts htask' hsize
    have hlog' : log = (earlier ++ [t]) ++ e :: t' :: later := by simpa using hlog
    have hlog'' : log = ((earlier ++ [t]) ++ [e]) ++ t' :: later := by simpa using hlog
    obtain ⟨v, hv, hprinted⟩ := hshows _ t _ only hlog htask
    obtain ⟨v', hv', hprinted'⟩ := hshows _ t' later only hlog'' htask'
    rw [Turn.MustShow, hnone] at hv
    rw [Turn.MustShow, lastExtraction?_concat, if_pos hextracts] at hv'
    obtain ⟨c, hload, hselect⟩ := hv
    obtain ⟨-, -, c', -, -, -, hload', hselect', -⟩ := hv'
    -- the extraction finds the tables that were shown
    obtain ⟨u, hhistory, huntouched, -⟩ := h.split hlog'
    obtain rfl := hhistory.last
    have hkept := hkeeps _ t _ hlog
    rw [Turn.Keeps, if_neg (by simp [Turn.counts, htask])] at hkept
    have hsame := load_congr (fun o => (huntouched.tables o).trans (hkept o)) hload
    obtain rfl : c' = c := Except.ok.inj (hload'.symm.trans hsame)
    rw [hprinted, hprinted']
    refine meaningText_congr fun o _ => ?_
    rw [hselect, hselect', hsize]

/-! ## Four turns -/

theorem Untouched.refl (tables : Path) (s : Store) : Untouched tables s s :=
  ⟨fun _ => rfl, fun _ => rfl, id⟩

/-- A task that runs with the standard settings. -/
def runStandard (task : Task) (s : Store) : Except Stop Unit × World :=
  (runInvocation plainOutside ⟨none, none, task⟩).run.run { store := s }

/-- The turn of a task that succeeds with the standard settings. -/
def Turn.ofTask (task : Task) (s : Store) (h : (runStandard task s).1 = .ok ()) : Turn where
  outside := plainOutside
  invocation := ⟨none, none, task⟩
  before := s
  after := (runStandard task s).2
  succeeded := Prod.ext h rfl

def countTask : Task := .countNgrams "a/x.cpp".toList "t".toList false

def meaningTask : Task := .meaning "t".toList (some .bigram)

def extractTask : Task := .extract "b/y.cpp".toList "t".toList (some "report.json".toList)

/-- The store after the tables were counted. The meanings leave it as it is. -/
def countedStore : Store := (runStandard countTask twoSources).2.store

/-- The store after the vocabularies were stored. -/
def extractedStore : Store := (runStandard extractTask countedStore).2.store

theorem succeeds_fourTasks :
    (runStandard countTask twoSources).1 = .ok () ∧
      (runStandard meaningTask countedStore).1 = .ok () ∧
      (runStandard extractTask countedStore).1 = .ok () ∧
      (runStandard meaningTask extractedStore).1 = .ok () := by
  decide +kernel

def counted : Turn := .ofTask countTask twoSources succeeds_fourTasks.1

def shownFirst : Turn := .ofTask meaningTask countedStore succeeds_fourTasks.2.1

def extracted : Turn := .ofTask extractTask countedStore succeeds_fourTasks.2.2.1

def shownLast : Turn := .ofTask meaningTask extractedStore succeeds_fourTasks.2.2.2

theorem missing_twoSources : Missing twoSources "t".toList := by
  refine ⟨by decide, by decide +kernel, ?_⟩
  intro made hmade o
  obtain rfl := Except.ok.inj hmade
  cases o <;> decide +kernel

theorem history_counted : History "t".toList twoSources [counted] counted.after.store :=
  .turn .start (.refl _ _) (show counted.IsOn _ from rfl)

theorem apart_report (s : Store) (folder : Path) {name : Text} (hname : IsPlain name)
    (hne : name ≠ "report.json".toList) :
    s.Apart "report.json".toList (Path.inside folder name) := by
  intro place hplace hinside
  obtain ⟨parent, rfl, -⟩ := Store.resolve_inside_cases hname hinside
  have hreport : s.resolve "report.json".toList = .ok ([] ++ ["report.json".toList]) := rfl
  have hlast := (List.append_inj' (Except.ok.inj (hreport.symm.trans hplace)) rfl).2
  exact hne (List.cons.inj hlast).1.symm

theorem reportsElsewhere_extracted : extracted.ReportsElsewhere "t".toList := by
  intro p hp o
  obtain rfl : "report.json".toList = p := Option.some.inj hp
  exact ⟨apart_report _ _ (Corpus.isPlain_fileName o) (by cases o <;> decide),
    apart_report _ _ (Vocabulary.isPlain_fileName o) (by cases o <;> decide)⟩

theorem shown_in_history_fourTurns :
    Missing twoSources "t".toList ∧
      History "t".toList twoSources [counted, shownFirst, extracted, shownLast]
        shownLast.after.store ∧
      ∃ v, extracted.Encodes "t".toList v ∧ shownLast.after.printed = meaningText [.bigram] v ∧
        shownLast.after.printed = shownFirst.after.printed := by
  have hshown : shownFirst.IsOn "t".toList := rfl
  have hshown' : shownLast.IsOn "t".toList := rfl
  obtain ⟨-, -, hstore, -⟩ := Turn.exists_of_not hshown rfl rfl
  have huntouched : Untouched "t".toList shownFirst.after.store extracted.before := by
    rw [hstore]
    exact .refl _ _
  have hfirst : History "t".toList twoSources [counted, shownFirst] shownFirst.after.store :=
    .turn history_counted (.refl _ _) hshown
  have hextracted : History "t".toList twoSources [counted, shownFirst, extracted]
      extracted.after.store :=
    .turn hfirst huntouched (show extracted.IsOn _ from rfl)
  have hhistory : History "t".toList twoSources [counted, shownFirst, extracted, shownLast]
      shownLast.after.store :=
    .turn hextracted (.refl _ _) hshown'
  have helsewhere : ∀ t ∈ [counted, shownFirst, extracted, shownLast],
      t.ReportsElsewhere "t".toList := by
    simp only [List.forall_mem_cons]
    exact ⟨nofun, nofun, reportsElsewhere_extracted, nofun, nofun⟩
  obtain ⟨-, hshows, hsame⟩ := shown_in_history hhistory missing_twoSources helsewhere
  obtain ⟨v, hv, hprinted⟩ := hshows [counted, shownFirst, extracted] shownLast [] _ rfl rfl
  have hsame := hsame [counted] shownFirst extracted shownLast [] _ rfl rfl rfl rfl rfl rfl
  exact ⟨missing_twoSources, hhistory, v, hv, hprinted, hsame⟩

/-- An extraction that writes its report over a stored table. -/
def misplacedTask : Task :=
  .extract "b/y.cpp".toList "t".toList (some "t/global_bigram.bin".toList)

theorem overwrites_misplacedTask :
    (runStandard misplacedTask countedStore).1 = .ok () ∧
      (runStandard misplacedTask countedStore).2.store.content?
          (Corpus.tablePath "t".toList .bigram) ≠
        countedStore.content? (Corpus.tablePath "t".toList .bigram) := by
  decide +kernel

def misplaced : Turn := .ofTask misplacedTask countedStore overwrites_misplacedTask.1

/-- Not in every history the stored tables are kept: a report may be written over one of them. -/
theorem not_keeps_every :
    ¬∀ (tables : Path) (start s : Store) (log : List Turn), History tables start log s →
      Missing start tables → ∀ t ∈ log, t.Keeps tables := by
  intro hevery
  have hhistory : History "t".toList twoSources [counted, misplaced] misplaced.after.store :=
    .turn history_counted (.refl _ _) (show misplaced.IsOn _ from rfl)
  have hkept : misplaced.Keeps "t".toList :=
    hevery _ _ _ _ hhistory missing_twoSources misplaced (by simp)
  exact overwrites_misplacedTask.2 (hkept .bigram)

end Stylometry.Command
