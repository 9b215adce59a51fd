-- The corpora that a run can reach. Whatever is counted, added up, stored and loaded again, the
-- keys of each table are keys of windows of its order, so that every key can be spelled out.
import Stylometry.Proofs.StoredCorpora
import Stylometry.Proofs.WindowCounts

namespace Stylometry

open Files

namespace Ngram

/-! ## Tables of windows -/

/-- An entry for a window that was met. -/
def IsWindowEntry (o : Order) (e : String × Nat) : Prop :=
  1 ≤ e.2 ∧ ∃ w : List Kind, w.length = o.length ∧ e.1 = key w

/-- What is counted in a token stream are windows that were met. -/
theorem isWindowEntry_countAll {kinds : List Kind} {o : Order} {e : String × Nat}
    (he : e ∈ ((countAll kinds).get o).entries) : IsWindowEntry o e := by
  have hkey : e.1 ∈ ((countAll kinds).get o).entries.keys := List.mem_map_of_mem he
  have hcount := Occurrences.count_of_mem ((countAll kinds).get o).nodup he
  obtain ⟨w, hw, heq⟩ := exists_window_of_mem_keys hkey
  rw [entries_countAll] at hkey hcount
  rw [Occurrences.mem_keys_ofList] at hkey
  have hpos : 0 < Occurrences.count e.1 (.ofList ((windows o.length kinds).map key)) := by
    rw [Occurrences.count_ofList, List.countP_pos_iff]
    exact ⟨e.1, hkey, decide_eq_true rfl⟩
  exact ⟨hcount ▸ hpos, w, length_of_mem_windows hw, heq⟩

/-- A key of a window is spelled out, and the kinds that it spells have this key. -/
theorem IsWindowEntry.exists_kinds {o : Order} {e : String × Nat} (h : IsWindowEntry o e) :
    ∃ kinds, kindsOfKey? e.1 = some kinds ∧ kinds.length = o.length ∧ key kinds = e.1 := by
  obtain ⟨-, w, hw, heq⟩ := h
  have hne : w ≠ [] := by
    rintro rfl
    cases hw
  rw [heq]
  exact ⟨w, kindsOfKey?_key hne, hw, rfl⟩

namespace CorpusTable

/-- The table is one of the order, and it holds windows that were met. -/
structure CountsWindows (t : CorpusTable) (o : Order) : Prop where
  order_eq : t.order = o
  entry : ∀ e ∈ t.entries, IsWindowEntry o e

theorem countsWindows_empty (o : Order) : (empty o).CountsWindows o :=
  ⟨rfl, fun _ he => absurd he List.not_mem_nil⟩

namespace CountsWindows

variable {t u : CorpusTable} {o : Order}

theorem add (h : t.CountsWindows o) {e : String × Nat} (he : IsWindowEntry o e)
    (hadd : t.add e.1 e.2 = .ok u) : u.CountsWindows o := by
  unfold CorpusTable.add at hadd
  split at hadd
  · cases hadd
    refine ⟨h.order_eq, ?_⟩
    intro d hd
    rcases Occurrences.mem_add hd with hd | rfl
    · exact h.entry d hd
    · exact ⟨Nat.le_trans he.1 (Nat.le_add_left ..), he.2⟩
  · cases hadd

/-- Entries for windows are added one by one, so a table of windows stays one. -/
theorem addAll {es : List (String × Nat)} (h : t.CountsWindows o)
    (hes : ∀ e ∈ es, IsWindowEntry o e) (hadd : t.addAll es = .ok u) : u.CountsWindows o := by
  induction es generalizing t with
  | nil =>
    cases hadd
    exact h
  | cons e es ih =>
    rw [CorpusTable.addAll, List.foldlM_cons] at hadd
    cases hfirst : t.add e.1 e.2 with
    | error f =>
      rw [hfirst] at hadd
      cases hadd
    | ok v =>
      rw [hfirst] at hadd
      exact ih (h.add (hes e (List.mem_cons_self ..)) hfirst)
        (fun d hd => hes d (List.mem_cons_of_mem e hd)) hadd

theorem absorb_eq_addAll (ht : t.CountsWindows o) (hu : u.CountsWindows o) :
    t.absorb u = t.addAll u.entries := by
  rw [CorpusTable.absorb, if_pos (ht.order_eq.trans hu.order_eq.symm)]

theorem writable (h : t.CountsWindows o) : t.Writable := by
  have hkeys : ∀ s ∈ Occurrences.keys t.entries,
      ∃ w : List Kind, w.length = o.length ∧ s = key w := by
    intro s hs
    obtain ⟨e, he, rfl⟩ := List.mem_map.1 hs
    exact (h.entry e he).2
  exact writable_of_windowKeys hkeys

end CountsWindows
end CorpusTable

/-! ## Corpora of windows -/

namespace Corpus

/-- The table of each order is one of windows of this order. -/
def CountsWindows (c : Corpus) : Prop := ∀ o, (c.get o).CountsWindows o

theorem countsWindows_empty : empty.CountsWindows := by
  intro o
  rw [empty, PerOrder.get_ofFn]
  exact CorpusTable.countsWindows_empty o

namespace CountsWindows

variable {c d other : Corpus}

theorem mergeFile (h : c.CountsWindows) {kinds : List Kind}
    (hd : c.mergeFile (countAll kinds) = .ok d) : d.CountsWindows := by
  intro o
  have hmerge : (c.get o).addAll ((countAll kinds).get o).entries = .ok (d.get o) :=
    PerOrder.ofFnM_eq_ok.1 hd o
  exact (h o).addAll (fun _ => isWindowEntry_countAll) hmerge

theorem absorb (h : c.CountsWindows) (hother : other.CountsWindows)
    (hd : c.absorb other = .ok d) : d.CountsWindows := by
  intro o
  have habsorb : (c.get o).absorb (other.get o) = .ok (d.get o) := PerOrder.ofFnM_eq_ok.1 hd o
  rw [(h o).absorb_eq_addAll (hother o)] at habsorb
  exact (h o).addAll (hother o).entry habsorb

/-- Tables of windows have the same orders, so only a sum that is too large keeps them apart. -/
theorem eq_overflow_of_absorb (h : c.CountsWindows) (hother : other.CountsWindows) {e : Fault}
    (he : c.absorb other = .error e) : e = .overflow := by
  obtain ⟨o, ho, -⟩ := PerOrder.ofFnM_eq_error.1 he
  rw [(h o).absorb_eq_addAll (hother o)] at ho
  rcases (c.get o).addAll_cases (other.get o).entries with ⟨u, hu, -⟩ | ⟨hfault, -⟩
  · rw [hu] at ho
    cases ho
  · rw [hfault] at ho
    cases ho
    rfl

theorem load_stored (h : c.CountsWindows) {packer : Gzip.Packer} {folder : Path} {compress : Bool}
    {s s' : Store} (hstore : (c.store packer folder compress).run.run s = (.ok (), s')) :
    load s' folder = .ok c :=
  load_of_run_store (fun o => (h o).order_eq) (fun o => (h o).writable) hstore

end CountsWindows

/-- The corpora that a run can reach. It starts with empty tables and counts token streams, adds
up what other runs have reached, and stores its tables and loads them again. -/
inductive Reachable : Corpus → Prop where
  | empty : Reachable empty
  | mergeFile {c d : Corpus} {kinds : List Kind} (hc : Reachable c)
      (hd : c.mergeFile (countAll kinds) = .ok d) : Reachable d
  | absorb {c other d : Corpus} (hc : Reachable c) (hother : Reachable other)
      (hd : c.absorb other = .ok d) : Reachable d
  | reload {c d : Corpus} {packer : Gzip.Packer} {folder : Path} {compress : Bool} {s s' : Store}
      (hc : Reachable c)
      (hstore : (c.store packer folder compress).run.run s = (.ok (), s'))
      (hd : load s' folder = .ok d) : Reachable d

theorem Reachable.countsWindows {c : Corpus} (h : Reachable c) : c.CountsWindows := by
  induction h with
  | empty => exact countsWindows_empty
  | mergeFile _ hd ih => exact ih.mergeFile hd
  | absorb _ _ hd ih ihother => exact ih.absorb ihother hd
  | reload _ hstore hd ih =>
    cases (ih.load_stored hstore).symm.trans hd
    exact ih

end Corpus

/-! ## Vocabularies -/

theorem mem_keys_select {t : CorpusTable} {k : Nat} {s : String}
    (h : s ∈ (Vocabulary.select t k).keys) : ∃ e ∈ t.entries, e.1 = s := by
  obtain ⟨e, he, heq⟩ := List.mem_map.1 h
  exact ⟨e, (List.mergeSort_perm ..).mem_iff.1 (List.mem_of_mem_drop he), heq⟩

/-- The symbols of a window, with what stands between two tokens. -/
def windowMeaning (w : List Kind) : Text :=
  Text.join Vocabulary.tokenSeparator (w.map fun k => k.symbol.toList)

theorem meaningOfKey_of_kindsOfKey? {s : String} {w : List Kind} (h : kindsOfKey? s = some w) :
    Vocabulary.meaningOfKey s = windowMeaning w := by
  rw [Vocabulary.meaningOfKey, h]
  rfl

theorem exists_windows_of_keys {keys : List String} {n : Nat}
    (h : ∀ s ∈ keys, ∃ w, kindsOfKey? s = some w ∧ w.length = n ∧ key w = s) :
    ∃ ws : List (List Kind), keys.map kindsOfKey? = ws.map some ∧ (∀ w ∈ ws, w.length = n) ∧
      keys.map Vocabulary.meaningOfKey = ws.map windowMeaning := by
  induction keys with
  | nil => exact ⟨[], rfl, fun _ hw => absurd hw List.not_mem_nil, rfl⟩
  | cons s keys ih =>
    obtain ⟨w, hw, hlength, -⟩ := h s (List.mem_cons_self ..)
    obtain ⟨ws, hws, hlengths, hmeaning⟩ := ih fun s' hs' => h s' (List.mem_cons_of_mem s hs')
    refine ⟨w :: ws, ?_, ?_, ?_⟩
    · rw [List.map_cons, hw, hws, List.map_cons]
    · exact List.forall_mem_cons.2 ⟨hlength, hlengths⟩
    · rw [List.map_cons, meaningOfKey_of_kindsOfKey? hw, hmeaning, List.map_cons]

/-- The keys that are selected from a table of windows spell windows of the order of the table,
and the meaning of the vocabulary is made of their symbols. -/
theorem CorpusTable.CountsWindows.select {t : CorpusTable} {o : Order} (h : t.CountsWindows o)
    (k : Nat) :
    ∃ ws : List (List Kind), (Vocabulary.select t k).keys.map kindsOfKey? = ws.map some ∧
      (∀ w ∈ ws, w.length = (Vocabulary.select t k).order.length) ∧
      (Vocabulary.select t k).meaning =
        Text.join Vocabulary.ngramSeparator (ws.map windowMeaning) := by
  have horder : (Vocabulary.select t k).order = o := h.order_eq
  have hkeys : ∀ s ∈ (Vocabulary.select t k).keys,
      ∃ w, kindsOfKey? s = some w ∧ w.length = o.length ∧ key w = s := by
    intro s hs
    obtain ⟨e, he, rfl⟩ := mem_keys_select hs
    exact (h.entry e he).exists_kinds
  obtain ⟨ws, hws, hlengths, hmeaning⟩ := exists_windows_of_keys hkeys
  rw [horder]
  exact ⟨ws, hws, hlengths, by rw [Vocabulary.meaning, hmeaning]⟩

/-! ## Every corpus that is reached -/

/-- In a corpus that a run can reach, the table in the place of an order is one of this order. Its
keys are distinct and were met, and each one spells as many kinds as the order has tokens, which
have this key again. So other tables that a run can reach are added to it unless a sum is too large,
and the meaning of a vocabulary is made of the symbols of the windows that its keys spell. The key
of any window spells its kinds. -/
theorem keys_of_reachable {c : Corpus} (h : c.Reachable) :
    (∀ o, (c.get o).order = o ∧ (Occurrences.keys (c.get o).entries).Nodup ∧
        ∀ e ∈ (c.get o).entries, 1 ≤ e.2 ∧
          ∃ kinds, kindsOfKey? e.1 = some kinds ∧ kinds.length = o.length ∧ key kinds = e.1) ∧
      (∀ other : Corpus, other.Reachable → ∀ e, c.absorb other = .error e → e = .overflow) ∧
      (∀ k, ∀ v ∈ c.vocabularies k, ∃ ws : List (List Kind),
        v.keys.map kindsOfKey? = ws.map some ∧ (∀ w ∈ ws, w.length = v.order.length) ∧
          v.meaning = Text.join Vocabulary.ngramSeparator (ws.map windowMeaning)) ∧
      ∀ w : List Kind, w ≠ [] → kindsOfKey? (key w) = some w := by
  have hc := h.countsWindows
  refine ⟨?_, ?_, ?_, fun w => kindsOfKey?_key⟩
  · intro o
    refine ⟨(hc o).order_eq, (c.get o).nodup_entries, ?_⟩
    intro e he
    have hentry := (hc o).entry e he
    exact ⟨hentry.1, hentry.exists_kinds⟩
  · intro other hother e he
    exact hc.eq_overflow_of_absorb hother.countsWindows he
  · intro k v hv
    obtain ⟨t, ht, rfl⟩ := List.mem_map.1 hv
    obtain ⟨o, -, rfl⟩ := List.mem_map.1 ht
    exact (hc o).select k

/-- A stream in which a window stands twice. -/
def repeatedWindow : List Kind :=
  [.identifier, .punctuator .Semi, .identifier, .punctuator .Semi]

/-- The stream is counted, the corpus is added to itself, stored and loaded again. -/
theorem keys_of_reachable_repeatedWindow :
    ∃ (c d e : Corpus) (s : Store), Corpus.empty.mergeFile (countAll repeatedWindow) = .ok c ∧
      c.absorb c = .ok d ∧ (d.store .stored "a".toList false).run.run {} = (.ok (), s) ∧
      Corpus.load s "a".toList = .ok e ∧ (e.get .bigram).entries.map (·.2) = [4, 2] ∧
      ∀ entry ∈ (e.get .bigram).entries, 1 ≤ entry.2 ∧
        ∃ kinds, kindsOfKey? entry.1 = some kinds ∧ kinds.length = 2 ∧ key kinds = entry.1 := by
  obtain ⟨c, d, hc, hd, hcounts⟩ : ∃ c d : Corpus,
      Corpus.empty.mergeFile (countAll repeatedWindow) = .ok c ∧ c.absorb c = .ok d ∧
        (d.get .bigram).entries.map (·.2) = [4, 2] := ⟨_, _, rfl, rfl, by decide⟩
  have hreach : c.Reachable := .mergeFile .empty hc
  have hreach' : d.Reachable := .absorb hreach hreach hd
  have hplace : ∀ o, ∃ made : Store,
      Store.write ⟨[], [["a".toList]]⟩ (Corpus.tablePath "a".toList o) [] = .ok made := by
    intro o
    cases o <;> exact ⟨_, rfl⟩
  obtain ⟨s, hs⟩ := (Corpus.exists_run_store_iff (fun o => (hreach'.countsWindows o).order_eq)
    .stored "a".toList false {}).2 ⟨_, rfl, hplace⟩
  have hload := hreach'.countsWindows.load_stored hs
  exact ⟨c, d, d, s, hc, hd, hs, hload, hcounts,
    ((keys_of_reachable (.reload hreach' hs hload)).1 .bigram).2.2⟩

end Ngram
end Stylometry
