-- Sums of tables over a corpus. A corpus table is the sum of the tables of its files, with
-- the keys in the order in which they are first met, and to add a sum is to add its parts.
import Stylometry.Ngram.Corpus
import Stylometry.Proofs.Occurrences

namespace Stylometry

theorem PerOrder.ofFnM_eq_ok {ε α : Type} {f : Order → Except ε α} {p : PerOrder α} :
    PerOrder.ofFnM f = .ok p ↔ ∀ o, f o = .ok (p.get o) := by
  constructor
  · intro h
    unfold PerOrder.ofFnM at h
    cases hb : f .bigram with
    | error e => rw [hb] at h; cases h
    | ok b =>
      cases ht : f .trigram with
      | error e => rw [hb, ht] at h; cases h
      | ok t =>
        cases hf : f .fourgram with
        | error e => rw [hb, ht, hf] at h; cases h
        | ok u =>
          cases hv : f .fivegram with
          | error e => rw [hb, ht, hf, hv] at h; cases h
          | ok v =>
            rw [hb, ht, hf, hv] at h
            cases h
            intro o
            cases o
            · exact hb
            · exact ht
            · exact hf
            · exact hv
  · intro h
    unfold PerOrder.ofFnM
    rw [h .bigram, h .trigram, h .fourgram, h .fivegram]
    rfl

/-- The first order for which something fails decides how the whole fails. -/
theorem PerOrder.ofFnM_eq_error {ε α : Type} {f : Order → Except ε α} {e : ε} :
    PerOrder.ofFnM f = .error e ↔
      ∃ o, f o = .error e ∧ ∀ p, p.index < o.index → ∃ a, f p = .ok a := by
  constructor
  · intro h
    unfold PerOrder.ofFnM at h
    cases hb : f .bigram with
    | error b =>
      rw [hb] at h
      cases h
      exact ⟨_, hb, fun p hp => absurd hp (Nat.not_lt_zero _)⟩
    | ok b =>
      cases ht : f .trigram with
      | error t =>
        rw [hb, ht] at h
        cases h
        refine ⟨_, ht, fun p hp => ?_⟩
        cases p with
        | bigram => exact ⟨b, hb⟩
        | _ => exact absurd hp (by decide)
      | ok t =>
        cases hf : f .fourgram with
        | error u =>
          rw [hb, ht, hf] at h
          cases h
          refine ⟨_, hf, fun p hp => ?_⟩
          cases p with
          | bigram => exact ⟨b, hb⟩
          | trigram => exact ⟨t, ht⟩
          | _ => exact absurd hp (by decide)
        | ok u =>
          cases hv : f .fivegram with
          | error v =>
            rw [hb, ht, hf, hv] at h
            cases h
            refine ⟨_, hv, fun p hp => ?_⟩
            cases p with
            | bigram => exact ⟨b, hb⟩
            | trigram => exact ⟨t, ht⟩
            | fourgram => exact ⟨u, hf⟩
            | fivegram => exact absurd hp (by decide)
          | ok v =>
            rw [hb, ht, hf, hv] at h
            cases h
  · rintro ⟨o, h, hbefore⟩
    unfold PerOrder.ofFnM
    cases o with
    | bigram =>
      rw [h]
      rfl
    | trigram =>
      obtain ⟨b, hb⟩ := hbefore .bigram (by decide)
      rw [hb, h]
      rfl
    | fourgram =>
      obtain ⟨b, hb⟩ := hbefore .bigram (by decide)
      obtain ⟨t, ht⟩ := hbefore .trigram (by decide)
      rw [hb, ht, h]
      rfl
    | fivegram =>
      obtain ⟨b, hb⟩ := hbefore .bigram (by decide)
      obtain ⟨t, ht⟩ := hbefore .trigram (by decide)
      obtain ⟨u, hu⟩ := hbefore .fourgram (by decide)
      rw [hb, ht, hu, h]
      rfl

namespace Ngram

namespace CorpusTable

theorem ext_entries {t u : CorpusTable} (horder : t.order = u.order)
    (hentries : t.entries = u.entries) : t = u := by
  obtain ⟨o, ⟨es, hes⟩, hfits⟩ := t
  obtain ⟨o', ⟨es', hes'⟩, hfits'⟩ := u
  obtain rfl : o = o' := horder
  obtain rfl : es = es' := hentries
  rfl

theorem nodup_entries (t : CorpusTable) : (Occurrences.keys t.entries).Nodup := t.table.nodup

theorem get_eq_count (t : CorpusTable) (key : String) :
    t.get key = Occurrences.count key t.entries := rfl

/-- Entries are added one by one, or some sum is too large. -/
theorem addAll_cases (t : CorpusTable) (es : List (String × Nat)) :
    (∃ u, t.addAll es = .ok u ∧ u.order = t.order ∧
        u.entries = Occurrences.addAll t.entries es) ∨
      t.addAll es = .error .overflow ∧
        ∃ key, countLimit ≤ t.get key + Occurrences.weight key es := by
  induction es generalizing t with
  | nil => exact .inl ⟨t, rfl, rfl, rfl⟩
  | cons e es ih =>
    rw [addAll, List.foldlM_cons]
    by_cases hfirst : t.get e.1 + e.2 < countLimit
    · obtain ⟨u, hu, horder, hentries⟩ : ∃ u, t.add e.1 e.2 = .ok u ∧ u.order = t.order ∧
          u.entries = Occurrences.add e.1 e.2 t.entries := ⟨_, dif_pos hfirst, rfl, rfl⟩
      rw [hu]
      rcases ih u with ⟨v, hv, horder', hentries'⟩ | ⟨hv, key, hkey⟩
      · refine .inl ⟨v, hv, horder'.trans horder, ?_⟩
        rw [hentries', hentries]
        rfl
      · refine .inr ⟨hv, key, ?_⟩
        have hcount : u.get key = t.get key + if key = e.1 then e.2 else 0 := by
          rw [get_eq_count, get_eq_count, hentries, Occurrences.count_add]
        rw [Occurrences.weight_cons]
        omega
    · have hadd : t.add e.1 e.2 = .error .overflow := dif_neg hfirst
      rw [hadd]
      refine .inr ⟨rfl, e.1, ?_⟩
      rw [Occurrences.weight_cons, if_pos rfl]
      omega

/-- Entries can be added when no sum is too large. -/
theorem addAll_eq_ok {t : CorpusTable} {es : List (String × Nat)}
    (h : ∀ key, t.get key + Occurrences.weight key es < countLimit) :
    ∃ u, t.addAll es = .ok u ∧ u.order = t.order ∧
      u.entries = Occurrences.addAll t.entries es := by
  rcases t.addAll_cases es with hok | ⟨-, key, hkey⟩
  · exact hok
  · exact absurd (h key) (Nat.not_lt.2 hkey)

end CorpusTable

/-! ## Sums over files -/

/-- The entries of some files of one order, one file after the other. -/
def entriesOf (files : List (PerOrder Table)) (o : Order) : List (String × Nat) :=
  files.flatMap fun f => (f.get o).entries

theorem entriesOf_append (fs gs : List (PerOrder Table)) (o : Order) :
    entriesOf (fs ++ gs) o = entriesOf fs o ++ entriesOf gs o := List.flatMap_append

theorem weight_entriesOf (files : List (PerOrder Table)) (o : Order) (key : String) :
    Occurrences.weight key (entriesOf files o) = (files.map fun f => (f.get o).get key).sum := by
  induction files with
  | nil => rfl
  | cons f files ih =>
    have hcons : entriesOf (f :: files) o = (f.get o).entries ++ entriesOf files o := rfl
    rw [hcons, Occurrences.weight_append, ih, Occurrences.weight_eq_count (f.get o).nodup,
      List.map_cons, List.sum_cons]
    rfl

/-- No sum of counts over the files is too large. -/
def Fits (files : List (PerOrder Table)) : Prop :=
  ∀ o key, (files.map fun f => (f.get o).get key).sum < countLimit

theorem Fits.left {fs gs : List (PerOrder Table)} (h : Fits (fs ++ gs)) : Fits fs := by
  intro o key
  have := h o key
  rw [List.map_append, List.sum_append] at this
  omega

theorem Fits.right {fs gs : List (PerOrder Table)} (h : Fits (fs ++ gs)) : Fits gs := by
  intro o key
  have := h o key
  rw [List.map_append, List.sum_append] at this
  omega

namespace Corpus

/-- The corpus holds the sums over the files, its keys in the order of the files. -/
def IsSum (c : Corpus) (files : List (PerOrder Table)) : Prop :=
  ∀ o, (c.get o).order = o ∧ (c.get o).entries = Occurrences.addAll [] (entriesOf files o)

theorem IsSum.unique {c d : Corpus} {files : List (PerOrder Table)} (hc : IsSum c files)
    (hd : IsSum d files) : c = d := by
  apply PerOrder.ext_get
  intro o
  exact CorpusTable.ext_entries ((hc o).1.trans (hd o).1.symm) ((hc o).2.trans (hd o).2.symm)

theorem isSum_empty : IsSum empty [] := by
  intro o
  rw [empty, PerOrder.get_ofFn]
  exact ⟨rfl, rfl⟩

/-- The entries of more files, or a summary of them, are added to the sum over some files. -/
theorem IsSum.addAll {c : Corpus} {fs gs : List (PerOrder Table)} (hc : IsSum c fs)
    (h : Fits (fs ++ gs)) (o : Order) {es : List (String × Nat)}
    (hweight : ∀ key, Occurrences.weight key es = Occurrences.weight key (entriesOf gs o))
    (hadd : Occurrences.addAll (c.get o).entries es =
      Occurrences.addAll (c.get o).entries (entriesOf gs o)) :
    ∃ u, (c.get o).addAll es = .ok u ∧ u.order = o ∧
      u.entries = Occurrences.addAll [] (entriesOf (fs ++ gs) o) := by
  obtain ⟨horder, hentries⟩ := hc o
  have hfits : ∀ key, (c.get o).get key + Occurrences.weight key es < countLimit := by
    intro key
    have hkey := h o key
    rw [List.map_append, List.sum_append, ← weight_entriesOf, ← weight_entriesOf,
      ← hweight] at hkey
    rw [CorpusTable.get_eq_count, hentries, Occurrences.count_addAll, Occurrences.count,
      Nat.zero_add]
    exact hkey
  obtain ⟨u, hu, horder', hentries'⟩ := CorpusTable.addAll_eq_ok hfits
  refine ⟨u, hu, horder'.trans horder, ?_⟩
  rw [hentries', hadd, hentries, entriesOf_append, Occurrences.addAll_append]

theorem exists_of_forall {f : Order → Except Fault CorpusTable} {P : Order → CorpusTable → Prop}
    (h : ∀ o, ∃ u, f o = .ok u ∧ P o u) :
    ∃ c : Corpus, PerOrder.ofFnM f = .ok c ∧ ∀ o, P o (c.get o) := by
  obtain ⟨g, hg⟩ := Classical.axiomOfChoice h
  refine ⟨.ofFn g, PerOrder.ofFnM_eq_ok.2 ?_, ?_⟩
  · intro o
    rw [PerOrder.get_ofFn]
    exact (hg o).1
  · intro o
    rw [PerOrder.get_ofFn]
    exact (hg o).2

theorem IsSum.mergeFile {c : Corpus} {fs : List (PerOrder Table)} {f : PerOrder Table}
    (hc : IsSum c fs) (h : Fits (fs ++ [f])) :
    ∃ d, c.mergeFile f = .ok d ∧ IsSum d (fs ++ [f]) := by
  refine exists_of_forall (P := fun o u => u.order = o ∧
    u.entries = Occurrences.addAll [] (entriesOf (fs ++ [f]) o)) ?_
  intro o
  have hentries : entriesOf [f] o = (f.get o).entries := List.append_nil _
  exact hc.addAll h o (fun key => by rw [hentries]) (by rw [hentries])

theorem IsSum.foldlM_mergeFile {c : Corpus} {fs gs : List (PerOrder Table)} (hc : IsSum c fs)
    (h : Fits (fs ++ gs)) : ∃ d, gs.foldlM Corpus.mergeFile c = .ok d ∧ IsSum d (fs ++ gs) := by
  induction gs generalizing c fs with
  | nil => exact ⟨c, rfl, by rwa [List.append_nil]⟩
  | cons g gs ih =>
    have hsplit : fs ++ g :: gs = (fs ++ [g]) ++ gs := by simp
    rw [hsplit] at h ⊢
    obtain ⟨d, hd, hsum⟩ := hc.mergeFile h.left
    obtain ⟨e, he, hsum'⟩ := ih hsum h
    refine ⟨e, ?_, hsum'⟩
    rw [List.foldlM_cons, hd]
    exact he

theorem ofFiles_eq_ok {files : List (PerOrder Table)} (h : Fits files) :
    ∃ c, ofFiles files = .ok c ∧ IsSum c files :=
  isSum_empty.foldlM_mergeFile h

/-- To absorb the sums over some files is to go on with these files. -/
theorem IsSum.absorb {c d : Corpus} {fs gs : List (PerOrder Table)} (hc : IsSum c fs)
    (hd : IsSum d gs) (h : Fits (fs ++ gs)) :
    ∃ e, c.absorb d = .ok e ∧ IsSum e (fs ++ gs) := by
  refine exists_of_forall (P := fun o u => u.order = o ∧
    u.entries = Occurrences.addAll [] (entriesOf (fs ++ gs) o)) ?_
  intro o
  obtain ⟨horder, hentries⟩ := hd o
  have hweight : ∀ key, Occurrences.weight key (d.get o).entries =
      Occurrences.weight key (entriesOf gs o) := by
    intro key
    rw [Occurrences.weight_eq_count (d.get o).nodup_entries, hentries, Occurrences.count_addAll]
    exact Nat.zero_add _
  obtain ⟨u, hu, horder', hentries'⟩ := hc.addAll h o hweight
    (by rw [hentries, Occurrences.addAll_addAll (c.get o).nodup_entries])
  refine ⟨u, ?_, horder', hentries'⟩
  rw [CorpusTable.absorb, if_pos ((hc o).1.trans horder.symm), hu]

end Corpus
end Ngram
end Stylometry
