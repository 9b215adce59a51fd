-- Tables in bytes. The bytes that are read as a table are those that begin with the tag of an
-- order, a number of entries and so many entries, and each part of them is read in one way only.
import Stylometry.Ngram.Binary
import Stylometry.Proofs.CorpusSums

namespace Stylometry

theorem Order.ofIndex?_eq_some {n : Nat} {o : Order} : ofIndex? n = some o ↔ n = o.index := by
  constructor
  · intro h
    match n, h with
    | 0, h => cases h; rfl
    | 1, h => cases h; rfl
    | 2, h => cases h; rfl
    | 3, h => cases h; rfl
    | _ + 4, h => cases h
  · rintro rfl
    exact o.ofIndex?_index

/-! ## Counts that are set one by one -/

namespace Occurrences

variable {α : Type} [DecidableEq α]

/-- The count of every entry of a list is set, from the first to the last. -/
def putAll (o : Occurrences α) (es : List (α × Nat)) : Occurrences α :=
  es.foldl (fun o e => o.put e.1 e.2) o

theorem putAll_append (o : Occurrences α) (es fs : List (α × Nat)) :
    o.putAll (es ++ fs) = (o.putAll es).putAll fs := List.foldl_append

theorem put_of_not_mem {a : α} {o : Occurrences α} (n : Nat) (h : a ∉ keys o) :
    put a n o = o ++ [(a, n)] := by
  induction o with
  | nil => rfl
  | cons x o ih =>
    obtain ⟨hx, ho⟩ := not_or.1 fun h' => h (List.mem_cons.2 h')
    rw [put, if_neg hx, ih ho]
    rfl

/-- Entries with keys of their own stand one after the other. -/
theorem putAll_of_nodup {o : Occurrences α} {es : List (α × Nat)} (h : (keys (o ++ es)).Nodup) :
    o.putAll es = o ++ es := by
  induction es generalizing o with
  | nil => exact (List.append_nil o).symm
  | cons e es ih =>
    have hnew : e.1 ∉ keys o := by
      intro hmem
      rw [keys, List.map_append, List.nodup_append] at h
      exact h.2.2 e.1 hmem e.1 (List.mem_map_of_mem (List.mem_cons_self ..)) rfl
    have hsplit : o ++ e :: es = (o ++ [e]) ++ es := by simp
    rw [hsplit] at h ⊢
    rw [← ih h, ← put_of_not_mem e.2 hnew]
    rfl

/-- A key stands where it is given first. -/
theorem keys_putAll (o : Occurrences α) (es : List (α × Nat)) :
    keys (o.putAll es) = insertAll (keys o) (es.map (·.1)) := by
  induction es generalizing o with
  | nil => rfl
  | cons e es ih =>
    have hstep : o.putAll (e :: es) = (o.put e.1 e.2).putAll es := rfl
    rw [hstep, ih, keys_put]
    rfl

/-- A key has the count that is given last. -/
theorem count_putAll {a : α} {n : Nat} {es fs : List (α × Nat)} (h : a ∉ fs.map (·.1))
    (o : Occurrences α) : count a (o.putAll (es ++ (a, n) :: fs)) = n := by
  have hkeep : ∀ o : Occurrences α, count a (o.putAll fs) = count a o := by
    induction fs with
    | nil => exact fun _ => rfl
    | cons f fs ih =>
      obtain ⟨hf, hfs⟩ := not_or.1 fun h' => h (List.mem_cons.2 h')
      intro o
      have hstep : o.putAll (f :: fs) = (o.put f.1 f.2).putAll fs := rfl
      rw [hstep, ih hfs, count_put, if_neg hf]
  have hsplit : o.putAll (es ++ (a, n) :: fs) = ((o.putAll es).put a n).putAll fs :=
    putAll_append o es _
  rw [hsplit, hkeep, count_put, if_pos rfl]

end Occurrences

/-! ## Entries -/

namespace Ngram.CorpusTable

/-- The numbers that are written for an entry fit into 64 bits. -/
def EntryFits (e : String × Nat) : Prop :=
  (Bytes.ofString e.1).length < countLimit ∧ e.2 < countLimit

theorem readEntry?_eq_some {bs rest : Bytes} {e : String × Nat} :
    readEntry? bs = some (e, rest) ↔ EntryFits e ∧ bs = entryBytes e ++ rest := by
  unfold readEntry?
  simp only [Option.bind_eq_bind, Option.bind_eq_some_iff, Prod.exists, Bytes.readNat?_eq_some,
    Bytes.takeExact?_eq_some, Bytes.toString?_eq_some, Option.pure_def, Option.some.injEq,
    Prod.mk.injEq]
  constructor
  · rintro ⟨length, rest₁, ⟨hlength, rfl⟩, key, rest₂, ⟨rfl, rfl⟩, text, rfl, count, rest₃,
      ⟨hcount, rfl⟩, rfl, rfl⟩
    exact ⟨⟨hlength, hcount⟩, by simp [entryBytes]⟩
  · rintro ⟨⟨hlength, hcount⟩, rfl⟩
    exact ⟨_, _, ⟨hlength, by simp only [entryBytes, List.append_assoc]⟩, _, _, ⟨rfl, rfl⟩, _, rfl,
      _, _, ⟨hcount, rfl⟩, rfl, rfl⟩

theorem readEntries?_eq_some {n : Nat} {bs rest : Bytes} {es : List (String × Nat)} :
    readEntries? n bs = some (es, rest) ↔
      es.length = n ∧ (∀ e ∈ es, EntryFits e) ∧ bs = es.flatMap entryBytes ++ rest := by
  induction n generalizing bs es with
  | zero =>
    simp only [readEntries?, Option.some.injEq, Prod.mk.injEq, List.length_eq_zero_iff]
    constructor
    · rintro ⟨rfl, rfl⟩
      exact ⟨rfl, by simp⟩
    · rintro ⟨rfl, -, rfl⟩
      exact ⟨rfl, rfl⟩
  | succ n ih =>
    simp only [readEntries?, Option.bind_eq_bind, Option.bind_eq_some_iff, Prod.exists,
      Option.pure_def, Option.some.injEq, Prod.mk.injEq]
    constructor
    · rintro ⟨key, count, rest₁, hentry, es', rest₂, hentries, rfl, rfl⟩
      obtain ⟨hfits, rfl⟩ := readEntry?_eq_some.1 hentry
      obtain ⟨hlength, hall, rfl⟩ := ih.1 hentries
      exact ⟨congrArg (· + 1) hlength, List.forall_mem_cons.2 ⟨hfits, hall⟩, by simp⟩
    · rintro ⟨hlength, hall, rfl⟩
      cases es with
      | nil => cases hlength
      | cons e es =>
        obtain ⟨hfits, hall⟩ := List.forall_mem_cons.1 hall
        exact ⟨e.1, e.2, es.flatMap entryBytes ++ rest,
          readEntry?_eq_some.2 ⟨hfits, by simp⟩, es, rest,
          ih.2 ⟨Nat.succ.inj hlength, hall, rfl⟩, rfl, rfl⟩

theorem length_flatMap_entryBytes (es : List (String × Nat)) :
    16 * es.length ≤ (es.flatMap entryBytes).length := by
  induction es with
  | nil => exact Nat.le_refl 0
  | cons e es ih =>
    simp only [List.flatMap_cons, List.length_append, List.length_cons, entryBytes,
      Bytes.length_ofNat] at ih ⊢
    omega

/-- No more entries are read than there is room for, however many are announced. -/
theorem readEntries?_min (n : Nat) (bs : Bytes) :
    readEntries? n bs = readEntries? (min n (bs.length / 16 + 1)) bs := by
  have hnone : ∀ m, bs.length < 16 * m → readEntries? m bs = none := by
    intro m hm
    cases h : readEntries? m bs with
    | none => rfl
    | some result =>
      obtain ⟨hlength, -, hbytes⟩ := readEntries?_eq_some.1 h
      have hroom := length_flatMap_entryBytes result.1
      have htotal := congrArg List.length hbytes
      rw [List.length_append] at htotal
      omega
  by_cases hn : n ≤ bs.length / 16 + 1
  · rw [Nat.min_eq_left hn]
  · rw [Nat.min_eq_right (by omega), hnone n (by omega), hnone _ (by omega)]

/-! ## Tables -/

/-- The tag of an order, the number of some entries, and the entries. -/
def tableBytes (o : Order) (es : List (String × Nat)) : Bytes :=
  Bytes.ofNat 4 o.index ++ Bytes.ofNat 8 es.length ++ es.flatMap entryBytes

/-- The numbers that are written for some entries fit into 64 bits. -/
structure EntriesFit (es : List (String × Nat)) : Prop where
  length : es.length < countLimit
  entries : ∀ e ∈ es, EntryFits e

/-- The table of some entries sets the count of each of them. -/
theorem foldlM_put (t : CorpusTable) {es : List (String × Nat)}
    (hcounts : ∀ e ∈ es, e.2 < countLimit) :
    ∃ u, es.foldlM (fun t e => if h : e.2 < countLimit then some (put t e.1 e.2 h) else none) t =
        some u ∧ u.order = t.order ∧ u.entries = Occurrences.putAll t.entries es := by
  induction es generalizing t with
  | nil => exact ⟨t, rfl, rfl, rfl⟩
  | cons e es ih =>
    obtain ⟨he, hes⟩ := List.forall_mem_cons.1 hcounts
    obtain ⟨u, hu, horder, hentries⟩ := ih (t.put e.1 e.2 he) hes
    refine ⟨u, ?_, horder, hentries⟩
    rw [List.foldlM_cons, dif_pos he]
    exact hu

theorem ofEntries?_eq_some (o : Order) {es : List (String × Nat)}
    (hcounts : ∀ e ∈ es, e.2 < countLimit) :
    ∃ t, ofEntries? o es = some t ∧ t.order = o ∧ t.entries = Occurrences.putAll [] es :=
  foldlM_put (empty o) hcounts

/-- What is read as a table begins with its order and with entries that set its counts. -/
theorem decode?_eq_some {bs rest : Bytes} {t : CorpusTable} :
    decode? bs = some (t, rest) ↔ ∃ es, EntriesFit es ∧ bs = tableBytes t.order es ++ rest ∧
      t.entries = Occurrences.putAll [] es := by
  have htable : ∀ {o : Order} {es : List (String × Nat)}, EntriesFit es →
      (ofEntries? o es = some t ↔ t.order = o ∧ t.entries = Occurrences.putAll [] es) := by
    intro o es hfit
    obtain ⟨u, hu, horder, hentries⟩ := ofEntries?_eq_some o fun e he => (hfit.entries e he).2
    rw [hu, Option.some.injEq]
    constructor
    · rintro rfl
      exact ⟨horder, hentries⟩
    · rintro ⟨horder', hentries'⟩
      exact ext_entries (horder.trans horder'.symm) (hentries.trans hentries'.symm)
  unfold decode?
  simp only [Option.bind_eq_bind, Option.bind_eq_some_iff, Prod.exists, Bytes.readNat?_eq_some,
    readEntries?_eq_some, Option.pure_def, Option.some.injEq, Prod.mk.injEq]
  constructor
  · rintro ⟨index, rest₁, ⟨-, rfl⟩, o, hindex, n, rest₂, ⟨hn, rfl⟩, es, rest₃, ⟨rfl, hall, rfl⟩,
      u, hu, rfl, rfl⟩
    have hfit : EntriesFit es := ⟨hn, hall⟩
    obtain ⟨rfl, hentries⟩ := (htable hfit).1 hu
    obtain rfl := Order.ofIndex?_eq_some.1 hindex
    exact ⟨es, hfit, by simp [tableBytes], hentries⟩
  · rintro ⟨es, hfit, rfl, hentries⟩
    have hindex : t.order.index < 256 ^ 4 := Nat.lt_trans t.order.index_lt (by decide)
    exact ⟨_, _, ⟨hindex, by simp only [tableBytes, List.append_assoc]⟩, _, t.order.ofIndex?_index,
      _, _, ⟨hfit.length, rfl⟩, es, rest, ⟨rfl, hfit.entries, rfl⟩, t,
      (htable hfit).2 ⟨rfl, hentries⟩, rfl, rfl⟩

end Ngram.CorpusTable
end Stylometry
