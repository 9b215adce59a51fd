-- What the table of an order says about a token stream. Its keys stand in the order in which their
-- windows first start, each key counts the places at which its window starts, and no two windows
-- share a key.
import Stylometry.Proofs.Windows

namespace Stylometry

/-! ## Things in the order of a numbering -/

namespace Occurrences

variable {α : Type} [DecidableEq α]

/-- Things that are met in the order of their numbers stand at the number at which they are met
first. -/
theorem keys_ofList_map_range (f : Nat → α) (m : Nat) :
    keys (ofList ((List.range m).map f)) =
      ((List.range m).filter fun i => ∀ j < i, f j ≠ f i).map f := by
  induction m with
  | zero => rfl
  | succ m ih =>
    have hstep : ofList ((List.range (m + 1)).map f) =
        (ofList ((List.range m).map f)).add (f m) 1 := by
      rw [List.range_succ, List.map_append, ofList, bumpAll_append]
      rfl
    have hmet : f m ∈ keys (ofList ((List.range m).map f)) ↔ ¬∀ j < m, f j ≠ f m := by
      rw [mem_keys_ofList]
      simp
    rw [hstep, keys_add, List.range_succ, List.filter_append, List.map_append, ← ih]
    by_cases h : ∀ j < m, f j ≠ f m
    · rw [if_neg fun h' => hmet.1 h' h, List.filter_cons_of_pos (by simpa using h)]
      rfl
    · rw [if_pos (hmet.2 h), List.filter_cons_of_neg (by simpa using h)]
      simp

end Occurrences

namespace Ngram

/-! ## Keys of windows -/

/-- A key spells its kinds. -/
theorem kindsOfKey?_key {w : List Kind} (hw : w ≠ []) : kindsOfKey? (key w) = some w := by
  have hbar : ∀ k : Kind, '|' ∉ Decimal.digits k.code := fun k =>
    Decimal.not_mem_digits (by decide) k.code
  unfold kindsOfKey? key
  rw [String.toList_ofList]
  exact Text.mapM_splitOn_join hbar kindOfCode?_digits hw

/-- Windows with one key are one. -/
theorem key_inj {v w : List Kind} : key v = key w ↔ v = w := by
  constructor
  · intro h
    have hempty : ∀ {u : List Kind}, u ≠ [] → key [] ≠ key u := by
      intro u hu heq
      have hspelled := kindsOfKey?_key hu
      rw [← heq] at hspelled
      cases hspelled
    by_cases hv : v = []
    · subst hv
      by_cases hw : w = []
      · exact hw.symm
      · exact absurd h (hempty hw)
    · have hw : w ≠ [] := by
        rintro rfl
        exact hempty hv h.symm
      have hspelled := kindsOfKey?_key hv
      rw [h, kindsOfKey?_key hw] at hspelled
      exact (Option.some.inj hspelled).symm
  · rintro rfl
    rfl

/-! ## Places of windows -/

/-- The places at which a window of `n` kinds starts. -/
def starts (n : Nat) (kinds : List Kind) : List Nat := List.range (kinds.length + 1 - n)

/-- The window of `n` kinds that starts at a place. -/
def windowAt (n : Nat) (kinds : List Kind) (i : Nat) : List Kind := (kinds.drop i).take n

/-- The windows are those of all places, from the first to the last. -/
theorem windows_eq_map_starts {n : Nat} (hn : 0 < n) (kinds : List Kind) :
    windows n kinds = (starts n kinds).map (windowAt n kinds) := by
  induction kinds with
  | nil =>
    have hnone : 0 + 1 - n = 0 := by omega
    rw [starts, List.length_nil, hnone]
    rfl
  | cons k kinds ih =>
    rw [windows_cons, ih]
    unfold starts
    rw [List.length_cons]
    by_cases h : n ≤ kinds.length + 1
    · have hstarts : kinds.length + 1 + 1 - n = (kinds.length + 1 - n) + 1 := by omega
      rw [if_pos h, hstarts, List.range_succ_eq_map, List.map_cons, List.map_map]
      rfl
    · have hnone : kinds.length + 1 - n = 0 := by omega
      have hnone' : kinds.length + 1 + 1 - n = 0 := by omega
      rw [if_neg h, hnone, hnone']
      rfl

/-! ## The table of an order -/

theorem entries_count (o : Order) (kinds : List Kind) :
    (count o kinds).entries =
      .ofList ((starts o.length kinds).map fun i => key (windowAt o.length kinds i)) := by
  have hlength : 0 < o.length := Nat.succ_pos _
  rw [← get_countAll_eq_count, entries_countAll, windows_eq_map_starts hlength, List.map_map]
  rfl

/-- The keys stand in the order of the places at which their windows start first. -/
theorem keys_count (o : Order) (kinds : List Kind) :
    (count o kinds).entries.keys =
      ((starts o.length kinds).filter fun i =>
        ∀ j < i, windowAt o.length kinds j ≠ windowAt o.length kinds i).map
        fun i => key (windowAt o.length kinds i) := by
  rw [entries_count, starts, Occurrences.keys_ofList_map_range]
  simp only [ne_eq, key_inj]

/-- A window counts the places at which it starts. -/
theorem get_count_key (o : Order) (kinds w : List Kind) :
    (count o kinds).get (key w) =
      (starts o.length kinds).countP fun i => windowAt o.length kinds i = w := by
  rw [Table.get, entries_count, Occurrences.count_ofList, List.countP_map]
  simp only [Function.comp_def, key_inj]

theorem total_count (o : Order) (kinds : List Kind) :
    (count o kinds).entries.total = kinds.length + 1 - o.length := by
  rw [entries_count, Occurrences.total_ofList, List.length_map, starts, List.length_range]

/-- One pass gives for each order the table of its windows. The keys are those of the windows in
the order of the places at which they start first. A window counts the places at which it starts,
and it shares its key with no other one. All counts together are the number of places. -/
theorem countAll_by_windows (kinds : List Kind) (o : Order) :
    (countAll kinds).get o = count o kinds ∧
      ((countAll kinds).get o).entries.keys.Nodup ∧
      ((countAll kinds).get o).entries.keys =
        ((starts o.length kinds).filter fun i =>
          ∀ j < i, windowAt o.length kinds j ≠ windowAt o.length kinds i).map
          (fun i => key (windowAt o.length kinds i)) ∧
      (∀ w : List Kind, ((countAll kinds).get o).get (key w) =
        (starts o.length kinds).countP fun i => windowAt o.length kinds i = w) ∧
      (∀ v w : List Kind, key v = key w → v = w) ∧
      (∀ s, s ∉ ((countAll kinds).get o).entries.keys → ((countAll kinds).get o).get s = 0) ∧
      ((countAll kinds).get o).entries.total = kinds.length + 1 - o.length := by
  rw [get_countAll_eq_count]
  exact ⟨rfl, (count o kinds).nodup, keys_count o kinds, get_count_key o kinds,
    fun v w => key_inj.1, fun s => Occurrences.count_eq_zero, total_count o kinds⟩

end Ngram
end Stylometry
