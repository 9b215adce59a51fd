-- The windows of a token stream and their keys. One pass over the stream counts for every
-- order the windows of its length, from the first to the last.
import Stylometry.Ngram.Table
import Stylometry.Proofs.Occurrences
import Stylometry.Proofs.Parts

namespace Stylometry

namespace Ngram

/-! ## Keys that grow -/

/-- The text of the key of some kinds. -/
def keyText (kinds : List Kind) : Text :=
  Text.join ['|'] (kinds.map fun k => Decimal.digits k.code)

theorem key_eq (kinds : List Kind) : key kinds = String.ofList (keyText kinds) := rfl

theorem keyText_concat {kinds : List Kind} (h : kinds ≠ []) (k : Kind) :
    keyText (kinds ++ [k]) = keyText kinds ++ '|' :: Decimal.digits k.code := by
  have hne : (kinds.map fun k => Decimal.digits k.code) ≠ [] := by simpa using h
  unfold keyText
  rw [List.map_append]
  exact (Text.join_concat ['|'] _ hne).trans (by simp)

/-- A growing key is the key of one more kind each time. -/
theorem getElem?_growingKeys {kinds : List Kind} (h : kinds ≠ []) (limit : Nat)
    (rest : List Kind) (i : Nat) :
    (growingKeys (keyText kinds) limit rest)[i]? =
      if i < limit ∧ i < rest.length then some (keyText (kinds ++ rest.take (i + 1))) else none := by
  induction limit generalizing kinds rest i with
  | zero => simp [growingKeys]
  | succ limit ih =>
    cases rest with
    | nil => simp [growingKeys]
    | cons k rest =>
      rw [growingKeys, ← keyText_concat h]
      cases i with
      | zero => simp
      | succ i =>
        rw [List.getElem?_cons_succ, ih (by simp)]
        simp

theorem get_raiseAll (tables : PerOrder Table) (keys : List Text) (o : Order) :
    (raiseAll tables keys).get o =
      match keys[o.index]? with
      | some key => (tables.get o).raise (String.ofList key) 1
      | none => tables.get o := by
  rcases keys with _ | ⟨a, _ | ⟨b, _ | ⟨c, _ | ⟨d, keys⟩⟩⟩⟩ <;> cases o <;> rfl

/-! ## Windows -/

theorem windows_cons (n : Nat) (a : α) (l : List α) :
    windows n (a :: l) =
      (if n ≤ l.length + 1 then [(a :: l).take n] else []) ++ windows n l := by
  have hlength : ((a :: l).take n).length = n ↔ n ≤ l.length + 1 := by
    rw [List.length_take, List.length_cons]
    omega
  rw [windows]
  by_cases h : n ≤ l.length + 1
  · simp only [if_pos (hlength.2 h), if_pos h, List.singleton_append]
  · simp only [if_neg fun h' => h (hlength.1 h'), if_neg h, List.nil_append]

theorem length_of_mem_windows {n : Nat} {l w : List α} (h : w ∈ windows n l) : w.length = n := by
  induction l with
  | nil => cases h
  | cons a l ih =>
    rw [windows_cons] at h
    split at h
    · rename_i hn
      rcases List.mem_append.1 h with h | h
      · rw [List.mem_singleton.1 h, List.length_take, List.length_cons]
        omega
      · exact ih h
    · exact ih h

theorem length_windows_le (n : Nat) (l : List α) : (windows n l).length ≤ l.length := by
  induction l with
  | nil => exact Nat.le_refl 0
  | cons a l ih =>
    rw [windows_cons, List.length_append, List.length_cons]
    split
    · rw [List.length_singleton]
      omega
    · rw [List.length_nil]
      omega

/-- One window more of a table. -/
def raiseKey (t : Table) (w : List Kind) : Table := t.raise (key w) 1

/-- The windows that start at one place: each order has its own. -/
theorem get_raiseAll_growingKeys (tables : PerOrder Table) (k : Kind) (rest : List Kind)
    (o : Order) :
    (raiseAll tables (growingKeys (Decimal.digits k.code) 4 rest)).get o =
      (if o.length ≤ rest.length + 1 then [(k :: rest).take o.length] else []).foldl raiseKey
        (tables.get o) := by
  have hfirst : Decimal.digits k.code = keyText [k] := rfl
  have hindex := o.index_lt
  have hlength : o.length = o.index + 2 := rfl
  rw [get_raiseAll, hfirst, getElem?_growingKeys (List.cons_ne_nil k [])]
  by_cases h : o.index < rest.length
  · rw [if_pos ⟨hindex, h⟩, if_pos (by omega), hlength]
    rfl
  · rw [if_neg fun h' => h h'.2, if_neg (by omega)]
    rfl

/-- One pass counts the windows of every order. -/
theorem get_countFrom (tables : PerOrder Table) (kinds : List Kind) (o : Order) :
    (countFrom tables kinds).get o = (windows o.length kinds).foldl raiseKey (tables.get o) := by
  induction kinds generalizing tables with
  | nil => rfl
  | cons k rest ih =>
    rw [countFrom, ih, get_raiseAll_growingKeys, windows_cons, List.foldl_append]

theorem get_countAll_eq_count (kinds : List Kind) (o : Order) :
    (countAll kinds).get o = count o kinds := by
  rw [countAll, get_countFrom, PerOrder.get_ofFn]
  rfl

/-! ## Keys of windows -/

theorem entries_foldl_raiseKey (t : Table) (ws : List (List Kind)) :
    (ws.foldl raiseKey t).entries = t.entries.bumpAll (ws.map key) := by
  induction ws generalizing t with
  | nil => rfl
  | cons w ws ih =>
    rw [List.foldl_cons, ih]
    rfl

theorem entries_countAll (kinds : List Kind) (o : Order) :
    ((countAll kinds).get o).entries = .ofList ((windows o.length kinds).map key) := by
  rw [get_countAll_eq_count]
  exact entries_foldl_raiseKey .empty _

/-- A key stands in a file not more often than there are tokens. -/
theorem get_countAll_le (kinds : List Kind) (o : Order) (s : String) :
    ((countAll kinds).get o).get s ≤ kinds.length := by
  have hcount := Occurrences.count_le_total s ((countAll kinds).get o).entries
  have hwindows := length_windows_le o.length kinds
  rw [entries_countAll, Occurrences.total_ofList, List.length_map] at hcount
  unfold Table.get
  rw [entries_countAll]
  omega

/-- The keys of a file are keys of windows. -/
theorem exists_window_of_mem_keys {kinds : List Kind} {o : Order} {s : String}
    (h : s ∈ ((countAll kinds).get o).entries.keys) :
    ∃ w ∈ windows o.length kinds, s = key w := by
  rw [entries_countAll, Occurrences.mem_keys_ofList] at h
  obtain ⟨w, hw, rfl⟩ := List.mem_map.1 h
  exact ⟨w, hw, rfl⟩

/-- All sequences of so many kinds. -/
def words : Nat → List (List Kind)
  | 0 => [[]]
  | n + 1 => Kind.all.flatMap fun k => (words n).map (k :: ·)

theorem mem_words {w : List Kind} : w ∈ words w.length := by
  induction w with
  | nil => simp [words]
  | cons k w ih =>
    rw [List.length_cons, words]
    exact List.mem_flatMap.2 ⟨k, Kind.mem_all k, List.mem_map_of_mem ih⟩

theorem length_words (n : Nat) : (words n).length = 127 ^ n := by
  induction n with
  | zero => rfl
  | succ n ih =>
    rw [words, List.length_flatMap]
    simp only [List.length_map, ih, List.map_const', List.sum_replicate_nat, Kind.length_all]
    rw [Nat.pow_succ, Nat.mul_comm]

/-- There are not more keys of windows than sequences of kinds. -/
theorem length_le_of_windowKeys {n : Nat} {keys : List String} (hnodup : keys.Nodup)
    (h : ∀ s ∈ keys, ∃ w : List Kind, w.length = n ∧ s = key w) : keys.length ≤ 127 ^ n := by
  have hsubset : keys ⊆ (words n).map key := by
    intro s hs
    obtain ⟨w, rfl, rfl⟩ := h s hs
    exact List.mem_map_of_mem mem_words
  have hle := hnodup.length_le_of_subset hsubset
  rwa [List.length_map, length_words] at hle

end Ngram
end Stylometry
