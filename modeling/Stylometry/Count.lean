-- Counts. What is counted is kept in 64 bits, and a sum that does not fit is a fault of
-- the whole run.
import Stylometry.Numerals

namespace Stylometry

/-- What stops a whole run. -/
inductive Fault where
  /-- A sum of counts, or a column, does not fit into 64 bits. -/
  | overflow
  /-- Tables of two orders met in one sum. -/
  | mixedOrders
  deriving DecidableEq, Repr

/-- The first number that does not fit into 64 bits. -/
def countLimit : Nat := 2 ^ 64

/-- The sum of two counts, if it fits. -/
def addCounts (a b : Nat) : Except Fault Nat :=
  if a + b < countLimit then .ok (a + b) else .error .overflow

/-- The sum of counts from left to right, if each partial sum fits. -/
def sumCounts (counts : List Nat) : Except Fault Nat := counts.foldlM addCounts 0

/-! ## Tallies of things -/

/-- How often things were met, in the order in which they were first met. -/
abbrev Occurrences (α : Type) := List (α × Nat)

namespace Occurrences

variable {α : Type} [DecidableEq α]

/-- A thing is met `n` times more. A thing that is new goes to the end. -/
def add (a : α) (n : Nat) : Occurrences α → Occurrences α
  | [] => [(a, n)]
  | (b, m) :: rest => if a = b then (b, m + n) :: rest else (b, m) :: add a n rest

/-- A thing is met once more. -/
def bump (a : α) (o : Occurrences α) : Occurrences α := o.add a 1

/-- The count of a thing becomes `n`. A thing that is new goes to the end. -/
def put (a : α) (n : Nat) : Occurrences α → Occurrences α
  | [] => [(a, n)]
  | (b, m) :: rest => if a = b then (b, n) :: rest else (b, m) :: put a n rest

/-- The things that were met. -/
def keys (o : Occurrences α) : List α := o.map (·.1)

/-- How often a thing was met. -/
def count (a : α) : Occurrences α → Nat
  | [] => 0
  | (b, n) :: rest => if a = b then n else count a rest

/-- How often anything was met. -/
def total (o : Occurrences α) : Nat := (o.map (·.2)).sum

/-- How often the thing that was met most was met. -/
def largest (o : Occurrences α) : Nat := (o.map (·.2)).foldl max 0

/-! ## Laws of the operations -/

/-- To meet a thing `n` times raises the total by `n`. -/
theorem total_add (a : α) (n : Nat) (o : Occurrences α) : total (add a n o) = total o + n := by
  induction o with
  | nil => simp [add, total]
  | cons x rest ih =>
    by_cases h : a = x.1
    · simp only [add, if_pos h, total, List.map_cons, List.sum_cons]; omega
    · simp only [total] at ih
      simp only [add, if_neg h, total, List.map_cons, List.sum_cons, ih]; omega

/-- To meet a thing `n` times raises its own count by `n` and no other count. -/
theorem count_add (a b : α) (n : Nat) (o : Occurrences α) :
    count b (add a n o) = count b o + if b = a then n else 0 := by
  induction o with
  | nil => by_cases h : b = a <;> simp [add, count, h]
  | cons x rest ih =>
    by_cases h : a = x.1
    · subst h
      by_cases hb : b = x.1 <;> simp [add, count, hb]
    · by_cases hb : b = x.1
      · have hba : ¬ b = a := fun e => h (e ▸ hb)
        simp [add, count, h, hb, Ne.symm h]
      · simp [add, count, h, hb, ih]

/-- A thing that was met stays in its place, and a new one goes to the end. -/
theorem keys_add (a : α) (n : Nat) (o : Occurrences α) :
    keys (add a n o) = if a ∈ keys o then keys o else keys o ++ [a] := by
  induction o with
  | nil => simp [add, keys]
  | cons x rest ih =>
    by_cases h : a = x.1
    · simp [add, keys, h]
    · have hkeys : keys (x :: rest) = x.1 :: keys rest := rfl
      have hstep : keys (add a n (x :: rest)) = x.1 :: keys (add a n rest) := by
        simp [add, keys, h]
      rw [hstep, hkeys, ih]
      by_cases hm : a ∈ keys rest <;> simp [hm, h]

/-- To set a count keeps the places as well. -/
theorem keys_put (a : α) (n : Nat) (o : Occurrences α) :
    keys (put a n o) = if a ∈ keys o then keys o else keys o ++ [a] := by
  induction o with
  | nil => simp [put, keys]
  | cons x rest ih =>
    by_cases h : a = x.1
    · simp [put, keys, h]
    · have hkeys : keys (x :: rest) = x.1 :: keys rest := rfl
      have hstep : keys (put a n (x :: rest)) = x.1 :: keys (put a n rest) := by
        simp [put, keys, h]
      rw [hstep, hkeys, ih]
      by_cases hm : a ∈ keys rest <;> simp [hm, h]

/-- A count that is set is the given one, and no other count changes. -/
theorem count_put (a b : α) (n : Nat) (o : Occurrences α) :
    count b (put a n o) = if b = a then n else count b o := by
  induction o with
  | nil => by_cases h : b = a <;> simp [put, count, h]
  | cons x rest ih =>
    by_cases h : a = x.1
    · subst h
      by_cases hb : b = x.1 <;> simp [put, count, hb]
    · by_cases hb : b = x.1
      · have hba : ¬ b = a := fun e => h (e ▸ hb)
        simp [put, count, h, hb, Ne.symm h]
      · simp [put, count, h, hb, ih]

/-- A thing that was never met has count zero. -/
theorem count_eq_zero {a : α} {o : Occurrences α} (h : a ∉ keys o) : count a o = 0 := by
  induction o with
  | nil => rfl
  | cons x rest ih =>
    simp only [keys, List.map_cons, List.mem_cons, not_or] at h
    simp only [count, if_neg h.1]
    exact ih h.2

/-- Things that stand once stay so. -/
theorem nodup_add {a : α} {n : Nat} {o : Occurrences α} (h : (keys o).Nodup) :
    (keys (add a n o)).Nodup := by
  rw [keys_add]
  split
  · exact h
  · next ha =>
    rw [List.nodup_append]
    refine ⟨h, by simp, ?_⟩
    intro x hx y hy hxy
    simp only [List.mem_singleton] at hy
    exact ha (hy ▸ hxy ▸ hx)

/-- Things that stand once stay so when a count is set. -/
theorem nodup_put {a : α} {n : Nat} {o : Occurrences α} (h : (keys o).Nodup) :
    (keys (put a n o)).Nodup := by
  have heq := keys_put a n o
  rw [← keys_add a n o] at heq
  rw [heq]
  exact nodup_add h

/-- What is in the list after a thing is met was there before, or is its new count. -/
theorem mem_add {a : α} {n : Nat} {o : Occurrences α} {e : α × Nat} (h : e ∈ add a n o) :
    e ∈ o ∨ e = (a, count a o + n) := by
  induction o with
  | nil => simp [add] at h; simp [count, h]
  | cons x rest ih =>
    by_cases hx : a = x.1
    · simp only [add, if_pos hx, List.mem_cons] at h
      rcases h with h | h
      · exact .inr (by simp [count, hx, h])
      · exact .inl (List.mem_cons_of_mem _ h)
    · simp only [add, if_neg hx, List.mem_cons] at h
      rcases h with h | h
      · exact .inl (h ▸ List.mem_cons_self ..)
      · rcases ih h with h | h
        · exact .inl (List.mem_cons_of_mem _ h)
        · exact .inr (by simp [count, hx, h])

/-- What is in the list after a count is set was there before, or is the given count. -/
theorem mem_put {a : α} {n : Nat} {o : Occurrences α} {e : α × Nat} (h : e ∈ put a n o) :
    e ∈ o ∨ e = (a, n) := by
  induction o with
  | nil => exact .inr (by simpa [put] using h)
  | cons x rest ih =>
    by_cases hx : a = x.1
    · simp only [put, if_pos hx, List.mem_cons] at h
      rcases h with h | h
      · exact .inr (by rw [h, hx])
      · exact .inl (List.mem_cons_of_mem _ h)
    · simp only [put, if_neg hx, List.mem_cons] at h
      rcases h with h | h
      · exact .inl (h ▸ List.mem_cons_self ..)
      · rcases ih h with h | h
        · exact .inl (List.mem_cons_of_mem _ h)
        · exact .inr h

/-- One more of a thing raises the total by one. -/
theorem total_bump (a : α) (o : Occurrences α) : total (bump a o) = total o + 1 :=
  total_add a 1 o

/-- One more of a thing raises its own count by one and no other count. -/
theorem count_bump (a b : α) (o : Occurrences α) :
    count b (bump a o) = count b o + if b = a then 1 else 0 :=
  count_add a b 1 o

end Occurrences
end Stylometry
