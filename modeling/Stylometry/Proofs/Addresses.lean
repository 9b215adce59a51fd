-- The nodes of a tree in preorder, each with the address of its place. One node is above
-- another when its address is a proper start of the other's.
import Stylometry.Tree.Basic

namespace Stylometry

/-! ## Lists with what comes before -/

/-- Every thing in a list with the things before it. -/
def withEarlier {α : Type} (earlier : List α) : List α → List (List α × α)
  | [] => []
  | x :: rest => (earlier, x) :: withEarlier (earlier ++ [x]) rest

theorem withEarlier_append {α : Type} (earlier l m : List α) :
    withEarlier earlier (l ++ m) = withEarlier earlier l ++ withEarlier (earlier ++ l) m := by
  induction l generalizing earlier with
  | nil => simp [withEarlier]
  | cons x l ih => simp [withEarlier, ih]

theorem map_snd_withEarlier {α : Type} (earlier l : List α) :
    (withEarlier earlier l).map (·.2) = l := by
  induction l generalizing earlier with
  | nil => rfl
  | cons x l ih => simp [withEarlier, ih]

/-! ## Nodes with addresses -/

/-- A node with its address: which child to take on each step down from the root. -/
structure Placed where
  address : List Nat
  tree : Tree

namespace Tree

mutual
/-- The nodes of a tree in preorder, where the tree itself has the given address. -/
def placed (address : List Nat) : Tree → List Placed
  | .token _ => []
  | .node k s cs => ⟨address, .node k s cs⟩ :: placedAll address 0 cs

/-- The nodes of the children from the `i`th on of the node with the given address. -/
def placedAll (address : List Nat) (i : Nat) : List Tree → List Placed
  | [] => []
  | c :: cs => c.placed (address ++ [i]) ++ placedAll address (i + 1) cs
end

@[simp] theorem placed_token (a : List Nat) (t : Token) : placed a (.token t) = [] := by
  rw [placed]

@[simp] theorem placed_node (a : List Nat) (k : NodeKind) (s : Span) (cs : List Tree) :
    placed a (.node k s cs) = ⟨a, .node k s cs⟩ :: placedAll a 0 cs := by rw [placed]

@[simp] theorem placedAll_nil (a : List Nat) (i : Nat) : placedAll a i [] = [] := by
  rw [placedAll]

@[simp] theorem placedAll_cons (a : List Nat) (i : Nat) (c : Tree) (cs : List Tree) :
    placedAll a i (c :: cs) = c.placed (a ++ [i]) ++ placedAll a (i + 1) cs := by
  rw [placedAll]

mutual
/-- The nodes of a tree have addresses that start with its own. -/
theorem prefix_of_mem_placed : ∀ (t : Tree) (a : List Nat), ∀ c ∈ t.placed a, a <+: c.address
  | .token t, a, c, hc => by simp at hc
  | .node k s cs, a, c, hc => by
    rw [placed_node, List.mem_cons] at hc
    rcases hc with rfl | hc
    · exact List.prefix_refl a
    · obtain ⟨j, -, hj⟩ := prefix_of_mem_placedAll cs a 0 c hc
      exact (List.prefix_append a [j]).trans hj

theorem prefix_of_mem_placedAll : ∀ (cs : List Tree) (a : List Nat) (i : Nat),
    ∀ c ∈ placedAll a i cs, ∃ j, i ≤ j ∧ a ++ [j] <+: c.address
  | [], a, i, c, hc => by simp at hc
  | d :: cs, a, i, c, hc => by
    rw [placedAll_cons, List.mem_append] at hc
    rcases hc with hc | hc
    · exact ⟨i, Nat.le_refl i, prefix_of_mem_placed d (a ++ [i]) c hc⟩
    · obtain ⟨j, hj, h⟩ := prefix_of_mem_placedAll cs a (i + 1) c hc
      exact ⟨j, by omega, h⟩
end

/-- Addresses below different children are different. -/
theorem child_eq_of_prefix {a b : List Nat} {i j : Nat} (hi : a ++ [i] <+: b)
    (hj : a ++ [j] <+: b) : i = j := by
  have h := List.prefix_of_prefix_length_le hi hj (by simp)
  have heq := h.eq_of_length (by simp)
  simpa using heq

mutual
/-- No two nodes of a tree have one address. -/
theorem nodup_placed : ∀ (t : Tree) (a : List Nat), ((t.placed a).map (·.address)).Nodup
  | .token t, a => by simp
  | .node k s cs, a => by
    rw [placed_node, List.map_cons, List.nodup_cons]
    refine ⟨?_, nodup_placedAll cs a 0⟩
    intro hmem
    obtain ⟨c, hc, heq⟩ := List.mem_map.1 hmem
    obtain ⟨j, -, hj⟩ := prefix_of_mem_placedAll cs a 0 c hc
    rw [heq] at hj
    have := hj.length_le
    simp only [List.length_append, List.length_singleton] at this
    omega

theorem nodup_placedAll : ∀ (cs : List Tree) (a : List Nat) (i : Nat),
    ((placedAll a i cs).map (·.address)).Nodup
  | [], a, i => by simp
  | d :: cs, a, i => by
    rw [placedAll_cons, List.map_append, List.nodup_append]
    refine ⟨nodup_placed d _, nodup_placedAll cs a (i + 1), ?_⟩
    intro x hx y hy hxy
    obtain ⟨c, hc, rfl⟩ := List.mem_map.1 hx
    obtain ⟨e, he, rfl⟩ := List.mem_map.1 hy
    obtain ⟨j, hj, hprefix⟩ := prefix_of_mem_placedAll cs a (i + 1) e he
    have := child_eq_of_prefix (hxy ▸ prefix_of_mem_placed d _ c hc) hprefix
    omega
end

end Tree

end Stylometry
