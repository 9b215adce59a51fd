-- The order of tokens. Each token is the part of its source where it stands, one after the other,
-- and its line and column are those of that place.
import Stylometry.Proofs.Positions
import Stylometry.Proofs.TokenStream

namespace Stylometry

/-- The table of line starts gives the place of a token. -/
theorem position_of_getElem? {source : Text} {i : Nat} {a : Token}
    (h : (tokenize source)[i]? = some a) :
    a.position = (LineTable.ofText source).position a.position.offset := by
  obtain ⟨before, after, -, -, hposition⟩ := Piece.exists_of_getElem?_place h
  rw [hposition]
  rfl

/-- A token stands where the part of the source before it ends. -/
theorem position_eq_after {source before rest : Text} {i : Nat} {a : Token}
    (h : (tokenize source)[i]? = some a) (hsource : source = before ++ rest)
    (hoffset : a.position.offset = Text.byteLength before) : a.position = .after before := by
  rw [position_of_getElem? h, hoffset, hsource, LineTable.position_byteLength]

/-- A token is a part of its source. -/
theorem exists_part {source : Text} {i : Nat} {a : Token} (h : (tokenize source)[i]? = some a) :
    ∃ before rest, source = before ++ a.text ++ rest ∧ a.position = .after before := by
  obtain ⟨before, after, heq, -, hoffset⟩ := exists_of_getElem?_tokenize h
  have hsource := Piece.flatMap_text_of_eq heq
  simp only [List.flatMap_append, List.flatMap_cons, Piece.text] at hsource
  refine ⟨before.flatMap Piece.text, after.flatMap Piece.text, by simp [← hsource], ?_⟩
  exact position_eq_after h hsource.symm hoffset

theorem text_ne_nil {source : Text} {i : Nat} {a : Token} (h : (tokenize source)[i]? = some a) :
    a.text ≠ [] := by
  intro hempty
  have hlt := offset_lt_stop h
  simp [Token.stop, hempty] at hlt

/-- Of two tokens the later one has the later place. -/
theorem before_of_lt {source : Text} {i j : Nat} {a b : Token}
    (ha : (tokenize source)[i]? = some a) (hb : (tokenize source)[j]? = some b) (hij : i < j) :
    a.position.Before b.position := by
  obtain ⟨before, between, after, heq, -, -, hoffset, hoffset', hbetween⟩ :=
    exists_between ha hb (Nat.le_of_lt hij)
  have hsource := Piece.flatMap_text_of_eq heq
  have hne : between.flatMap Piece.text ≠ [] := by
    rcases hbetween with ⟨-, rfl⟩ | ⟨-, rest, rfl⟩
    · exact absurd hij (Nat.lt_irrefl i)
    · simp [Piece.text, text_ne_nil ha]
  rw [List.flatMap_append] at hsource hoffset'
  have hfirst := position_eq_after ha hsource.symm hoffset
  rw [List.flatMap_append, ← List.append_assoc] at hsource
  have hsecond := position_eq_after hb hsource.symm hoffset'
  rw [hfirst, hsecond]
  exact Position.before_after_append _ hne

/-- The tokens of a source are parts of it, not empty, each at the place where the part before it
ends: its line counts the line feeds before it, its column the bytes after the last of them and its
offset all bytes. They stand in their order without overlap, at later and later places. -/
theorem tokenize_in_order (source : Text) :
    (∀ a ∈ tokenize source, a.text ≠ [] ∧ a.stop ≤ Text.byteLength source ∧
      ∃ before rest, source = before ++ a.text ++ rest ∧ a.position = .after before) ∧
    (tokenize source).Pairwise fun a b =>
      a.stop ≤ b.position.offset ∧ a.position.Before b.position := by
  constructor
  · intro a ha
    obtain ⟨i, hi⟩ := List.mem_iff_getElem?.1 ha
    obtain ⟨before, rest, hsource, hposition⟩ := exists_part hi
    refine ⟨text_ne_nil hi, ?_, before, rest, hsource, hposition⟩
    rw [Token.stop, hposition, hsource]
    simp [Position.after]
  · rw [List.pairwise_iff_getElem]
    intro i j hi hj hij
    have ha := List.getElem?_eq_getElem hi
    have hb := List.getElem?_eq_getElem hj
    exact ⟨stop_le_of_lt ha hb hij, before_of_lt ha hb hij⟩

end Stylometry
