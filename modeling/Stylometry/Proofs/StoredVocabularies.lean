-- Vocabularies that are stored and loaded again. The file of a vocabulary is a text in JSON, and
-- what is loaded from it is the vocabulary that was stored, whatever its keys are.
import Stylometry.Ngram.Storage
import Stylometry.Proofs.JsonTexts
import Stylometry.Proofs.Writes

namespace Stylometry.Ngram.Vocabulary

open Files

theorem isPlain_fileName (o : Order) : IsPlain (fileName o).toList := by
  cases o <;> decide +kernel

theorem fileName_inj {o o' : Order} (h : (fileName o).toList = (fileName o').toList) : o = o' := by
  revert h
  cases o <;> cases o' <;> decide +kernel

/-- No vocabulary has the name of a table. -/
theorem fileName_ne (o o' : Order) : (fileName o).toList ≠ (Corpus.fileName o').toList := by
  cases o <;> cases o' <;> decide +kernel

/-! ## Texts -/

theorem textual_datum (v : Vocabulary) : Json.Textual v.datum := by
  refine .table fun f hf => ?_
  simp only [List.mem_cons, List.not_mem_nil, or_false] at hf
  rcases hf with rfl | rfl
  · exact .string _
  · refine .list fun d hd => ?_
    obtain ⟨key, -, rfl⟩ := List.mem_map.1 hd
    exact .string _

theorem ofDatum?_datum (v : Vocabulary) : ofDatum? v.datum = some v := by
  have hkeys : ∀ keys : List String,
      (keys.map fun key => Datum.string key.toList).mapM (fun d => d.text?.map String.ofList) =
        some keys := by
    intro keys
    induction keys with
    | nil => rfl
    | cons key keys ih =>
      rw [List.map_cons, List.mapM_cons, ih]
      simp [Datum.text?]
  have hgiven : v.datum.given? ["order", "keys"] =
      some ⟨true, [some (.string v.order.name.toList),
        some (.list (v.keys.map fun key => .string key.toList))]⟩ :=
    rfl
  unfold ofDatum?
  rw [hgiven]
  simp [Datum.Given.required?, Datum.Given.at?, Datum.name?, Datum.list?, hkeys]

/-- The text of the file of a vocabulary is read as the vocabulary. -/
theorem ofFileText?_fileText (v : Vocabulary) : ofFileText? v.fileText = some v := by
  rw [ofFileText?, fileText, Json.pretty, Json.read?_write Json.isBlank_pretty v.textual_datum]
  exact v.ofDatum?_datum

/-! ## Files -/

/-- The bytes of the file of a vocabulary. -/
def fileBytes (v : Vocabulary) : Bytes := Bytes.ofString (String.ofList v.fileText)

/-- A step that succeeds goes on, whatever its error would become. -/
theorem mapError_ok_bind {ε δ α β : Type} (a : α) (f : ε → δ) (g : α → Except δ β) :
    ((Except.ok a).mapError f >>= g) = g a := rfl

theorem load_of_content {s : Store} {path : Path} {v : Vocabulary}
    (h : s.content? path = some v.fileBytes) : load s path = .ok v := by
  have hread : s.read path = .ok v.fileBytes := Store.content?_eq_some.1 h
  have hstring : v.fileBytes.toString? = some (String.ofList v.fileText) :=
    Bytes.toString?_ofString _
  have htext : s.readText path = .ok v.fileText := by
    unfold Store.readText
    rw [hread, mapError_ok_bind, hstring]
    exact congrArg Except.ok String.toList_ofList
  unfold load
  rw [htext, mapError_ok_bind, v.ofFileText?_fileText]
  rfl

end Stylometry.Ngram.Vocabulary
