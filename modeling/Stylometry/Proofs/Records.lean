-- Records from their analysis to their features. A record has values when it is completed and only
-- then, and what is found out about its source stays with it, however often features are asked for.
import Stylometry.Analysis
import Stylometry.Proofs.Archives
import Stylometry.Proofs.HalsteadSums
import Stylometry.Proofs.Parts

namespace Stylometry

open Files Ngram

/-! ## Records of an analysis -/

theorem Measures.firstInvalid?_eq_none_iff {m : Measures Float} :
    m.firstInvalid? = none ↔ ∀ x ∈ m.toList, x.isFinite = true := by
  have hvalues : m.fields.map (·.2) = m.toList := rfl
  rw [firstInvalid?, Option.map_eq_none_iff, List.find?_eq_none, ← hvalues, List.forall_mem_map]
  simp

namespace Record

/-- The record is one that an analysis makes. It has values when it is completed, all of them
finite, and no features yet. -/
structure Analyzed (r : Record) (id : Text) (required : Prop) : Prop where
  id_eq : r.id = id
  requiresExpansion_iff : r.requiresExpansion = true ↔ required
  isSome_values : r.values.isSome = r.completed
  finite : ∀ m, r.values = some m → m.toList.length = 23 ∧ ∀ x ∈ m.toList, x.isFinite = true
  no_features : ∀ o, r.features.get o = none

theorem analyzed_incomplete (id : Text) (required : Bool) :
    (incomplete id required).Analyzed id (required = true) := by
  refine ⟨rfl, Iff.rfl, rfl, ?_, ?_⟩
  · intro m hm
    cases hm
  · intro o
    exact PerOrder.get_ofFn _ o

/-- A record with measures is completed when all of them are finite. -/
theorem analyzed_ofMeasures (id : Text) (values : Measures Float) (required : Bool) :
    { ofMeasures id values with requiresExpansion := required }.Analyzed id (required = true) := by
  unfold ofMeasures
  cases hinvalid : values.firstInvalid? with
  | some name => exact analyzed_incomplete id required
  | none =>
    refine ⟨rfl, Iff.rfl, rfl, ?_, ?_⟩
    · intro m hm
      cases hm
      exact ⟨rfl, Measures.firstInvalid?_eq_none_iff.1 hinvalid⟩
    · intro o
      exact PerOrder.get_ofFn _ o

theorem completed_ofMeasures (id : Text) (values : Measures Float) :
    (ofMeasures id values).completed = true ↔ ∀ x ∈ values.toList, x.isFinite = true := by
  rw [← Measures.firstInvalid?_eq_none_iff, ofMeasures]
  cases values.firstInvalid? <;> simp [incomplete]

end Record

namespace Engine

/-- The Halstead vocabulary and the Halstead length of a prepared source fit into 64 bits. -/
def CountsFit (e : Engine) (id prepared : Text) : Prop :=
  ∀ tally inputs, e.tally id prepared = .ok (tally, inputs) →
    (tally.halstead inputs.lexical).Fit

theorem measure_of_tally {e : Engine} {id prepared : Text} {tally : Tally}
    {inputs : MeasureInputs Float} (h : e.tally id prepared = .ok (tally, inputs)) :
    e.measure id prepared = (tally.record id inputs).mapError .fault := by
  unfold measure
  rw [h]
  rfl

/-- The measures of a source make its record, or the source cannot be measured, or its counts are
too large. -/
theorem measure_cases (e : Engine) (id prepared : Text) :
    (∃ r, e.measure id prepared = .ok r ∧ ∀ required,
        { r with requiresExpansion := required }.Analyzed id (required = true)) ∨
      (∃ why, e.measure id prepared = .error (.failure why)) ∨
      e.measure id prepared = .error (.fault .overflow) ∧ ¬e.CountsFit id prepared := by
  cases htally : e.tally id prepared with
  | error why =>
    refine .inr (.inl ⟨why, ?_⟩)
    unfold measure
    rw [htally]
    rfl
  | ok found =>
    obtain ⟨tally, inputs⟩ := found
    rw [measure_of_tally htally, Tally.record]
    cases hmeasure : tally.measure inputs with
    | ok values => exact .inl ⟨_, rfl, Record.analyzed_ofMeasures id values⟩
    | error why =>
      cases why with
      | degenerate why => exact .inl ⟨_, rfl, Record.analyzed_incomplete id⟩
      | fault f =>
        obtain ⟨rfl, hfit⟩ := Tally.fault_of_measure hmeasure
        exact .inr (.inr ⟨rfl, fun h => hfit (h tally inputs htally)⟩)

theorem record_cases (e : Engine) (id prepared : Text) (required : Bool) :
    (∃ r, e.record id prepared required = .ok r ∧ r.Analyzed id (required = true)) ∨
      e.record id prepared required = .error .overflow ∧ ¬e.CountsFit id prepared := by
  unfold record
  rcases e.measure_cases id prepared with ⟨r, hr, hanalyzed⟩ | ⟨why, hwhy⟩ | ⟨hfault, hfit⟩
  · rw [hr]
    exact .inl ⟨_, rfl, hanalyzed required⟩
  · rw [hwhy]
    exact .inl ⟨_, rfl, Record.analyzed_incomplete id required⟩
  · rw [hfault]
    exact .inr ⟨rfl, hfit⟩

theorem requiresExpansion_iff (e : Engine) (source : Text) :
    e.requiresExpansion source = true ↔ e.settings.expansion.trigger <:+: source :=
  Text.holds_iff

theorem analyze_cases (e : Engine) (id source : Text) :
    (∃ a, e.analyze id source = .ok a ∧
        a.record.Analyzed id (e.settings.expansion.trigger <:+: source)) ∨
      e.analyze id source = .error .overflow ∧ ¬e.CountsFit id (e.prepare source) := by
  unfold analyze
  rw [← requiresExpansion_iff]
  rcases e.record_cases id (e.prepare source) (e.requiresExpansion source) with
    ⟨r, hr, hanalyzed⟩ | ⟨hfault, hfit⟩
  · simp only [hr]
    exact .inl ⟨_, rfl, hanalyzed⟩
  · simp only [hfault]
    exact .inr ⟨rfl, hfit⟩

end Engine

/-! ## Features -/

namespace Record

/-- The records differ in their features at most. -/
structure SameOutline (r r' : Record) : Prop where
  id_eq : r'.id = r.id
  completed_eq : r'.completed = r.completed
  requiresExpansion_eq : r'.requiresExpansion = r.requiresExpansion
  values_eq : r'.values = r.values

theorem SameOutline.refl (r : Record) : r.SameOutline r := ⟨rfl, rfl, rfl, rfl⟩

theorem SameOutline.trans {r r' r'' : Record} (h : r.SameOutline r') (h' : r'.SameOutline r'') :
    r.SameOutline r'' :=
  ⟨h'.id_eq.trans h.id_eq, h'.completed_eq.trans h.completed_eq,
    h'.requiresExpansion_eq.trans h.requiresExpansion_eq, h'.values_eq.trans h.values_eq⟩

theorem sameOutline_encode (r : Record) (file : PerOrder Table) (vocabularies : List Vocabulary) :
    r.SameOutline (r.encode file vocabularies) := by
  induction vocabularies generalizing r with
  | nil => exact .refl r
  | cons v vocabularies ih =>
    have hstep : r.SameOutline (r.withFeatures v.order ((file.get v.order).features v).render) :=
      ⟨rfl, rfl, rfl, rfl⟩
    exact hstep.trans (ih _)

/-- The last vocabulary of an order fills its place. Without one the place is kept. -/
theorem get_features_encode (r : Record) (file : PerOrder Table) (vocabularies : List Vocabulary)
    (o : Order) :
    (r.encode file vocabularies).features.get o =
      match (vocabularies.filter (·.order = o)).getLast? with
      | some v => some ((file.get o).features v).render
      | none => r.features.get o := by
  induction vocabularies generalizing r with
  | nil => rfl
  | cons v vocabularies ih =>
    have hstep : r.encode file (v :: vocabularies) =
        (r.withFeatures v.order ((file.get v.order).features v).render).encode file vocabularies :=
      rfl
    rw [hstep, ih]
    by_cases ho : v.order = o
    · subst ho
      rw [List.filter_cons_of_pos (by simp), List.getLast?_cons]
      cases (vocabularies.filter (·.order = v.order)).getLast? with
      | some last => rfl
      | none => exact PerOrder.get_set_self ..
    · rw [List.filter_cons_of_neg (by simpa using ho)]
      cases (vocabularies.filter (·.order = o)).getLast? with
      | some last => rfl
      | none => exact PerOrder.get_set_of_ne _ _ (Ne.symm ho)

/-- What a call for features does to one record. A record that is not completed or whose file has no
tables stays as it is. In another one the last vocabulary of an order fills the place of the order
with the counts of its keys in the file. -/
structure Encoded (r r' : Record) (tables : List (Text × PerOrder Table))
    (vocabularies : List Vocabulary) : Prop where
  outline : r.SameOutline r'
  skipped : r.completed = false ∨ tables.lookup r.id = none → r' = r
  filled : r.completed = true → ∀ file, tables.lookup r.id = some file →
    ∀ o v, (vocabularies.filter (·.order = o)).getLast? = some v →
      r'.features.get o =
        some (Text.join [','] (v.keys.map fun key => Decimal.digits ((file.get o).get key)))
  kept : ∀ o, (∀ v ∈ vocabularies, v.order ≠ o) → r'.features.get o = r.features.get o

theorem tablesIn?_eq_some {r : Record} {tables : List (Text × PerOrder Table)}
    {file : PerOrder Table} :
    r.tablesIn? tables = some file ↔ r.completed = true ∧ tables.lookup r.id = some file := by
  unfold tablesIn?
  cases r.completed <;> simp

theorem encoded_self {r : Record} {tables : List (Text × PerOrder Table)}
    (h : r.tablesIn? tables = none) (vocabularies : List Vocabulary) :
    r.Encoded r tables vocabularies := by
  refine ⟨.refl r, fun _ => rfl, ?_, fun _ _ => rfl⟩
  intro hcompleted file hfile
  cases h.symm.trans (tablesIn?_eq_some.2 ⟨hcompleted, hfile⟩)

theorem encoded_encode {r : Record} {tables : List (Text × PerOrder Table)}
    {file : PerOrder Table} (h : r.tablesIn? tables = some file)
    (vocabularies : List Vocabulary) :
    r.Encoded (r.encode file vocabularies) tables vocabularies := by
  obtain ⟨hcompleted, hlookup⟩ := tablesIn?_eq_some.1 h
  refine ⟨r.sameOutline_encode file vocabularies, ?_, ?_, ?_⟩
  · rintro (hnot | hnone)
    · rw [hcompleted] at hnot
      cases hnot
    · rw [hlookup] at hnone
      cases hnone
  · intro _ found hfound o v hv
    cases hlookup.symm.trans hfound
    rw [get_features_encode, hv]
    exact congrArg some (congrArg (Text.join [',']) (List.map_map ..))
  · intro o ho
    have hnone : vocabularies.filter (·.order = o) = [] := by
      rw [List.filter_eq_nil_iff]
      intro v hv
      simpa using ho v hv
    rw [get_features_encode, hnone]
    rfl

theorem length_encodeAll (records : List Record) (tables : List (Text × PerOrder Table))
    (vocabularies : List Vocabulary) :
    (encodeAll records tables vocabularies).1.length = records.length := List.length_map ..

theorem getElem?_encodeAll {records : List Record} {i : Nat} {r : Record}
    (hr : records[i]? = some r) (tables : List (Text × PerOrder Table))
    (vocabularies : List Vocabulary) :
    ∃ r', (encodeAll records tables vocabularies).1[i]? = some r' ∧
      r.Encoded r' tables vocabularies := by
  unfold encodeAll
  rw [List.getElem?_map, hr]
  cases htables : r.tablesIn? tables with
  | none => exact ⟨r, by simp [htables], encoded_self htables vocabularies⟩
  | some file => exact ⟨_, by simp [htables], encoded_encode htables vocabularies⟩

theorem count_encodeAll (records : List Record) (tables : List (Text × PerOrder Table))
    (vocabularies : List Vocabulary) :
    (encodeAll records tables vocabularies).2 =
      records.countP fun r => r.completed && (tables.lookup r.id).isSome := by
  have htables : ∀ r : Record,
      (r.tablesIn? tables).isSome = (r.completed && (tables.lookup r.id).isSome) := by
    intro r
    unfold tablesIn?
    cases r.completed <;> rfl
  exact congrArg (records.countP ·) (funext htables)

/-- The tables and the vocabularies of a call for features. -/
structure FeatureCall where
  tables : List (Text × PerOrder Table)
  vocabularies : List Vocabulary

/-- The records after some calls for features. -/
def encodeCalls (records : List Record) (calls : List FeatureCall) : List Record :=
  calls.foldl (fun records call => (encodeAll records call.tables call.vocabularies).1) records

/-- Calls for features keep the places of the records and all that is known about the sources. -/
theorem getElem?_encodeCalls {records : List Record} {i : Nat} {r : Record}
    (hr : records[i]? = some r) (calls : List FeatureCall) :
    ∃ r', (encodeCalls records calls)[i]? = some r' ∧ r.SameOutline r' := by
  induction calls generalizing records r with
  | nil => exact ⟨r, hr, .refl r⟩
  | cons call calls ih =>
    obtain ⟨first, hfirst, hencoded⟩ := getElem?_encodeAll hr call.tables call.vocabularies
    obtain ⟨r', hr', houtline⟩ := ih hfirst
    exact ⟨r', hr', hencoded.outline.trans houtline⟩

theorem length_encodeCalls (records : List Record) (calls : List FeatureCall) :
    (encodeCalls records calls).length = records.length := by
  induction calls generalizing records with
  | nil => rfl
  | cons call calls ih => exact (ih _).trans (length_encodeAll ..)

end Record

/-! ## From the analysis to the features -/

/-- An analysis makes a record that has values, all of them finite, when it is completed and only
then, that says whether the trigger stands in the source that was read, and that has no features.
It stops only when the counts of a source are too large. Any number of calls for features keep the
places of the records and all that is known about the sources. One call fills, in the records that
are completed and whose files have tables, the places of the orders of the vocabularies, and it says
how many records these are. -/
theorem records_of_analysis_and_features (e : Engine) :
    (∀ id source,
      (∃ a, e.analyze id source = .ok a ∧
          a.record.Analyzed id (e.settings.expansion.trigger <:+: source)) ∨
        e.analyze id source = .error .overflow ∧ ¬e.CountsFit id (e.prepare source)) ∧
      (∀ (store : Store) (path : Path),
        (∀ source, store.readSource path = .ok source →
          (∃ a, e.analyzeFile store path = .ok a ∧
              a.record.Analyzed path (e.settings.expansion.trigger <:+: source)) ∨
            e.analyzeFile store path = .error .overflow ∧
              ¬e.CountsFit path (e.prepare source)) ∧
        ∀ why, store.readSource path = .error why →
          ∃ a, e.analyzeFile store path = .ok a ∧ a.record.Analyzed path False ∧
            a.record.completed = false) ∧
      (∀ records calls, (Record.encodeCalls records calls).length = records.length ∧
        ∀ (i : Nat) r, records[i]? = some r →
          ∃ r', (Record.encodeCalls records calls)[i]? = some r' ∧ r.SameOutline r') ∧
      ∀ records tables vocabularies, ∃ rs n,
        Record.encodeAll records tables vocabularies = (rs, n) ∧ rs.length = records.length ∧
          (∀ (i : Nat) r, records[i]? = some r →
            ∃ r', rs[i]? = some r' ∧ r.Encoded r' tables vocabularies) ∧
          n = records.countP fun r => r.completed && (tables.lookup r.id).isSome := by
  refine ⟨e.analyze_cases, ?_, ?_, ?_⟩
  · intro store path
    unfold Engine.analyzeFile
    constructor
    · intro source hsource
      rw [hsource]
      exact e.analyze_cases path source
    · intro why hwhy
      rw [hwhy]
      refine ⟨_, rfl, ?_, rfl⟩
      simpa using Record.analyzed_incomplete path false
  · intro records calls
    exact ⟨Record.length_encodeCalls records calls,
      fun i r hr => Record.getElem?_encodeCalls hr calls⟩
  · intro records tables vocabularies
    exact ⟨_, _, rfl, Record.length_encodeAll .., fun i r hr => Record.getElem?_encodeAll hr ..,
      Record.count_encodeAll records tables vocabularies⟩

/-- A source without tokens. -/
def directive : Text := "#define N 1\n".toList

/-- An engine for the directive. -/
def directiveEngine : Engine where
  tools := Expansion.tools
  parser _ _ := .node { kind := "translation_unit", start := 0, stop := 12, stopPoint := ⟨1, 0⟩ } []
  packer := .stored

/-- A record with values, and one without. -/
def twoRecords : List Record :=
  [⟨['a'], true, true, Measures.ofList? (List.replicate 23 1), .ofFn fun _ => none⟩,
    .incomplete ['b'] false]

/-- A call with two vocabularies of one order. -/
def twoVocabularies : Record.FeatureCall where
  tables := [(['a'], countAll [.identifier, .punctuator .Semi, .identifier])]
  vocabularies := [⟨.bigram, ["1|2", "2|3", "3|4"]⟩,
    ⟨.bigram, [key [.identifier, .punctuator .Semi], ""]⟩]

theorem records_of_directive :
    (∃ a, directiveEngine.analyze ['a'] directive = .ok a ∧ a.record.requiresExpansion = true ∧
        a.record.values.isSome = a.record.completed) ∧
      ∃ rs, Record.encodeAll twoRecords twoVocabularies.tables twoVocabularies.vocabularies =
          (rs, 1) ∧ rs.length = 2 ∧
        ∃ r, rs[0]? = some r ∧ r.features.get .bigram = some "1,0".toList ∧
          r.features.get .trigram = none := by
  obtain ⟨hanalyze, -, -, hencode⟩ := records_of_analysis_and_features directiveEngine
  constructor
  · have htokens : tokenize (directiveEngine.prepare directive) = [] := by decide +kernel
    have hfit : directiveEngine.CountsFit ['a'] (directiveEngine.prepare directive) := by
      intro tally inputs htally
      unfold Engine.tally at htally
      rw [htokens] at htally
      cases htally
    rcases hanalyze ['a'] directive with ⟨a, ha, hrecord⟩ | ⟨-, hlarge⟩
    · refine ⟨a, ha, hrecord.requiresExpansion_iff.2 ?_, hrecord.isSome_values⟩
      exact Text.holds_iff.1 (by decide)
    · exact absurd hfit hlarge
  · obtain ⟨rs, n, hrs, hlength, hrecords, hcount⟩ :=
      hencode twoRecords twoVocabularies.tables twoVocabularies.vocabularies
    obtain ⟨r, hr, hencoded⟩ := hrecords 0 _ rfl
    have hn : n = 1 := hcount.trans rfl
    refine ⟨rs, hn ▸ hrs, hlength, r, hr, ?_, ?_⟩
    · exact (hencoded.filled rfl _ rfl .bigram _ rfl).trans (by decide)
    · exact (hencoded.kept .trigram (by decide)).trans rfl

end Stylometry
