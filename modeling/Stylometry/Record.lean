-- Records: what is written down about one source. A record that is completed has values,
-- and features when a vocabulary was at hand.
import Stylometry.Json.Reader
import Stylometry.Json.Writer
import Stylometry.Measure.Values
import Stylometry.Ngram.Order

namespace Stylometry

/-- The record of one source. -/
structure Record where
  id : Text
  completed : Bool
  requiresExpansion : Bool
  values : Option (Measures Float)
  /-- The encoded features of each order. -/
  features : PerOrder (Option Text)

namespace Record

/-- The record of a source that could not be measured. -/
def incomplete (id : Text) (requiresExpansion : Bool) : Record :=
  ⟨id, false, requiresExpansion, none, .ofFn fun _ => none⟩

/-- The record of a source with measures. A measure that is no finite number makes it
incomplete. -/
def ofMeasures (id : Text) (values : Measures Float) : Record :=
  match values.firstInvalid? with
  | some _ => incomplete id false
  | none => { incomplete id false with completed := true, values := some values }

/-- The record with features for one order. -/
def withFeatures (r : Record) (o : Order) (encoded : Text) : Record :=
  { r with features := r.features.set o (some encoded) }

/-! ## Records as data -/

/-- The names of the fields. -/
def fieldNames : List String := ["id", "completed", "requires_preprocessing", "values", "ngrams"]

/-- The measures as data. -/
def measuresDatum (m : Measures Float) : Datum :=
  .table (m.fields.map fun f => (f.1.toList, .float f.2))

/-- The features as data. -/
def featuresDatum (features : PerOrder (Option Text)) : Datum :=
  .table (Order.all.map fun o =>
    (o.name.toList, match features.get o with
      | some encoded => .string encoded
      | none => .null))

/-- The record as data. -/
def datum (r : Record) : Datum :=
  .table (fieldNames.map String.toList |>.zip
    [.string r.id, .bool r.completed, .bool r.requiresExpansion,
     match r.values with
      | some values => measuresDatum values
      | none => .null,
     featuresDatum r.features])

/-- The measures from data. All of them have to be given. -/
def measuresOf? (d : Datum) : Option (Measures Float) := do
  let g ← d.given? Measures.names
  let values ← (List.range Measures.names.length).mapM fun place => g.required? place Datum.float?
  Measures.ofList? values

/-- The features from data. -/
def featuresOf? (d : Datum) : Option (PerOrder (Option Text)) := do
  let g ← d.given? (Order.all.map Order.name)
  PerOrder.ofFnM fun o => g.optional? o.index Datum.text?

/-- The record from data. Where names are given, values and features may be missing. -/
def ofDatum? (d : Datum) : Option Record := do
  let g ← d.given? fieldNames
  return {
    id := ← g.required? 0 Datum.text?
    completed := ← g.required? 1 Datum.bool?
    requiresExpansion := ← g.required? 2 Datum.bool?
    values := ← g.optional? 3 measuresOf?
    features := ← g.defaulted? 4 (.ofFn fun _ => none) featuresOf? }

/-- The record that a text in JSON spells. -/
def parse? (t : Text) : Option Record := (Json.read? t).bind ofDatum?

end Record

/-! ## From the tally to the record -/

/-- The record of what was tallied for a source. A measure that does not exist makes it
incomplete. -/
def Tally.record (s : Tally) (id : Text) (inputs : MeasureInputs Float) : Except Fault Record :=
  match s.measure inputs with
  | .ok values => .ok (.ofMeasures id values)
  | .error (.degenerate _) => .ok (.incomplete id false)
  | .error (.fault f) => .error f

end Stylometry
