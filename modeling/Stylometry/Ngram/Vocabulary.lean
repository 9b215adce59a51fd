-- Vocabularies: the keys of a corpus that features are counted for, and the features.
import Stylometry.Ngram.Corpus

namespace Stylometry.Ngram

/-- The most frequent keys of one order, the rarest first. -/
structure Vocabulary where
  order : Order
  keys : List String
  deriving DecidableEq, Repr

namespace Vocabulary

/-- The last `k` keys when the keys are sorted by their counts. Keys with equal counts stay
in the order in which they were first met. -/
def select (t : CorpusTable) (k : Nat) : Vocabulary :=
  let sorted := t.entries.mergeSort fun a b => a.2 ≤ b.2
  ⟨t.order, (sorted.drop (sorted.length - k)).map (·.1)⟩

/-- What stands between two tokens of an n-gram. -/
def tokenSeparator : Text := ";t;".toList

/-- What stands between two n-grams. -/
def ngramSeparator : Text := ";s;".toList

/-- The symbols of the tokens of a key. A key that spells no kinds stands for itself. -/
def meaningOfKey (key : String) : Text :=
  match kindsOfKey? key with
  | some kinds => Text.join tokenSeparator (kinds.map fun k => k.symbol.toList)
  | none => key.toList

/-- The symbols of the tokens of all keys. -/
def meaning (v : Vocabulary) : Text := Text.join ngramSeparator (v.keys.map meaningOfKey)

end Vocabulary

/-- The vocabularies of a corpus, with `k` keys each. -/
def Corpus.vocabularies (c : Corpus) (k : Nat) : List Vocabulary :=
  c.toList.map (Vocabulary.select · k)

/-! ## Features -/

/-- The counts of the keys of a vocabulary, in their order. -/
abbrev Features := List Nat

/-- The features of a file. A key that the file does not have counts zero. -/
def Table.features (t : Table) (v : Vocabulary) : Features := v.keys.map t.get

/-- The counts with commas between them. -/
def Features.render (f : Features) : Text := Text.join [','] (f.map Decimal.digits)

end Stylometry.Ngram
