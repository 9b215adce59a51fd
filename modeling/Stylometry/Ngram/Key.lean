-- Keys of n-grams: the codes of the kinds of its tokens with bars between them.
import Stylometry.Decimal.Whole
import Stylometry.Token.Kind

namespace Stylometry.Ngram

/-- The key of the kinds of an n-gram. -/
def key (kinds : List Kind) : String :=
  String.ofList (Text.join ['|'] (kinds.map fun k => Decimal.digits k.code))

/-- The kind whose code a text spells. A plus sign and zeros may stand in front. -/
def kindOfCode? (t : Text) : Option Kind :=
  let unsigned := match t with
    | '+' :: t => t
    | t => t
  (Decimal.value? unsigned).bind Kind.ofCode?

/-- The kinds that a key spells. There are none when one of its parts spells no kind. -/
def kindsOfKey? (s : String) : Option (List Kind) :=
  (Text.splitOn '|' s.toList).mapM kindOfCode?

/-- A code is read back as its kind. -/
theorem kindOfCode?_digits (k : Kind) : kindOfCode? (Decimal.digits k.code) = some k := by
  have hplus : ∀ t, Decimal.digits k.code ≠ '+' :: t := fun t h => by
    have hmem : '+' ∈ Decimal.digits k.code := h ▸ List.mem_cons_self ..
    exact Decimal.not_mem_digits (by decide) _ hmem
  unfold kindOfCode?
  split
  · next t h => exact absurd h (hplus t)
  · simp [Decimal.value?_digits, Kind.ofCode?_code]

end Stylometry.Ngram
