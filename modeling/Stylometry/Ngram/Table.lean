-- Frequency tables of n-grams. The keys stand in the order in which they were first met,
-- so that ties between equal counts go the same way on every run.
import Stylometry.Count
import Stylometry.Ngram.Key
import Stylometry.Ngram.Order

namespace Stylometry.Ngram

/-- A frequency table of keys. -/
structure Table where
  entries : Occurrences String
  nodup : entries.keys.Nodup
  deriving DecidableEq

namespace Table

/-- The table without keys. -/
def empty : Table := ⟨[], by simp [Occurrences.keys]⟩

/-- The count of a key. A key that is not in the table has count zero. -/
def get (t : Table) (key : String) : Nat := t.entries.count key

/-- The number of keys. -/
def size (t : Table) : Nat := t.entries.length

/-- Whether there is no key. -/
def isEmpty (t : Table) : Bool := t.entries.isEmpty

/-- Raises the count of a key by `n`. -/
def raise (t : Table) (key : String) (n : Nat) : Table :=
  ⟨t.entries.add key n, Occurrences.nodup_add t.nodup⟩

/-- Raises the count of a key by `n`, if the sum fits. -/
def add (t : Table) (key : String) (n : Nat) : Except Fault Table :=
  if t.get key + n < countLimit then .ok (t.raise key n) else .error .overflow

/-- The table of some entries, where counts of one key are added. -/
def ofEntries (entries : List (String × Nat)) : Except Fault Table :=
  entries.foldlM (fun t e => t.add e.1 e.2) empty

/-- The sum of all counts, if it fits. -/
def total (t : Table) : Except Fault Nat := sumCounts (t.entries.map (·.2))

/-- Whether two tables have the same counts. The places of the keys do not matter. -/
def sameCounts (t u : Table) : Bool :=
  t.size = u.size && t.entries.all fun e => e ∈ u.entries

end Table

/-! ## Counting the windows of a token stream -/

/-- The stretches of `n` things in a row, for `n` above zero. -/
def windows (n : Nat) : List α → List (List α)
  | [] => []
  | a :: rest =>
    let first := (a :: rest).take n
    if first.length = n then first :: windows n rest else windows n rest

/-- The table of the windows of one order. -/
def count (order : Order) (kinds : List Kind) : Table :=
  (windows order.length kinds).foldl (fun t w => t.raise (key w) 1) .empty

/-- The keys that grow from a key by the kinds that follow, at most `limit` of them. -/
def growingKeys (key : Text) (limit : Nat) (kinds : List Kind) : List Text :=
  match limit, kinds with
  | limit + 1, k :: rest =>
    let key := key ++ '|' :: Decimal.digits k.code
    key :: growingKeys key limit rest
  | _, _ => []

/-- Counts one key for each order, the first key for the shortest. -/
def raiseAll (tables : PerOrder Table) (keys : List Text) : PerOrder Table :=
  (Order.all.zip keys).foldl
    (fun tables (o, key) => tables.set o ((tables.get o).raise (String.ofList key) 1)) tables

/-- Counts the windows of all orders that start at each place, on top of some tables. -/
def countFrom (tables : PerOrder Table) : List Kind → PerOrder Table
  | [] => tables
  | k :: rest =>
    countFrom (raiseAll tables (growingKeys (Decimal.digits k.code) 4 rest)) rest

/-- The tables of all orders, in one pass over the stream. Each key grows from the one
that is shorter by a token. -/
def countAll (kinds : List Kind) : PerOrder Table := countFrom (.ofFn fun _ => .empty) kinds

end Stylometry.Ngram
