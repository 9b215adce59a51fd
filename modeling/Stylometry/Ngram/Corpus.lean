-- Tables of a whole corpus: one for each order, to which the tables of the files are added.
import Stylometry.Ngram.Table

namespace Stylometry.Ngram

/-- The counts of one order over a corpus. -/
structure CorpusTable where
  order : Order
  table : Table
  /-- Every count fits into 64 bits. -/
  fits : ∀ e ∈ table.entries, e.2 < countLimit
  deriving DecidableEq

namespace CorpusTable

/-- The table without keys. -/
def empty (order : Order) : CorpusTable := ⟨order, .empty, by simp [Table.empty]⟩

/-- The keys with their counts, in the order in which they were first met. -/
def entries (t : CorpusTable) : List (String × Nat) := t.table.entries

/-- The count of a key. A key that is not in the table has count zero. -/
def get (t : CorpusTable) (key : String) : Nat := t.table.get key

/-- The number of keys. -/
def size (t : CorpusTable) : Nat := t.table.size

/-- Raises the count of a key by `n`, if the sum fits. -/
def add (t : CorpusTable) (key : String) (n : Nat) : Except Fault CorpusTable :=
  if h : t.get key + n < countLimit then
    .ok ⟨t.order, t.table.raise key n, fun e he =>
      (Occurrences.mem_add he).elim (t.fits e) fun heq => heq ▸ h⟩
  else .error .overflow

/-- Adds some entries, from the first to the last. -/
def addAll (t : CorpusTable) (entries : List (String × Nat)) : Except Fault CorpusTable :=
  entries.foldlM (fun t e => t.add e.1 e.2) t

/-- Adds the table of a file. -/
def merge (t : CorpusTable) (file : Table) : Except Fault CorpusTable := t.addAll file.entries

/-- The sum of some tables of files, merged in their order. -/
def merged (order : Order) (files : List Table) : Except Fault CorpusTable :=
  files.foldlM merge (empty order)

/-- Adds another table of the same order. -/
def absorb (t other : CorpusTable) : Except Fault CorpusTable :=
  if t.order = other.order then t.addAll other.entries else .error .mixedOrders

/-- Sets the count of a key. -/
def put (t : CorpusTable) (key : String) (n : Nat) (h : n < countLimit) : CorpusTable :=
  ⟨t.order, ⟨t.table.entries.put key n, Occurrences.nodup_put t.table.nodup⟩, fun e he =>
    (Occurrences.mem_put he).elim (t.fits e) fun heq => heq ▸ h⟩

/-- Whether two tables have the same order and the same counts. -/
def sameCounts (t u : CorpusTable) : Bool := t.order = u.order && t.table.sameCounts u.table

end CorpusTable

/-! ## All orders -/

/-- The tables of a corpus for all orders. -/
abbrev Corpus := PerOrder CorpusTable

namespace Corpus

/-- The tables without keys. -/
def empty : Corpus := .ofFn CorpusTable.empty

/-- Adds the tables of a file. -/
def mergeFile (c : Corpus) (file : PerOrder Table) : Except Fault Corpus :=
  PerOrder.ofFnM fun o => (c.get o).merge (file.get o)

/-- Adds the tables of another corpus. -/
def absorb (c other : Corpus) : Except Fault Corpus :=
  PerOrder.ofFnM fun o => (c.get o).absorb (other.get o)

/-- The tables of some files, merged in their order. -/
def ofFiles (files : List (PerOrder Table)) : Except Fault Corpus := files.foldlM mergeFile empty

end Corpus
end Stylometry.Ngram
