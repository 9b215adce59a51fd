-- Tables of a corpus in bytes: the order, the number of entries, and each key with the
-- number of its bytes before it and its count after it.
import Stylometry.Bytes
import Stylometry.Ngram.Corpus

namespace Stylometry.Ngram.CorpusTable

/-! ## Writing -/

/-- The bytes of an entry. -/
def entryBytes (e : String × Nat) : Bytes :=
  let key := Bytes.ofString e.1
  Bytes.ofNat 8 key.length ++ key ++ Bytes.ofNat 8 e.2

/-- The bytes of a table. -/
def encode (t : CorpusTable) : Bytes :=
  Bytes.ofNat 4 t.order.index ++ Bytes.ofNat 8 t.size ++ t.entries.flatMap entryBytes

/-! ## Reading -/

/-- The entry at the head of some bytes, and the rest. -/
def readEntry? (bs : Bytes) : Option ((String × Nat) × Bytes) := do
  let (length, bs) ← Bytes.readNat? 8 bs
  let (key, bs) ← Bytes.takeExact? length bs
  let key ← Bytes.toString? key
  let (count, bs) ← Bytes.readNat? 8 bs
  return ((key, count), bs)

/-- The given number of entries at the head of some bytes, and the rest. -/
def readEntries? : Nat → Bytes → Option (List (String × Nat) × Bytes)
  | 0, bs => some ([], bs)
  | n + 1, bs => do
    let (entry, bs) ← readEntry? bs
    let (entries, bs) ← readEntries? n bs
    return (entry :: entries, bs)

/-- The table of some entries. A key that is given twice keeps its first place and takes its
last count. -/
def ofEntries? (order : Order) (entries : List (String × Nat)) : Option CorpusTable :=
  entries.foldlM
    (fun t e => if h : e.2 < countLimit then some (t.put e.1 e.2 h) else none) (empty order)

/-- The table at the head of some bytes, and the rest. -/
def decode? (bs : Bytes) : Option (CorpusTable × Bytes) := do
  let (index, bs) ← Bytes.readNat? 4 bs
  let order ← Order.ofIndex? index
  let (size, bs) ← Bytes.readNat? 8 bs
  let (entries, bs) ← readEntries? size bs
  return (← ofEntries? order entries, bs)

end Stylometry.Ngram.CorpusTable
