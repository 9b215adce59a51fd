-- Listings of parse trees. The parser of the grammar is a program of its own; it leaves the
-- tree of a source in a file beside the source, as a list of nodes in preorder.
import Stylometry.Files.Store
import Stylometry.Grammar.ParseTree
import Stylometry.Json.Reader
import Stylometry.Tree.Walk

namespace Stylometry.ParseTree

/-- A node of a listing with its depth: the depth, the kind, the flags, the field and the
bytes that it covers. The flags are bits for named, missing, error and error below. Rows and
columns are not listed, they follow from the source. -/
def entryOf? (source : Text) (d : Datum) : Option (Nat × Mark) :=
  match d with
  | .list [depth, kind, flags, field, start, stop] => do
    let flags ← flags.count?
    return (← depth.count?, Mark.counted source {
      kind := String.ofList (← kind.text?)
      named := flags.testBit 0
      missing := flags.testBit 1
      isError := flags.testBit 2
      hasError := flags.testBit 3
      field := field.text?.map String.ofList
      start := ← start.count?
      stop := ← stop.count? })
  | _ => none

/-- The parse tree of a source that a listing describes. -/
def ofListing? (source listing : Text) : Option ParseTree := do
  let entries ← (← Json.read? listing).list? (entryOf? source)
  (Tree.nest ParseTree.node entries).head?

/-- A tree for a source that was not parsed: all of it is an error. -/
def unparsed (source : Text) : ParseTree :=
  .node
    (Mark.counted source
      { kind := "ERROR", isError := true, hasError := true, start := 0,
        stop := Text.byteLength source })
    []

/-- What the name of a listing has after the name of its source. -/
def listingSuffix : Text := ".cst".toList

/-- The parse tree of a source, from the listing beside it. -/
def beside (store : Files.Store) (id source : Text) : ParseTree :=
  match store.readText (id ++ listingSuffix) with
  | .ok listing => (ofListing? source listing).getD (.unparsed source)
  | .error _ => .unparsed source

end Stylometry.ParseTree
