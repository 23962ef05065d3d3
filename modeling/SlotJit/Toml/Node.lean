/-!
# TOML values

A document is a tree of values and tables. Entries of a table keep the order in which they were
made. Tables remember how they came about, because that decides which later lines may add to them.
-/

namespace SlotJit.Toml

/-- How a table came about. -/
inductive TableKind where
  /-- Written in braces. -/
  | inline
  /-- Made by dotted keys between braces. -/
  | inlineDotted
  /-- The document itself, or opened by a header. -/
  | header
  /-- Made on the way to a deeper header. -/
  | implied
  /-- Made by dotted keys on lines of their own. -/
  | dotted
deriving DecidableEq, Repr

/-- Whether a table is a value, to which later lines cannot add. -/
def TableKind.isValue : TableKind → Bool
  | inline | inlineDotted => true
  | header | implied | dotted => false

/-- A value or table. -/
inductive Node where
  | string (text : String)
  | integer (value : Int64)
  /-- A double-precision number as its bit pattern. -/
  | float (bits : Nat)
  | boolean (value : Bool)
  /-- A date, a time or both. -/
  | dateTime
  | array (items : List Node)
  | table (kind : TableKind) (entries : List (String × Node))
  /-- The tables of double-bracketed headers with one name. -/
  | tables (items : List (List (String × Node)))

/-- The entries of a table. -/
abbrev Entries := List (String × Node)

/-- A dotted key. -/
abbrev Path := List String

namespace Entries

/-- The entry of a key. -/
def get? (entries : Entries) (key : String) : Option Node := entries.lookup key

/-- Replace the entry of a key in its place, or add it at the end. -/
def put (key : String) (node : Node) : Entries → Entries
  | [] => [(key, node)]
  | (k, n) :: rest => if k = key then (k, node) :: rest else (k, n) :: put key node rest

/-- Remove the entry of a key. -/
def erase (entries : Entries) (key : String) : Entries := entries.filter fun (k, _) => k ≠ key

end Entries

/-! ### Building tables -/

/-- Change the table at a path, making the tables on the way that are missing. A new table is of the
given kind. Dotted keys cannot pass through a table that a header opened, and nothing passes through
a value. The last of several tables of one name is the one that is meant. -/
def modifyAt (fresh : TableKind) (f : TableKind → Entries → Option Entries) (kind : TableKind)
    (entries : Entries) : Path → Option Entries
  | [] => f kind entries
  | key :: path =>
    match entries.get? key with
    | none => (modifyAt fresh f fresh [] path).map fun inner => entries.put key (.table fresh inner)
    | some (.table kind inner) =>
      if kind.isValue ∨ (fresh = .dotted ∧ kind = .header) then none
      else (modifyAt fresh f kind inner path).map fun inner => entries.put key (.table kind inner)
    | some (.tables items) =>
      match items.reverse with
      | last :: earlier =>
        (modifyAt fresh f .header last path).map fun last =>
          entries.put key (.tables (last :: earlier).reverse)
      | [] => none
    | some _ => none

/-- Add an entry that must be new. -/
def addNew (key : String) (node : Node) (entries : Entries) : Option Entries :=
  match entries.get? key with
  | none => some (entries ++ [(key, node)])
  | some _ => none

/-- Add a line `path.key = node` to a table. A dotted key adds to tables made by dotted keys
only. -/
def addPair (path : Path) (key : String) (node : Node) (kind : TableKind) (entries : Entries) :
    Option Entries :=
  modifyAt .dotted (fun kind entries =>
    if path ≠ [] ∧ kind ≠ .dotted then none else addNew key node entries) kind entries path

/-- Open a table under a parent. A table made on the way to a deeper header is kept and moves to the
end; any other entry of that name is in the way. -/
def openTable (key : String) (entries : Entries) : Option Entries :=
  match entries.get? key with
  | none => some (entries ++ [(key, .table .header [])])
  | some (.table .implied inner) => some (entries.erase key ++ [(key, .table .header inner)])
  | some _ => none

/-- Open one more table of a name under a parent. -/
def openNext (key : String) (entries : Entries) : Option Entries :=
  match entries.get? key with
  | none => some (entries ++ [(key, .tables [[]])])
  | some (.tables items) => some (entries.put key (.tables (items ++ [[]])))
  | some _ => none

/-- A dotted key and a value. -/
structure Pair where
  path : Path
  key : String
  node : Node

/-- Change the table between braces at a path, making the tables on the way that are missing. Only
tables made by dotted keys are passed through. -/
def modifyInline (f : TableKind → Entries → Option Entries) (kind : TableKind) (entries : Entries) :
    Path → Option Entries
  | [] => f kind entries
  | key :: path =>
    match entries.get? key with
    | none =>
      (modifyInline f .inlineDotted [] path).map fun inner =>
        entries.put key (.table .inlineDotted inner)
    | some (.table .inlineDotted inner) =>
      (modifyInline f .inlineDotted inner path).map fun inner =>
        entries.put key (.table .inlineDotted inner)
    | some _ => none

/-- The table of the pairs between braces. -/
def inlineTable? (pairs : List Pair) : Option Node :=
  let entries? := pairs.foldlM (fun entries p =>
    modifyInline (fun _ => addNew p.key p.node) .inline entries p.path) []
  entries?.map (.table .inline)

/-! ### Documents -/

/-- A header line. -/
structure Header where
  /-- Whether the brackets are doubled. -/
  repeated : Bool
  path : Path
  key : String

/-- A header and the pairs below it. -/
structure Section where
  header : Header
  pairs : List Pair

/-- The path and last key of a full path. -/
def splitPath? (full : Path) : Option (Path × String) :=
  match full.reverse with
  | [] => none
  | key :: path => some (path.reverse, key)

/-- Add pairs to the table at a path. -/
def addPairs (at_ : Path) (entries : Entries) (pairs : List Pair) : Option Entries :=
  pairs.foldlM (fun entries p =>
    modifyAt .implied (addPair p.path p.key p.node) .header entries at_) entries

/-- Add a section to a document. -/
def addSection (entries : Entries) (s : Section) : Option Entries := do
  let opened ← modifyAt .implied
    (fun _ => if s.header.repeated then openNext s.header.key else openTable s.header.key)
    .header entries s.header.path
  addPairs (s.header.path ++ [s.header.key]) opened s.pairs

/-- The tree of a document: the pairs before the first header and the sections. -/
def ofSections? (pairs : List Pair) (sections : List Section) : Option Entries := do
  sections.foldlM addSection (← addPairs [] [] pairs)

end SlotJit.Toml
