import SlotJit.Toml.Number

/-!
# TOML documents

Reads a document: lines with pairs, headers, comments and blank lines. `parse?` gives the entries of
the document, or nothing if the text is no document.
-/

namespace SlotJit.Toml

/-- Items with commas between them, at most as many as the first text has characters. -/
def separated {α : Type} (item : Reader α) : List Char → Reader (List α)
  | [], _ => none
  | _ :: fuel, cs =>
    match item cs with
    | none => none
    | some (a, ',' :: rest) => (separated item fuel rest).map fun (as, rest) => (a :: as, rest)
    | some (a, rest) => some ([a], rest)

/-- The items of an array after its opening bracket, at most as many as the first text has
characters, each with filler around it. A comma may follow the last. -/
def arrayItems (value : Reader Node) : List Char → Reader (List Node)
  | [], _ => none
  | _ :: fuel, cs =>
    match skipFiller cs with
    | none => none
    | some (']' :: rest) => some ([], rest)
    | some cs =>
      match value cs with
      | none => none
      | some (node, rest) =>
        match skipFiller rest with
        | some (',' :: rest) =>
            (arrayItems value fuel rest).map fun (as, rest) => (node :: as, rest)
        | some (']' :: rest) => some ([node], rest)
        | _ => none

/-- A key, an equals sign and a value with blanks before it. -/
def pair (value : Reader Node) (cs : List Char) : Option (Pair × List Char) := do
  let (full, rest) ← key cs
  let (path, key) ← splitPath? full
  let (node, rest) ← value (skipBlanks (← after? '=' rest))
  return ({ path, key, node }, rest)

/-- A table between braces, after the opening one. -/
def inlineBody (value : Reader Node) (cs : List Char) : Option (Node × List Char) :=
  let padded (cs : List Char) : Option (Pair × List Char) :=
    (pair value cs).map fun (p, rest) => (p, skipBlanks rest)
  match skipBlanks cs with
  | '\x7d' :: rest => some (.table .inline [], rest)
  | cs => do
    let (pairs, rest) ← separated padded cs cs
    return (← inlineTable? pairs, ← after? '\x7d' rest)

/-- The rest after a word. -/
def word? : List Char → List Char → Option (List Char)
  | [], cs => some cs
  | w :: ws, c :: cs => if w = c then word? ws cs else none
  | _ :: _, [] => none

/-- A value that holds no other values. -/
def scalar (cs : List Char) : Option (Node × List Char) :=
  match cs with
  | '"' :: _ | '\'' :: _ => (string cs).map fun (s, rest) => (.string s, rest)
  | 't' :: _ => (word? "true".toList cs).map (Node.boolean true, ·)
  | 'f' :: _ => (word? "false".toList cs).map (Node.boolean false, ·)
  | _ => number cs

/-- A value in which others are nested at most so deep. -/
def value : Nat → Reader Node
  | 0, cs => scalar cs
  | depth + 1, cs =>
    match cs with
    | '[' :: cs =>
      (arrayItems (value depth) cs cs).map fun (items, rest) => (.array items, rest)
    | '\x7b' :: cs => inlineBody (value depth) cs
    | cs => scalar cs

/-- A header line. -/
def header (cs : List Char) : Option (Header × List Char) := do
  let repeated := cs.take 2 == ['[', '[']
  let (full, rest) ← key (cs.drop (if repeated then 2 else 1))
  let (path, key) ← splitPath? full
  let rest ← after? ']' rest
  let rest ← if repeated then after? ']' rest else some rest
  return ({ repeated, path, key }, ← endOfLine? rest)

/-- What a line holds. -/
inductive Line where
  | blank
  | pair (pair : Pair)
  | header (header : Header)

/-- A line, blanks before it skipped. -/
def line (cs : List Char) : Option (Line × List Char) :=
  match cs with
  | '#' :: _ | '\n' :: _ | '\r' :: _ => (endOfLine? cs).map (Line.blank, ·)
  | '[' :: _ => (header cs).map fun (h, rest) => (.header h, rest)
  | _ => do
    let (p, rest) ← pair (value depthLimit) cs
    return (.pair p, ← endOfLine? rest)

/-- The lines of a text, at most `fuel` of them. -/
def lines : Nat → List Char → Option (List Line)
  | 0, _ => none
  | fuel + 1, cs =>
    match skipBlanks cs with
    | [] => some []
    | cs =>
      match line cs with
      | none => none
      | some (l, rest) => (lines fuel rest).map (l :: ·)

/-- Lines as the pairs before the first header and the sections. -/
def sectionsOf : List Line → List Pair × List Section
  | [] => ([], [])
  | .blank :: rest => sectionsOf rest
  | .pair p :: rest =>
    let (pairs, sections) := sectionsOf rest
    (p :: pairs, sections)
  | .header header :: rest =>
    let (pairs, sections) := sectionsOf rest
    ([], { header, pairs } :: sections)

/-- The entries of a document. A byte order mark in front is skipped. -/
def parse? (text : String) : Option Entries := do
  let cs := match text.toList with
    | c :: cs => if c = '\ufeff' then cs else c :: cs
    | [] => []
  let (pairs, sections) := sectionsOf (← lines (cs.length + 1) cs)
  ofSections? pairs sections

end SlotJit.Toml
