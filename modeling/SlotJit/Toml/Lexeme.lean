/-!
# Parts of TOML text

Readers take the characters that are left and return what they read and the rest. Line ends are a
line feed, alone or after a carriage return; blanks are spaces and tabs.
-/

namespace SlotJit.Toml

/-- Reads something off the front of a text. -/
abbrev Reader (α : Type) := List Char → Option (α × List Char)

/-- A blank. -/
def isBlank (c : Char) : Bool := c = ' ' || c = '\t'

/-- A character that may stand in comments and literal text: no control character but the tab. -/
def isPrintable (c : Char) : Bool := c = '\t' || (0x20 ≤ c.toNat && c.toNat ≠ 0x7f)

/-- Skip blanks. -/
def skipBlanks (cs : List Char) : List Char := cs.dropWhile isBlank

/-- The rest after a line end. -/
def lineEnd? : List Char → Option (List Char)
  | '\n' :: cs => some cs
  | '\r' :: '\n' :: cs => some cs
  | _ => none

theorem lineEnd?_length {cs rest : List Char} (h : lineEnd? cs = some rest) :
    rest.length < cs.length := by
  unfold lineEnd? at h
  split at h
  · cases h
    exact Nat.lt_succ_self _
  · cases h
    simp only [List.length_cons]
    omega
  · cases h

/-- The rest after a comment, if there is one. -/
def skipComment : List Char → List Char
  | '#' :: cs => cs.dropWhile isPrintable
  | cs => cs

/-- What must follow on a line that is complete: blanks, a comment or none, and a line end or the
end of the text. -/
def endOfLine? (cs : List Char) : Option (List Char) :=
  match skipComment (skipBlanks cs) with
  | [] => some []
  | cs => lineEnd? cs

theorem length_dropWhile_le (p : Char → Bool) (cs : List Char) :
    (cs.dropWhile p).length ≤ cs.length :=
  List.Sublist.length_le (List.dropWhile_sublist p)

theorem length_skipComment_le (cs : List Char) : (skipComment cs).length ≤ cs.length := by
  unfold skipComment
  split
  · exact Nat.le_trans (length_dropWhile_le _ _) (by simp)
  · exact Nat.le_refl _

/-- Skip blanks and line ends. -/
def skipLines (cs : List Char) : List Char :=
  match _h : lineEnd? (skipBlanks cs) with
  | some rest => skipLines rest
  | none => skipBlanks cs
termination_by cs.length
decreasing_by
  exact Nat.lt_of_lt_of_le (lineEnd?_length _h) (length_dropWhile_le _ _)

/-- Skip blanks, line ends and comments. A comment must end with a line end. -/
def skipFiller (cs : List Char) : Option (List Char) :=
  match _h : lineEnd? (skipComment (skipBlanks cs)) with
  | some rest => skipFiller rest
  | none => if (skipBlanks cs).head? = some '#' then none else some (skipBlanks cs)
termination_by cs.length
decreasing_by
  exact Nat.lt_of_lt_of_le (lineEnd?_length _h)
    (Nat.le_trans (length_skipComment_le _) (length_dropWhile_le _ _))

/-! ### Strings -/

/-- The value of a hexadecimal digit. -/
def hexDigit? (c : Char) : Option Nat :=
  if c.isDigit then some (c.toNat - '0'.toNat)
  else if 'a' ≤ c ∧ c ≤ 'f' then some (c.toNat - 'a'.toNat + 10)
  else if 'A' ≤ c ∧ c ≤ 'F' then some (c.toNat - 'A'.toNat + 10)
  else none

/-- The character whose code is given by this many hexadecimal digits. -/
def hexChar? (count : Nat) (cs : List Char) : Option (Char × List Char) := do
  let digits ← (cs.take count).mapM hexDigit?
  let code := digits.foldl (fun n d => n * 16 + d) 0
  if digits.length = count ∧ code.isValidChar then some (Char.ofNat code, cs.drop count) else none

/-- The character that an escape stands for, after its backslash. -/
def escape? : List Char → Option (Char × List Char)
  | 'b' :: cs => some ('\x08', cs)
  | 't' :: cs => some ('\t', cs)
  | 'n' :: cs => some ('\n', cs)
  | 'f' :: cs => some ('\x0c', cs)
  | 'r' :: cs => some ('\r', cs)
  | '"' :: cs => some ('"', cs)
  | '\\' :: cs => some ('\\', cs)
  | 'u' :: cs => hexChar? 4 cs
  | 'U' :: cs => hexChar? 8 cs
  | _ => none

/-- The rest of a string after its opening quotation mark. The first text, which is as long as what
is left to read, bounds the number of characters; the characters read so far come last first. -/
def basicBody : List Char → List Char → Reader String
  | [], _, _ => none
  | _ :: fuel, acc, cs =>
    match cs with
    | '"' :: cs => some (String.ofList acc.reverse, cs)
    | '\\' :: cs =>
      match escape? cs with
      | some (c, cs) => basicBody fuel (c :: acc) cs
      | none => none
    | c :: cs => if isPrintable c then basicBody fuel (c :: acc) cs else none
    | [] => none

/-- The rest of a literal string after its opening apostrophe. -/
def literalBody (cs : List Char) : Option (String × List Char) :=
  let inside (c : Char) : Bool := isPrintable c && c ≠ '\''
  match cs.dropWhile inside with
  | '\'' :: rest => some (String.ofList (cs.takeWhile inside), rest)
  | _ => none

/-- The rest after a run of quotes that ends a string of several lines, and how many quotes of the
run belong to the string: a run of three to five ends it. -/
def closing? (quote : Char) (cs : List Char) : Option (Nat × List Char) :=
  let run := (cs.take 5).takeWhile (· = quote)
  if 3 ≤ run.length then some (run.length - 3, cs.drop run.length) else none

/-- The rest of a string of several lines. With escapes, a backslash before a line end skips that
and all blanks and line ends after it. The first text bounds the number of characters. -/
def multilineBody (quote : Char) (escapes : Bool) : List Char → List Char → Reader String
  | [], _, _ => none
  | _ :: fuel, acc, cs =>
    match closing? quote cs with
    | some (more, rest) => some (String.ofList (List.replicate more quote ++ acc).reverse, rest)
    | none =>
      match lineEnd? cs with
      | some cs => multilineBody quote escapes fuel ('\n' :: acc) cs
      | none =>
        match cs with
        | [] => none
        | c :: cs =>
          if escapes ∧ c = '\\' then
            match lineEnd? (skipBlanks cs), escape? cs with
            | some cs, _ => multilineBody quote escapes fuel acc (skipLines cs)
            | none, some (c, cs) => multilineBody quote escapes fuel (c :: acc) cs
            | none, none => none
          else if isPrintable c then multilineBody quote escapes fuel (c :: acc) cs
          else none

/-- A string of several lines after its opening quotes. A line end right after them is skipped. -/
def multiline (quote : Char) (escapes : Bool) (cs : List Char) : Option (String × List Char) :=
  multilineBody quote escapes cs [] ((lineEnd? cs).getD cs)

/-- A string on one line. -/
def lineString : Reader String
  | '"' :: cs => basicBody cs [] cs
  | '\'' :: cs => literalBody cs
  | _ => none

/-- A string. -/
def string : Reader String
  | '"' :: '"' :: '"' :: cs => multiline '"' true cs
  | '\'' :: '\'' :: '\'' :: cs => multiline '\'' false cs
  | cs => lineString cs

/-! ### Keys -/

/-- A character of a bare key. -/
def isBareKeyChar (c : Char) : Bool := c.isAlphanum || c = '-' || c = '_'

/-- One part of a dotted key. -/
def keyPart (cs : List Char) : Option (String × List Char) :=
  match cs with
  | '"' :: _ | '\'' :: _ => lineString cs
  | _ =>
    let name := cs.takeWhile isBareKeyChar
    if name.isEmpty then none else some (String.ofList name, cs.dropWhile isBareKeyChar)

/-- The parts of a dotted key with blanks around each, at most `fuel` of them. -/
def keyParts : Nat → Reader (List String)
  | 0, _ => none
  | fuel + 1, cs =>
    match keyPart (skipBlanks cs) with
    | none => none
    | some (part, rest) =>
      match skipBlanks rest with
      | '.' :: rest => (keyParts fuel rest).map fun (parts, rest) => (part :: parts, rest)
      | rest => some ([part], rest)

/-- Values may be nested this deep, and dotted keys may have this many parts. -/
def depthLimit : Nat := 79

/-- A dotted key. -/
def key : Reader (List String) := keyParts depthLimit

end SlotJit.Toml
