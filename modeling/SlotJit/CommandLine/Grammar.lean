/-!
# Command line words

Sorts the words after a command into options with a value, flags, positional words and trailing
words. Options come anywhere before the trailing words, `--` ends them, and a word that starts with
a dash can be a trailing word but no positional one.
-/

namespace SlotJit.CommandLine

/-- What a positional word stands for. -/
inductive Positional where
  /-- A path, which has at least one character. -/
  | path
  | text
deriving DecidableEq, Repr

/-- Whether a word can stand in a position. -/
def Positional.admits : Positional → String → Bool
  | path, word => !word.isEmpty
  | text, _ => true

/-- The words that a command takes. -/
structure Grammar where
  /-- Options with a value. -/
  options : List String := []
  /-- Options without one. -/
  flags : List String := []
  /-- The positional words in order, all of them needed. -/
  positionals : List Positional
  /-- Whether any words may follow the positional ones. -/
  trailing : Bool := false

/-- The words sorted so far. -/
structure Matches where
  options : List (String × String) := []
  flags : List String := []
  positionals : List String := []
  trailing : List String := []
deriving DecidableEq, Repr

/-- Why the words are not sorted to the end. -/
inductive Stop where
  /-- Help was asked for. -/
  | help
  | misuse
deriving DecidableEq, Repr

/-- What a word looks like. -/
inductive Word where
  | plain
  /-- Two dashes alone. -/
  | separator
  /-- Two dashes, a name, and a value after an equals sign or none. -/
  | long (name : String) (value : Option String)
  /-- A dash and letters. -/
  | short (letters : List Char)
deriving DecidableEq, Repr

/-- The name and the value of a long option. -/
def splitLong (cs : List Char) : String × Option String :=
  let name := String.ofList (cs.takeWhile (· ≠ '='))
  match cs.dropWhile (· ≠ '=') with
  | _ :: value => (name, some (String.ofList value))
  | [] => (name, none)

/-- Look at a word. -/
def Word.ofString (text : String) : Word :=
  match text.toList with
  | ['-', '-'] => .separator
  | '-' :: '-' :: cs =>
    let (name, value) := splitLong cs
    .long name value
  | '-' :: c :: cs => .short (c :: cs)
  | _ => .plain

namespace Grammar

/-- Whether the next word that is no option is a trailing one. -/
def atTrailing (g : Grammar) (m : Matches) : Bool :=
  g.trailing && m.positionals.length == g.positionals.length

/-- Whether a word that starts with a dash is an option; where trailing words may start, only known
options are. -/
def isOption (g : Grammar) (m : Matches) : Word → Bool
  | .plain => false
  | .separator => true
  | .long name _ =>
    !g.atTrailing m || name == "help" || g.options.contains name || g.flags.contains name
  | .short letters => !g.atTrailing m || letters.all (· == 'h')

/-- Take a word as a positional one. -/
def positional (g : Grammar) (m : Matches) (word : String) : Except Stop Matches :=
  match g.positionals[m.positionals.length]? with
  | some position =>
    if position.admits word then .ok { m with positionals := m.positionals ++ [word] }
    else .error .misuse
  | none => .error .misuse

/-- Take all words as positional and trailing ones. -/
def takeRest (g : Grammar) (m : Matches) : List String → Except Stop Matches
  | [] => .ok m
  | word :: rest =>
    if g.atTrailing m then .ok { m with trailing := word :: rest }
    else do g.takeRest (← g.positional m word) rest

/-- Give an option its value; an option is given once. -/
def setOption (m : Matches) (name value : String) : Except Stop Matches :=
  if (m.options.lookup name).isSome then .error .misuse
  else .ok { m with options := m.options ++ [(name, value)] }

/-- Set a flag; a flag is set once. -/
def setFlag (m : Matches) (name : String) : Except Stop Matches :=
  if m.flags.contains name then .error .misuse else .ok { m with flags := m.flags ++ [name] }

/-- Sort words. -/
def sort (g : Grammar) (m : Matches) : List String → Except Stop Matches
  | [] => .ok m
  | word :: rest =>
    let shape := Word.ofString word
    if !g.isOption m shape then
      if g.atTrailing m then .ok { m with trailing := word :: rest }
      else do g.sort (← g.positional m word) rest
    else
      match shape with
      | .long name value =>
        if g.options.contains name then
          match value, rest with
          | some value, rest => do g.sort (← setOption m name value) rest
          | none, value :: rest =>
            if g.isOption m (Word.ofString value) then .error .misuse
            else do g.sort (← setOption m name value) rest
          | none, [] => .error .misuse
        else if value.isSome then .error .misuse
        else if g.flags.contains name then do g.sort (← setFlag m name) rest
        else if name == "help" then .error .help
        else .error .misuse
      | .short letters => if letters.head? == some 'h' then .error .help else .error .misuse
      | .separator => g.takeRest m rest
      | .plain => .error .misuse

/-- Sort the words after a command; all positional ones must be there. -/
def parse (g : Grammar) (words : List String) : Except Stop Matches := do
  let m ← g.sort {} words
  if m.positionals.length < g.positionals.length then .error .misuse else .ok m

end Grammar

end SlotJit.CommandLine
