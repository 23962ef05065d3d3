import SlotJit.ClassData.ValueType
import SlotJit.Text.Quoted

/-!
# Method descriptors

A descriptor such as `(IJ[ILjava/lang/String;)V` gives the parameter types and the result type of a
method, `V` for no result. `Descriptor.parse` reads one and `Descriptor.render` writes one.
-/

namespace SlotJit

/-- Parameter types and result type of a method; no result type for `void`. -/
structure Descriptor where
  params : List FieldType
  result : Option FieldType
deriving DecidableEq, Repr, Inhabited

/-- Why a text is not a descriptor. -/
inductive DescriptorError where
  | missingParams (descriptor : String)
  | unterminated (descriptor : String)
  | unexpectedChar (descriptor : String) (ch : Char)
deriving DecidableEq, Repr

/-- The wording of a descriptor error. -/
def DescriptorError.message : DescriptorError → String
  | missingParams d => "descriptor " ++ Text.quote d ++ " must start with '('"
  | unterminated d => "unterminated descriptor " ++ Text.quote d
  | unexpectedChar d ch =>
    "unexpected character " ++ Text.quoteChar ch ++ " in descriptor " ++ Text.quote d

namespace FieldType

/-- The primitive type that a letter stands for. -/
def primitive? : Char → Option FieldType
  | 'B' => some byte
  | 'C' => some char
  | 'D' => some double
  | 'F' => some float
  | 'I' => some int
  | 'J' => some long
  | 'S' => some short
  | 'Z' => some boolean
  | _ => none

/-- The type as descriptors write it. -/
def render : FieldType → List Char
  | byte => ['B']
  | char => ['C']
  | double => ['D']
  | float => ['F']
  | int => ['I']
  | long => ['J']
  | short => ['S']
  | boolean => ['Z']
  | object className => 'L' :: (className.toList ++ [';'])
  | array element => '[' :: element.render

end FieldType

namespace Descriptor

/-- What keeps a text from being read: it ends too early, or a character cannot stand where it
is. -/
inductive Obstacle where
  | endOfText
  | badChar (ch : Char)
deriving DecidableEq, Repr

/-- Read one field type from the front of a text. -/
def parseField : List Char → Except Obstacle (FieldType × List Char)
  | [] => .error .endOfText
  | ch :: rest =>
    if ch = '[' then
      match parseField rest with
      | .ok (element, rest) => .ok (.array element, rest)
      | .error obstacle => .error obstacle
    else if ch = 'L' then
      match rest.dropWhile (· ≠ ';') with
      | _ :: rest' => .ok (.object (String.ofList (rest.takeWhile (· ≠ ';'))), rest')
      | [] => .error .endOfText
    else
      match FieldType.primitive? ch with
      | some ty => .ok (ty, rest)
      | none => .error (.badChar ch)

/-- Reading a field type uses up some text. -/
theorem length_of_parseField {text rest : List Char} {ty : FieldType}
    (h : parseField text = .ok (ty, rest)) : rest.length < text.length := by
  induction text generalizing ty rest with
  | nil => simp [parseField] at h
  | cons ch text ih =>
    simp only [parseField] at h
    split at h
    · split at h
      · next element rest' hfield =>
        obtain ⟨-, rfl⟩ := Prod.mk.inj (Except.ok.inj h)
        exact Nat.lt_succ_of_lt (ih hfield)
      · simp at h
    · split at h
      · split at h
        · next head rest' hdrop =>
          obtain ⟨-, rfl⟩ := Prod.mk.inj (Except.ok.inj h)
          have := (List.dropWhile_suffix (l := text) (· ≠ ';')).length_le
          rw [hdrop] at this
          simp only [List.length_cons] at this ⊢
          omega
        · simp at h
      · split at h
        · obtain ⟨-, rfl⟩ := Prod.mk.inj (Except.ok.inj h)
          simp
        · simp at h

/-- Read field types up to the closing parenthesis. -/
def parseParams (text : List Char) : Except Obstacle (List FieldType × List Char) :=
  match text with
  | [] => .error .endOfText
  | ch :: rest =>
    if ch = ')' then .ok ([], rest)
    else
      match _h : parseField (ch :: rest) with
      | .ok (ty, rest') =>
        match parseParams rest' with
        | .ok (tys, rest'') => .ok (ty :: tys, rest'')
        | .error obstacle => .error obstacle
      | .error obstacle => .error obstacle
termination_by text.length
decreasing_by exact length_of_parseField _h

/-- Read the result type, `V` for none. -/
def parseResult : List Char → Except Obstacle (Option FieldType × List Char)
  | 'V' :: rest => .ok (none, rest)
  | text =>
    match parseField text with
    | .ok (ty, rest) => .ok (some ty, rest)
    | .error obstacle => .error obstacle

/-- Read what follows the opening parenthesis, to the end of the text. -/
def parseBody (text : List Char) : Except Obstacle Descriptor := do
  let (params, rest) ← parseParams text
  let (result, rest) ← parseResult rest
  match rest with
  | [] => .ok { params, result }
  | ch :: _ => .error (.badChar ch)

/-- Read a descriptor. -/
def parse (text : String) : Except DescriptorError Descriptor :=
  match text.toList with
  | '(' :: rest =>
    match parseBody rest with
    | .ok d => .ok d
    | .error .endOfText => .error (.unterminated text)
    | .error (.badChar ch) => .error (.unexpectedChar text ch)
  | _ => .error (.missingParams text)

/-- The canonical text of a descriptor. -/
def render (d : Descriptor) : List Char :=
  '(' :: (d.params.flatMap FieldType.render
    ++ ')' :: (match d.result with | some ty => ty.render | none => ['V']))

/-- The value types of the parameters. -/
def paramTypes (d : Descriptor) : List ValueType := d.params.map FieldType.valueType

/-- The value type of the result. -/
def resultType (d : Descriptor) : Option ValueType := d.result.map FieldType.valueType

/-- Number of local variable indices that values of the given types take, one after the other. -/
def localsOf (tys : List ValueType) : Nat := tys.foldr (·.words + ·) 0

/-- Number of local variable indices the parameters take. -/
def paramSlots (d : Descriptor) : Nat := localsOf d.paramTypes

/-- The local variable index of each value of the given types, the first at `start`. -/
def localIndices (start : Nat) : List ValueType → List Nat
  | [] => []
  | ty :: tys => start :: localIndices (start + ty.words) tys

/-- The local variable index of each parameter. -/
def paramLocals (d : Descriptor) : List Nat := localIndices 0 d.paramTypes

/-- The descriptor as people read it, such as `int add(int, int)`. -/
def signature (d : Descriptor) (name : String) : String :=
  let result := match d.result with | some ty => ty.text | none => "void"
  result ++ " " ++ name ++ "(" ++ String.intercalate ", " (d.params.map FieldType.text) ++ ")"

end Descriptor

end SlotJit
