import SlotJit.Operation

/-!
# Kinds of slot instructions

What a slot instruction does, apart from its operands. `Kind.name` is the name listings print and
`Kind.ofName?` finds a kind by it.
-/

namespace SlotJit

/-- The letter that names of instructions start with. -/
def ValueType.letter : ValueType → String
  | int => "i"
  | long => "l"
  | float => "f"
  | double => "d"
  | ref => "a"

/-- The letter of a floating point type. -/
def Floating.letter (ty : Floating) : String := ty.valueType.letter

/-- The letter of an integer type. -/
def Integral.letter (ty : Integral) : String := ty.valueType.letter

/-- The letter of a narrow integer type. -/
def Narrow.letter : Narrow → String
  | byte => "b"
  | char => "c"
  | short => "s"

/-- The name of an integer operation. -/
def IntOp.name : IntOp → String
  | add => "add"
  | sub => "sub"
  | mul => "mul"
  | div => "div"
  | rem => "rem"
  | shl => "shl"
  | shr => "shr"
  | ushr => "ushr"
  | and => "and"
  | or => "or"
  | xor => "xor"

/-- The name of a floating point operation. -/
def FloatOp.name : FloatOp → String
  | add => "add"
  | sub => "sub"
  | mul => "mul"
  | div => "div"

/-- The name of a condition. -/
def Condition.name : Condition → String
  | eq => "eq"
  | ne => "ne"
  | lt => "lt"
  | ge => "ge"
  | gt => "gt"
  | le => "le"

/-- The name of a conversion: source letter, `2`, target letter. -/
def Conversion.name (c : Conversion) : String :=
  c.sourceType.letter ++ "2" ++ (match c with
    | narrow target => target.letter
    | _ => c.targetType.letter)

namespace Ir

/-- What a compare looks at. -/
inductive Comparand where
  | int
  | long
  | ref
deriving DecidableEq, Repr, Inhabited

/-- The value type of the compared values. -/
def Comparand.valueType : Comparand → ValueType
  | int => .int
  | long => .long
  | ref => .ref

/-- What a slot instruction does. -/
inductive Kind where
  /-- Copy a value. -/
  | move (ty : ValueType)
  | arith (ty : Integral) (op : IntOp)
  | neg (ty : Integral)
  | floatArith (ty : Floating) (op : FloatOp)
  | floatNeg (ty : Floating)
  | convert (conversion : Conversion)
  /-- Compare two values and keep the condition flags. -/
  | compare (ty : Comparand)
  | jump
  /-- Jump if the flags of the last compare meet a condition. -/
  | jumpIf (condition : Condition)
  | callStatic
  | callNative
  | ret (ty : Option ValueType)
  | newIntArray
  | arrayLen
  | intArrayGet
  | intArraySet
deriving DecidableEq, Repr, Inhabited

namespace Kind

/-- The name listings print. -/
def name : Kind → String
  | move ty => ty.letter ++ "load"
  | arith ty op => ty.letter ++ op.name
  | neg ty => ty.letter ++ "neg"
  | floatArith ty op => ty.letter ++ op.name
  | floatNeg ty => ty.letter ++ "neg"
  | convert conversion => conversion.name
  | compare ty => ty.valueType.letter ++ "cmp"
  | jump => "jump"
  | jumpIf condition => "jump_" ++ condition.name
  | callStatic => "call_static"
  | callNative => "call_native"
  | ret none => "ret"
  | ret (some ty) => ty.letter ++ "ret"
  | newIntArray => "new_int_array"
  | arrayLen => "array_len"
  | intArrayGet => "int_array_get"
  | intArraySet => "int_array_set"

/-- Whether the instruction may go elsewhere than to the next one, returns apart. -/
def isJump : Kind → Bool
  | jump | jumpIf _ => true
  | _ => false

/-- Whether the instruction leaves the method. -/
def isReturn : Kind → Bool
  | ret _ => true
  | _ => false

/-- Whether the instruction only copies a value; such instructions keep the condition flags. -/
def isMove : Kind → Bool
  | move _ => true
  | _ => false

/-- Every kind. -/
def all : List Kind :=
  [ValueType.int, .long, .float, .double, .ref].map move
    ++ [Integral.int, .long].flatMap (fun ty =>
      neg ty :: [IntOp.add, .sub, .mul, .div, .rem, .shl, .shr, .ushr, .and, .or, .xor].map
        (arith ty))
    ++ [Floating.float, .double].flatMap (fun ty =>
      floatNeg ty :: [FloatOp.add, .sub, .mul, .div].map (floatArith ty))
    ++ [Integral.int, .long].flatMap (fun i => [Floating.float, .double].flatMap fun f =>
      [convert (.toFloating i f), convert (.toIntegral f i)])
    ++ [Conversion.widen, .wrap, .resize .float, .resize .double, .narrow .byte, .narrow .char,
      .narrow .short].map convert
    ++ [Comparand.int, .long, .ref].map compare
    ++ [Condition.eq, .ne, .lt, .ge, .gt, .le].map jumpIf
    ++ [none, some ValueType.int, some .long, some .float, some .double, some .ref].map ret
    ++ [jump, callStatic, callNative, newIntArray, arrayLen, intArrayGet, intArraySet]

/-- The kind of a name. -/
def ofName? (name : String) : Option Kind := all.find? (·.name == name)

end Kind

end Ir

end SlotJit
