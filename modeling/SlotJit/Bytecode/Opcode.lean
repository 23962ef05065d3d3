import SlotJit.Bytecode.Instr

/-!
# Opcodes

The table of assigned opcodes. A row gives the opcode's byte, its mnemonic, the width of the whole
instruction in bytes, and how the operand bytes are read. Width zero means that the width depends on
the operands.
-/

namespace SlotJit.Bytecode

/-- An assigned opcode. -/
structure Opcode where
  byte : UInt8
  mnemonic : String
  width : Nat
  /-- The instruction, given the bytes that follow the opcode. -/
  read : List UInt8 → Instr

/-- The first operand byte. -/
def u8 (operands : List UInt8) : UInt8 := operands.getD 0 0

/-- The first operand byte with its sign. -/
def i8 (operands : List UInt8) : Int8 := (u8 operands).toInt8

/-- The first two operand bytes, the higher first. -/
def u16 (operands : List UInt8) : UInt16 :=
  (operands.getD 0 0).toUInt16 * 0x100 + (operands.getD 1 0).toUInt16

/-- The first two operand bytes with their sign. -/
def i16 (operands : List UInt8) : Int16 := (u16 operands).toInt16

/-- The first four operand bytes with their sign, the highest first. -/
def i32 (operands : List UInt8) : Int32 :=
  ((u16 operands).toUInt32 * 0x10000 + (u16 (operands.drop 2)).toUInt32).toInt32

namespace Opcode

/-- Every assigned opcode in numeric order. -/
def all : List Opcode :=
  [⟨0x00, "nop", 1, fun _ => .nop⟩,
    ⟨0x01, "aconst_null", 1, fun _ => .push .null⟩,
    ⟨0x02, "iconst_m1", 1, fun _ => .push (.int (-1))⟩,
    ⟨0x03, "iconst_0", 1, fun _ => .push (.int 0)⟩,
    ⟨0x04, "iconst_1", 1, fun _ => .push (.int 1)⟩,
    ⟨0x05, "iconst_2", 1, fun _ => .push (.int 2)⟩,
    ⟨0x06, "iconst_3", 1, fun _ => .push (.int 3)⟩,
    ⟨0x07, "iconst_4", 1, fun _ => .push (.int 4)⟩,
    ⟨0x08, "iconst_5", 1, fun _ => .push (.int 5)⟩,
    ⟨0x09, "lconst_0", 1, fun _ => .push (.long 0)⟩,
    ⟨0x0a, "lconst_1", 1, fun _ => .push (.long 1)⟩,
    ⟨0x0b, "fconst_0", 1, fun _ => .push (.float 0)⟩,
    ⟨0x0c, "fconst_1", 1, fun _ => .push (.float 0x3f800000)⟩,
    ⟨0x0d, "fconst_2", 1, fun _ => .push (.float 0x40000000)⟩,
    ⟨0x0e, "dconst_0", 1, fun _ => .push (.double 0)⟩,
    ⟨0x0f, "dconst_1", 1, fun _ => .push (.double 0x3ff0000000000000)⟩,
    ⟨0x10, "bipush", 2, fun o => .push (.int (i8 o).toInt32)⟩,
    ⟨0x11, "sipush", 3, fun o => .push (.int (i16 o).toInt32)⟩,
    ⟨0x12, "ldc", 2, fun o => .pushConstant (u8 o).toUInt16 false⟩,
    ⟨0x13, "ldc_w", 3, fun o => .pushConstant (u16 o) false⟩,
    ⟨0x14, "ldc2_w", 3, fun o => .pushConstant (u16 o) true⟩,
    ⟨0x15, "iload", 2, fun o => .load .int (u8 o).toNat⟩,
    ⟨0x16, "lload", 2, fun o => .load .long (u8 o).toNat⟩,
    ⟨0x17, "fload", 2, fun o => .load .float (u8 o).toNat⟩,
    ⟨0x18, "dload", 2, fun o => .load .double (u8 o).toNat⟩,
    ⟨0x19, "aload", 2, fun o => .load .ref (u8 o).toNat⟩,
    ⟨0x1a, "iload_0", 1, fun _ => .load .int 0⟩,
    ⟨0x1b, "iload_1", 1, fun _ => .load .int 1⟩,
    ⟨0x1c, "iload_2", 1, fun _ => .load .int 2⟩,
    ⟨0x1d, "iload_3", 1, fun _ => .load .int 3⟩,
    ⟨0x1e, "lload_0", 1, fun _ => .load .long 0⟩,
    ⟨0x1f, "lload_1", 1, fun _ => .load .long 1⟩,
    ⟨0x20, "lload_2", 1, fun _ => .load .long 2⟩,
    ⟨0x21, "lload_3", 1, fun _ => .load .long 3⟩,
    ⟨0x22, "fload_0", 1, fun _ => .load .float 0⟩,
    ⟨0x23, "fload_1", 1, fun _ => .load .float 1⟩,
    ⟨0x24, "fload_2", 1, fun _ => .load .float 2⟩,
    ⟨0x25, "fload_3", 1, fun _ => .load .float 3⟩,
    ⟨0x26, "dload_0", 1, fun _ => .load .double 0⟩,
    ⟨0x27, "dload_1", 1, fun _ => .load .double 1⟩,
    ⟨0x28, "dload_2", 1, fun _ => .load .double 2⟩,
    ⟨0x29, "dload_3", 1, fun _ => .load .double 3⟩,
    ⟨0x2a, "aload_0", 1, fun _ => .load .ref 0⟩,
    ⟨0x2b, "aload_1", 1, fun _ => .load .ref 1⟩,
    ⟨0x2c, "aload_2", 1, fun _ => .load .ref 2⟩,
    ⟨0x2d, "aload_3", 1, fun _ => .load .ref 3⟩,
    ⟨0x2e, "iaload", 1, fun _ => .arrayLoad⟩,
    ⟨0x2f, "laload", 1, fun _ => .unsupported⟩,
    ⟨0x30, "faload", 1, fun _ => .unsupported⟩,
    ⟨0x31, "daload", 1, fun _ => .unsupported⟩,
    ⟨0x32, "aaload", 1, fun _ => .unsupported⟩,
    ⟨0x33, "baload", 1, fun _ => .unsupported⟩,
    ⟨0x34, "caload", 1, fun _ => .unsupported⟩,
    ⟨0x35, "saload", 1, fun _ => .unsupported⟩,
    ⟨0x36, "istore", 2, fun o => .store .int (u8 o).toNat⟩,
    ⟨0x37, "lstore", 2, fun o => .store .long (u8 o).toNat⟩,
    ⟨0x38, "fstore", 2, fun o => .store .float (u8 o).toNat⟩,
    ⟨0x39, "dstore", 2, fun o => .store .double (u8 o).toNat⟩,
    ⟨0x3a, "astore", 2, fun o => .store .ref (u8 o).toNat⟩,
    ⟨0x3b, "istore_0", 1, fun _ => .store .int 0⟩,
    ⟨0x3c, "istore_1", 1, fun _ => .store .int 1⟩,
    ⟨0x3d, "istore_2", 1, fun _ => .store .int 2⟩,
    ⟨0x3e, "istore_3", 1, fun _ => .store .int 3⟩,
    ⟨0x3f, "lstore_0", 1, fun _ => .store .long 0⟩,
    ⟨0x40, "lstore_1", 1, fun _ => .store .long 1⟩,
    ⟨0x41, "lstore_2", 1, fun _ => .store .long 2⟩,
    ⟨0x42, "lstore_3", 1, fun _ => .store .long 3⟩,
    ⟨0x43, "fstore_0", 1, fun _ => .store .float 0⟩,
    ⟨0x44, "fstore_1", 1, fun _ => .store .float 1⟩,
    ⟨0x45, "fstore_2", 1, fun _ => .store .float 2⟩,
    ⟨0x46, "fstore_3", 1, fun _ => .store .float 3⟩,
    ⟨0x47, "dstore_0", 1, fun _ => .store .double 0⟩,
    ⟨0x48, "dstore_1", 1, fun _ => .store .double 1⟩,
    ⟨0x49, "dstore_2", 1, fun _ => .store .double 2⟩,
    ⟨0x4a, "dstore_3", 1, fun _ => .store .double 3⟩,
    ⟨0x4b, "astore_0", 1, fun _ => .store .ref 0⟩,
    ⟨0x4c, "astore_1", 1, fun _ => .store .ref 1⟩,
    ⟨0x4d, "astore_2", 1, fun _ => .store .ref 2⟩,
    ⟨0x4e, "astore_3", 1, fun _ => .store .ref 3⟩,
    ⟨0x4f, "iastore", 1, fun _ => .arrayStore⟩,
    ⟨0x50, "lastore", 1, fun _ => .unsupported⟩,
    ⟨0x51, "fastore", 1, fun _ => .unsupported⟩,
    ⟨0x52, "dastore", 1, fun _ => .unsupported⟩,
    ⟨0x53, "aastore", 1, fun _ => .unsupported⟩,
    ⟨0x54, "bastore", 1, fun _ => .unsupported⟩,
    ⟨0x55, "castore", 1, fun _ => .unsupported⟩,
    ⟨0x56, "sastore", 1, fun _ => .unsupported⟩,
    ⟨0x57, "pop", 1, fun _ => .pop⟩,
    ⟨0x58, "pop2", 1, fun _ => .pop2⟩,
    ⟨0x59, "dup", 1, fun _ => .dup⟩,
    ⟨0x5a, "dup_x1", 1, fun _ => .dupX1⟩,
    ⟨0x5b, "dup_x2", 1, fun _ => .unsupported⟩,
    ⟨0x5c, "dup2", 1, fun _ => .dup2⟩,
    ⟨0x5d, "dup2_x1", 1, fun _ => .unsupported⟩,
    ⟨0x5e, "dup2_x2", 1, fun _ => .unsupported⟩,
    ⟨0x5f, "swap", 1, fun _ => .swap⟩,
    ⟨0x60, "iadd", 1, fun _ => .binary .int .add⟩,
    ⟨0x61, "ladd", 1, fun _ => .binary .long .add⟩,
    ⟨0x62, "fadd", 1, fun _ => .floatBinary .float .add⟩,
    ⟨0x63, "dadd", 1, fun _ => .floatBinary .double .add⟩,
    ⟨0x64, "isub", 1, fun _ => .binary .int .sub⟩,
    ⟨0x65, "lsub", 1, fun _ => .binary .long .sub⟩,
    ⟨0x66, "fsub", 1, fun _ => .floatBinary .float .sub⟩,
    ⟨0x67, "dsub", 1, fun _ => .floatBinary .double .sub⟩,
    ⟨0x68, "imul", 1, fun _ => .binary .int .mul⟩,
    ⟨0x69, "lmul", 1, fun _ => .binary .long .mul⟩,
    ⟨0x6a, "fmul", 1, fun _ => .floatBinary .float .mul⟩,
    ⟨0x6b, "dmul", 1, fun _ => .floatBinary .double .mul⟩,
    ⟨0x6c, "idiv", 1, fun _ => .binary .int .div⟩,
    ⟨0x6d, "ldiv", 1, fun _ => .binary .long .div⟩,
    ⟨0x6e, "fdiv", 1, fun _ => .floatBinary .float .div⟩,
    ⟨0x6f, "ddiv", 1, fun _ => .floatBinary .double .div⟩,
    ⟨0x70, "irem", 1, fun _ => .binary .int .rem⟩,
    ⟨0x71, "lrem", 1, fun _ => .binary .long .rem⟩,
    ⟨0x72, "frem", 1, fun _ => .unsupported⟩,
    ⟨0x73, "drem", 1, fun _ => .unsupported⟩,
    ⟨0x74, "ineg", 1, fun _ => .negate .int⟩,
    ⟨0x75, "lneg", 1, fun _ => .negate .long⟩,
    ⟨0x76, "fneg", 1, fun _ => .floatNegate .float⟩,
    ⟨0x77, "dneg", 1, fun _ => .floatNegate .double⟩,
    ⟨0x78, "ishl", 1, fun _ => .binary .int .shl⟩,
    ⟨0x79, "lshl", 1, fun _ => .binary .long .shl⟩,
    ⟨0x7a, "ishr", 1, fun _ => .binary .int .shr⟩,
    ⟨0x7b, "lshr", 1, fun _ => .binary .long .shr⟩,
    ⟨0x7c, "iushr", 1, fun _ => .binary .int .ushr⟩,
    ⟨0x7d, "lushr", 1, fun _ => .binary .long .ushr⟩,
    ⟨0x7e, "iand", 1, fun _ => .binary .int .and⟩,
    ⟨0x7f, "land", 1, fun _ => .binary .long .and⟩,
    ⟨0x80, "ior", 1, fun _ => .binary .int .or⟩,
    ⟨0x81, "lor", 1, fun _ => .binary .long .or⟩,
    ⟨0x82, "ixor", 1, fun _ => .binary .int .xor⟩,
    ⟨0x83, "lxor", 1, fun _ => .binary .long .xor⟩,
    ⟨0x84, "iinc", 3, fun o => .increment (u8 o).toNat (i8 (o.drop 1))⟩,
    ⟨0x85, "i2l", 1, fun _ => .convert .widen⟩,
    ⟨0x86, "i2f", 1, fun _ => .convert (.toFloating .int .float)⟩,
    ⟨0x87, "i2d", 1, fun _ => .convert (.toFloating .int .double)⟩,
    ⟨0x88, "l2i", 1, fun _ => .convert .wrap⟩,
    ⟨0x89, "l2f", 1, fun _ => .convert (.toFloating .long .float)⟩,
    ⟨0x8a, "l2d", 1, fun _ => .convert (.toFloating .long .double)⟩,
    ⟨0x8b, "f2i", 1, fun _ => .convert (.toIntegral .float .int)⟩,
    ⟨0x8c, "f2l", 1, fun _ => .convert (.toIntegral .float .long)⟩,
    ⟨0x8d, "f2d", 1, fun _ => .convert (.resize .double)⟩,
    ⟨0x8e, "d2i", 1, fun _ => .convert (.toIntegral .double .int)⟩,
    ⟨0x8f, "d2l", 1, fun _ => .convert (.toIntegral .double .long)⟩,
    ⟨0x90, "d2f", 1, fun _ => .convert (.resize .float)⟩,
    ⟨0x91, "i2b", 1, fun _ => .convert (.narrow .byte)⟩,
    ⟨0x92, "i2c", 1, fun _ => .convert (.narrow .char)⟩,
    ⟨0x93, "i2s", 1, fun _ => .convert (.narrow .short)⟩,
    ⟨0x94, "lcmp", 1, fun _ => .compareLong⟩,
    ⟨0x95, "fcmpl", 1, fun _ => .unsupported⟩,
    ⟨0x96, "fcmpg", 1, fun _ => .unsupported⟩,
    ⟨0x97, "dcmpl", 1, fun _ => .unsupported⟩,
    ⟨0x98, "dcmpg", 1, fun _ => .unsupported⟩,
    ⟨0x99, "ifeq", 3, fun o => .branch .zero .eq (i16 o).toInt⟩,
    ⟨0x9a, "ifne", 3, fun o => .branch .zero .ne (i16 o).toInt⟩,
    ⟨0x9b, "iflt", 3, fun o => .branch .zero .lt (i16 o).toInt⟩,
    ⟨0x9c, "ifge", 3, fun o => .branch .zero .ge (i16 o).toInt⟩,
    ⟨0x9d, "ifgt", 3, fun o => .branch .zero .gt (i16 o).toInt⟩,
    ⟨0x9e, "ifle", 3, fun o => .branch .zero .le (i16 o).toInt⟩,
    ⟨0x9f, "if_icmpeq", 3, fun o => .branch .ints .eq (i16 o).toInt⟩,
    ⟨0xa0, "if_icmpne", 3, fun o => .branch .ints .ne (i16 o).toInt⟩,
    ⟨0xa1, "if_icmplt", 3, fun o => .branch .ints .lt (i16 o).toInt⟩,
    ⟨0xa2, "if_icmpge", 3, fun o => .branch .ints .ge (i16 o).toInt⟩,
    ⟨0xa3, "if_icmpgt", 3, fun o => .branch .ints .gt (i16 o).toInt⟩,
    ⟨0xa4, "if_icmple", 3, fun o => .branch .ints .le (i16 o).toInt⟩,
    ⟨0xa5, "if_acmpeq", 3, fun o => .branch .refs .eq (i16 o).toInt⟩,
    ⟨0xa6, "if_acmpne", 3, fun o => .branch .refs .ne (i16 o).toInt⟩,
    ⟨0xa7, "goto", 3, fun o => .jump (i16 o).toInt⟩,
    ⟨0xa8, "jsr", 3, fun _ => .unsupported⟩,
    ⟨0xa9, "ret", 2, fun _ => .unsupported⟩,
    ⟨0xaa, "tableswitch", 0, fun _ => .unsupported⟩,
    ⟨0xab, "lookupswitch", 0, fun _ => .unsupported⟩,
    ⟨0xac, "ireturn", 1, fun _ => .ret (some .int)⟩,
    ⟨0xad, "lreturn", 1, fun _ => .ret (some .long)⟩,
    ⟨0xae, "freturn", 1, fun _ => .ret (some .float)⟩,
    ⟨0xaf, "dreturn", 1, fun _ => .ret (some .double)⟩,
    ⟨0xb0, "areturn", 1, fun _ => .ret (some .ref)⟩,
    ⟨0xb1, "return", 1, fun _ => .ret none⟩,
    ⟨0xb2, "getstatic", 3, fun _ => .unsupported⟩,
    ⟨0xb3, "putstatic", 3, fun _ => .unsupported⟩,
    ⟨0xb4, "getfield", 3, fun _ => .unsupported⟩,
    ⟨0xb5, "putfield", 3, fun _ => .unsupported⟩,
    ⟨0xb6, "invokevirtual", 3, fun _ => .unsupported⟩,
    ⟨0xb7, "invokespecial", 3, fun _ => .unsupported⟩,
    ⟨0xb8, "invokestatic", 3, fun o => .invokeStatic (u16 o)⟩,
    ⟨0xb9, "invokeinterface", 5, fun _ => .unsupported⟩,
    ⟨0xba, "invokedynamic", 5, fun _ => .unsupported⟩,
    ⟨0xbb, "new", 3, fun _ => .unsupported⟩,
    ⟨0xbc, "newarray", 2, fun o => .newArray (u8 o)⟩,
    ⟨0xbd, "anewarray", 3, fun _ => .unsupported⟩,
    ⟨0xbe, "arraylength", 1, fun _ => .arrayLength⟩,
    ⟨0xbf, "athrow", 1, fun _ => .unsupported⟩,
    ⟨0xc0, "checkcast", 3, fun _ => .unsupported⟩,
    ⟨0xc1, "instanceof", 3, fun _ => .unsupported⟩,
    ⟨0xc2, "monitorenter", 1, fun _ => .unsupported⟩,
    ⟨0xc3, "monitorexit", 1, fun _ => .unsupported⟩,
    ⟨0xc4, "wide", 0, fun _ => .unsupported⟩,
    ⟨0xc5, "multianewarray", 4, fun _ => .unsupported⟩,
    ⟨0xc6, "ifnull", 3, fun o => .branch .null .eq (i16 o).toInt⟩,
    ⟨0xc7, "ifnonnull", 3, fun o => .branch .null .ne (i16 o).toInt⟩,
    ⟨0xc8, "goto_w", 5, fun o => .jump (i32 o).toInt⟩,
    ⟨0xc9, "jsr_w", 5, fun _ => .unsupported⟩,
    ⟨0xca, "breakpoint", 1, fun _ => .unsupported⟩,
    ⟨0xfe, "impdep1", 1, fun _ => .unsupported⟩,
    ⟨0xff, "impdep2", 1, fun _ => .unsupported⟩]

/-- The opcode of a byte. -/
def ofByte? (byte : UInt8) : Option Opcode := all.find? (·.byte == byte)

end Opcode

end SlotJit.Bytecode
