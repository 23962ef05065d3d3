import SlotJit.Codegen.Convention

/-!
# The entry stub

Compiled code follows no host calling convention, so it is entered through a stub. The stub is
called with the slot array, the address of the code and the environment; it saves the registers that
callees keep, reserves the word at the top of the stack, sets up the frame base and the environment,
and jumps. When the method returns, the stub restores the registers and returns the result.
-/

namespace SlotJit.Codegen

open SlotJit.X64

/-- The registers that callees keep. -/
def calleeSaved : List Reg := [.rbx, .rbp, .r12, .r13, .r14, .r15]

/-- The stub. The address to go on at follows a store of four bytes and a jump of two. -/
def entryStub : List Instr :=
  calleeSaved.map .push
    ++ [.aluImm .sub .qword .rsp 8, .mov .qword envReg .rdx, .mov .qword .rax .rsi,
      .lea frameReg { base := .rdi, disp := slotSize }, .leaRip .rcx 6,
      .store .qword (frameMem (-slotSize)) .rcx, .jmpReg .rax, .aluImm .add .qword .rsp 8]
    ++ calleeSaved.reverse.map .pop
    ++ [.ret]

/-- The bytes of the stub. -/
def entryStubBytes : List UInt8 := entryStub.flatMap encode

end SlotJit.Codegen
