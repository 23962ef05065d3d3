import SlotJit.Bytecode.Instr
import SlotJit.Bytecode.Opcode
import SlotJit.Bytecode.Stream
import SlotJit.Bytes
import SlotJit.ClassData.Access
import SlotJit.ClassData.ConstantPool
import SlotJit.ClassData.Declaration
import SlotJit.ClassData.Descriptor
import SlotJit.ClassData.ValueType
import SlotJit.CodeMemory.Allocator
import SlotJit.CodeMemory.Region
import SlotJit.Codegen.Batch
import SlotJit.Codegen.Convention
import SlotJit.Codegen.EntryStub
import SlotJit.Codegen.Template
import SlotJit.CommandLine.Command
import SlotJit.CommandLine.Grammar
import SlotJit.CommandLine.Session
import SlotJit.Decimal.Layout
import SlotJit.Decimal.Reader
import SlotJit.Decimal.Shortest
import SlotJit.Engine.Env
import SlotJit.Engine.Host
import SlotJit.Engine.Value
import SlotJit.Engine.Vm
import SlotJit.Ieee.Arithmetic
import SlotJit.Ieee.Comparison
import SlotJit.Ieee.Conversion
import SlotJit.Ieee.Format
import SlotJit.Ieee.Rounding
import SlotJit.Ir.Body
import SlotJit.Ir.Kind
import SlotJit.Linking
import SlotJit.Lowering.Batch
import SlotJit.Lowering.Error
import SlotJit.Lowering.Method
import SlotJit.Lowering.OperandStack
import SlotJit.Lowering.State
import SlotJit.Machine.Alu
import SlotJit.Machine.CodeMap
import SlotJit.Machine.Memory
import SlotJit.Machine.Run
import SlotJit.Machine.State
import SlotJit.Machine.Step
import SlotJit.Machine.Word
import SlotJit.Main
import SlotJit.Manifest
import SlotJit.Operation
import SlotJit.Symbol
import SlotJit.Tables.Context
import SlotJit.Tables.Package
import SlotJit.Text.Hex
import SlotJit.Text.Quoted
import SlotJit.Text.Visible
import SlotJit.Toml.Document
import SlotJit.Toml.Lexeme
import SlotJit.Toml.Node
import SlotJit.Toml.Number
import SlotJit.X64.Assembly
import SlotJit.X64.Decoding
import SlotJit.X64.Encoding
import SlotJit.X64.Instr
import SlotJit.X64.Register
import SlotJit.Proofs.X64.Layout
import SlotJit.Proofs.Bytecode.Streams
import SlotJit.Proofs.Engine.Tables
import SlotJit.Proofs.Lowering.Blocks
import SlotJit.Proofs.Lowering.Correctness
import SlotJit.Proofs.X64.LinkedCode
import SlotJit.Proofs.Codegen.Correctness
import SlotJit.Proofs.X64.History
import SlotJit.Proofs.Codegen.Shapes
import SlotJit.Proofs.Codegen.Relocations
import SlotJit.Proofs.Lowering.Forms
import SlotJit.Proofs.Lowering.Ownership
import SlotJit.Proofs.Lowering.Marking
import SlotJit.Proofs.Lowering.ParallelMoves
import SlotJit.Proofs.Codegen.Acceptance
import SlotJit.Proofs.Codegen.Reach
import SlotJit.Proofs.Codegen.Comparisons
import SlotJit.Proofs.Codegen.Division
import SlotJit.Proofs.Codegen.Saturation
import SlotJit.Proofs.Codegen.Arrays
import SlotJit.Proofs.Codegen.NativeCalls
import SlotJit.Proofs.Codegen.Linked
import SlotJit.Proofs.Engine.Stages
import SlotJit.Proofs.Engine.Resolution
import SlotJit.Proofs.Engine.Splitting
import SlotJit.Proofs.Engine.Installed
import SlotJit.Proofs.Engine.Meaning
import SlotJit.Proofs.Engine.EntryStub
import SlotJit.Proofs.Engine.StackBound
import SlotJit.Proofs.Engine.Arguments
import SlotJit.Proofs.Engine.CallSites
import SlotJit.Proofs.ClassData.Descriptors
import SlotJit.Proofs.Tables.Lookup
import SlotJit.Proofs.Bytecode.Splits
import SlotJit.Proofs.Lowering.Blame
import SlotJit.Proofs.Codegen.Patching
import SlotJit.Proofs.ClassData.Numbering
import SlotJit.Proofs.CodeMemory.Discipline
