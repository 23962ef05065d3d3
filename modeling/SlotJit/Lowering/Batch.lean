import SlotJit.Lowering.Method

/-!
# Lowering a batch

Lowers every staged method that has bytecode to compile, in table order, up to the first that cannot
be lowered.
-/

namespace SlotJit.Lowering

open SlotJit.Tables

/-- A method that cannot be lowered. -/
structure Failure where
  /-- Full name of the method. -/
  method : String
  cause : Error
deriving DecidableEq, Repr

/-- The wording of a failure. -/
def Failure.message (f : Failure) : String := f.method ++ ": " ++ f.cause.message

/-- The staged methods that have bytecode to compile, each with its package and class. -/
def stagedOwners (ctx : Context) : List (Package × ClassTable × Method) :=
  ctx.staged.toList.flatMap fun p => p.classes.toList.flatMap fun c =>
    (c.methods.toList.filter Method.isCompiled).map fun m => (p, c, m)

/-- Lower every staged method that has bytecode to compile. -/
def lowerStaged (ctx : Context) : Except Failure (List (SymbolId × Ir.Body)) :=
  (stagedOwners ctx).mapM fun (p, c, m) =>
    match lower ctx c m with
    | .ok body => .ok (m.id, body)
    | .error cause => .error { method := qualify p.name c.name m.name, cause }

end SlotJit.Lowering
