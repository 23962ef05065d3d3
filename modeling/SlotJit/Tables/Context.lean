import SlotJit.Tables.Package

/-!
# What a batch can see

While a batch is lowered, compiled and linked, the published packages and the batch's own staged
packages are seen together. Staged packages have the indices right after the published ones, so a
symbol id means the same before and after publication.
-/

namespace SlotJit.Tables

/-- A class by its index in a package and a method by its index in that class. -/
def methodAt? (packages : Nat → Option Package) (id : SymbolId) : Option Method := do
  let package ← packages id.package
  let c ← package.classes[id.classIndex.val]?
  c.methods[id.member.val]?

/-- The full name of a method, or the text of the id if there is no such method. -/
def qualifiedNameAt (packages : Nat → Option Package) (id : SymbolId) : String :=
  let name? : Option String := do
    let package ← packages id.package
    let c ← package.classes[id.classIndex.val]?
    let method ← c.methods[id.member.val]?
    return qualify package.name c.name method.name
  name?.getD id.text

/-- Find a method by the full name of its class, its name and its descriptor. -/
def findMethodIn? (findPackage? : String → Option Package) (className name descriptor : String) :
    Option Method := do
  let (packageName, className) := splitClassName className
  let package ← findPackage? packageName
  let c ← package.findClass? className
  c.findMethod? name descriptor

/-- Published packages and the batch being loaded. -/
structure Context where
  published : Array Package := #[]
  staged : Array Package := #[]

namespace Context

/-- The package of an index. -/
def package? (ctx : Context) (index : Nat) : Option Package :=
  if index < ctx.published.size then ctx.published[index]?
  else ctx.staged[index - ctx.published.size]?

/-- The first package of a name. -/
def findPackage? (ctx : Context) (name : String) : Option Package :=
  match ctx.published.find? (·.name == name) with
  | some package => some package
  | none => ctx.staged.find? (·.name == name)

/-- The method of a symbol id. -/
def method? (ctx : Context) (id : SymbolId) : Option Method := methodAt? ctx.package? id

/-- Find a method by the full name of its class, its name and its descriptor. -/
def findMethod? (ctx : Context) (className name descriptor : String) : Option Method :=
  findMethodIn? ctx.findPackage? className name descriptor

/-- The full name of a method. -/
def qualifiedName (ctx : Context) (id : SymbolId) : String := qualifiedNameAt ctx.package? id

/-- The staged methods that have bytecode to compile, in table order. -/
def stagedMethods (ctx : Context) : List Method :=
  ctx.staged.toList.flatMap fun p => p.classes.toList.flatMap fun c =>
    c.methods.toList.filter Method.isCompiled

/-- The staged method of a symbol id. -/
def stagedMethod? (ctx : Context) (id : SymbolId) : Option Method :=
  if id.package < ctx.published.size then none
  else methodAt? (fun index => ctx.staged[index - ctx.published.size]?) id

/-- Change the staged method of a symbol id. -/
def modifyStaged (ctx : Context) (id : SymbolId) (f : Method → Method) : Context :=
  if id.package < ctx.published.size then ctx
  else
    { ctx with
      staged := ctx.staged.modify (id.package - ctx.published.size) fun p =>
        { p with
          classes := p.classes.modify id.classIndex fun c =>
            { c with methods := c.methods.modify id.member f } } }

end Context

end SlotJit.Tables
