import SlotJit.Proofs.Tables.Filling

/-!
# What contexts have in common

Lowering and code generation read declarations only: names, signatures, access flags and ids. What
is filled in later, bodies and code, is left out when two contexts are compared. A context precedes
another one if its packages stand first there. Then whatever it finds, by a name or by an id, the
other one finds too, since the first package of a name wins and ids are positions.

## Main results

* `Context.Precedes.method?`, `Context.Precedes.findMethod?`: what is found by an id and by a name.
* `Context.Precedes.qualifiedName`: the full name of what is found.
-/

namespace SlotJit.Tables

/-! ### Looking up declarations -/

/-- Methods with the same declaration differ in what is filled in alone. -/
theorem Method.exists_of_declared {m m' : Method} (h : m'.declared = m.declared) :
    ∃ body code, m' = { m with body, code } := by
  refine ⟨m'.body, m'.code, ?_⟩
  calc m' = { m'.declared with body := m'.body, code := m'.code } := rfl
    _ = { m.declared with body := m'.body, code := m'.code } := by rw [h]

/-- Where two tables agree after a change, they have entries in the same places. -/
theorem exists_of_map_eq {α : Type} {f : α → α} {as bs : Array α} (h : as.map f = bs.map f)
    {i : Nat} {a : α} (ha : as[i]? = some a) : ∃ b, bs[i]? = some b ∧ f b = f a := by
  have hmap : bs[i]?.map f = some (f a) := by
    rw [← Array.getElem?_map, ← h, Array.getElem?_map, ha, Option.map_some]
  exact Option.map_eq_some_iff.mp hmap

/-- The place of a name does not depend on what is filled in. -/
theorem lowerBound_map {α : Type} {nameOf : α → String} {f : α → α}
    (hname : ∀ a, nameOf (f a) = nameOf a) (table : Array α) (name : String) :
    lowerBound nameOf (table.map f) name = lowerBound nameOf table name := by
  unfold lowerBound
  rw [Array.size_map]
  congr 1
  funext i
  rw [Array.getElem?_map]
  cases table[i]? with
  | none => rfl
  | some a => simp only [Option.map_some, hname]

/-- Finding a method of a class as declared. -/
theorem ClassTable.findMethod?_declared (c : ClassTable) (name descriptor : String) :
    c.declared.findMethod? name descriptor =
      (c.findMethod? name descriptor).map Method.declared := by
  have hextract : ∀ start,
      ((c.methods.map Method.declared).extract start c.methods.size).toList.takeWhile
        (·.name == name) =
        ((c.methods.extract start c.methods.size).toList.takeWhile (·.name == name)).map
          Method.declared := by
    intro start
    rw [Array.toList_extract, Array.toList_extract, Array.toList_map, List.extract_eq_take_drop,
      List.extract_eq_take_drop, ← List.map_drop, ← List.map_take, List.takeWhile_map]
    rfl
  have hbound : lowerBound Method.name (c.methods.map Method.declared) name =
      lowerBound Method.name c.methods name :=
      lowerBound_map (f := Method.declared) (fun _ => rfl) _ _
  simp only [findMethod?, declared, mapMethods, Array.size_map, hbound, hextract, List.find?_map,
    List.head?_map]
  rw [show ((fun m : Method => m.descriptor == descriptor) ∘ Method.declared) =
    fun m => m.descriptor == descriptor from rfl]
  cases List.find? (fun m : Method => m.descriptor == descriptor) _ with
  | some m => rfl
  | none =>
      simp only [Option.map_none]
      split <;> rfl

/-- Finding a class of a package as declared. -/
theorem Package.findClass?_declared (p : Package) (name : String) :
    p.declared.findClass? name = (p.findClass? name).map ClassTable.declared := by
  have hbound : lowerBound ClassTable.name (p.classes.map ClassTable.declared) name =
      lowerBound ClassTable.name p.classes name :=
      lowerBound_map (f := ClassTable.declared) (fun _ => rfl) _ _
  have hclasses : p.declared.classes = p.classes.map ClassTable.declared := rfl
  simp only [findClass?, hclasses, hbound, Array.getElem?_map]
  cases p.classes[lowerBound ClassTable.name p.classes name]? with
  | none => rfl
  | some c =>
      simp only [Option.map_some]
      rw [show c.declared.name = c.name from rfl]
      split <;> rfl

namespace Context

variable {ctx ctx' : Context}

/-- All packages of a context, as they were declared. -/
def declaredPackages (ctx : Context) : List Package :=
  (ctx.published ++ ctx.staged).toList.map Package.declared

/-- The packages of a context stand first in another one. -/
def Precedes (ctx ctx' : Context) : Prop := ctx.declaredPackages <+: ctx'.declaredPackages

/-- A package as declared. -/
theorem package?_declared (ctx : Context) (index : Nat) :
    (ctx.package? index).map Package.declared = ctx.declaredPackages[index]? := by
  rw [declaredPackages, List.getElem?_map, Array.getElem?_toList, package?_eq]

/-- Finding a package as declared. -/
theorem findPackage?_declared (ctx : Context) (name : String) :
    (ctx.findPackage? name).map Package.declared = ctx.declaredPackages.find? (·.name == name) := by
  rw [declaredPackages, List.find?_map, Array.find?_toList, Array.find?_append, findPackage?]
  rw [show ((fun p : Package => p.name == name) ∘ Package.declared) =
    fun p => p.name == name from rfl]
  cases ctx.published.find? (·.name == name) with
  | some p => rfl
  | none => rfl

/-- Filling in does not change what was declared. -/
theorem declaredPackages_mapStaged {g : Method → Method} (hg : ∀ m, (g m).declared = m.declared) :
    (ctx.mapStaged g).declaredPackages = ctx.declaredPackages := by
  simp [declaredPackages, mapStaged, Package.declared_mapMethods hg]

/-- A package stays, as declared. -/
theorem Precedes.package? (h : ctx.Precedes ctx') {index : Nat} {p : Package}
    (hp : ctx.package? index = some p) : ∃ p', ctx'.package? index = some p' ∧
      p'.declared = p.declared := by
  have hdeclared : ctx.declaredPackages[index]? = some p.declared := by
    rw [← package?_declared, hp, Option.map_some]
  rw [← Option.map_eq_some_iff, package?_declared]
  obtain ⟨rest, hrest⟩ := h
  rw [← hrest, List.getElem?_append_left (List.getElem?_eq_some_iff.mp hdeclared).1, hdeclared]

/-- Where packages are declared the same, so are the methods in the same places. -/
theorem exists_method_of_declared {p p' : Package} (h : p'.declared = p.declared) {i j : Nat}
    {c : ClassTable} {m : Method} (hc : p.classes[i]? = some c) (hm : c.methods[j]? = some m) :
    ∃ c' m', p'.classes[i]? = some c' ∧ c'.methods[j]? = some m' ∧ c'.declared = c.declared ∧
      m'.declared = m.declared := by
  obtain ⟨c', hc', hclass⟩ := exists_of_map_eq (congrArg Package.classes h).symm hc
  obtain ⟨m', hm', hmethod⟩ := exists_of_map_eq (congrArg ClassTable.methods hclass).symm hm
  exact ⟨c', m', hc', hm', hclass, hmethod⟩

/-- A method stays, as declared. -/
theorem Precedes.method? (h : ctx.Precedes ctx') {id : SymbolId} {m : Method}
    (hm : ctx.method? id = some m) : ∃ m', ctx'.method? id = some m' ∧
      m'.declared = m.declared := by
  obtain ⟨p, hp, hm⟩ := Option.bind_eq_some_iff.mp hm
  obtain ⟨c, hc, hm⟩ := Option.bind_eq_some_iff.mp hm
  obtain ⟨p', hp', hpackage⟩ := h.package? hp
  obtain ⟨c', m', hc', hm', -, hmethod⟩ := exists_method_of_declared hpackage hc hm
  exact ⟨m', by simp [Context.method?, methodAt?, hp', hc', hm'], hmethod⟩

/-- A method keeps its name. -/
theorem Precedes.qualifiedName (h : ctx.Precedes ctx') {id : SymbolId} {m : Method}
    (hm : ctx.method? id = some m) : ctx'.qualifiedName id = ctx.qualifiedName id := by
  obtain ⟨p, hp, hm⟩ := Option.bind_eq_some_iff.mp hm
  obtain ⟨c, hc, hm⟩ := Option.bind_eq_some_iff.mp hm
  obtain ⟨p', hp', hpackage⟩ := h.package? hp
  obtain ⟨c', m', hc', hm', hclass, hmethod⟩ := exists_method_of_declared hpackage hc hm
  have hpackageName : p'.declared.name = p.declared.name := congrArg Package.name hpackage
  have hclassName : c'.declared.name = c.declared.name := congrArg ClassTable.name hclass
  have hmethodName : m'.declared.name = m.declared.name := congrArg Method.name hmethod
  change p'.name = p.name at hpackageName
  change c'.name = c.name at hclassName
  change m'.name = m.name at hmethodName
  simp [Context.qualifiedName, qualifiedNameAt, hp, hc, hm, hp', hc', hm', hpackageName, hclassName,
    hmethodName]

/-- Finding a method by its package, its class and its own name. -/
theorem findMethod?_eq (ctx : Context) (className name descriptor : String) :
    ctx.findMethod? className name descriptor =
      (ctx.findPackage? (splitClassName className).1).bind fun p =>
        (p.findClass? (splitClassName className).2).bind fun c =>
          c.findMethod? name descriptor := rfl

/-- A method that is found is found later too. -/
theorem Precedes.findMethod? (h : ctx.Precedes ctx') {className name descriptor : String}
    {m : Method} (hm : ctx.findMethod? className name descriptor = some m) :
    ∃ m', ctx'.findMethod? className name descriptor = some m' ∧ m'.declared = m.declared := by
  rw [findMethod?_eq] at hm
  obtain ⟨p, hp, hm⟩ := Option.bind_eq_some_iff.mp hm
  obtain ⟨c, hc, hm⟩ := Option.bind_eq_some_iff.mp hm
  have hpackage : (ctx'.findPackage? (splitClassName className).1).map Package.declared =
      some p.declared := by
    rw [findPackage?_declared]
    exact h.find?_eq_some (by rw [← findPackage?_declared, hp, Option.map_some])
  obtain ⟨p', hp', hpackage⟩ := Option.map_eq_some_iff.mp hpackage
  have hclass : (p'.findClass? (splitClassName className).2).map ClassTable.declared =
      some c.declared := by
    rw [← Package.findClass?_declared, hpackage, Package.findClass?_declared, hc, Option.map_some]
  obtain ⟨c', hc', hclass⟩ := Option.map_eq_some_iff.mp hclass
  have hmethod : (c'.findMethod? name descriptor).map Method.declared = some m.declared := by
    rw [← ClassTable.findMethod?_declared, hclass, ClassTable.findMethod?_declared, hm,
      Option.map_some]
  obtain ⟨m', hm', hmethod⟩ := Option.map_eq_some_iff.mp hmethod
  exact ⟨m', by rw [findMethod?_eq, hp', Option.bind_some, hc', Option.bind_some, hm'], hmethod⟩

end Context

end SlotJit.Tables
