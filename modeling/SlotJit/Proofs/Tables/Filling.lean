import SlotJit.Proofs.Tables.Ids
import SlotJit.Proofs.Tables.Order

/-!
# Filling in tables

Bodies and code are filled in one method at a time, each at the position that its id tells. Where
ids are positions that is the same as changing every staged method according to its own id, so
nothing is written to another method, and nothing is moved.

## Main results

* `modifyStaged_eq_mapStaged`: a change at the position of an id is a change of the method with this
  id.
* `foldl_modifyStaged`: so is a run of such changes.
* `fill_cases`: what a run of changes does to a method.
-/

namespace SlotJit.Tables

variable {ctx : Context} {f g : Method → Method}

/-! ### Changing all methods -/

/-- A class with all methods changed. -/
def ClassTable.mapMethods (g : Method → Method) (c : ClassTable) : ClassTable :=
  { c with methods := c.methods.map g }

/-- A package with all methods changed. -/
def Package.mapMethods (g : Method → Method) (p : Package) : Package :=
  { p with classes := p.classes.map (ClassTable.mapMethods g) }

/-- A context with all staged methods changed. -/
def Context.mapStaged (ctx : Context) (g : Method → Method) : Context :=
  { ctx with staged := ctx.staged.map (Package.mapMethods g) }

theorem ClassTable.mapMethods_comp (c : ClassTable) :
    (c.mapMethods f).mapMethods g = c.mapMethods (g ∘ f) := by
  simp [ClassTable.mapMethods, Function.comp_def]

theorem Package.mapMethods_comp (p : Package) :
    (p.mapMethods f).mapMethods g = p.mapMethods (g ∘ f) := by
  simp [Package.mapMethods, ClassTable.mapMethods_comp, Function.comp_def]

theorem Context.mapStaged_comp : (ctx.mapStaged f).mapStaged g = ctx.mapStaged (g ∘ f) := by
  simp [Context.mapStaged, Package.mapMethods_comp, Function.comp_def]

theorem ClassTable.mapMethods_eq_self {c : ClassTable}
    (h : ∀ (j : Nat) (m : Method), c.methods[j]? = some m → g m = m) : c.mapMethods g = c := by
  have hmap : c.methods.map g = c.methods := by
    apply Array.ext_getElem?
    intro j
    rw [Array.getElem?_map]
    rcases hj : c.methods[j]? with _ | m
    · rfl
    · exact congrArg some (h j m hj)
  rw [ClassTable.mapMethods, hmap]

/-- Changes that change no method of a package leave it as it is. -/
theorem Package.mapMethods_eq_self {p : Package}
    (h : ∀ (i j : Nat) (c : ClassTable) (m : Method), p.classes[i]? = some c →
      c.methods[j]? = some m → g m = m) : p.mapMethods g = p := by
  have hmap : p.classes.map (ClassTable.mapMethods g) = p.classes := by
    apply Array.ext_getElem?
    intro i
    rw [Array.getElem?_map]
    rcases hi : p.classes[i]? with _ | c
    · rfl
    · exact congrArg some (ClassTable.mapMethods_eq_self fun j m hm => h i j c m hi hm)
  rw [Package.mapMethods, hmap]

/-- Changes that agree on the methods of a package. -/
theorem Package.mapMethods_congr {p : Package} (h : ∀ c ∈ p.classes, ∀ m ∈ c.methods, f m = g m) :
    p.mapMethods f = p.mapMethods g := by
  have hclasses :
      p.classes.map (ClassTable.mapMethods f) = p.classes.map (ClassTable.mapMethods g) := by
    refine Array.map_congr_left fun c hc => ?_
    rw [ClassTable.mapMethods, ClassTable.mapMethods, Array.map_congr_left (h c hc)]
  rw [Package.mapMethods, Package.mapMethods, hclasses]

/-- The positions of methods stay when all are changed. -/
theorem Package.exists_of_mapMethods {p : Package} {i j : Nat} {c : ClassTable} {m : Method}
    (hc : (p.mapMethods g).classes[i]? = some c) (hm : c.methods[j]? = some m) :
    ∃ c' m', p.classes[i]? = some c' ∧ c'.methods[j]? = some m' ∧ c = c'.mapMethods g ∧
      m = g m' := by
  simp only [Package.mapMethods, Array.getElem?_map, Option.map_eq_some_iff] at hc
  obtain ⟨c', hc', rfl⟩ := hc
  simp only [ClassTable.mapMethods, Array.getElem?_map, Option.map_eq_some_iff] at hm
  obtain ⟨m', hm', rfl⟩ := hm
  exact ⟨c', m', hc', hm', rfl, rfl⟩

/-- Ids stay positions when all staged methods are changed but for their ids. -/
theorem Context.Indexed.mapStaged (h : ctx.Indexed) (hg : ∀ m, (g m).id = m.id) :
    (ctx.mapStaged g).Indexed := by
  intro index p hp
  rw [Context.package?_eq] at hp
  by_cases hlt : index < ctx.published.size
  · rw [Context.mapStaged, Array.getElem?_append_left hlt] at hp
    exact h index p (by rwa [Context.package?_eq, Array.getElem?_append_left hlt])
  · rw [Context.mapStaged, Array.getElem?_append_right (Nat.le_of_not_lt hlt), Array.getElem?_map,
      Option.map_eq_some_iff] at hp
    obtain ⟨p', hp', rfl⟩ := hp
    have hindexed : p'.Indexed index := h index p' (by
      rwa [Context.package?_eq, Array.getElem?_append_right (Nat.le_of_not_lt hlt)])
    intro i j c m hc hm
    obtain ⟨c', m', hc', hm', -, rfl⟩ := Package.exists_of_mapMethods hc hm
    rw [hg]
    exact hindexed i j c' m' hc' hm'

/-- Contexts with the same packages find the same methods by id. -/
theorem Context.method?_eq_of_append_eq {ctx' : Context}
    (h : ctx.published ++ ctx.staged = ctx'.published ++ ctx'.staged) (id : SymbolId) :
    ctx.method? id = ctx'.method? id := by
  have hpackage : ctx.package? = ctx'.package? := by
    funext index
    rw [Context.package?_eq, Context.package?_eq, h]
  rw [Context.method?, Context.method?, hpackage]

/-- The method of an id after all staged methods are changed. -/
theorem Context.method?_mapStaged (id : SymbolId) :
    (ctx.mapStaged g).method? id =
      if id.package.val < ctx.published.size then ctx.method? id else (ctx.method? id).map g := by
  simp only [Context.method?, methodAt?, Context.package?, Context.mapStaged]
  by_cases hlt : id.package.val < ctx.published.size
  · simp only [hlt, if_true]
  · simp only [hlt, if_false, Array.getElem?_map]
    rcases ctx.staged[id.package.val - ctx.published.size]? with _ | p
    · rfl
    · simp only [Option.map_some, Option.bind_some, Option.bind_eq_bind, Package.mapMethods,
        Array.getElem?_map]
      rcases p.classes[id.classIndex.val]? with _ | c
      · rfl
      · simp only [Option.map_some, Option.bind_some, ClassTable.mapMethods, Array.getElem?_map]

/-! ### What was declared -/

/-- A method before anything is filled in. -/
def Method.declared (m : Method) : Method := { m with body := {}, code := none }

/-- A class before anything is filled in. -/
def ClassTable.declared (c : ClassTable) : ClassTable := c.mapMethods Method.declared

/-- A package before anything is filled in. -/
def Package.declared (p : Package) : Package := p.mapMethods Method.declared

/-- Changes that leave what is declared of methods leave what is declared of packages. -/
theorem Package.declared_mapMethods (hg : ∀ m, (g m).declared = m.declared) (p : Package) :
    (p.mapMethods g).declared = p.declared := by
  rw [Package.declared, Package.mapMethods_comp,
    show Method.declared ∘ g = Method.declared from funext hg]
  rfl

/-- What is filled in later is no part of what a class holds of its declaration. -/
theorem ClassTable.represents_of_declared {decl : ClassDecl} {c : ClassTable}
    (h : c.declared.Represents decl) : c.Represents decl := by
  refine ⟨h.name, h.constants, ?_, fun m hm => ?_⟩
  · have hmethods :
        c.declared.methods.toList.map Method.decl = c.methods.toList.map Method.decl := by
      simp [ClassTable.declared, ClassTable.mapMethods, Function.comp_def, Method.decl,
        Method.declared]
    rw [← hmethods]
    exact h.methods
  · exact h.signatures m.declared (Array.mem_map.mpr ⟨m, hm, rfl⟩)

/-- What is filled in later is no part of what a package holds of its declaration. -/
theorem Package.represents_of_declared {decl : PackageDecl} {p : Package}
    (h : p.declared.Represents decl) : p.Represents decl := by
  obtain ⟨decls, hperm, hclasses⟩ := h.classes
  have hmap : p.declared.classes.toList = p.classes.toList.map ClassTable.declared := by
    simp [Package.declared, Package.mapMethods, ClassTable.declared]
  rw [hmap, List.forall₂_map_right_iff] at hclasses
  refine ⟨h.name, ?_, decls, hperm, hclasses.imp fun _ _ hc => ClassTable.represents_of_declared hc⟩
  have hordered := h.ordered
  rw [hmap, List.pairwise_map] at hordered
  exact hordered

/-! ### Changes by id -/

/-- A change in one place is a change of everything that leaves the other places as they are. -/
theorem modify_eq_map {α : Type} {as : Array α} {k : Nat} {change all : α → α}
    (h : ∀ i a, as[i]? = some a → all a = if k = i then change a else a) :
    as.modify k change = as.map all := by
  apply Array.ext_getElem?
  intro i
  rw [Array.getElem?_modify, Array.getElem?_map]
  rcases hi : as[i]? with _ | a
  · simp
  · have := h i a hi
    split at this <;> simp_all

/-- The change of a method that has an id. -/
def changeById (id : SymbolId) (f : Method → Method) (m : Method) : Method :=
  if m.id = id then f m else m

/-- In a package where the id is not a position, nothing changes. -/
theorem Package.Indexed.mapMethods_of_ne {p : Package} {index : Nat} (h : p.Indexed index)
    {id : SymbolId} (hne : id.package.val ≠ index) : p.mapMethods (changeById id f) = p := by
  refine Package.mapMethods_eq_self fun i j c m hc hm => if_neg fun heq => hne ?_
  rw [← heq]
  exact (h i j c m hc hm).1

/-- In its package an id is the position of the method that has it. -/
theorem Package.Indexed.modify_eq_mapMethods {p : Package} {id : SymbolId}
    (h : p.Indexed id.package.val) :
    { p with
      classes := p.classes.modify id.classIndex fun c =>
        { c with methods := c.methods.modify id.member f } } = p.mapMethods (changeById id f) := by
  rw [Package.mapMethods]
  congr 1
  refine modify_eq_map fun i c hc => ?_
  split
  · rename_i hclass
    rw [ClassTable.mapMethods]
    congr 1
    refine (modify_eq_map fun j m hm => ?_).symm
    obtain ⟨hp, hi, hj⟩ := h i j c m hc hm
    have hiff : m.id = id ↔ id.member.val = j := by
      refine ⟨fun heq => heq ▸ hj, fun heq => ?_⟩
      rcases hid : m.id with ⟨package, classIndex, member⟩
      rcases id with ⟨package', classIndex', member'⟩
      simp only [hid] at hp hi hj hclass heq
      rw [SymbolId.mk.injEq]
      exact ⟨Fin.ext hp, Fin.ext (hi.trans hclass.symm), Fin.ext (hj.trans heq.symm)⟩
    by_cases heq : m.id = id
    · rw [changeById, if_pos heq, if_pos (hiff.mp heq)]
    · rw [changeById, if_neg heq, if_neg fun hj => heq (hiff.mpr hj)]
  · rename_i hclass
    refine ClassTable.mapMethods_eq_self fun j m hm => if_neg fun heq => hclass ?_
    rw [← heq]
    exact (h i j c m hc hm).2.1

/-- Where ids are positions, a change at the position of an id changes the method with this id. -/
theorem modifyStaged_eq_mapStaged (h : ctx.Indexed) (id : SymbolId) (f : Method → Method) :
    ctx.modifyStaged id f = ctx.mapStaged (changeById id f) := by
  unfold Context.modifyStaged
  split
  · rename_i hlt
    -- The id is one of a published method.
    have hmap : ctx.staged.map (Package.mapMethods (changeById id f)) = ctx.staged := by
      apply Array.ext_getElem?
      intro i
      rw [Array.getElem?_map]
      rcases hi : ctx.staged[i]? with _ | p
      · rfl
      · exact congrArg some ((h.staged hi).mapMethods_of_ne (by omega))
    rw [Context.mapStaged, hmap]
  · rename_i hlt
    rw [Context.mapStaged]
    congr 1
    refine modify_eq_map fun i p hp => ?_
    split
    · rename_i hpackage
      have hposition : ctx.published.size + i = id.package.val := by omega
      exact (hposition ▸ h.staged hp).modify_eq_mapMethods.symm
    · rename_i hpackage
      exact (h.staged hp).mapMethods_of_ne (by omega)

/-! ### Runs of changes -/

/-- Set what is given for the id of a method, the last entry winning. -/
def fill {α : Type} (set : α → Method → Method) (entries : List (SymbolId × α))
    (m : Method) : Method :=
  entries.foldl (fun m entry => changeById entry.1 (set entry.2) m) m

variable {α : Type} (set : α → Method → Method)

/-- Where ids are positions, a run of changes by position is a run of changes by id. -/
theorem foldl_modifyStaged (h : ctx.Indexed) (hset : ∀ a m, (set a m).id = m.id)
    (entries : List (SymbolId × α)) :
    entries.foldl (fun ctx entry => ctx.modifyStaged entry.1 (set entry.2)) ctx =
      ctx.mapStaged (fill set entries) := by
  induction entries generalizing ctx with
  | nil =>
      have hid : ∀ p, Package.mapMethods (fill set []) p = p := fun p =>
        Package.mapMethods_eq_self fun _ _ _ _ _ _ => rfl
      simp [Context.mapStaged, funext hid]
  | cons entry rest ih =>
      have hchange : ∀ m, (changeById entry.1 (set entry.2) m).id = m.id := by
        intro m
        unfold changeById
        split
        · exact hset _ _
        · rfl
      rw [List.foldl_cons, modifyStaged_eq_mapStaged h, ih (h.mapStaged hchange),
        Context.mapStaged_comp]
      rfl

/-- A method is left as it is, or is set to what one of the entries for its id gives. -/
theorem fill_cases (hset : ∀ a m, (set a m).id = m.id) (hlast : ∀ a b m, set b (set a m) = set b m)
    (entries : List (SymbolId × α)) (m : Method) :
    (fill set entries m = m ∧ ∀ a, (m.id, a) ∉ entries) ∨
      ∃ a, (m.id, a) ∈ entries ∧ fill set entries m = set a m := by
  induction entries generalizing m with
  | nil => exact .inl ⟨rfl, fun a => List.not_mem_nil⟩
  | cons entry rest ih =>
      obtain ⟨id, a⟩ := entry
      have hcons : fill set ((id, a) :: rest) m = fill set rest (changeById id (set a) m) := rfl
      rw [hcons]
      by_cases heq : m.id = id
      · rw [changeById, if_pos heq]
        rcases ih (set a m) with ⟨hkept, -⟩ | ⟨b, hb, hfilled⟩
        · exact .inr ⟨a, heq ▸ List.mem_cons_self, hkept⟩
        · rw [hset] at hb
          exact .inr ⟨b, List.mem_cons_of_mem _ hb, hfilled.trans (hlast a b m)⟩
      · rw [changeById, if_neg heq]
        rcases ih m with ⟨hkept, hnone⟩ | ⟨b, hb, hfilled⟩
        · refine .inl ⟨hkept, fun b hb => ?_⟩
          rcases List.mem_cons.mp hb with hhead | hrest
          · exact heq (congrArg Prod.fst hhead)
          · exact hnone b hrest
        · exact .inr ⟨b, List.mem_cons_of_mem _ hb, hfilled⟩

/-- Filling in leaves what is declared. -/
theorem declared_fill (hset : ∀ a m, (set a m).declared = m.declared)
    (entries : List (SymbolId × α)) (m : Method) : (fill set entries m).declared = m.declared := by
  induction entries generalizing m with
  | nil => rfl
  | cons entry rest ih =>
      have hcons :
          fill set (entry :: rest) m = fill set rest (changeById entry.1 (set entry.2) m) := rfl
      rw [hcons, ih, changeById]
      split
      · exact hset _ _
      · rfl

end SlotJit.Tables
