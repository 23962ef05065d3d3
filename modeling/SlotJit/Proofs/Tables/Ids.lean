import SlotJit.Proofs.Fallible
import SlotJit.Tables.Context

/-!
# Ids are positions

The id of a method is its position in the tables: the index of its package, of its class and of the
method itself. The tables are built that way, and changing a method in place does not move it. So a
method that is found by its name is also found by its id.

## Main results

* `positioned_of_indexed`: what is found by name is found by id.
* `indexed_buildAll`: ids are positions in new tables.
* `Context.Indexed.modifyStaged`: they stay positions when a method is changed but for its id.
-/

namespace SlotJit.Tables

variable {ctx : Context} {p : Package} {c : ClassTable} {m : Method} {i : Nat}

/-- The ids of the methods of a package at an index are their positions. -/
def Package.Indexed (p : Package) (index : Nat) : Prop :=
  ∀ (i j : Nat) (c : ClassTable) (m : Method), p.classes[i]? = some c → c.methods[j]? = some m →
    m.id.package.val = index ∧ m.id.classIndex.val = i ∧ m.id.member.val = j

/-- The ids of the methods of all packages are their positions. -/
def Context.Indexed (ctx : Context) : Prop :=
  ∀ (index : Nat) (p : Package), ctx.package? index = some p → p.Indexed index

/-- A method that is found by its name is found by its id. -/
def Positioned (ctx : Context) : Prop :=
  ∀ className name descriptor method, ctx.findMethod? className name descriptor = some method →
    ctx.method? method.id = some method

/-! ### Finding methods -/

/-- A class that is found is in the table. -/
theorem exists_of_findClass? {name : String} (h : p.findClass? name = some c) :
    ∃ i : Nat, p.classes[i]? = some c := by
  unfold Package.findClass? at h
  split at h
  · rename_i found hfound
    split at h
    · cases h
      exact ⟨_, hfound⟩
    · cases h
  · cases h

/-- A method that is found is in the table. -/
theorem exists_of_findMethod? {name descriptor : String}
    (h : c.findMethod? name descriptor = some m) : ∃ i : Nat, c.methods[i]? = some m := by
  have hmem : m ∈ (c.methods.extract (lowerBound Method.name c.methods name)
      c.methods.size).toList.takeWhile (·.name == name) := by
    unfold ClassTable.findMethod? at h
    simp only at h
    split at h
    · rename_i found hfound
      cases h
      exact List.mem_of_find?_eq_some hfound
    · split at h
      · exact List.mem_of_mem_head? h
      · cases h
  have hextract := (List.takeWhile_sublist _).subset hmem
  rw [Array.toList_extract, List.extract_eq_take_drop] at hextract
  obtain ⟨i, hi⟩ := List.mem_iff_getElem?.mp (List.mem_of_mem_drop (List.mem_of_mem_take hextract))
  exact ⟨i, by rwa [Array.getElem?_toList] at hi⟩

/-- A package that is found has an index. -/
theorem exists_of_findPackage? {name : String} (h : ctx.findPackage? name = some p) :
    ∃ index : Nat, ctx.package? index = some p := by
  unfold Context.findPackage? at h
  split at h
  · rename_i found hfound
    cases h
    obtain ⟨i, hi⟩ := Array.mem_iff_getElem?.mp (Array.mem_of_find?_eq_some hfound)
    have hlt := (Array.getElem?_eq_some_iff.mp hi).1
    exact ⟨i, by rw [Context.package?, if_pos hlt, hi]⟩
  · obtain ⟨i, hi⟩ := Array.mem_iff_getElem?.mp (Array.mem_of_find?_eq_some h)
    refine ⟨ctx.published.size + i, ?_⟩
    rw [Context.package?, if_neg (Nat.not_lt.mpr (Nat.le_add_right _ _)),
      Nat.add_sub_cancel_left, hi]

/-- Where ids are positions, a method that is found by its name is found by its id. -/
theorem positioned_of_indexed (h : ctx.Indexed) : Positioned ctx := by
  intro className name descriptor method hfound
  obtain ⟨p, hp, hfound⟩ := Option.bind_eq_some_iff.mp hfound
  obtain ⟨c, hc, hm⟩ := Option.bind_eq_some_iff.mp hfound
  obtain ⟨index, hindex⟩ := exists_of_findPackage? hp
  obtain ⟨i, hi⟩ := exists_of_findClass? hc
  obtain ⟨j, hj⟩ := exists_of_findMethod? hm
  obtain ⟨hpackage, hclass, hmember⟩ := h index p hindex i j c method hi hj
  simp [Context.method?, methodAt?, hpackage, hindex, hclass, hi, hmember, hj]

/-- Where ids are positions, the method of an id has it. -/
theorem Context.Indexed.id_of_method? (h : ctx.Indexed) {id : SymbolId}
    (hm : ctx.method? id = some m) : m.id = id := by
  obtain ⟨p, hp, hm⟩ := Option.bind_eq_some_iff.mp hm
  obtain ⟨c, hc, hm⟩ := Option.bind_eq_some_iff.mp hm
  obtain ⟨hpackage, hclass, hmember⟩ := h _ p hp _ _ c m hc hm
  rcases hid : m.id with ⟨package, classIndex, member⟩
  rw [hid] at hpackage hclass hmember
  rcases id with ⟨package', classIndex', member'⟩
  rw [SymbolId.mk.injEq]
  exact ⟨Fin.ext hpackage, Fin.ext hclass, Fin.ext hmember⟩

/-- Where ids are positions, the id of a method finds it. -/
theorem Context.Indexed.method?_id (h : ctx.Indexed) {j k : Nat} (hp : ctx.package? i = some p)
    (hc : p.classes[j]? = some c) (hm : c.methods[k]? = some m) : ctx.method? m.id = some m := by
  obtain ⟨hpackage, hclass, hmember⟩ := h i p hp j k c m hc hm
  simp [Context.method?, methodAt?, hpackage, hp, hclass, hc, hmember, hm]

/-- The packed word of an id unpacks to its indices. -/
theorem raw_unpacks (id : SymbolId) :
    id.raw.toNat / 2 ^ 40 = id.package.val ∧
      id.raw.toNat / 2 ^ 16 % 2 ^ 24 = id.classIndex.val ∧
      id.raw.toNat % 2 ^ 16 = id.member.val := by
  have hpackage := id.package.isLt
  have hclass := id.classIndex.isLt
  have hmember := id.member.isLt
  have hraw : id.raw.toNat =
      id.package.val * 0x10000000000 + id.classIndex.val * 0x10000 + id.member.val := by
    rw [SymbolId.raw, UInt64.toNat_ofNat_of_lt']
    show _ < 2 ^ 64
    omega
  omega

/-! ### Building tables -/

/-- What is made at a place of a numbered list is made from its number. -/
theorem exists_of_mapM_zipIdx {α β ε : Type} {f : α × Nat → Except ε β} {as : List α} {bs : List β}
    (h : as.zipIdx.mapM f = .ok bs) {b : β} (hb : bs[i]? = some b) : ∃ a, f (a, i) = .ok b := by
  obtain ⟨⟨a, j⟩, ha, hf⟩ := exists_of_mapM h hb
  rw [List.getElem?_zipIdx, Nat.zero_add] at ha
  obtain ⟨a', -, heq⟩ := Option.map_eq_some_iff.mp ha
  cases heq
  exact ⟨a, hf⟩

/-- The id that is made from indices has them. -/
theorem val_of_ofIndices {package classIndex member : Nat} {id : SymbolId}
    (h : SymbolId.ofIndices package classIndex member = .ok id) :
    id.package.val = package ∧ id.classIndex.val = classIndex ∧ id.member.val = member := by
  unfold SymbolId.ofIndices at h
  repeat' split at h
  all_goals cases h
  exact ⟨rfl, rfl, rfl⟩

/-- The id of a new method is its position. -/
theorem id_of_build {package : Nat} {packageName : String} {classIndex : Nat} {className : String}
    {member : Nat} {decl : MethodDecl}
    (h : Method.build package packageName classIndex className member decl = .ok m) :
    m.id.package.val = package ∧ m.id.classIndex.val = classIndex ∧ m.id.member.val = member := by
  unfold Method.build at h
  split at h
  · cases h
  · rename_i id hid
    split at h
    · cases h
    · cases h
      exact val_of_ofIndices hid

/-- In new tables ids are positions. -/
theorem indexed_build {index : Nat} {decl : PackageDecl} (h : Package.build index decl = .ok p) :
    p.Indexed index := by
  intro i j c m hc hm
  unfold Package.build at h
  simp only at h
  split at h
  · cases h
  · obtain ⟨classes, hclasses, h⟩ := bind_eq_ok.mp h
    cases h
    obtain ⟨classDecl, hclass⟩ := exists_of_mapM_zipIdx hclasses (by simpa using hc)
    obtain ⟨methods, hmethods, h⟩ := bind_eq_ok.mp hclass
    cases h
    obtain ⟨methodDecl, hmethod⟩ := exists_of_mapM_zipIdx hmethods (by simpa using hm)
    exact id_of_build hmethod

/-- In a new batch ids are positions. -/
theorem indexed_buildAll {first : Nat} {batch : List PackageDecl} {packages : Array Package}
    (h : buildAll first batch = .ok packages) (hp : packages[i]? = some p) :
    p.Indexed (first + i) := by
  obtain ⟨built, hbuilt, h⟩ := bind_eq_ok.mp h
  cases h
  obtain ⟨decl, hdecl⟩ := exists_of_mapM_zipIdx hbuilt (by simpa using hp)
  exact indexed_build hdecl

/-! ### Changing methods -/

/-- The package of an index is the one at this place of all packages. -/
theorem Context.package?_eq (ctx : Context) (index : Nat) :
    ctx.package? index = (ctx.published ++ ctx.staged)[index]? := by
  unfold Context.package?
  split
  · rename_i hlt
    rw [Array.getElem?_append_left hlt]
  · rename_i hlt
    rw [Array.getElem?_append_right (Nat.le_of_not_lt hlt)]

theorem eq_of_getElem?_singleton {α : Type} {a b : α} (h : #[a][i]? = some b) : i = 0 ∧ b = a := by
  obtain ⟨hi, rfl⟩ := Array.getElem?_eq_some_iff.mp h
  obtain rfl : i = 0 := Nat.lt_one_iff.mp hi
  exact ⟨rfl, rfl⟩

/-- In a context of one method, which has the first id, ids are positions. -/
theorem Context.indexed_singleton (hp : ctx.published ++ ctx.staged = #[p]) (hc : p.classes = #[c])
    (hm : c.methods = #[m]) (hid : m.id = ⟨0, 0, 0⟩) : ctx.Indexed := by
  intro index p' hp' i j c' m' hc' hm'
  rw [Context.package?_eq] at hp'
  obtain ⟨rfl, rfl⟩ := eq_of_getElem?_singleton (hp ▸ hp')
  obtain ⟨rfl, rfl⟩ := eq_of_getElem?_singleton (hc ▸ hc')
  obtain ⟨rfl, rfl⟩ := eq_of_getElem?_singleton (hm ▸ hm')
  rw [hid]
  exact ⟨rfl, rfl, rfl⟩

/-- Ids are positions in the staged packages, which come after the published ones. -/
theorem Context.Indexed.staged (h : ctx.Indexed) (hp : ctx.staged[i]? = some p) :
    p.Indexed (ctx.published.size + i) := by
  refine h _ p ?_
  rw [Context.package?_eq, Array.getElem?_append_right (Nat.le_add_right _ _),
    Nat.add_sub_cancel_left, hp]

variable {f : Method → Method}

/-- Changing a method of a package but for its id. -/
theorem Package.Indexed.modify {index : Nat} (h : p.Indexed index) (hf : ∀ m, (f m).id = m.id)
    (classIndex member : Nat) :
    Package.Indexed { p with
      classes := p.classes.modify classIndex fun c =>
        { c with methods := c.methods.modify member f } } index := by
  intro i j c m hc hm
  simp only [Array.getElem?_modify] at hc
  split at hc
  · obtain ⟨c', hc', rfl⟩ := Option.map_eq_some_iff.mp hc
    simp only [Array.getElem?_modify] at hm
    split at hm
    · obtain ⟨m', hm', rfl⟩ := Option.map_eq_some_iff.mp hm
      rw [hf]
      exact h i j c' m' hc' hm'
    · exact h i j c' m hc' hm
  · exact h i j c m hc hm

/-- Changing a staged method but for its id. -/
theorem Context.Indexed.modifyStaged (h : ctx.Indexed) (hf : ∀ m, (f m).id = m.id) (id : SymbolId) :
    (ctx.modifyStaged id f).Indexed := by
  unfold Context.modifyStaged
  split
  · exact h
  · intro index p hp
    unfold Context.package? at hp
    split at hp
    · rename_i hlt
      exact h index p (by rw [Context.package?, if_pos hlt, hp])
    · rename_i hlt
      have hkept : ∀ p, ctx.staged[index - ctx.published.size]? = some p → p.Indexed index :=
        fun p hp => h index p (by rw [Context.package?, if_neg hlt, hp])
      rw [Array.getElem?_modify] at hp
      split at hp
      · obtain ⟨p', hp', rfl⟩ := Option.map_eq_some_iff.mp hp
        exact (hkept p' hp').modify hf _ _
      · exact hkept p hp

end SlotJit.Tables
