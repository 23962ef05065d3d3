import SlotJit.Proofs.Fallible
import SlotJit.Tables.Package

/-!
# The order of the tables

The classes of a package stand in strict order of their names. The methods of a class stand in order
of their names, and overloads in the order of their declarations. Apart from the order, tables hold
what was declared.

## Main results

* `sortedByName_arranges`: sorting by name is the one arrangement that keeps the order of equal
  names.
* `represents_build`, `represents_buildAll`: new tables hold what was declared, in order.
-/

namespace SlotJit.Tables

/-! ### Sorting by name -/

section Sorting

variable {α : Type} {nameOf : α → String}

/-- A list with the elements of another one in order of their names, and those of the same name in
the order of the other list. -/
structure Arranges (nameOf : α → String) (items sorted : List α) : Prop where
  ordered : sorted.Pairwise fun a b => nameOf a ≤ nameOf b
  stable : ∀ name, sorted.filter (nameOf · == name) = items.filter (nameOf · == name)

/-- The comparison that sorting uses is the order of the names. -/
theorem not_lt_iff_le {a b : α} : (!decide (nameOf b < nameOf a)) = true ↔ nameOf a ≤ nameOf b := by
  rw [Bool.not_eq_true', decide_eq_false_iff_not, not_lt]

/-- The order of names is transitive. -/
theorem not_lt_trans (a b c : α) (hab : (!decide (nameOf b < nameOf a)) = true)
    (hbc : (!decide (nameOf c < nameOf b)) = true) : (!decide (nameOf c < nameOf a)) = true :=
  not_lt_iff_le.mpr ((not_lt_iff_le.mp hab).trans (not_lt_iff_le.mp hbc))

/-- The order of names is total. -/
theorem not_lt_total (a b : α) :
    (!decide (nameOf b < nameOf a) || !decide (nameOf a < nameOf b)) = true := by
  rw [Bool.or_eq_true, not_lt_iff_le, not_lt_iff_le]
  exact le_total _ _

variable (items : List α)

/-- Sorting keeps all items. -/
theorem perm_sortedByName : (sortedByName nameOf items).Perm items := List.mergeSort_perm items _

/-- Sorted items are in the order of their names. -/
theorem pairwise_sortedByName :
    (sortedByName nameOf items).Pairwise fun a b => nameOf a ≤ nameOf b :=
  (List.pairwise_mergeSort not_lt_trans not_lt_total items).imp not_lt_iff_le.mp

/-- Items of one name keep their order. -/
theorem filter_sortedByName (name : String) :
    (sortedByName nameOf items).filter (nameOf · == name) = items.filter (nameOf · == name) := by
  have hequal : (items.filter (nameOf · == name)).Pairwise
      fun a b => (!decide (nameOf b < nameOf a)) = true := by
    refine List.pairwise_of_forall_mem_list fun a ha b hb => ?_
    have ha' : nameOf a = name := by simpa using (List.mem_filter.mp ha).2
    have hb' : nameOf b = name := by simpa using (List.mem_filter.mp hb).2
    exact not_lt_iff_le.mpr (ha'.trans hb'.symm).le
  have hsub : (items.filter (nameOf · == name)).Sublist (sortedByName nameOf items) :=
    List.sublist_mergeSort not_lt_trans not_lt_total hequal List.filter_sublist
  have hfilter := hsub.filter (nameOf · == name)
  rw [List.filter_filter] at hfilter
  simp only [Bool.and_self] at hfilter
  exact (hfilter.eq_of_length ((perm_sortedByName items).filter _).length_eq.symm).symm

/-- Sorting by name keeps the order of equal names. -/
theorem sortedByName_arranges :
    Arranges nameOf items (sortedByName nameOf items) :=
  ⟨pairwise_sortedByName items, filter_sortedByName items⟩

variable {items}

/-- Names in order are in strict order if no two neighbours share one. -/
theorem pairwise_lt_of_repeatedName? (hnone : repeatedName? nameOf items = none)
    (hle : items.Pairwise fun a b => nameOf a ≤ nameOf b) :
    items.Pairwise fun a b => nameOf a < nameOf b := by
  fun_induction repeatedName? nameOf items with
  | case1 a b rest heq => cases hnone
  | case2 a b rest hne ih =>
      obtain ⟨hfirst, hrest⟩ := List.pairwise_cons.mp hle
      have htail := ih hnone hrest
      have hab : nameOf a < nameOf b :=
        lt_of_le_of_ne (hfirst b List.mem_cons_self) (by simpa using hne)
      refine List.pairwise_cons.mpr ⟨fun c hc => ?_, htail⟩
      rcases List.mem_cons.mp hc with rfl | hc
      · exact hab
      · exact hab.trans ((List.pairwise_cons.mp htail).1 c hc)
  | case3 items hshort =>
      rcases items with _ | ⟨a, _ | ⟨b, rest⟩⟩
      · exact .nil
      · exact List.pairwise_singleton _ _
      · exact absurd rfl (hshort a b rest)

end Sorting

/-! ### New tables -/

/-- The declaration of a method. -/
def Method.decl (m : Method) : MethodDecl :=
  { name := m.name, descriptor := m.descriptor, access := m.access, maxLocals := m.maxLocals,
    maxStack := m.maxStack, code := m.bytecode }

/-- The table of a class holds the methods that were declared, in order, with their signatures. -/
structure ClassTable.Represents (decl : ClassDecl) (c : ClassTable) : Prop where
  name : c.name = decl.name
  constants : c.constants = decl.constants
  methods : Arranges MethodDecl.name decl.methods (c.methods.toList.map Method.decl)
  signatures : ∀ m ∈ c.methods, Descriptor.parse m.descriptor = .ok m.signature

/-- The tables of a package hold the classes that were declared, in order. -/
structure Package.Represents (decl : PackageDecl) (p : Package) : Prop where
  name : p.name = decl.name
  ordered : p.classes.toList.Pairwise fun c d => c.name < d.name
  classes : ∃ decls : List ClassDecl, decls.Perm decl.classes ∧
    List.Forall₂ ClassTable.Represents decls p.classes.toList

/-- A method that is built is the declared one, without a body and code. -/
theorem eq_of_build {package : Nat} {packageName : String} {classIndex : Nat} {className : String}
    {member : Nat} {decl : MethodDecl} {m : Method}
    (h : Method.build package packageName classIndex className member decl = .ok m) :
    m.decl = decl ∧ Descriptor.parse m.descriptor = .ok m.signature ∧ m.body = {} ∧
      m.code = none := by
  unfold Method.build at h
  split at h
  · cases h
  · split at h
    · cases h
    · rename_i signature hparse
      cases h
      exact ⟨rfl, hparse, rfl, rfl⟩

/-- The table of a class. -/
theorem ClassTable.represents_build {package : Nat} {packageName : String} {classIndex : Nat}
    {decl : ClassDecl} {c : ClassTable}
    (h : ClassTable.build package packageName classIndex decl = .ok c) : c.Represents decl := by
  obtain ⟨methods, hmethods, h⟩ := bind_eq_ok.mp h
  cases h
  have hbuilt := forall₂_of_mapM_zipIdx hmethods
  refine ⟨rfl, rfl, ?_, fun m hm => ?_⟩
  · have hdecls : sortedByName MethodDecl.name decl.methods = methods.map Method.decl := by
      rw [← List.forall₂_eq_eq_eq, List.forall₂_map_right_iff]
      exact hbuilt.imp fun a m ⟨i, hm⟩ => (eq_of_build hm).1.symm
    rw [← hdecls]
    exact sortedByName_arranges _
  · obtain ⟨a, -, i, hm⟩ := exists_of_forall₂ hbuilt (by simpa using hm)
    exact (eq_of_build hm).2.1

/-- The tables of a package. -/
theorem Package.represents_build {index : Nat} {decl : PackageDecl} {p : Package}
    (h : Package.build index decl = .ok p) : p.index = index ∧ p.Represents decl := by
  unfold Package.build at h
  simp only at h
  split at h
  · cases h
  · rename_i hdistinct
    obtain ⟨classes, hclasses, h⟩ := bind_eq_ok.mp h
    cases h
    have hbuilt : List.Forall₂ (fun a c => ClassTable.Represents a c)
        (sortedByName ClassDecl.name decl.classes) classes :=
      (forall₂_of_mapM_zipIdx hclasses).imp fun a c ⟨i, hc⟩ => ClassTable.represents_build hc
    refine ⟨rfl, rfl, ?_, _, perm_sortedByName _, hbuilt⟩
    have hnames : (sortedByName ClassDecl.name decl.classes).map ClassDecl.name =
        classes.map ClassTable.name := by
      rw [← List.forall₂_eq_eq_eq, List.forall₂_map_right_iff, List.forall₂_map_left_iff]
      exact hbuilt.imp fun a c hc => hc.name.symm
    have hlt := pairwise_lt_of_repeatedName? hdistinct (pairwise_sortedByName _)
    rw [← List.pairwise_map (f := ClassDecl.name), hnames, List.pairwise_map] at hlt
    exact hlt

/-- The tables of a batch. -/
theorem represents_buildAll {first : Nat} {batch : List PackageDecl} {packages : Array Package}
    (h : buildAll first batch = .ok packages) :
    packages.size = batch.length ∧ ∀ (i : Nat) (p : Package), packages[i]? = some p →
      p.index = first + i ∧ ∃ decl, batch[i]? = some decl ∧ p.Represents decl := by
  obtain ⟨built, hbuilt, h⟩ := bind_eq_ok.mp h
  cases h
  refine ⟨by simpa using (getElem?_of_mapM hbuilt).1, fun i p hp => ?_⟩
  obtain ⟨⟨decl, j⟩, hdecl, hp⟩ := exists_of_mapM hbuilt (by simpa using hp)
  rw [List.getElem?_zipIdx, Nat.zero_add] at hdecl
  obtain ⟨a, ha, heq⟩ := Option.map_eq_some_iff.mp hdecl
  cases heq
  obtain ⟨hindex, hp⟩ := Package.represents_build hp
  exact ⟨hindex, _, ha, hp⟩

/-- New methods have neither a body nor code. -/
theorem empty_of_buildAll {first : Nat} {batch : List PackageDecl} {packages : Array Package}
    (h : buildAll first batch = .ok packages) {p : Package} (hp : p ∈ packages) {c : ClassTable}
    (hc : c ∈ p.classes) {m : Method} (hm : m ∈ c.methods) : m.body = {} ∧ m.code = none := by
  obtain ⟨built, hbuilt, h⟩ := bind_eq_ok.mp h
  cases h
  obtain ⟨decl, -, i, hbuild⟩ :=
    exists_of_forall₂ (forall₂_of_mapM_zipIdx hbuilt) (by simpa using hp)
  unfold Package.build at hbuild
  simp only at hbuild
  split at hbuild
  · cases hbuild
  · obtain ⟨classes, hclasses, hbuild⟩ := bind_eq_ok.mp hbuild
    cases hbuild
    obtain ⟨classDecl, -, j, hclass⟩ :=
      exists_of_forall₂ (forall₂_of_mapM_zipIdx hclasses) (by simpa using hc)
    obtain ⟨methods, hmethods, hclass⟩ := bind_eq_ok.mp hclass
    cases hclass
    obtain ⟨methodDecl, -, k, hmethod⟩ :=
      exists_of_forall₂ (forall₂_of_mapM_zipIdx hmethods) (by simpa using hm)
    exact (eq_of_build hmethod).2.2

end SlotJit.Tables
