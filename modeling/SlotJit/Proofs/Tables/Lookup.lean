import SlotJit.Proofs.Tables.Order

/-!
# Looking up names

Tables are searched by halving, which finds the first entry whose name is not below the one looked
for. In a table in order, the entries with that name are the run that starts there, and they are all
such entries, in the order of the table. So looking up a class or a method is the same as going
through the declarations one by one.

## Main results

* `drop_lowerBound`: halving finds where the names are no longer below.
* `takeWhile_dropWhile_eq_filter`: what has a name stands together.
* `findMethod?_of_ne`, `findMethod?_empty`, `findClass?_eq_find?`: look-ups in a table in order.
* `lookups_search_declarations`: look-ups in new tables, and when there are no tables since two
  classes share a name.
-/

namespace SlotJit.Tables

/-! ### Halving -/

/-- Halving an interval, in which `below` fails from some position on, ends at that position. -/
theorem partitionPoint_spec {below : Nat → Bool}
    (hmono : ∀ i j, i ≤ j → below j = true → below i = true) {lo hi : Nat} (hle : lo ≤ hi) :
    partitionPoint below lo hi ≤ hi ∧
      (∀ i, lo ≤ i → i < partitionPoint below lo hi → below i = true) ∧
      ∀ i, partitionPoint below lo hi ≤ i → i < hi → below i = false := by
  fun_induction partitionPoint below lo hi with
  | case1 lo hi hlt mid hbelow ih =>
      obtain ⟨hhi, hfirst, hlast⟩ := ih (by omega)
      refine ⟨hhi, fun i hlo hi => ?_, hlast⟩
      by_cases hmid : i ≤ mid
      · exact hmono i mid hmid hbelow
      · exact hfirst i (by omega) hi
  | case2 lo hi hlt mid hbelow ih =>
      obtain ⟨hmid, hfirst, hlast⟩ := ih (by omega)
      refine ⟨by omega, hfirst, fun i hpoint hi => ?_⟩
      by_cases hbefore : i < mid
      · exact hlast i hpoint hbefore
      · exact Bool.eq_false_iff.mpr fun hi => hbelow (hmono mid i (by omega) hi)
  | case3 lo hi hlt =>
      exact ⟨hle, fun i hlo hi => by omega, fun i hlo hi => by omega⟩

section Ordered

variable {α : Type} {nameOf : α → String} {table : Array α} {items : List α} {name : String}

/-- Halving a table in order. -/
theorem partitionPoint_table {below : Nat → Bool}
    (h : table.toList.Pairwise fun a b => nameOf a ≤ nameOf b)
    (hbelow : ∀ i, below i = true ↔ ∃ a, table.toList[i]? = some a ∧ nameOf a < name) :
    partitionPoint below 0 table.size ≤ table.size ∧
      (∀ i a, i < partitionPoint below 0 table.size → table.toList[i]? = some a → nameOf a < name) ∧
      ∀ i a, partitionPoint below 0 table.size ≤ i → table.toList[i]? = some a →
        ¬ nameOf a < name := by
  have hmono : ∀ i j, i ≤ j → below j = true → below i = true := by
    intro i j hij hj
    obtain ⟨b, hb, hlt⟩ := (hbelow j).mp hj
    rcases Nat.lt_or_eq_of_le hij with hij | rfl
    · obtain ⟨hj, rfl⟩ := List.getElem?_eq_some_iff.mp hb
      have hi : i < table.toList.length := hij.trans hj
      refine (hbelow i).mpr ⟨_, List.getElem?_eq_getElem hi, ?_⟩
      exact (List.pairwise_iff_getElem.mp h i j hi hj hij).trans_lt hlt
    · exact hj
  obtain ⟨hsize, hfirst, hlast⟩ := partitionPoint_spec hmono (Nat.zero_le table.size)
  refine ⟨hsize, fun i a hi ha => ?_, fun i a hi ha hlt => ?_⟩
  · obtain ⟨b, hb, hlt⟩ := (hbelow i).mp (hfirst i (Nat.zero_le i) hi)
    cases ha.symm.trans hb
    exact hlt
  · have hsize : i < table.size := (List.getElem?_eq_some_iff.mp ha).1
    exact Bool.false_ne_true ((hlast i hi hsize).symm.trans ((hbelow i).mpr ⟨a, ha, hlt⟩))

/-- In a table in order, halving finds where the names are no longer below. -/
theorem drop_lowerBound (h : table.toList.Pairwise fun a b => nameOf a ≤ nameOf b) (name : String) :
    table.toList.drop (lowerBound nameOf table name) =
      table.toList.dropWhile (fun a => nameOf a < name) := by
  obtain ⟨hsize, hfirst, hlast⟩ : lowerBound nameOf table name ≤ table.size ∧
      (∀ i a, i < lowerBound nameOf table name → table.toList[i]? = some a → nameOf a < name) ∧
      ∀ i a, lowerBound nameOf table name ≤ i → table.toList[i]? = some a → ¬ nameOf a < name := by
    refine partitionPoint_table h fun i => ?_
    rw [Array.getElem?_toList]
    cases table[i]? <;> simp
  generalize lowerBound nameOf table name = start at hsize hfirst hlast
  have hbefore : ∀ a ∈ table.toList.take start, decide (nameOf a < name) = true := by
    intro a ha
    obtain ⟨i, hi⟩ := List.mem_iff_getElem?.mp ha
    rw [List.getElem?_take] at hi
    split at hi
    · exact decide_eq_true (hfirst i a ‹_› hi)
    · cases hi
  conv_rhs => rw [← List.take_append_drop start table.toList, List.dropWhile_append_of_pos hbefore]
  cases hdrop : table.toList.drop start with
  | nil => rfl
  | cons a rest =>
      have ha : table.toList[start]? = some a := by rw [← List.head?_drop, hdrop, List.head?_cons]
      rw [List.dropWhile_cons_of_neg (by simpa using hlast start a le_rfl ha)]

/-- Names in order that are not below a name start with those that have it. -/
theorem takeWhile_eq_filter (hle : items.Pairwise fun a b => nameOf a ≤ nameOf b)
    (hname : ∀ a ∈ items, name ≤ nameOf a) :
    items.takeWhile (nameOf · == name) = items.filter (nameOf · == name) := by
  induction items with
  | nil => rfl
  | cons a rest ih =>
      obtain ⟨hfirst, hrest⟩ := List.pairwise_cons.mp hle
      by_cases ha : nameOf a = name
      · rw [List.takeWhile_cons_of_pos (by simpa using ha),
          List.filter_cons_of_pos (by simpa using ha),
          ih hrest fun b hb => hname b (List.mem_cons_of_mem _ hb)]
      · have hlt : name < nameOf a := lt_of_le_of_ne (hname a List.mem_cons_self) (Ne.symm ha)
        have hnone : ∀ b ∈ rest, ¬ (nameOf b == name) = true := fun b hb heq =>
          absurd (beq_iff_eq.mp heq) (ne_of_gt (hlt.trans_le (hfirst b hb)))
        rw [List.takeWhile_cons_of_neg (by simpa using ha),
          List.filter_cons_of_neg (by simpa using ha), List.filter_eq_nil_iff.mpr hnone]

/-- In a list in order, what has a name stands together, behind what is below. -/
theorem takeWhile_dropWhile_eq_filter (hle : items.Pairwise fun a b => nameOf a ≤ nameOf b)
    (name : String) :
    (items.dropWhile (fun a => nameOf a < name)).takeWhile (nameOf · == name) =
      items.filter (nameOf · == name) := by
  induction items with
  | nil => rfl
  | cons a rest ih =>
      obtain ⟨hfirst, hrest⟩ := List.pairwise_cons.mp hle
      by_cases ha : nameOf a < name
      · rw [List.dropWhile_cons_of_pos (by simpa using ha), ih hrest,
          List.filter_cons_of_neg (by simpa using ne_of_lt ha)]
      · rw [List.dropWhile_cons_of_neg (by simpa using ha)]
        refine takeWhile_eq_filter hle fun b hb => ?_
        rcases List.mem_cons.mp hb with rfl | hb
        · exact not_lt.mp ha
        · exact (not_lt.mp ha).trans (hfirst b hb)

/-- The run of entries with a name that starts where halving ends. -/
theorem takeWhile_extract_eq_filter (h : table.toList.Pairwise fun a b => nameOf a ≤ nameOf b)
    (name : String) :
    (table.extract (lowerBound nameOf table name) table.size).toList.takeWhile (nameOf · == name) =
      table.toList.filter (nameOf · == name) := by
  have hextract : (table.extract (lowerBound nameOf table name) table.size).toList =
      table.toList.drop (lowerBound nameOf table name) := by
    rw [Array.toList_extract, List.extract_eq_take_drop, List.take_of_length_le (by simp)]
  rw [hextract, drop_lowerBound h, takeWhile_dropWhile_eq_filter h]

end Ordered

/-! ### Methods -/

/-- Searching for two properties is searching for one among what has the other. -/
theorem find?_and {α : Type} (p q : α → Bool) (l : List α) :
    l.find? (fun a => p a && q a) = (l.filter p).find? q := by
  rw [List.find?_filter]
  congr 1
  funext a
  rw [Bool.decide_and, Bool.decide_eq_true, Bool.decide_eq_true]

/-- An arrangement has the same first element of a name with a property. -/
theorem Arranges.find?_eq {α : Type} {nameOf : α → String} {items sorted : List α}
    (h : Arranges nameOf items sorted) (name : String) (p : α → Bool) :
    sorted.find? (fun a => nameOf a == name && p a) = items.find? fun a =>
      nameOf a == name && p a := by
  rw [find?_and, find?_and, h.stable]

namespace ClassTable

variable {c : ClassTable} {decl : ClassDecl} {name descriptor : String}

/-- In a table in order, looking up a method with its descriptor goes through all methods. -/
theorem findMethod?_of_ne (h : c.methods.toList.Pairwise fun m m' => m.name ≤ m'.name)
    (hdescriptor : descriptor ≠ "") : c.findMethod? name descriptor =
      c.methods.toList.find? fun m => m.name == name && m.descriptor == descriptor := by
  have hempty : descriptor.isEmpty = false := by simpa using hdescriptor
  rw [find?_and]
  simp only [findMethod?, takeWhile_extract_eq_filter h, hempty]
  cases (c.methods.toList.filter (·.name == name)).find? (·.descriptor == descriptor) <;> rfl

/-- So does looking up a method by its name alone, if no method has an empty descriptor. -/
theorem findMethod?_empty (h : c.methods.toList.Pairwise fun m m' => m.name ≤ m'.name)
    (hdescriptor : ∀ m ∈ c.methods, m.descriptor ≠ "") :
    c.findMethod? name "" = c.methods.toList.find? (·.name == name) := by
  have hnone : (c.methods.toList.filter (·.name == name)).find? (·.descriptor == "") = none := by
    refine List.find?_eq_none.mpr fun m hm heq => ?_
    exact hdescriptor m (Array.mem_def.mpr (List.mem_filter.mp hm).1) (beq_iff_eq.mp heq)
  simp only [findMethod?, takeWhile_extract_eq_filter h, hnone, List.head?_filter]
  rfl

/-- Declared methods have descriptors. -/
theorem Represents.descriptor_ne (h : c.Represents decl) {m : Method} (hm : m ∈ c.methods) :
    m.descriptor ≠ "" := by
  intro heq
  have hparse := h.signatures m hm
  rw [heq] at hparse
  cases hparse

theorem Represents.ordered (h : c.Represents decl) :
    c.methods.toList.Pairwise fun m m' => m.name ≤ m'.name := by
  have hordered := h.methods.ordered
  rwa [List.pairwise_map] at hordered

/-- Looking up a method finds the first declared one with this name and descriptor. -/
theorem Represents.findMethod?_of_ne (h : c.Represents decl) (hdescriptor : descriptor ≠ "") :
    (c.findMethod? name descriptor).map Method.decl =
      decl.methods.find? fun m => m.name == name && m.descriptor == descriptor := by
  rw [ClassTable.findMethod?_of_ne h.ordered hdescriptor,
    ← h.methods.find?_eq name fun m => m.descriptor == descriptor, List.find?_map]
  rfl

/-- Looking up a method without a descriptor finds the first declared one with this name. -/
theorem Represents.findMethod?_empty (h : c.Represents decl) :
    (c.findMethod? name "").map Method.decl = decl.methods.find? (·.name == name) := by
  have hfind := h.methods.find?_eq name fun _ => true
  simp only [Bool.and_true] at hfind
  rw [ClassTable.findMethod?_empty h.ordered fun m => h.descriptor_ne, ← hfind, List.find?_map]
  rfl

end ClassTable

/-! ### Classes -/

namespace Package

variable {p : Package} {decl : PackageDecl} {className : String}

/-- In a table in order, looking up a class goes through all classes. -/
theorem findClass?_eq_find? (h : p.classes.toList.Pairwise fun c d => c.name ≤ d.name) :
    p.findClass? className = p.classes.toList.find? (·.name == className) := by
  have hfirst : p.classes[lowerBound ClassTable.name p.classes className]? =
      (p.classes.toList.dropWhile (fun c => c.name < className)).head? := by
    rw [← drop_lowerBound h, List.head?_drop, Array.getElem?_toList]
  rw [← List.head?_filter, ← takeWhile_dropWhile_eq_filter h, List.head?_takeWhile, ← hfirst,
    findClass?]
  cases p.classes[lowerBound ClassTable.name p.classes className]? with
  | none => rfl
  | some c => rw [Option.filter_some]

theorem Represents.ordered_le (h : p.Represents decl) :
    p.classes.toList.Pairwise fun c d => c.name ≤ d.name :=
  h.ordered.imp le_of_lt

/-- A declared class has a table, and is found by its name. -/
theorem Represents.findClass?_name (h : p.Represents decl) {c : ClassDecl} (hc : c ∈ decl.classes) :
    ∃ table, p.findClass? c.name = some table ∧ table.Represents c := by
  obtain ⟨decls, hperm, hclasses⟩ := h.classes
  obtain ⟨table, hmem, htable⟩ := exists_of_forall₂ hclasses.flip (hperm.mem_iff.mpr hc)
  have hname : (table.name == c.name) = true := beq_iff_eq.mpr htable.name
  have hdistinct : (p.classes.toList.map ClassTable.name).Nodup := by
    rw [List.Nodup, List.pairwise_map]
    exact h.ordered.imp ne_of_lt
  refine ⟨table, ?_, htable⟩
  rw [findClass?_eq_find? h.ordered_le]
  cases hfound : p.classes.toList.find? (·.name == c.name) with
  | none => exact absurd hname (List.find?_eq_none.mp hfound table hmem)
  | some found =>
      have hsame : found.name = table.name := by
        have hfoundName := List.find?_some hfound
        rw [beq_iff_eq.mp hfoundName, htable.name]
      rw [List.inj_on_of_nodup_map hdistinct (List.mem_of_find?_eq_some hfound) hmem hsame]

/-- Only declared classes are found. -/
theorem Represents.exists_of_findClass? (h : p.Represents decl) {table : ClassTable}
    (hfound : p.findClass? className = some table) : ∃ c ∈ decl.classes, c.name = className := by
  rw [findClass?_eq_find? h.ordered_le] at hfound
  obtain ⟨decls, hperm, hclasses⟩ := h.classes
  obtain ⟨c, hc, htable⟩ := exists_of_forall₂ hclasses (List.mem_of_find?_eq_some hfound)
  have hname := List.find?_some hfound
  exact ⟨c, hperm.mem_iff.mp hc, htable.name.symm.trans (beq_iff_eq.mp hname)⟩

end Package

/-! ### Shared names -/

section Shared

variable {α : Type} {nameOf : α → String} {items : List α} {name : String}

/-- In a list in order, the name that is found to be shared is the least one that is. -/
theorem duplicate_of_repeatedName? (hle : items.Pairwise fun a b => nameOf a ≤ nameOf b)
    (h : repeatedName? nameOf items = some name) :
    List.Duplicate name (items.map nameOf) ∧
      ∀ other, List.Duplicate other (items.map nameOf) → name ≤ other := by
  fun_induction repeatedName? nameOf items with
  | case1 a b rest heq =>
      cases h
      obtain ⟨hfirst, -⟩ := List.pairwise_cons.mp hle
      refine ⟨List.duplicate_cons_iff.mpr (.inl ⟨rfl, ?_⟩), fun other hother => ?_⟩
      · rw [beq_iff_eq.mp heq]
        exact List.mem_map_of_mem List.mem_cons_self
      · obtain ⟨c, hc, rfl⟩ := List.mem_map.mp hother.mem
        rcases List.mem_cons.mp hc with rfl | hc
        · exact le_rfl
        · exact hfirst c hc
  | case2 a b rest hne ih =>
      obtain ⟨hfirst, hrest⟩ := List.pairwise_cons.mp hle
      obtain ⟨hduplicate, hleast⟩ := ih hrest h
      refine ⟨List.duplicate_cons_iff.mpr (.inr hduplicate), fun other hother => ?_⟩
      rcases List.duplicate_cons_iff.mp hother with ⟨rfl, hmem⟩ | hother
      · -- The first name is less than the second, so it is not shared with a later one.
        obtain ⟨c, hc, hname⟩ := List.mem_map.mp hmem
        have hlt : nameOf a < nameOf b :=
          lt_of_le_of_ne (hfirst b List.mem_cons_self) (by simpa using hne)
        have hbc : nameOf b ≤ nameOf c := by
          rcases List.mem_cons.mp hc with rfl | hc
          · exact le_rfl
          · exact (List.pairwise_cons.mp hrest).1 c hc
        exact absurd hname (ne_of_gt (hlt.trans_le hbc))
      · exact hleast other hother
  | case3 items hshort => cases h

/-- Sorting does not change which names are shared. -/
theorem duplicate_sortedByName (items : List α) (name : String) :
    List.Duplicate name ((sortedByName nameOf items).map nameOf) ↔
      List.Duplicate name (items.map nameOf) := by
  rw [List.duplicate_iff_two_le_count, List.duplicate_iff_two_le_count,
    ((perm_sortedByName items).map nameOf).count_eq]

/-- Two things share a name exactly if their neighbours do once they are sorted. -/
theorem repeatedName?_sortedByName (nameOf : α → String) (items : List α) :
    (repeatedName? nameOf (sortedByName nameOf items) = none ∧ (items.map nameOf).Nodup) ∨
      ∃ name, repeatedName? nameOf (sortedByName nameOf items) = some name ∧
        List.Duplicate name (items.map nameOf) ∧
        ∀ other, List.Duplicate other (items.map nameOf) → name ≤ other := by
  have hle : (sortedByName nameOf items).Pairwise fun a b => nameOf a ≤ nameOf b :=
    pairwise_sortedByName items
  cases hrepeated : repeatedName? nameOf (sortedByName nameOf items) with
  | none =>
      refine .inl ⟨rfl, ?_⟩
      have hlt := pairwise_lt_of_repeatedName? hrepeated hle
      have hnodup : ((sortedByName nameOf items).map nameOf).Nodup := by
        rw [List.Nodup, List.pairwise_map]
        exact hlt.imp ne_of_lt
      exact ((perm_sortedByName items).map nameOf).nodup_iff.mp hnodup
  | some name =>
      obtain ⟨hduplicate, hleast⟩ := duplicate_of_repeatedName? hle hrepeated
      simp only [duplicate_sortedByName] at hduplicate hleast
      exact .inr ⟨name, rfl, hduplicate, hleast⟩

end Shared

/-- A class that cannot be built is no duplicate. -/
theorem ClassTable.build_ne_duplicate {package : Nat} {packageName : String} {classIndex : Nat}
    {decl : ClassDecl} {name : String} :
    ClassTable.build package packageName classIndex decl ≠ .error (.duplicateClass name) := by
  intro h
  rcases bind_eq_error.mp h with h | ⟨methods, -, h⟩
  · obtain ⟨⟨m, member⟩, -, h⟩ := exists_of_mapM_error h
    simp only [Method.build] at h
    split at h
    · cases h
    · split at h <;> cases h
  · cases h

/-- Building tables fails because of a shared name exactly if there is one, and tells the least. -/
theorem Package.build_duplicate_iff {index : Nat} {decl : PackageDecl} {className : String} :
    Package.build index decl = .error (.duplicateClass className) ↔
      ∃ name, className = decl.name ++ "/" ++ name ∧
        List.Duplicate name (decl.classes.map ClassDecl.name) ∧
        ∀ other, List.Duplicate other (decl.classes.map ClassDecl.name) → name ≤ other := by
  rcases repeatedName?_sortedByName ClassDecl.name decl.classes with
    ⟨hnone, hnodup⟩ | ⟨least, hsome, hduplicate, hleast⟩
  · constructor
    · intro h
      simp only [Package.build, hnone] at h
      rcases bind_eq_error.mp h with h | ⟨classes, -, h⟩
      · obtain ⟨⟨c, classIndex⟩, -, h⟩ := exists_of_mapM_error h
        exact absurd h ClassTable.build_ne_duplicate
      · cases h
    · rintro ⟨name, -, hduplicate, -⟩
      exact absurd hduplicate (List.nodup_iff_forall_not_duplicate.mp hnodup name)
  · have hbuild :
        Package.build index decl = .error (.duplicateClass (decl.name ++ "/" ++ least)) := by
      simp only [Package.build, hsome]
      rfl
    rw [hbuild]
    constructor
    · intro h
      cases h
      exact ⟨least, rfl, hduplicate, hleast⟩
    · rintro ⟨name, rfl, hduplicate', hleast'⟩
      rw [le_antisymm (hleast name hduplicate') (hleast' least hduplicate)]

/-- There is a name that is told exactly if the names are not distinct. -/
theorem Package.exists_build_duplicate_iff {index : Nat} {decl : PackageDecl} :
    (∃ className, Package.build index decl = .error (.duplicateClass className)) ↔
      ¬ (decl.classes.map ClassDecl.name).Nodup := by
  rw [← List.exists_duplicate_iff_not_nodup]
  constructor
  · rintro ⟨className, h⟩
    obtain ⟨name, -, hduplicate, -⟩ := Package.build_duplicate_iff.mp h
    exact ⟨name, hduplicate⟩
  · rintro ⟨name, hduplicate⟩
    rcases repeatedName?_sortedByName ClassDecl.name decl.classes with
      ⟨-, hnodup⟩ | ⟨least, -, hleast⟩
    · exact absurd hduplicate (List.nodup_iff_forall_not_duplicate.mp hnodup name)
    · exact ⟨_, Package.build_duplicate_iff.mpr ⟨least, rfl, hleast⟩⟩

/-- **Looking up a name is searching the declarations.** In the tables of a package a class is found
exactly if one of that name was declared. In its table a method is found exactly if going through
the declared methods in order finds one, and it is the first of them: with the name and the
descriptor looked for, or with the name if the descriptor is empty. There are no tables because of a
duplicate exactly if two classes share a name, and the least such name is told. -/
theorem lookups_search_declarations (index : Nat) (decl : PackageDecl) :
    (∀ p, Package.build index decl = .ok p →
      (∀ className, (p.findClass? className).isSome ↔ ∃ c ∈ decl.classes, c.name = className) ∧
      ∀ c ∈ decl.classes, ∃ table, p.findClass? c.name = some table ∧ ∀ name,
        (∀ descriptor, descriptor ≠ "" → (table.findMethod? name descriptor).map Method.decl =
          c.methods.find? fun m => m.name == name && m.descriptor == descriptor) ∧
        (table.findMethod? name "").map Method.decl = c.methods.find? (·.name == name)) ∧
    ((∃ className, Package.build index decl = .error (.duplicateClass className)) ↔
      ¬ (decl.classes.map ClassDecl.name).Nodup) ∧
    ∀ className, Package.build index decl = .error (.duplicateClass className) ↔
      ∃ name, className = decl.name ++ "/" ++ name ∧
        List.Duplicate name (decl.classes.map ClassDecl.name) ∧
        ∀ other, List.Duplicate other (decl.classes.map ClassDecl.name) → name ≤ other := by
  refine ⟨fun p hp => ?_, Package.exists_build_duplicate_iff, fun _ => Package.build_duplicate_iff⟩
  obtain ⟨-, hrepresents⟩ := Package.represents_build hp
  refine ⟨fun className => ⟨fun hfound => ?_, ?_⟩, fun c hc => ?_⟩
  · obtain ⟨table, htable⟩ := Option.isSome_iff_exists.mp hfound
    exact hrepresents.exists_of_findClass? htable
  · rintro ⟨c, hc, rfl⟩
    obtain ⟨table, htable, -⟩ := hrepresents.findClass?_name hc
    rw [htable, Option.isSome_some]
  · obtain ⟨table, htable, hclass⟩ := hrepresents.findClass?_name hc
    exact ⟨table, htable, fun name => ⟨fun _ => hclass.findMethod?_of_ne, hclass.findMethod?_empty⟩⟩

/-- Overloads with other methods between them, and a name that starts another. -/
def overloads : ClassDecl :=
  { name := "Alpha", methods := [
    { name := "max", descriptor := "(JJ)J" }, { name := "maxi", descriptor := "()V" },
    { name := "max", descriptor := "(II)I" }, { name := "ma", descriptor := "()V" },
    { name := "max", descriptor := "(JJ)J", maxLocals := 9 }] }

/-- Their package. -/
def overloadsDecl : PackageDecl := { name := "demo", classes := [{ name := "Zeta" }, overloads] }

theorem exists_build_overloads : ∃ p, Package.build 3 overloadsDecl = .ok p := ⟨_, by cbv⟩

/-- Looking up methods of `overloads`. -/
theorem lookups_search_declarations_overloads :
    ∃ p table, Package.build 3 overloadsDecl = .ok p ∧ p.findClass? "Alpha" = some table ∧
      (table.findMethod? "max" "").map Method.decl = some { name := "max", descriptor := "(JJ)J" } ∧
      (table.findMethod? "max" "(II)I").map Method.decl =
      some { name := "max", descriptor := "(II)I" } ∧
      (table.findMethod? "ma" "(II)I").map Method.decl = none ∧ ¬ (p.findClass? "Beta").isSome := by
  obtain ⟨p, hp⟩ := exists_build_overloads
  obtain ⟨hclasses, hmethods⟩ := (lookups_search_declarations 3 overloadsDecl).1 p hp
  obtain ⟨table, htable, hfound⟩ := hmethods overloads (by simp [overloadsDecl])
  refine ⟨p, table, hp, htable, (hfound "max").2, (hfound "max").1 "(II)I" (by decide),
    (hfound "ma").1 "(II)I" (by decide), fun hbeta => ?_⟩
  obtain ⟨c, hc, hname⟩ := (hclasses "Beta").mp hbeta
  simp only [overloadsDecl, overloads, List.mem_cons, List.not_mem_nil, or_false] at hc
  rcases hc with rfl | rfl
  · exact absurd hname (by decide)
  · exact absurd hname (by decide)

end SlotJit.Tables
