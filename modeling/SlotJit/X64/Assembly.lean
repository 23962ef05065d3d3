import SlotJit.X64.Encoding
import Std.Data.HashMap
import Std.Data.HashSet

/-!
# Assembling code with labels

An assembly is a sequence of items: encoded instructions, labels, and jumps to labels. Jumps start
out in their short form of two bytes. Linking lays the items out, widens the short jumps whose label
is out of reach until none is left, and writes the jumps. Widening only moves labels further away,
so a jump never has to shrink again.
-/

namespace SlotJit.X64

/-- Why an assembly cannot be linked. -/
inductive AssemblyError where
  | undefinedLabel (label : Nat)
  | duplicateLabel (label : Nat)
deriving DecidableEq, Repr

/-- The wording of an assembly error. -/
def AssemblyError.message : AssemblyError → String
  | undefinedLabel label => s!"jump to undefined label {label}"
  | duplicateLabel label => s!"label {label} defined twice"

/-- What an item is. -/
inductive Form where
  | code
  | jump (cond : Option Cond) (label : Nat)
  | label (id : Nat)
deriving DecidableEq

/-- An item of an assembly. Sizes and offsets of jumps and what comes after them are final after
linking. -/
structure Item where
  form : Form
  size : Nat
  offset : Nat := 0
  /-- The bytes written last; the item's bytes after them are zero. -/
  written : List UInt8 := []
deriving DecidableEq

/-- The longest instruction. -/
def maxInstrLength : Nat := 15

namespace Item

/-- An item of finished bytes. -/
def ofBytes (bytes : List UInt8) : Item :=
  { form := .code, size := bytes.length, written := bytes }

/-- A jump to a label, in its short form. -/
def jump (cond : Option Cond) (label : Nat) : Item := { form := .jump cond label, size := 2 }

/-- A label. -/
def label (id : Nat) : Item := { form := .label id, size := 0 }

/-- The bytes of an item. -/
def bytes (item : Item) : List UInt8 :=
  item.written ++ List.replicate (item.size - item.written.length) 0

/-- Whether the item is a jump in its short form. -/
def isShortJump (item : Item) : Bool :=
  match item.form with
  | .jump .. => item.size == 2
  | _ => false

end Item

/-- Offsets of labels. -/
abbrev LabelOffsets := Std.HashMap Nat Nat

/-- Lay items out one after the other from an offset on. -/
def layoutFrom (offset : Nat) : List Item → List Item
  | [] => []
  | item :: rest => { item with offset } :: layoutFrom (offset + item.size) rest

/-- The offset behind items that are laid out from an offset on. -/
def layoutEnd (offset : Nat) : List Item → Nat
  | [] => offset
  | item :: rest => layoutEnd (offset + item.size) rest

/-- Offsets of labels, with the label of an item if it is one. -/
def LabelOffsets.record (offsets : LabelOffsets) (item : Item) : LabelOffsets :=
  match item.form with
  | .label id => offsets.insert id item.offset
  | _ => offsets

/-- The offsets of the labels in a laid out list of items. -/
def labelOffsets (items : List Item) : LabelOffsets := items.foldl LabelOffsets.record {}

/-- Number of jumps in their short form. -/
def shortJumps (items : List Item) : Nat := items.countP Item.isShortJump

/-- Size of a jump in its long form. -/
def longSize : Option Cond → Nat
  | some _ => 6
  | none => 5

/-- Whether a distance fits the short form. -/
def fitsShort (distance : Int) : Bool := -128 ≤ distance && distance ≤ 127

/-- Widen a short jump whose label is out of reach, and tell whether it grew; an undefined label is
an error. -/
def Item.widen (offsets : LabelOffsets) (item : Item) : Except AssemblyError (Item × Bool) :=
  match item.form with
  | .jump cond label =>
    if item.size ≠ 2 then .ok (item, false)
    else
      match offsets[label]? with
      | none => .error (.undefinedLabel label)
      | some target =>
        if fitsShort ((target : Int) - (item.offset + 2 : Nat)) then .ok (item, false)
        else .ok ({ item with size := longSize cond }, true)
  | _ => .ok (item, false)

/-- Widen the jumps of a list, up to the first whose label is undefined, and tell whether one
grew. -/
def widenAll (offsets : LabelOffsets) : List Item → List Item × Except AssemblyError Bool
  | [] => ([], .ok false)
  | item :: rest =>
    match item.widen offsets with
    | .error e => (item :: rest, .error e)
    | .ok (item, grew) =>
      let (rest, result) := widenAll offsets rest
      (item :: rest, result.map (grew || ·))

/-- A jump that is short reaches its label. -/
def Item.Reaches (offsets : LabelOffsets) (item : Item) : Prop :=
  ∀ cond label, item.form = .jump cond label → item.size = 2 →
    ∃ target, offsets[label]? = some target ∧
      fitsShort ((target : Int) - (item.offset + 2 : Nat)) = true

/-- Widening leaves an item that reaches its label alone, or makes a short jump long whose label is
out of reach. -/
theorem Item.widen_cases {offsets : LabelOffsets} {item item' : Item} {grew : Bool}
    (h : item.widen offsets = .ok (item', grew)) :
    (grew = false ∧ item' = item ∧ item.Reaches offsets) ∨
      (grew = true ∧ ∃ cond label target, item.form = .jump cond label ∧ item.size = 2 ∧
        offsets[label]? = some target ∧
        fitsShort ((target : Int) - (item.offset + 2 : Nat)) = false ∧
        item' = { item with size := longSize cond }) := by
  unfold widen at h
  split at h
  · rename_i cond label hform
    split at h
    · rename_i hlong
      cases h
      exact .inl ⟨rfl, rfl, fun _ _ _ hshort => absurd hshort hlong⟩
    · rename_i hshort
      split at h
      · cases h
      · rename_i target htarget
        split at h
        · rename_i hfits
          cases h
          refine .inl ⟨rfl, rfl, fun cond' label' hform' _ => ⟨target, ?_, hfits⟩⟩
          obtain ⟨-, rfl⟩ := Form.jump.inj (hform.symm.trans hform')
          exact htarget
        · rename_i hfar
          cases h
          exact .inr ⟨rfl, cond, label, target, hform, Decidable.not_not.mp hshort, htarget,
            Bool.not_eq_true _ ▸ hfar, rfl⟩
  · rename_i hform
    cases h
    exact .inl ⟨rfl, rfl, fun cond label hjump _ => absurd hjump (hform cond label)⟩

/-- What widening a list does when no label is undefined. -/
theorem widenAll_cons_eq_ok {offsets : LabelOffsets} {item : Item} {rest widened : List Item}
    {grown : Bool} (h : widenAll offsets (item :: rest) = (widened, .ok grown)) :
    ∃ item' grew rest' grown', item.widen offsets = .ok (item', grew) ∧
      widenAll offsets rest = (rest', .ok grown') ∧ widened = item' :: rest' ∧
      grown = (grew || grown') := by
  rw [widenAll] at h
  split at h
  · cases h
  · rename_i item' grew hitem
    cases hrest : widenAll offsets rest with
    | mk rest' result =>
      rw [hrest] at h
      cases result with
      | error e => cases h
      | ok grown' =>
        cases h
        exact ⟨item', grew, rest', grown', hitem, rfl, rfl, rfl⟩

/-- Widening tells that a jump grew exactly if fewer jumps are short than before. -/
theorem widenAll_grows_iff {offsets : LabelOffsets} {items widened : List Item} {grown : Bool}
    (h : widenAll offsets items = (widened, .ok grown)) :
    shortJumps widened ≤ shortJumps items ∧
      (grown = true ↔ shortJumps widened < shortJumps items) := by
  induction items generalizing widened grown with
  | nil =>
    cases h
    simp
  | cons item rest ih =>
    obtain ⟨item', grew, rest', grown', hitem, hrest, rfl, rfl⟩ := widenAll_cons_eq_ok h
    obtain ⟨hle, hiff⟩ := ih hrest
    simp only [shortJumps, List.countP_cons] at hle hiff ⊢
    obtain ⟨rfl, rfl, -⟩ | ⟨rfl, cond, label, -, hform, hshort, -, -, rfl⟩ :=
      Item.widen_cases hitem
    · rw [Bool.false_or, hiff]
      omega
    · have hlong : Item.isShortJump { item with size := longSize cond } = false := by
        cases cond <;> simp [Item.isShortJump, hform, longSize]
      simp only [hlong, show item.isShortJump = true by simp [Item.isShortJump, hform, hshort],
        Bool.true_or, true_iff, Bool.false_eq_true, if_false, if_true]
      omega

/-- Where items lie does not change which jumps are short. -/
theorem shortJumps_layoutFrom (offset : Nat) (items : List Item) :
    shortJumps (layoutFrom offset items) = shortJumps items := by
  induction items generalizing offset with
  | nil => rfl
  | cons item rest ih =>
    have := ih (offset + item.size)
    simp only [shortJumps, layoutFrom, List.countP_cons] at this ⊢
    rw [this]
    rfl

/-- Lay out and widen until no jump grows. The result is the size of the code; an undefined label
ends it, with the items as they are then. -/
def relax (items : List Item) : List Item × Except AssemblyError Nat :=
  let laidOut := layoutFrom 0 items
  match h : widenAll (labelOffsets laidOut) laidOut with
  | (widened, .error e) => (widened, .error e)
  | (widened, .ok true) =>
    have : shortJumps widened < shortJumps items :=
      shortJumps_layoutFrom 0 items ▸ (widenAll_grows_iff h).2.mp rfl
    relax widened
  | (widened, .ok false) => (widened, .ok (layoutEnd 0 items))
termination_by shortJumps items

/-- The instruction of a jump that is laid out. -/
def Item.jumpInstr (offsets : LabelOffsets) (item : Item) (cond : Option Cond) (label : Nat) :
    Instr :=
  let distance : Int := (offsets.getD label 0 : Nat) - (item.offset + item.size : Nat)
  if item.size = 2 then .jumpShort cond (Int8.ofInt distance)
  else .jumpLong cond (Int32.ofInt distance)

/-- Write a jump. -/
def Item.write (offsets : LabelOffsets) (item : Item) : Item :=
  match item.form with
  | .jump cond label => { item with written := encode (item.jumpInstr offsets cond label) }
  | _ => item

/-- The first label that is defined a second time. -/
def repeatedLabel? (seen : Std.HashSet Nat) : List Item → Option Nat
  | [] => none
  | item :: rest =>
    match item.form with
    | .label id => if seen.contains id then some id else repeatedLabel? (seen.insert id) rest
    | _ => repeatedLabel? seen rest

/-- A sequence of items. -/
structure Assembly where
  items : Array Item := #[]

namespace Assembly

/-- Add an item. -/
def add (a : Assembly) (item : Item) : Assembly := ⟨a.items.push item⟩

/-- Add an instruction. -/
def emit (a : Assembly) (instr : Instr) : Assembly := a.add (.ofBytes (encode instr))

/-- Add finished bytes, if they are no longer than an instruction. -/
def emitBytes? (a : Assembly) (bytes : List UInt8) : Option Assembly :=
  if bytes.length ≤ maxInstrLength then some (a.add (.ofBytes bytes)) else none

/-- Size of the code. -/
def codeSize (a : Assembly) : Nat := a.items.toList.foldr (·.size + ·) 0

/-- The code. -/
def bytes (a : Assembly) : List UInt8 := a.items.toList.flatMap Item.bytes

/-- The offset of an item, if there is such an item. -/
def offset? (a : Assembly) (index : Nat) : Option Nat := a.items[index]?.map Item.offset

/-- Link the assembly; the result is the size of the code. When that fails because of an undefined
label, jumps in front of the one that failed may have been widened. -/
def link (a : Assembly) : Assembly × Except AssemblyError Nat :=
  let items := a.items.toList
  match repeatedLabel? {} items with
  | some label => (a, .error (.duplicateLabel label))
  | none =>
    match relax items with
    | (items, .error e) => (⟨items.toArray⟩, .error e)
    | (items, .ok total) => (⟨(items.map (Item.write (labelOffsets items))).toArray⟩, .ok total)

end Assembly

end SlotJit.X64
