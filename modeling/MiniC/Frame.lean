import Std.Data.TreeMap
import MiniC.Program.Basic

/-! The stack frame of a function.

Every name of a function has one slot of a word. Slots follow one another below the frame
pointer in the order in which names first occur, parameters first. Blocks open no scope of their
own. -/
namespace MiniC

/-- Bytes in a slot. -/
def wordSize : Nat := 8

/-- Frame sizes are multiples of this many bytes. -/
def frameAlignment : Nat := 16

/-- The distance of a slot below the frame pointer. The first slot is a word below it, so that no
slot overlaps the saved frame pointer. -/
def slotOffset (slot : Nat) : Nat :=
  (slot + 1) * wordSize

/-- The names of a function in the order of their slots, and the slot of each name. -/
structure Frame where
  names : Array String
  slots : Std.TreeMap String Nat

namespace Frame

/-- The frame without names. -/
def empty : Frame :=
  ⟨#[], ∅⟩

/-- The offset of a name, if it has a slot. -/
def offset? (frame : Frame) (name : String) : Option Nat :=
  frame.slots[name]?.map slotOffset

/-- Gives a name the next slot unless it has one. -/
def declare (frame : Frame) (name : String) : Frame :=
  match frame.slots[name]? with
  | some _ => frame
  | none => ⟨frame.names.push name, frame.slots.insert name frame.names.size⟩

/-- Declares a name and tells the offset of its slot. -/
def allot (frame : Frame) (name : String) : Nat × Frame :=
  match frame.slots[name]? with
  | some slot => (slotOffset slot, frame)
  | none =>
    let slot := frame.names.size
    (slotOffset slot, ⟨frame.names.push name, frame.slots.insert name slot⟩)

@[simp] theorem allot_snd (frame : Frame) (name : String) :
    (frame.allot name).2 = frame.declare name := by
  unfold allot declare
  split <;> rfl

theorem isSome_offset?_declare (frame : Frame) (name : String) :
    ((frame.declare name).offset? name).isSome := by
  unfold declare
  split
  · next h => simp [offset?, h]
  · simp [offset?]

/-- A name keeps its offset when another is declared. -/
theorem offset?_declare_of_ne (frame : Frame) {name other : String} (h : other ≠ name) :
    (frame.declare name).offset? other = frame.offset? other := by
  unfold declare
  split
  · rfl
  · simp [offset?, Std.TreeMap.getElem?_insert, Ne.symm h]

/-- A name that has a slot is not declared again. -/
theorem declare_of_isSome {frame : Frame} {name : String} (h : (frame.offset? name).isSome) :
    frame.declare name = frame := by
  unfold declare
  split
  · rfl
  · next hn => simp [offset?, hn] at h

/-- How many names have slots. -/
def size (frame : Frame) : Nat :=
  frame.names.size

/-- Whether no name has a slot. -/
def isEmpty (frame : Frame) : Bool :=
  frame.names.isEmpty

/-- The bytes of the frame: all slots, filled up to a multiple of the alignment. -/
def byteSize (frame : Frame) : Nat :=
  (frame.size * wordSize + frameAlignment - 1) / frameAlignment * frameAlignment

/-- The frame of some names in order of their first occurrence. -/
def ofNames (names : List String) : Frame :=
  names.foldl declare empty

end Frame

/-- The frame of a function. -/
def Function.frame (f : Function) : Frame :=
  Frame.ofNames f.names

end MiniC
