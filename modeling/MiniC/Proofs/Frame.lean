import Mathlib
import MiniC.Frame

/-! Slots of different names are disjoint, and all of them lie within the bytes of the frame. The
names of a frame stand in the order in which they occur first. -/
namespace MiniC.Frame

/-- The map and the list of names say the same about slots. -/
def Consistent (frame : Frame) : Prop :=
  ∀ (name : String) (slot : Nat), frame.slots[name]? = some slot ↔ frame.names[slot]? = some name

theorem consistent_empty : empty.Consistent := by
  intro name slot
  simp [empty]

theorem Consistent.declare {frame : Frame} (h : frame.Consistent) (name : String) :
    (frame.declare name).Consistent := by
  unfold Frame.declare
  cases hs : frame.slots[name]? with
  | some slot => exact h
  | none =>
    have hnew : ∀ slot : Nat, frame.names[slot]? ≠ some name := by
      intro slot hslot
      rw [← h, hs] at hslot
      cases hslot
    intro other slot
    have hold := h other slot
    rw [Std.TreeMap.getElem?_insert, Array.getElem?_push]
    by_cases hn : name = other
    · subst hn
      have hcmp : compare name name = .eq := Std.ReflCmp.compare_self
      simp only [hcmp, if_true, Option.some.injEq]
      constructor
      · intro hslot
        simp [hslot]
      · intro hslot
        split at hslot
        · omega
        · exact absurd hslot (hnew slot)
    · have hcmp : compare name other ≠ .eq := by simpa using hn
      rw [if_neg hcmp, hold]
      split
      · next hslot =>
        subst hslot
        simp [hn]
      · exact Iff.rfl

theorem consistent_ofNames (names : List String) : (ofNames names).Consistent := by
  unfold ofNames
  induction names using List.reverseRecOn with
  | nil => exact consistent_empty
  | append_singleton names name ih =>
    rw [List.foldl_append]
    exact ih.declare name

theorem dvd_byteSize (frame : Frame) : frameAlignment ∣ frame.byteSize :=
  Nat.dvd_mul_left _ _

theorem size_le_byteSize (frame : Frame) : frame.size * wordSize ≤ frame.byteSize := by
  unfold byteSize frameAlignment wordSize
  omega

theorem offset?_eq_some {frame : Frame} {name : String} {offset : Nat}
    (h : frame.offset? name = some offset) :
    ∃ slot, frame.slots[name]? = some slot ∧ offset = slotOffset slot := by
  obtain ⟨slot, hs, rfl⟩ := Option.map_eq_some_iff.mp h
  exact ⟨slot, hs, rfl⟩

namespace Consistent

variable {frame : Frame} {name other : String} {i j : Nat}

theorem offset_bounds (h : frame.Consistent) (hi : frame.offset? name = some i) :
    8 ≤ i ∧ i ≤ frame.byteSize := by
  obtain ⟨slot, hs, rfl⟩ := offset?_eq_some hi
  obtain ⟨hlt, -⟩ := Array.getElem?_eq_some_iff.mp ((h name slot).mp hs)
  have hsize := frame.size_le_byteSize
  unfold slotOffset wordSize size at *
  omega

theorem offset_separate (h : frame.Consistent) (hne : name ≠ other)
    (hi : frame.offset? name = some i) (hj : frame.offset? other = some j) :
    i + 8 ≤ j ∨ j + 8 ≤ i := by
  obtain ⟨slot, hs, rfl⟩ := offset?_eq_some hi
  obtain ⟨slot', hs', rfl⟩ := offset?_eq_some hj
  have hslot : slot ≠ slot' := by
    intro he
    subst he
    have hboth := ((h name slot).mp hs).symm.trans ((h other slot).mp hs')
    exact hne (Option.some.inj hboth)
  unfold slotOffset wordSize
  omega

/-- The name of a slot has the offset of the slot. -/
theorem offset?_of_getElem? (h : frame.Consistent) (hi : frame.names[i]? = some name) :
    frame.offset? name = some (8 * (i + 1)) := by
  rw [offset?, (h name i).mpr hi, Option.map_some, slotOffset, wordSize, Nat.mul_comm]

end Consistent

theorem toList_names_declare {frame : Frame} (h : frame.Consistent) (name : String) :
    (frame.declare name).names.toList =
      if name ∈ frame.names.toList then frame.names.toList else frame.names.toList ++ [name] := by
  have hmem : name ∈ frame.names.toList ↔ ∃ slot : Nat, frame.slots[name]? = some slot := by
    simp only [h name, Array.mem_toList_iff, Array.mem_iff_getElem?]
  unfold declare
  cases hs : frame.slots[name]? with
  | some slot => rw [if_pos (hmem.mpr ⟨slot, hs⟩)]
  | none =>
    have hnew : name ∉ frame.names.toList := by simp [hmem, hs]
    rw [if_neg hnew, Array.toList_push]

theorem eraseDups_concat (names : List String) (name : String) :
    (names ++ [name]).eraseDups =
      if name ∈ names then names.eraseDups else names.eraseDups ++ [name] := by
  rw [List.eraseDups_append]
  by_cases hname : name ∈ names <;> simp [List.removeAll, List.eraseDups_cons, hname]

/-- A frame has each name once, at its first occurrence. -/
theorem toList_names_ofNames (names : List String) :
    (ofNames names).names.toList = names.eraseDups := by
  induction names using List.reverseRecOn with
  | nil => rfl
  | append_singleton names name ih =>
    have hdeclare : ofNames (names ++ [name]) = (ofNames names).declare name := by
      simp [ofNames]
    rw [hdeclare, toList_names_declare (consistent_ofNames names), ih, eraseDups_concat]
    simp only [List.mem_eraseDups]

/-- Frames that come about as names are declared, one after the other, in the empty frame or in that
of a function, and all names that are declared then. -/
inductive Reached : List String → Frame → Prop where
  | empty : Reached [] .empty
  | function (f : Function) : Reached f.names f.frame
  | declare {declared : List String} {frame : Frame} (name : String) : Reached declared frame →
      Reached (declared ++ [name]) (frame.allot name).2

/-- The list of a frame has the declared names, each once, and the map has the index of each. -/
structure Represents (frame : Frame) (declared : List String) : Prop where
  nodup : frame.names.toList.Nodup
  mem_names : ∀ name, name ∈ frame.names ↔ name ∈ declared
  mem_slots : ∀ name, name ∈ frame.slots ↔ name ∈ frame.names
  slot : ∀ (i : Nat) name, frame.names[i]? = some name → frame.slots[name]? = some i
  offset : ∀ (i : Nat) name, frame.names[i]? = some name →
    frame.offset? name = some (8 * (i + 1))
  absent : ∀ name, name ∉ declared → frame.offset? name = none

section Representation

variable {frame : Frame} {declared : List String} {name other : String}

theorem Consistent.nodup (h : frame.Consistent) : frame.names.toList.Nodup := by
  rw [List.nodup_iff_getElem?_ne_getElem?]
  intro i j hlt hj heq
  obtain ⟨name, hname⟩ : ∃ name, frame.names[j]? = some name :=
    ⟨_, Array.getElem?_eq_getElem (by simpa using hj)⟩
  have hfirst : frame.names[i]? = some name := by simpa [hname] using heq
  have hslot := ((h name i).mpr hfirst).symm.trans ((h name j).mpr hname)
  exact hlt.ne (Option.some.inj hslot)

theorem Consistent.mem_slots_iff (h : frame.Consistent) (name : String) :
    name ∈ frame.slots ↔ name ∈ frame.names := by
  rw [Std.TreeMap.mem_iff_isSome_getElem?, Option.isSome_iff_exists, Array.mem_iff_getElem?]
  exact exists_congr (h name)

theorem Consistent.offset?_eq_none (h : frame.Consistent) (hname : name ∉ frame.names) :
    frame.offset? name = none := by
  rw [← h.mem_slots_iff, Std.TreeMap.mem_iff_isSome_getElem?,
    Option.not_isSome_iff_eq_none] at hname
  rw [offset?, hname, Option.map_none]

theorem Reached.eq_ofNames (h : Reached declared frame) : frame = ofNames declared := by
  induction h with
  | empty => rfl
  | function f => rfl
  | declare name _ ih => simp [ih, ofNames]

theorem Reached.represents (h : Reached declared frame) : frame.Represents declared := by
  obtain rfl := h.eq_ofNames
  have hconsistent := consistent_ofNames declared
  have hnames (name : String) : name ∈ (ofNames declared).names ↔ name ∈ declared := by
    rw [← Array.mem_toList_iff, toList_names_ofNames, List.mem_eraseDups]
  exact {
    nodup := hconsistent.nodup
    mem_names := hnames
    mem_slots := hconsistent.mem_slots_iff
    slot := fun i name hi => (hconsistent name i).mpr hi
    offset := fun i name => hconsistent.offset?_of_getElem?
    absent := fun name hname => hconsistent.offset?_eq_none (mt (hnames name).mp hname) }

theorem allot_of_mem (h : frame.Represents declared) (hname : name ∈ declared) :
    (frame.allot name).2 = frame ∧ frame.offset? name = some (frame.allot name).1 := by
  rw [← h.mem_names, ← h.mem_slots, Std.TreeMap.mem_iff_isSome_getElem?,
    Option.isSome_iff_exists] at hname
  obtain ⟨slot, hslot⟩ := hname
  have hknown : (frame.offset? name).isSome := by simp [offset?, hslot]
  exact ⟨by rw [allot_snd, declare_of_isSome hknown], by simp [allot, offset?, hslot]⟩

theorem allot_of_not_mem (h : frame.Represents declared) (hname : name ∉ declared) :
    (frame.allot name).1 = 8 * (frame.size + 1) ∧
    (frame.allot name).2.names = frame.names.push name ∧
    (frame.allot name).2.offset? name = some (frame.allot name).1 ∧
    ∀ other ∈ declared, (frame.allot name).2.offset? other = frame.offset? other := by
  have hfresh : frame.slots[name]? = none := by
    simpa [offset?] using h.absent name hname
  refine ⟨?_, ?_, ?_, fun other hother => ?_⟩
  · simp [allot, hfresh, slotOffset, wordSize, size, Nat.mul_comm]
  · simp [allot, hfresh]
  · simp [allot, hfresh, offset?]
  · rw [allot_snd, offset?_declare_of_ne _ (ne_of_mem_of_not_mem hother hname)]

/-- The bytes of a frame are no more than alignment asks for. -/
theorem isLeast_byteSize (frame : Frame) :
    IsLeast {bytes | 16 ∣ bytes ∧ 8 * frame.size ≤ bytes} frame.byteSize := by
  have hsize := frame.size_le_byteSize
  refine ⟨⟨frame.dvd_byteSize, by unfold wordSize at hsize; omega⟩, ?_⟩
  rintro bytes ⟨⟨k, rfl⟩, hbytes⟩
  unfold byteSize frameAlignment wordSize
  omega

end Representation

/-- However names have been declared, the list and the map of a frame agree, a name that is
declared again keeps its slot, a new one takes the next and moves no other, and the bytes of the
frame are the fewest that hold all slots and are aligned. -/
theorem reached_represents {declared : List String} {frame : Frame} (h : Reached declared frame) :
    frame.Represents declared ∧
    (∀ name ∈ declared, ∃ offset, frame.offset? name = some offset ∧
      frame.allot name = (offset, frame)) ∧
    (∀ name, name ∉ declared → ∃ frame', frame.allot name = (8 * (frame.size + 1), frame') ∧
      frame'.names = frame.names.push name ∧
      frame'.offset? name = some (8 * (frame.size + 1)) ∧
      ∀ other ∈ declared, frame'.offset? other = frame.offset? other) ∧
    IsLeast {bytes | 16 ∣ bytes ∧ 8 * frame.size ≤ bytes} frame.byteSize := by
  have hrepresents := h.represents
  refine ⟨hrepresents, fun name hname => ?_, fun name hname => ?_, frame.isLeast_byteSize⟩
  · obtain ⟨hsame, hoffset⟩ := allot_of_mem hrepresents hname
    exact ⟨_, hoffset, Prod.ext rfl hsame⟩
  · obtain ⟨hfirst, hnames, hoffset, hothers⟩ := allot_of_not_mem hrepresents hname
    exact ⟨_, Prod.ext hfirst rfl, hnames, hfirst ▸ hoffset, hothers⟩

/-- The parameters `p` and `q` and the variable `b` of the body have the first slots. `p` is
declared again, then `c`, which takes the fourth slot. -/
theorem adding_represents :
    let f : Function := ⟨"f", ["p", "q"], [.expr (.assign (.var "b") (.var "p"))]⟩
    Reached ["p", "q", "b", "p", "p", "c"] ((f.frame.allot "p").2.allot "c").2 ∧
    ((f.frame.allot "p").2.allot "c").2.Represents ["p", "q", "b", "p", "p", "c"] ∧
    (f.frame.allot "p").1 = 8 ∧ ((f.frame.allot "p").2.allot "c").1 = 32 := by
  have hreached := Reached.declare "c" (Reached.declare "p"
    (Reached.function ⟨"f", ["p", "q"], [.expr (.assign (.var "b") (.var "p"))]⟩))
  exact ⟨hreached, (reached_represents hreached).1, by decide +kernel, by decide +kernel⟩

end MiniC.Frame

namespace MiniC

theorem Function.consistent_frame (f : Function) : f.frame.Consistent :=
  Frame.consistent_ofNames f.names

end MiniC
