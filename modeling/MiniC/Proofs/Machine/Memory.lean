import Mathlib

/-! Byte-addressed memory. A word takes eight bytes, the least significant byte first. -/
namespace MiniC

/-- A byte at every address. -/
abbrev Memory := UInt64 → UInt8

namespace Memory

/-- The number that bytes stand for, the least significant byte first. -/
def littleEndian : List UInt8 → Nat
  | [] => 0
  | b :: bs => b.toNat + 256 * littleEndian bs

/-- The word at an address. -/
def word (mem : Memory) (a : Nat) : Int64 :=
  (UInt64.ofNat (littleEndian ((List.range 8).map fun i => mem (.ofNat (a + i))))).toInt64

/-- The memory after a word was written at an address. -/
def write (mem : Memory) (a : Nat) (w : Int64) : Memory := fun x =>
  if (x - .ofNat a).toNat < 8 then .ofNat (w.toUInt64.toNat / 256 ^ (x - .ofNat a).toNat)
  else mem x

theorem littleEndian_range (n k : Nat) :
    littleEndian ((List.range k).map fun i => UInt8.ofNat (n / 256 ^ i)) = n % 256 ^ k := by
  induction k generalizing n with
  | zero => simp [littleEndian, Nat.mod_one]
  | succ k ih =>
    have hrest : (fun i => UInt8.ofNat (n / 256 ^ i)) ∘ Nat.succ =
        fun i => UInt8.ofNat (n / 256 / 256 ^ i) := by
      funext i
      simp [Nat.pow_succ', Nat.div_div_eq_div_mul]
    rw [List.range_succ_eq_map, List.map_cons, List.map_map, hrest, littleEndian, ih]
    have hlow : (UInt8.ofNat (n / 256 ^ 0)).toNat = n % 256 := by simp
    rw [hlow, Nat.pow_succ', Nat.mod_mul]

theorem toNat_ofNat {n : Nat} (h : n < 2 ^ 64) : (UInt64.ofNat n).toNat = n :=
  UInt64.toNat_ofNat_of_lt' h

/-- What was written is read again, also where the addresses wrap around. -/
theorem word_write (mem : Memory) (a : Nat) (w : Int64) : (mem.write a w).word a = w := by
  have hbyte : ∀ i ∈ List.range 8, mem.write a w (.ofNat (a + i)) =
      UInt8.ofNat (w.toUInt64.toNat / 256 ^ i) := by
    intro i hi
    have hlt : i < 8 := List.mem_range.mp hi
    have hd : (UInt64.ofNat (a + i) - UInt64.ofNat a).toNat = i := by
      rw [UInt64.ofNat_add, add_sub_cancel_left, toNat_ofNat (by omega)]
    simp only [write, hd, hlt, if_true]
  unfold word
  rw [List.map_congr_left hbyte, littleEndian_range]
  have hw : w.toUInt64.toNat % 256 ^ 8 = w.toUInt64.toNat := Nat.mod_eq_of_lt w.toUInt64.toNat_lt
  rw [hw, UInt64.ofNat_toNat]
  rfl

theorem write_of_outside (mem : Memory) {a : Nat} (w : Int64) {x : UInt64}
    (ha : a + 8 ≤ 2 ^ 64) (hx : x.toNat < a ∨ a + 8 ≤ x.toNat) : mem.write a w x = mem x := by
  have hn := x.toNat_lt
  have hd : 8 ≤ (x - UInt64.ofNat a).toNat := by
    rw [UInt64.toNat_sub, toNat_ofNat (by omega)]
    omega
  simp [write, Nat.not_lt.mpr hd]

/-- The memories agree at the addresses of a region. -/
def Keeps (region : Nat → Prop) (old new : Memory) : Prop :=
  ∀ x : UInt64, region x.toNat → new x = old x

namespace Keeps

variable {region region' : Nat → Prop} {old mid new : Memory}

theorem refl (region : Nat → Prop) (mem : Memory) : Keeps region mem mem :=
  fun _ _ => rfl

theorem mono (h : Keeps region old new) (hr : ∀ a, region' a → region a) :
    Keeps region' old new :=
  fun x hx => h x (hr _ hx)

theorem trans (h : Keeps region old mid) (h' : Keeps region mid new) : Keeps region old new :=
  fun x hx => (h' x hx).trans (h x hx)

theorem word_eq (h : Keeps region old new) {a : Nat} (ha : a + 8 ≤ 2 ^ 64)
    (hr : ∀ i < 8, region (a + i)) : new.word a = old.word a := by
  have hbyte : ∀ i ∈ List.range 8, new (.ofNat (a + i)) = old (.ofNat (a + i)) := by
    intro i hi
    have hlt : i < 8 := List.mem_range.mp hi
    apply h
    rw [toNat_ofNat (by omega)]
    exact hr i hlt
  unfold word
  rw [List.map_congr_left hbyte]

theorem write (mem : Memory) {a : Nat} (w : Int64) (ha : a + 8 ≤ 2 ^ 64)
    (hr : ∀ i < 8, ¬ region (a + i)) : Keeps region mem (mem.write a w) := by
  intro x hx
  apply write_of_outside mem w ha
  by_contra hin
  have hi := hr (x.toNat - a) (by omega)
  rw [show a + (x.toNat - a) = x.toNat by omega] at hi
  exact hi hx

/-- Memories that agree still do after the same write to both. -/
theorem write_both (h : Keeps region old new) (a : Nat) (w : Int64) :
    Keeps region (old.write a w) (new.write a w) := by
  intro x hx
  simp only [Memory.write, h x hx]

end Keeps

theorem word_write_of_disjoint (mem : Memory) {a b : Nat} (w : Int64) (ha : a + 8 ≤ 2 ^ 64)
    (hb : b + 8 ≤ 2 ^ 64) (h : a + 8 ≤ b ∨ b + 8 ≤ a) : (mem.write a w).word b = mem.word b := by
  have hk : Keeps (fun x => x < a ∨ a + 8 ≤ x) mem (mem.write a w) :=
    Keeps.write mem w ha (by omega)
  exact hk.word_eq hb (by omega)

end Memory

end MiniC
