import MiniC.Proofs.Frame
import MiniC.Proofs.Machine.Arithmetic

/-! What a machine holds while an activation runs, and what its code leaves alone.

The frame pointer is `base`. The slots of the frame lie below it, the operands of unfinished
expressions below the slots, and the code may use the stack down to the address `low`. -/
namespace MiniC

/-- Every variable that has a value has it in its slot. -/
structure Holds (frame : Frame) (base : Int64) (env : Env) (m : Machine) : Prop where
  rbp : m.regs .rbp = base
  slot : ∀ name v, env name = some v →
    ∃ offset, frame.offset? name = some offset ∧ m.word (address base - offset) = v

/-- The addresses that code leaves alone where the stack begins at `top`. -/
def Kept (frame : Frame) (base : Int64) (low top a : Nat) : Prop :=
  a < low ∨ top ≤ a ∧ (a + frame.byteSize < address base ∨ address base ≤ a)

/-- Code that needs some bytes of stack may run. -/
structure Ready (frame : Frame) (base : Int64) (low need : Nat) (env : Env) (m : Machine) :
    Prop where
  consistent : frame.Consistent
  holds : Holds frame base env m
  above : address base + 16 ≤ 2 ^ 64
  below : m.top + frame.byteSize ≤ address base
  room : low + need ≤ m.top

/-- The stack is as it was, and the slots hold an environment. -/
structure Settled (frame : Frame) (base : Int64) (low : Nat) (env : Env) (m m' : Machine) :
    Prop where
  holds : Holds frame base env m'
  rsp : m'.regs .rsp = m.regs .rsp
  keeps : Memory.Keeps (Kept frame base low m.top) m.mem m'.mem

/-- The stack has one more word, and the slots hold an environment. -/
structure Pushes (frame : Frame) (base : Int64) (low : Nat) (env : Env) (v : Int64)
    (m m' : Machine) : Prop where
  holds : Holds frame base env m'
  rsp : m'.regs .rsp = m.regs .rsp - .ofNat 8
  word : m'.word m'.top = v
  keeps : Memory.Keeps (Kept frame base low m.top) m.mem m'.mem

/-- The stack has some more words, the first of them on top. -/
structure PushesAll (frame : Frame) (base : Int64) (low : Nat) (env : Env) (vs : List Int64)
    (m m' : Machine) : Prop where
  holds : Holds frame base env m'
  rsp : m'.regs .rsp = m.regs .rsp - .ofNat (8 * vs.length)
  words : m'.WordsAt m'.top vs
  keeps : Memory.Keeps (Kept frame base low m.top) m.mem m'.mem

variable {frame : Frame} {base : Int64} {low need need' : Nat} {env env' env'' : Env} {v : Int64}
  {vs : List Int64} {m m₁ m₂ : Machine}

namespace Holds

theorem of_keeps (h : Holds frame base env m) (hc : frame.Consistent)
    (hb : frame.byteSize ≤ address base) (hrbp : m₁.regs .rbp = m.regs .rbp)
    (hk : Memory.Keeps (fun a => address base ≤ a + frame.byteSize ∧ a < address base)
      m.mem m₁.mem) : Holds frame base env m₁ := by
  refine ⟨hrbp.trans h.rbp, ?_⟩
  intro name v hv
  obtain ⟨offset, ho, hword⟩ := h.slot name v hv
  obtain ⟨hlow, hhigh⟩ := hc.offset_bounds ho
  have hlt := address_lt base
  have hkept : m₁.word (address base - offset) = m.word (address base - offset) :=
    hk.word_eq (by omega) (by omega)
  exact ⟨offset, ho, hkept.trans hword⟩

/-- A store to the slot of a variable assigns to it. -/
theorem assign (h : Holds frame base env m) (hc : frame.Consistent)
    (hb : frame.byteSize ≤ address base) {name : String} {offset : Nat}
    (ho : frame.offset? name = some offset) :
    Holds frame base (env.assign name v) (m.store (address base - offset) v) := by
  refine ⟨h.rbp, ?_⟩
  intro other w hw
  have hlt := address_lt base
  obtain ⟨hlow, hhigh⟩ := hc.offset_bounds ho
  by_cases hn : other = name
  · subst hn
    rw [Env.assign, Function.update_self] at hw
    obtain rfl := Option.some.inj hw
    exact ⟨offset, ho, m.mem.word_write _ v⟩
  · rw [Env.assign, Function.update_of_ne hn] at hw
    obtain ⟨i, hi, hword⟩ := h.slot other w hw
    obtain ⟨hlow', hhigh'⟩ := hc.offset_bounds hi
    have hseparate := hc.offset_separate hn hi ho
    have hkept : (m.store (address base - offset) v).word (address base - i) =
        m.word (address base - i) :=
      m.mem.word_write_of_disjoint v (by omega) (by omega) (by omega)
    exact ⟨i, hi, hkept.trans hword⟩

end Holds

theorem Kept.of_le {top top' a : Nat} (h : Kept frame base low top a) (hle : top' ≤ top) :
    Kept frame base low top' a := by
  unfold Kept at *
  omega

namespace Ready

theorem mono (h : Ready frame base low need env m) (hn : need' ≤ need) :
    Ready frame base low need' env m :=
  ⟨h.consistent, h.holds, h.above, h.below, by have := h.room; omega⟩

theorem byteSize_le (h : Ready frame base low need env m) : frame.byteSize ≤ address base :=
  (Nat.le_add_left _ _).trans h.below

theorem settled (h : Ready frame base low need env m) : Settled frame base low env m m :=
  ⟨h.holds, rfl, .refl _ _⟩

/-- Code leaves the words alone that are on the stack when it begins. -/
theorem word_eq (h : Ready frame base low need env m)
    (hk : Memory.Keeps (Kept frame base low m.top) m.mem m₁.mem) {a : Nat} (ha : m.top ≤ a)
    (hb : a + 8 + frame.byteSize ≤ address base) : m₁.word a = m.word a := by
  have habove := h.above
  refine Memory.Keeps.word_eq hk (by omega) ?_
  intro i hi
  exact .inr ⟨by omega, .inl (by omega)⟩

end Ready

namespace Settled

theorem top (h : Settled frame base low env m m₁) : m₁.top = m.top :=
  congrArg address h.rsp

theorem ready (h : Settled frame base low env' m m₁) (hr : Ready frame base low need env m) :
    Ready frame base low need env' m₁ := by
  refine ⟨hr.consistent, h.holds, hr.above, ?_, ?_⟩
  · rw [h.top]
    exact hr.below
  · rw [h.top]
    exact hr.room

theorem trans (h : Settled frame base low env m m₁) (h' : Settled frame base low env' m₁ m₂) :
    Settled frame base low env' m m₂ :=
  ⟨h'.holds, h'.rsp.trans h.rsp, h.keeps.trans (h.top ▸ h'.keeps)⟩

/-- Registers other than those of the stack do not matter. -/
theorem of_regs (h : Settled frame base low env m m₁) (hrsp : m₂.regs .rsp = m₁.regs .rsp)
    (hrbp : m₂.regs .rbp = m₁.regs .rbp) (hmem : m₂.mem = m₁.mem) :
    Settled frame base low env m m₂ := by
  refine ⟨⟨hrbp.trans h.holds.rbp, ?_⟩, hrsp.trans h.rsp, hmem ▸ h.keeps⟩
  intro name w hw
  obtain ⟨offset, ho, hword⟩ := h.holds.slot name w hw
  exact ⟨offset, ho, (Machine.word_congr hmem _).trans hword⟩

theorem of_computes (h : Settled frame base low env m m₁) (hc : Computes v m₁ m₂) :
    Settled frame base low env m m₂ :=
  h.of_regs hc.rsp hc.rbp hc.mem

theorem push (h : Settled frame base low env' m m₁) (hr : Ready frame base low need env m)
    (hn : 8 ≤ need) (v : Int64) : Pushes frame base low env' v m (m₁.push v) := by
  have hroom := hr.room
  have hbelow := hr.below
  have htop := h.top
  have hpush : ∀ region : Nat → Prop, (∀ a, region a → a + 8 < m₁.top ∨ m₁.top ≤ a) →
      Memory.Keeps region m₁.mem (m₁.push v).mem :=
    fun region hregion => Machine.keeps_push v (by omega) hregion
  refine ⟨?_, ?_, m₁.word_push_top v, ?_⟩
  · refine h.holds.of_keeps hr.consistent hr.byteSize_le (by simp) (hpush _ ?_)
    intro a ha
    omega
  · rw [Machine.regs_push_rsp, h.rsp]
  · refine h.keeps.trans (hpush _ ?_)
    intro a ha
    unfold Kept at ha
    omega

end Settled

namespace Pushes

theorem top (h : Pushes frame base low env v m m₁) (htop : 8 ≤ m.top) : m₁.top = m.top - 8 := by
  unfold Machine.top
  rw [h.rsp]
  exact address_sub htop

theorem ready (h : Pushes frame base low env' v m m₁) (hr : Ready frame base low need env m)
    (hn : 8 + need' ≤ need) : Ready frame base low need' env' m₁ := by
  have hroom := hr.room
  have hbelow := hr.below
  have htop := h.top (by omega)
  exact ⟨hr.consistent, h.holds, hr.above, by omega, by omega⟩

theorem pop (h : Pushes frame base low env v m m₁) {r : Reg} (hrsp : r ≠ .rsp) (hrbp : r ≠ .rbp) :
    Settled frame base low env m (m₁.pop r) ∧ (m₁.pop r).regs r = v := by
  refine ⟨⟨⟨?_, h.holds.slot⟩, ?_, h.keeps⟩, ?_⟩
  · rw [Machine.regs_pop_of_ne _ hrbp.symm (by decide)]
    exact h.holds.rbp
  · rw [Machine.regs_pop_rsp _ hrsp, h.rsp, Int64.sub_add_cancel]
  · rw [Machine.regs_pop_self]
    exact h.word

/-- A word stays on the stack while code runs that begins with it on top. -/
theorem settle (h : Pushes frame base low env v m m₁) (hs : Settled frame base low env' m₁ m₂)
    (hr : Ready frame base low need env'' m) (hn : 8 ≤ need) :
    Pushes frame base low env' v m m₂ := by
  have hroom := hr.room
  have hbelow := hr.below
  have htop := h.top (by omega)
  have hready : Ready frame base low 0 env m₁ := h.ready (hr.mono hn) (by omega)
  refine ⟨hs.holds, hs.rsp.trans h.rsp, ?_, ?_⟩
  · rw [hs.top, hready.word_eq hs.keeps le_rfl (by omega)]
    exact h.word
  · exact h.keeps.trans (hs.keeps.mono fun a ha => ha.of_le (by omega))

end Pushes

namespace PushesAll

theorem top (h : PushesAll frame base low env vs m m₁) (htop : 8 * vs.length ≤ m.top) :
    m₁.top = m.top - 8 * vs.length := by
  unfold Machine.top
  rw [h.rsp]
  exact address_sub htop

theorem ready (h : PushesAll frame base low env' vs m m₁)
    (hr : Ready frame base low need env m) (hn : 8 * vs.length + need' ≤ need) :
    Ready frame base low need' env' m₁ := by
  have hroom := hr.room
  have hbelow := hr.below
  have htop := h.top (by omega)
  exact ⟨hr.consistent, h.holds, hr.above, by omega, by omega⟩

theorem nil (hr : Ready frame base low need env m) : PushesAll frame base low env [] m m :=
  ⟨hr.holds, (Int64.sub_zero _).symm, trivial, .refl _ _⟩

theorem cons (h : PushesAll frame base low env vs m m₁)
    (h' : Pushes frame base low env' v m₁ m₂) (hr : Ready frame base low need env'' m)
    (hn : 8 * vs.length + 8 ≤ need) : PushesAll frame base low env' (v :: vs) m m₂ := by
  have hroom := hr.room
  have hbelow := hr.below
  have habove := hr.above
  have htop := h.top (by omega)
  have htop' := h'.top (by omega)
  refine ⟨h'.holds, ?_, ⟨h'.word, ?_⟩, ?_⟩
  · rw [h'.rsp, h.rsp, Int64.sub_sub, ← Int64.ofNat_add]
    rfl
  · rw [show m₂.top + 8 = m₁.top by omega]
    refine h.words.of_keeps (by omega) (h'.keeps.mono ?_)
    intro a ha
    exact .inr ⟨ha.1, .inl (by omega)⟩
  · exact h.keeps.trans (h'.keeps.mono fun a ha => ha.of_le (by omega))

end PushesAll

end MiniC
