import MiniC.Proofs.Machine.Step

/-! Registers, the stack and memory after the basic effects of instructions. -/
namespace MiniC

namespace Machine

variable (m : Machine) (r q : Reg) (w : Int64)

@[simp] theorem regs_set_self : (m.set r w).regs r = w :=
  Function.update_self _ _ _

@[simp] theorem regs_set_of_ne {r q : Reg} (h : q ≠ r) : (m.set r w).regs q = m.regs q :=
  Function.update_of_ne h _ _

@[simp] theorem mem_set : (m.set r w).mem = m.mem :=
  rfl

@[simp] theorem compared_set : (m.set r w).compared = m.compared :=
  rfl

@[simp] theorem regs_compute_self : (m.compute r w).regs r = w :=
  Function.update_self _ _ _

@[simp] theorem regs_compute_of_ne {r q : Reg} (h : q ≠ r) :
    (m.compute r w).regs q = m.regs q :=
  Function.update_of_ne h _ _

@[simp] theorem mem_compute : (m.compute r w).mem = m.mem :=
  rfl

@[simp] theorem regs_store (a : Nat) : (m.store a w).regs = m.regs :=
  rfl

@[simp] theorem mem_store (a : Nat) : (m.store a w).mem = m.mem.write a w :=
  rfl

theorem execAll_append (is js : List Instr) :
    m.execAll (is ++ js) = (m.execAll is).bind fun m' => m'.execAll js := by
  induction is generalizing m with
  | nil => rfl
  | cons i is ih => simp [execAll, ih, Option.bind_assoc]

theorem execAll_trans {m m₁ m₂ : Machine} {is js : List Instr} (h₁ : m.execAll is = some m₁)
    (h₂ : m₁.execAll js = some m₂) : m.execAll (is ++ js) = some m₂ := by
  rw [execAll_append, h₁, Option.bind_some, h₂]

theorem regs_push_rsp : (m.push w).regs .rsp = m.regs .rsp - .ofNat 8 := by
  unfold push
  rw [regs_store, regs_set_self]

@[simp] theorem regs_push_of_ne {q : Reg} (h : q ≠ .rsp) : (m.push w).regs q = m.regs q := by
  unfold push
  rw [regs_store, regs_set_of_ne _ _ h]

@[simp] theorem compared_push : (m.push w).compared = m.compared :=
  rfl

@[simp] theorem word_push_top : (m.push w).word (m.push w).top = w := by
  have htop : (m.push w).top = address (m.regs .rsp - .ofNat 8) :=
    congrArg address (m.regs_push_rsp w)
  rw [htop]
  exact Memory.word_write m.mem _ w

theorem top_push {m : Machine} (h : 8 ≤ m.top) : (m.push w).top = m.top - 8 := by
  unfold top
  rw [regs_push_rsp]
  exact address_sub h

/-- A push writes nothing but the word below the top of the stack. -/
theorem keeps_push {m : Machine} {region : Nat → Prop} (h : 8 ≤ m.top)
    (hr : ∀ a, region a → a + 8 < m.top ∨ m.top ≤ a) :
    Memory.Keeps region m.mem (m.push w).mem := by
  have hlt := address_lt (m.regs .rsp)
  have haddress : address (m.regs .rsp - .ofNat 8) = m.top - 8 := address_sub h
  have hmem : (m.push w).mem = m.mem.write (m.top - 8) w :=
    congrArg (fun a => m.mem.write a w) haddress
  rw [hmem]
  unfold top at *
  apply Memory.Keeps.write
  · omega
  · intro i hi hregion
    have hout := hr _ hregion
    omega

@[simp] theorem regs_pop_self {r : Reg} : (m.pop r).regs r = m.word m.top :=
  Function.update_self _ _ _

theorem regs_pop_rsp {r : Reg} (h : r ≠ .rsp) :
    (m.pop r).regs .rsp = m.regs .rsp + .ofNat 8 := by
  unfold pop
  rw [regs_set_of_ne _ _ h.symm, regs_set_self]

@[simp] theorem regs_pop_of_ne {r q : Reg} (h : q ≠ r) (hq : q ≠ .rsp) :
    (m.pop r).regs q = m.regs q := by
  simp [pop, h, hq]

@[simp] theorem mem_pop {r : Reg} : (m.pop r).mem = m.mem :=
  rfl

@[simp] theorem compared_pop {r : Reg} : (m.pop r).compared = m.compared :=
  rfl

theorem word_congr {m m' : Machine} (h : m'.mem = m.mem) (a : Nat) : m'.word a = m.word a :=
  congrArg (fun mem => Memory.word mem a) h

/-- Words follow one another from an address on. -/
def WordsAt (m : Machine) : Nat → List Int64 → Prop
  | _, [] => True
  | a, v :: vs => m.word a = v ∧ m.WordsAt (a + 8) vs

theorem WordsAt.of_keeps {m m' : Machine} {a : Nat} {vs : List Int64} (h : m.WordsAt a vs)
    (ha : a + 8 * vs.length ≤ 2 ^ 64)
    (hk : Memory.Keeps (fun x => a ≤ x ∧ x < a + 8 * vs.length) m.mem m'.mem) :
    m'.WordsAt a vs := by
  induction vs generalizing a with
  | nil => trivial
  | cons v vs ih =>
    rw [List.length_cons] at ha hk
    obtain ⟨hv, hvs⟩ := h
    have hword : m'.word a = m.word a := hk.word_eq (by omega) (by omega)
    exact ⟨hword.trans hv, ih hvs (by omega) (hk.mono (by omega))⟩

theorem WordsAt.of_mem_eq {m m' : Machine} {a : Nat} {vs : List Int64} (h : m.WordsAt a vs)
    (hmem : m'.mem = m.mem) : m'.WordsAt a vs := by
  induction vs generalizing a with
  | nil => trivial
  | cons v vs ih => exact ⟨(word_congr hmem a).trans h.1, ih h.2⟩

/-- Pops take the words on top of the stack to registers. -/
theorem execAll_pops {m : Machine} {rs : List Reg} {vs : List Int64} (hnodup : rs.Nodup)
    (hrsp : .rsp ∉ rs) (hlength : rs.length = vs.length) (hw : m.WordsAt m.top vs)
    (ha : m.top + 8 * vs.length < 2 ^ 64) :
    ∃ m', m.execAll (rs.map .pop) = some m' ∧ m'.mem = m.mem ∧
      m'.regs .rsp = m.regs .rsp + .ofNat (8 * vs.length) ∧ rs.map m'.regs = vs ∧
      ∀ r, r ∉ rs → r ≠ .rsp → m'.regs r = m.regs r := by
  induction rs generalizing m vs with
  | nil =>
    obtain rfl := List.length_eq_zero_iff.mp hlength.symm
    exact ⟨m, rfl, rfl, (Int64.add_zero _).symm, rfl, fun _ _ _ => rfl⟩
  | cons r rs ih =>
    obtain ⟨v, vs, rfl⟩ := List.exists_cons_of_length_eq_add_one hlength.symm
    obtain ⟨hr, hrest⟩ := List.nodup_cons.mp hnodup
    obtain ⟨hne, hrsp'⟩ := not_or.mp (mt List.mem_cons.mpr hrsp)
    obtain ⟨hv, hvs⟩ := hw
    rw [List.length_cons] at ha
    have htop : (m.pop r).top = m.top + 8 := by
      have hadd : address (m.regs .rsp + .ofNat 8) = m.top + 8 :=
        address_add (by unfold top at ha; omega)
      rw [← hadd, ← m.regs_pop_rsp (Ne.symm hne)]
      rfl
    have hwords : (m.pop r).WordsAt (m.pop r).top vs := by
      rw [htop]
      exact hvs.of_keeps (by omega) (.refl _ _)
    obtain ⟨m', hexec, hmem, hsp, hregs, hother⟩ :=
      ih hrest hrsp' (Nat.succ.inj hlength) hwords (by omega)
    refine ⟨m', hexec, hmem, ?_, ?_, ?_⟩
    · rw [hsp, m.regs_pop_rsp (Ne.symm hne), Int64.add_assoc, ← Int64.ofNat_add, List.length_cons,
        Nat.mul_succ, Nat.add_comm]
    · rw [List.map_cons, hregs, hother r hr (Ne.symm hne), regs_pop_self, hv]
    · intro q hq hqsp
      obtain ⟨hqr, hqrs⟩ := not_or.mp (mt List.mem_cons.mpr hq)
      rw [hother q hqrs hqsp, m.regs_pop_of_ne hqr hqsp]

end Machine

end MiniC
