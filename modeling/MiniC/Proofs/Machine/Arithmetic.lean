import MiniC.Proofs.Evaluation
import MiniC.Proofs.Machine.Stack

/-! The instructions of a binary operator compute its value. -/
namespace MiniC

/-- The pair of registers that a division reads stands for the word whose sign was extended. -/
theorem pair_of_sign (a : Int64) :
    (if a < 0 then (-1 : Int64) else 0).toInt * 2 ^ 64 + (address a : Int) = a.toInt := by
  have haddress : (address a : Int) = if a.toInt < 0 then a.toInt + 2 ^ 64 else a.toInt := by
    have hmod : a.toInt = (a.toUInt64.toNat : Int).bmod (2 ^ 64) :=
      BitVec.toInt_eq_toNat_bmod _
    have hlt := address_lt a
    unfold address at *
    rw [hmod, Int.bmod_def]
    split <;> split <;> omega
  have hsign : a < 0 ↔ a.toInt < 0 := Int64.lt_iff_toInt_lt
  rw [haddress]
  by_cases h : a.toInt < 0
  · rw [if_pos (hsign.mpr h), if_pos h]
    have hone : (-1 : Int64).toInt = -1 := rfl
    omega
  · rw [if_neg (mt hsign.mp h), if_neg h]
    have hzero : (0 : Int64).toInt = 0 := rfl
    omega

/-- A division whose value is defined does not fault. -/
theorem dividePair_of_eval {a b v : Int64} (h : BinOp.div.eval a b = some v) :
    ∃ remainder, dividePair (if a < 0 then -1 else 0) a b = some (v, remainder) := by
  simp only [BinOp.eval] at h
  split at h
  · cases h
  · next hdefined =>
    obtain ⟨hzero, hover⟩ := not_or.mp hdefined
    obtain rfl := Option.some.inj h
    have hquotient : (a / b).toInt = a.toInt.tdiv b.toInt := by
      by_cases ha : a = Int64.minValue
      · exact Int64.toInt_div_of_ne_right a b fun hb => hover ⟨ha, hb⟩
      · exact Int64.toInt_div_of_ne_left a b ha
    have hlow := (a / b).minValue_le_toInt
    have hhigh := (a / b).toInt_le
    rw [hquotient] at hlow hhigh
    have hvalue : Int64.ofInt (a.toInt.tdiv b.toInt) = a / b := by
      rw [← hquotient, Int64.ofInt_toInt]
    refine ⟨.ofInt (a.toInt.tmod b.toInt), ?_⟩
    simp only [dividePair, pair_of_sign]
    rw [if_pos ⟨hzero, hlow, hhigh⟩, hvalue]

theorem lowByte_setLowByte (w : Int64) (bit : Bool) :
    lowByte (setLowByte w bit) = if bit then 1 else 0 := by
  have hclear : ∀ x b : UInt64, ((x &&& ~~~255) ||| b) &&& 255 = b &&& 255 := by
    intro x b
    apply UInt64.toBitVec_inj.mp
    simp only [UInt64.toBitVec_and, UInt64.toBitVec_or, UInt64.toBitVec_not,
      BitVec.and_or_distrib_right, BitVec.and_assoc]
    simp
  simp only [lowByte, setLowByte, UInt64.toUInt64_toInt64, hclear]
  cases bit <;> rfl

/-- What may change while an operator is computed: registers for values, but not the stack. -/
structure Computes (v : Int64) (m m' : Machine) : Prop where
  rax : m'.regs .rax = v
  rsp : m'.regs .rsp = m.regs .rsp
  rbp : m'.regs .rbp = m.regs .rbp
  mem : m'.mem = m.mem

theorem execAll_compareCode {m : Machine} {a b : Int64} (relation : Relation)
    (ha : m.regs .rax = a) (hb : m.regs .rdi = b) :
    ∃ m', m.execAll (compareCode relation) = some m' ∧
      Computes (if relation.holds a b then 1 else 0) m m' := by
  refine ⟨_, rfl, ?_, ?_, ?_, ?_⟩
  · simp [ha, hb, lowByte_setLowByte]
  · simp
  · simp
  · simp

theorem execAll_binOp {m : Machine} {op : BinOp} {a b v : Int64}
    (ha : m.regs .rax = a) (hb : m.regs .rdi = b) (h : op.eval a b = some v) :
    ∃ m', m.execAll op.code = some m' ∧ Computes v m m' := by
  have hcompare : ∀ relation : Relation, v = (if relation.holds a b then 1 else 0) →
      ∃ m', m.execAll (compareCode relation) = some m' ∧ Computes v m m' := by
    intro relation hv
    rw [hv]
    exact execAll_compareCode relation ha hb
  have harith : ∀ i : Instr, i.exec m = some (m.compute .rax v) →
      ∃ m', m.execAll [i] = some m' ∧ Computes v m m' := by
    intro i hi
    exact ⟨m.compute .rax v, by simp [Machine.execAll, hi], by simp, by simp, by simp, by simp⟩
  cases op with
  | add => exact harith _ (by simp_all [Instr.exec, BinOp.eval])
  | sub => exact harith _ (by simp_all [Instr.exec, BinOp.eval])
  | mul => exact harith _ (by simp_all [Instr.exec, BinOp.eval])
  | div =>
    obtain ⟨remainder, hd⟩ := dividePair_of_eval h
    refine ⟨((m.set .rdx (if a < 0 then -1 else 0)).compute .rax v).set .rdx remainder, ?_, ?_⟩
    · simp [BinOp.code, Machine.execAll, Instr.exec, ha, hb, hd]
    · exact ⟨by simp, by simp, by simp, by simp⟩
  | eq => exact hcompare .eq (by simp_all [BinOp.eval, Relation.holds])
  | ne => exact hcompare .ne (by simp_all [BinOp.eval, Relation.holds])
  | lt => exact hcompare .lt (by simp_all [BinOp.eval, Relation.holds])
  | le => exact hcompare .le (by simp_all [BinOp.eval, Relation.holds])
  | gt => exact hcompare .gt (by simp_all [BinOp.eval, Relation.holds])
  | ge => exact hcompare .ge (by simp_all [BinOp.eval, Relation.holds])

end MiniC
