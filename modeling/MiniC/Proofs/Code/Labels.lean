import MiniC.Proofs.Code.Inversion
import MiniC.Proofs.Machine.Step

/-! Every label of a listing is defined once, so a jump finds the line that it is meant for. -/
namespace MiniC

def Line.label? : Line → Option Label
  | label l => some l
  | _ => none

def Line.entry? : Line → Option String
  | entry function => some function
  | _ => none

/-- The labels that lines define, in order. -/
def labelsOf (code : List Line) : List Label :=
  code.filterMap Line.label?

/-- The functions that begin in a listing, in order. -/
def entriesOf (code : List Line) : List String :=
  code.filterMap Line.entry?

section Lines

variable {code a b : List Line} {pc : Nat}

@[simp] theorem labelsOf_nil : labelsOf [] = [] :=
  rfl

@[simp] theorem labelsOf_append : labelsOf (a ++ b) = labelsOf a ++ labelsOf b :=
  List.filterMap_append

@[simp] theorem labelsOf_label (l : Label) : labelsOf (.label l :: a) = l :: labelsOf a :=
  rfl

@[simp] theorem labelsOf_instr (i : Instr) : labelsOf (.instr i :: a) = labelsOf a :=
  rfl

@[simp] theorem labelsOf_entry (f : String) : labelsOf (.entry f :: a) = labelsOf a :=
  rfl

@[simp] theorem labelsOf_map_instr (is : List Instr) : labelsOf (is.map .instr) = [] := by
  induction is with
  | nil => rfl
  | cons i is ih => exact ih

@[simp] theorem entriesOf_nil : entriesOf [] = [] :=
  rfl

@[simp] theorem entriesOf_append : entriesOf (a ++ b) = entriesOf a ++ entriesOf b :=
  List.filterMap_append

@[simp] theorem entriesOf_label (l : Label) : entriesOf (.label l :: a) = entriesOf a :=
  rfl

@[simp] theorem entriesOf_instr (i : Instr) : entriesOf (.instr i :: a) = entriesOf a :=
  rfl

@[simp] theorem entriesOf_entry (f : String) : entriesOf (.entry f :: a) = f :: entriesOf a :=
  rfl

@[simp] theorem entriesOf_map_instr (is : List Instr) : entriesOf (is.map .instr) = [] := by
  induction is with
  | nil => rfl
  | cons i is ih => exact ih

/-- A line that only one place of the listing can hold is found at that place. -/
theorem lineNumber?_of_nodup {α : Type} (f : Line → Option α) {line : Line} {x : α}
    (hx : f line = some x) (hnodup : (code.filterMap f).Nodup)
    (h : LinesAt code pc (line :: a)) : lineNumber? code line = some pc := by
  obtain ⟨before, after, rfl, rfl⟩ := h
  have hbefore : line ∉ before := by
    intro hmem
    rw [List.append_assoc, List.filterMap_append, List.cons_append, List.filterMap_cons,
      hx] at hnodup
    have hdisjoint := (List.nodup_append.mp hnodup).2.2
    exact hdisjoint x (List.mem_filterMap.mpr ⟨line, hmem, hx⟩) x List.mem_cons_self rfl
  unfold lineNumber?
  rw [List.findIdx?_eq_some_iff_getElem]
  refine ⟨by simp, by simp, ?_⟩
  intro j hj
  have hline : before[j] ≠ line := fun he => hbefore (he ▸ List.getElem_mem hj)
  simpa [List.getElem_append_left, hj] using hline

theorem lineNumber?_label {l : Label} (hnodup : (labelsOf code).Nodup)
    (h : LinesAt code pc (.label l :: a)) : lineNumber? code (.label l) = some pc :=
  lineNumber?_of_nodup Line.label? rfl hnodup h

theorem lineNumber?_entry {f : String} (hnodup : (entriesOf code).Nodup)
    (h : LinesAt code pc (.entry f :: a)) : lineNumber? code (.entry f) = some pc :=
  lineNumber?_of_nodup Line.entry? rfl hnodup h

end Lines

namespace ConstructCounts

theorem eq_of_forall_of {a b : ConstructCounts} (h : ∀ k, a.of k = b.of k) : a = b := by
  obtain ⟨_, _, _, _⟩ := a
  obtain ⟨_, _, _, _⟩ := b
  simpa [of] using And.intro (h .ifThen) ⟨h .ifElse, h .whileLoop, h .forLoop⟩

theorem add_assoc (a b c : ConstructCounts) : a + b + c = a + (b + c) :=
  eq_of_forall_of fun k => by simp [Nat.add_assoc]

theorem add_zero (counts : ConstructCounts) : counts + 0 = counts :=
  eq_of_forall_of fun k => by simp

theorem zero_add (counts : ConstructCounts) : 0 + counts = counts :=
  eq_of_forall_of fun k => by simp

end ConstructCounts

/-- The constructs of a program. -/
def Program.counts (p : Program) : ConstructCounts :=
  p.foldr (fun f counts => f.counts + counts) 0

/-- No kind of construct is so frequent that its numbers, which have 32 bits, would repeat. -/
def ConstructCounts.Numbered (counts : ConstructCounts) : Prop :=
  ∀ k, counts.of k ≤ 2 ^ 32

/-- The labels of lines are distinct, and belong to constructs from `first` up to `last`. -/
structure LabelsBetween (first last : ConstructCounts) (code : List Line) : Prop where
  nodup : (labelsOf code).Nodup
  bounds : ∀ l ∈ labelsOf code, first.of l.place.construct ≤ l.number.toNat ∧
    l.number.toNat < last.of l.place.construct

namespace LabelsBetween

variable {first mid last : ConstructCounts} {a b : List Line}

theorem of_labelsOf_eq_nil (h : labelsOf a = []) : LabelsBetween first last a :=
  ⟨by simp [h], by simp [h]⟩

theorem mono {first' last' : ConstructCounts} (h : LabelsBetween first last a)
    (hf : ∀ k, first'.of k ≤ first.of k) (hl : ∀ k, last.of k ≤ last'.of k) :
    LabelsBetween first' last' a := by
  refine ⟨h.nodup, ?_⟩
  intro l hmem
  obtain ⟨hlow, hhigh⟩ := h.bounds l hmem
  exact ⟨(hf _).trans hlow, hhigh.trans_le (hl _)⟩

theorem append (ha : LabelsBetween first mid a) (hb : LabelsBetween mid last b)
    (hf : ∀ k, first.of k ≤ mid.of k) (hl : ∀ k, mid.of k ≤ last.of k) :
    LabelsBetween first last (a ++ b) := by
  constructor
  · rw [labelsOf_append]
    apply List.nodup_append.mpr
    refine ⟨ha.nodup, hb.nodup, ?_⟩
    rintro l hla _ hlb rfl
    have hlt := (ha.bounds l hla).2
    have hge := (hb.bounds l hlb).1
    omega
  · intro l hmem
    rw [labelsOf_append, List.mem_append] at hmem
    rcases hmem with hmem | hmem
    · obtain ⟨hlow, hhigh⟩ := ha.bounds l hmem
      exact ⟨hlow, hhigh.trans_le (hl _)⟩
    · obtain ⟨hlow, hhigh⟩ := hb.bounds l hmem
      exact ⟨(hf _).trans hlow, hhigh⟩

/-- The labels of a construct join those of its parts, which belong to later constructs. -/
theorem around {k : Construct} {own : List Label}
    (hin : LabelsBetween (first + .one k) last a)
    (hl : ∀ j, (first + .one k).of j ≤ last.of j) (hnodup : own.Nodup)
    (hown : ∀ l ∈ own, l.place.construct = k ∧ l.number.toNat = first.of k)
    (hperm : (labelsOf b).Perm (own ++ labelsOf a)) : LabelsBetween first last b := by
  constructor
  · rw [hperm.nodup_iff]
    apply List.nodup_append.mpr
    refine ⟨hnodup, hin.nodup, ?_⟩
    rintro l hlo _ hla rfl
    obtain ⟨hk, hn⟩ := hown l hlo
    have hge := (hin.bounds l hla).1
    simp [hk, hn] at hge
  · intro l hmem
    rw [hperm.mem_iff, List.mem_append] at hmem
    rcases hmem with hmem | hmem
    · obtain ⟨hk, hn⟩ := hown l hmem
      have hlt := hl k
      rw [hk, hn]
      simp at hlt
      omega
    · obtain ⟨hlow, hhigh⟩ := hin.bounds l hmem
      rw [ConstructCounts.of_add] at hlow
      omega

end LabelsBetween

theorem label_number {before : ConstructCounts} {place : LabelPlace}
    (h : before.of place.construct < 2 ^ 32) :
    (before.label place).number.toNat = before.of place.construct :=
  UInt32.toNat_ofNat_of_lt' h

section Statements

variable {frame : Frame} {before : ConstructCounts} {code : List Line}

theorem labelsOf_evaluateCode {e : Expr} (h : evaluateCode frame e = .ok code) :
    labelsOf code = [] := by
  obtain ⟨value, -, rfl⟩ := evaluateCode_eq_ok h
  simp

theorem labelsOf_conditionCode {e : Expr} {l : Label} (h : conditionCode frame e l = .ok code) :
    labelsOf code = [] := by
  obtain ⟨value, hv, rfl⟩ := conditionCode_eq_ok h
  simp [labelsOf_evaluateCode hv]

theorem labelsOf_epilogue : labelsOf epilogue = [] :=
  rfl

theorem labelsOf_prologue (frame : Frame) : labelsOf (prologue frame) = [] := by
  unfold prologue
  split <;> rfl

theorem labelsOf_spillCode {bindings : List (String × Reg)}
    (h : spillCode frame bindings = .ok code) : labelsOf code = [] := by
  induction bindings generalizing code with
  | nil =>
    rw [spillCode_nil h]
    rfl
  | cons b rest ih =>
    obtain ⟨param, reg⟩ := b
    obtain ⟨offset, later, -, hl, rfl⟩ := spillCode_cons h
    simpa using ih hl

/-- The labels of one construct, which all carry its number. -/
theorem own_labels {k : Construct} (places : List LabelPlace) (hnodup : places.Nodup)
    (hk : ∀ place ∈ places, place.construct = k) (hlt : before.of k < 2 ^ 32) :
    (places.map before.label).Nodup ∧
      ∀ l ∈ places.map before.label, l.place.construct = k ∧ l.number.toNat = before.of k := by
  constructor
  · exact hnodup.map fun a b hab => congrArg Label.place hab
  · intro l hl
    obtain ⟨place, hp, rfl⟩ := List.mem_map.mp hl
    have hplace := hk place hp
    refine ⟨hplace, ?_⟩
    rw [label_number (by rw [hplace]; exact hlt), hplace]

theorem of_lt_of_numbered {k : Construct} {rest : ConstructCounts}
    (h : (before + .one k + rest).Numbered) : before.of k < 2 ^ 32 := by
  have hk := h k
  simp at hk
  omega

theorem labelsBetween_loopLines {k : Construct} (first last : LabelPlace) {counts : ConstructCounts}
    {test inner after : List Line} (hk : first.construct = k ∧ last.construct = k)
    (hne : first ≠ last) (ht : labelsOf test = []) (ha : labelsOf after = [])
    (hn : (before + .one k + counts).Numbered)
    (hi : LabelsBetween (before + .one k) (before + .one k + counts) inner) :
    LabelsBetween before (before + .one k + counts)
      (loopLines (before.label first) (before.label last) test inner after) := by
  obtain ⟨hnodup, hown⟩ := own_labels [first, last] (by simpa using hne)
    (by simpa using hk) (of_lt_of_numbered hn)
  refine hi.around (by simp) hnodup hown ?_
  rw [List.perm_iff_count]
  intro l
  simp [loopLines, ht, ha, List.count_cons, Nat.add_comm]

mutual

/-- The labels of a statement belong to the constructs that it holds. -/
theorem labelsBetween_code {frame : Frame} {before : ConstructCounts} {code : List Line}
    (s : Stmt) (h : s.code frame before = .ok code) (hn : (before + s.counts).Numbered) :
    LabelsBetween before (before + s.counts) code := by
  cases s with
  | expr e => exact .of_labelsOf_eq_nil (labelsOf_evaluateCode (code_expr h))
  | ret e =>
    obtain ⟨value, hv, rfl⟩ := code_ret h
    exact .of_labelsOf_eq_nil (by simp [labelsOf_evaluateCode hv, labelsOf_epilogue])
  | ifThen cond body =>
    obtain ⟨test, inner, ht, hi, rfl⟩ := code_ifThen h
    rw [Stmt.counts, ← ConstructCounts.add_assoc] at hn ⊢
    obtain ⟨hnodup, hown⟩ := own_labels [.ifEnd] (by simp) (by simp [LabelPlace.construct])
      (of_lt_of_numbered hn)
    refine (labelsBetween_code body hi hn).around (by simp) hnodup hown ?_
    simp [labelsOf_conditionCode ht]
  | ifElse cond body otherwise =>
    obtain ⟨test, inner, other, ht, hi, ho, rfl⟩ := code_ifElse h
    rw [Stmt.counts, ← ConstructCounts.add_assoc, ← ConstructCounts.add_assoc] at hn ⊢
    have hbody : (before + .one .ifElse + body.counts).Numbered := fun k =>
      le_trans (by simp) (hn k)
    have hparts := (labelsBetween_code body hi hbody).append (labelsBetween_code otherwise ho hn)
      (by simp) (by simp)
    obtain ⟨hnodup, hown⟩ := own_labels [.elseBegin, .elseEnd] (by simp)
      (by simp [LabelPlace.construct]) (of_lt_of_numbered hbody)
    refine hparts.around (by simp [Nat.add_assoc]) hnodup hown ?_
    rw [List.perm_iff_count]
    intro l
    simp [labelsOf_conditionCode ht, List.count_cons]
    omega
  | whileLoop cond body =>
    obtain ⟨test, inner, ht, hi, rfl⟩ := code_whileLoop h
    rw [Stmt.counts, ← ConstructCounts.add_assoc] at hn ⊢
    exact labelsBetween_loopLines _ _ (by simp [LabelPlace.construct]) (by simp)
      (labelsOf_conditionCode ht) rfl hn (labelsBetween_code body hi hn)
  | forLoop init cond step body =>
    obtain ⟨start, test, inner, after, hs, ht, hi, ha, rfl⟩ := code_forLoop h
    rw [Stmt.counts, ← ConstructCounts.add_assoc] at hn ⊢
    have hloop := labelsBetween_loopLines .forBegin .forEnd
      (by simp [LabelPlace.construct]) (by simp) (labelsOf_conditionCode ht)
      (labelsOf_evaluateCode ha) hn (labelsBetween_code body hi hn)
    have hstart : LabelsBetween before before start :=
      .of_labelsOf_eq_nil (labelsOf_evaluateCode hs)
    exact hstart.append hloop (by simp) (by simp [Nat.add_assoc])
  | block body => exact labelsBetween_codeOfAll body (code_block h) hn

theorem labelsBetween_codeOfAll {frame : Frame} {before : ConstructCounts} {code : List Line}
    (ss : List Stmt) (h : Stmt.codeOfAll frame before ss = .ok code)
    (hn : (before + Stmt.countsOfAll ss).Numbered) :
    LabelsBetween before (before + Stmt.countsOfAll ss) code := by
  cases ss with
  | nil =>
    rw [codeOfAll_nil h]
    exact .of_labelsOf_eq_nil rfl
  | cons s ss =>
    obtain ⟨first, rest, hf, hr, rfl⟩ := codeOfAll_cons h
    rw [Stmt.countsOfAll, ← ConstructCounts.add_assoc] at hn ⊢
    have hfirst : (before + s.counts).Numbered := fun k => le_trans (by simp) (hn k)
    exact (labelsBetween_code s hf hfirst).append (labelsBetween_codeOfAll ss hr hn)
      (by simp) (by simp)

end

end Statements

theorem labelsBetween_function {before : ConstructCounts} {f : Function} {code : List Line}
    (h : f.code before = .ok code) (hn : (before + f.counts).Numbered) :
    LabelsBetween before (before + f.counts) code := by
  obtain ⟨-, spills, body, hs, hb, rfl⟩ := code_function h
  have hbody := labelsBetween_codeOfAll f.body hb hn
  refine ⟨?_, ?_⟩
  · simpa [labelsOf_prologue, labelsOf_spillCode hs, labelsOf_epilogue] using hbody.nodup
  · simpa [labelsOf_prologue, labelsOf_spillCode hs, labelsOf_epilogue, Function.counts]
      using hbody.bounds

theorem labelsBetween_codeAfter {before : ConstructCounts} {p : Program} {code : List Line}
    (h : Program.codeAfter before p = .ok code) (hn : (before + p.counts).Numbered) :
    LabelsBetween before (before + p.counts) code := by
  induction p generalizing before code with
  | nil =>
    rw [codeAfter_nil h]
    exact .of_labelsOf_eq_nil rfl
  | cons f fs ih =>
    obtain ⟨first, rest, hf, hr, rfl⟩ := codeAfter_cons h
    have hcounts : Program.counts (f :: fs) = f.counts + Program.counts fs := rfl
    rw [hcounts, ← ConstructCounts.add_assoc] at hn ⊢
    have hfirst : (before + f.counts).Numbered := fun k => le_trans (by simp) (hn k)
    exact (labelsBetween_function hf hfirst).append (ih hr hn) (by simp) (by simp)

theorem codeAfter_append {before : ConstructCounts} {fs gs : List Function} {code : List Line}
    (h : Program.codeAfter before (fs ++ gs) = .ok code) :
    ∃ a b, Program.codeAfter before fs = .ok a ∧
      Program.codeAfter (before + Program.counts fs) gs = .ok b ∧ code = a ++ b := by
  induction fs generalizing before code with
  | nil =>
    have hzero : before + Program.counts [] = before :=
      ConstructCounts.eq_of_forall_of fun k => by simp [Program.counts]
    exact ⟨[], code, rfl, by rwa [hzero], rfl⟩
  | cons f fs ih =>
    obtain ⟨first, rest, hf, hr, rfl⟩ := codeAfter_cons h
    obtain ⟨a, b, ha, hb, rfl⟩ := ih hr
    have hcounts : Program.counts (f :: fs) = f.counts + Program.counts fs := rfl
    refine ⟨first ++ a, b, ?_, ?_, by simp⟩
    · simp [Program.codeAfter, hf, ha, bind, Except.bind, pure, Except.pure]
    · rwa [hcounts, ← ConstructCounts.add_assoc]

/-- No label is defined twice. -/
theorem labelsOf_nodup {p : Program} {code : List Line} (h : p.code = .ok code)
    (hn : p.counts.Numbered) : (labelsOf code).Nodup := by
  have hzero : (0 : ConstructCounts) + p.counts = p.counts :=
    ConstructCounts.eq_of_forall_of fun k => by simp
  exact (labelsBetween_codeAfter h (by rwa [hzero])).nodup

section Entries

variable {frame : Frame} {before : ConstructCounts} {code : List Line}

theorem entriesOf_evaluateCode {e : Expr} (h : evaluateCode frame e = .ok code) :
    entriesOf code = [] := by
  obtain ⟨value, -, rfl⟩ := evaluateCode_eq_ok h
  simp

theorem entriesOf_conditionCode {e : Expr} {l : Label} (h : conditionCode frame e l = .ok code) :
    entriesOf code = [] := by
  obtain ⟨value, hv, rfl⟩ := conditionCode_eq_ok h
  simp [entriesOf_evaluateCode hv]

theorem entriesOf_epilogue : entriesOf epilogue = [] :=
  rfl

theorem entriesOf_prologue (frame : Frame) : entriesOf (prologue frame) = [] := by
  unfold prologue
  split <;> rfl

theorem entriesOf_spillCode {bindings : List (String × Reg)}
    (h : spillCode frame bindings = .ok code) : entriesOf code = [] := by
  induction bindings generalizing code with
  | nil =>
    rw [spillCode_nil h]
    rfl
  | cons b rest ih =>
    obtain ⟨param, reg⟩ := b
    obtain ⟨offset, later, -, hl, rfl⟩ := spillCode_cons h
    simpa using ih hl

mutual

theorem entriesOf_code {frame : Frame} {before : ConstructCounts} {code : List Line} (s : Stmt)
    (h : s.code frame before = .ok code) : entriesOf code = [] := by
  cases s with
  | expr e => exact entriesOf_evaluateCode (code_expr h)
  | ret e =>
    obtain ⟨value, hv, rfl⟩ := code_ret h
    simp [entriesOf_evaluateCode hv, entriesOf_epilogue]
  | ifThen cond body =>
    obtain ⟨test, inner, ht, hi, rfl⟩ := code_ifThen h
    simp [entriesOf_conditionCode ht, entriesOf_code body hi]
  | ifElse cond body otherwise =>
    obtain ⟨test, inner, other, ht, hi, ho, rfl⟩ := code_ifElse h
    simp [entriesOf_conditionCode ht, entriesOf_code body hi, entriesOf_code otherwise ho]
  | whileLoop cond body =>
    obtain ⟨test, inner, ht, hi, rfl⟩ := code_whileLoop h
    simp [loopLines, entriesOf_conditionCode ht, entriesOf_code body hi]
  | forLoop init cond step body =>
    obtain ⟨start, test, inner, after, hs, ht, hi, ha, rfl⟩ := code_forLoop h
    simp [loopLines, entriesOf_evaluateCode hs, entriesOf_conditionCode ht, entriesOf_code body hi,
      entriesOf_evaluateCode ha]
  | block body => exact entriesOf_codeOfAll body (code_block h)

theorem entriesOf_codeOfAll {frame : Frame} {before : ConstructCounts} {code : List Line}
    (ss : List Stmt) (h : Stmt.codeOfAll frame before ss = .ok code) : entriesOf code = [] := by
  cases ss with
  | nil =>
    rw [codeOfAll_nil h]
    rfl
  | cons s ss =>
    obtain ⟨first, rest, hf, hr, rfl⟩ := codeOfAll_cons h
    simp [entriesOf_code s hf, entriesOf_codeOfAll ss hr]

end

theorem entriesOf_function {f : Function} (h : f.code before = .ok code) :
    entriesOf code = [f.name] := by
  obtain ⟨-, spills, body, hs, hb, rfl⟩ := code_function h
  simp [entriesOf_prologue, entriesOf_spillCode hs, entriesOf_codeOfAll f.body hb,
    entriesOf_epilogue]

/-- The functions of a listing are those of the program, in the same order. -/
theorem entriesOf_codeAfter {p : Program} (h : Program.codeAfter before p = .ok code) :
    entriesOf code = p.map Function.name := by
  induction p generalizing before code with
  | nil =>
    rw [codeAfter_nil h]
    rfl
  | cons f fs ih =>
    obtain ⟨first, rest, hf, hr, rfl⟩ := codeAfter_cons h
    simp [entriesOf_function hf, ih hr]

end Entries

end MiniC
