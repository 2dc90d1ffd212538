import MiniC.Proofs.Code.Faults

/-! Where the code of a function addresses its variables.

The slots are given out along the source text, and addressed in the order of emission. Both orders
have the same names, and so every access of a variable is one to its own slot in the frame. -/
namespace MiniC

section Order

mutual

theorem Expr.perm_names : ∀ e : Expr, (variablesOf e.emitted).Perm e.names
  | .num _ => .nil
  | .var name => .refl [name]
  | .unary _ operand => operand.perm_names
  | .binary _ lhs rhs => by
    show (variablesOf (lhs.emitted ++ rhs.emitted)).Perm (lhs.names ++ rhs.names)
    rw [variablesOf_append]
    exact lhs.perm_names.append rhs.perm_names
  | .assign lhs rhs => by
    show (variablesOf (lhs.emitted ++ rhs.emitted)).Perm (lhs.names ++ rhs.names)
    rw [variablesOf_append]
    exact lhs.perm_names.append rhs.perm_names
  | .call _ args => Expr.perm_namesOfAll args

theorem Expr.perm_namesOfAll : ∀ es : List Expr,
    (variablesOf (Expr.emittedOfAll es)).Perm (Expr.namesOfAll es)
  | [] => .nil
  | e :: es => by
    rw [Expr.emittedOfAll, variablesOf_append, Expr.namesOfAll]
    exact List.perm_append_comm.trans (e.perm_names.append (Expr.perm_namesOfAll es))

end

mutual

theorem Stmt.perm_names : ∀ s : Stmt, (variablesOf s.emitted).Perm s.names
  | .expr e => e.perm_names
  | .ret e => e.perm_names
  | .ifThen cond body => by
    rw [Stmt.emitted, variablesOf_append]
    exact cond.perm_names.append body.perm_names
  | .ifElse cond body otherwise => by
    rw [Stmt.emitted, variablesOf_append, variablesOf_append, ← List.append_assoc]
    exact (cond.perm_names.append body.perm_names).append otherwise.perm_names
  | .whileLoop cond body => by
    rw [Stmt.emitted, variablesOf_append]
    exact cond.perm_names.append body.perm_names
  | .forLoop init cond step body => by
    rw [Stmt.emitted, variablesOf_append, variablesOf_append, variablesOf_append,
      ← List.append_assoc, Stmt.names, List.append_assoc (init.names ++ cond.names)]
    exact (init.perm_names.append cond.perm_names).append
      (List.perm_append_comm.trans (step.perm_names.append body.perm_names))
  | .block body => Stmt.perm_namesOfAll body

theorem Stmt.perm_namesOfAll : ∀ ss : List Stmt,
    (variablesOf (Stmt.emittedOfAll ss)).Perm (Stmt.namesOfAll ss)
  | [] => .nil
  | s :: ss => by
    rw [Stmt.emittedOfAll, variablesOf_append]
    exact s.perm_names.append (Stmt.perm_namesOfAll ss)

end

/-- The names that code addresses are those that have slots. -/
theorem Function.perm_accessed (f : Function) : f.accessed.Perm f.names :=
  (Stmt.perm_namesOfAll f.body).append_left f.params

end Order

theorem Frame.dvd_of_offset? {frame : Frame} {name : String} {offset : Nat}
    (h : frame.offset? name = some offset) : 8 ∣ offset := by
  obtain ⟨slot, -, rfl⟩ := Frame.offset?_eq_some h
  exact Nat.dvd_mul_left 8 (slot + 1)

/-- A missing slot is not among the faults of a function. -/
theorem Function.noSlot_not_mem_faults (f : Function) (name : String) :
    .noSlot name ∉ f.faults := by
  intro hmem
  have hprogram : .noSlot name ∈ Program.faults [f] :=
    List.mem_flatMap.mpr ⟨f, List.mem_singleton_self f, hmem⟩
  cases violation_of_mem_faults hprogram

/-- Code addresses the slots of parameters and variables and no others, each name in its own slot,
and all of them lie in the frame that is reserved at the beginning. -/
theorem Function.code_addresses_slots (f : Function) (before : ConstructCounts) :
    f.accessed.Perm f.names ∧ (∀ name, f.code before ≠ .error (.noSlot name)) ∧
    ∃ slot : String → Nat,
      (∀ name ∈ f.names, f.frame.offset? name = some (slot name) ∧
        8 ∣ slot name ∧ 8 ≤ slot name ∧ slot name ≤ f.frame.byteSize) ∧
      (∀ name ∈ f.names, ∀ other ∈ f.names, name ≠ other →
        slot name + 8 ≤ slot other ∨ slot other + 8 ≤ slot name) ∧
      16 ∣ f.frame.byteSize ∧
      ∀ lines, f.code before = .ok lines →
        lines.filterMap Line.slotOffset? = f.accessed.map slot ∧
        ∃ rest, lines = [.entry f.name, .instr (.push .rbp), .instr (.mov .rbp .rsp)] ++
          (if 0 < f.frame.byteSize then [.instr (.subBytes .rsp f.frame.byteSize)] else []) ++
          rest := by
  have hnames : f.frame.Covers f.names := Frame.Covers.ofNames f.names
  have hconsistent := f.consistent_frame
  refine ⟨f.perm_accessed, fun name hcode => ?_, f.frame.slotOf, fun name hname => ?_,
    fun name hname other hother hne => ?_, f.frame.dvd_byteSize, fun lines hlines => ⟨?_, ?_⟩⟩
  · have hfirst := (emits_function f before).eq_error_iff.mp hcode
    exact f.noSlot_not_mem_faults name (List.mem_of_head? hfirst)
  · have hoffset := hnames.offset?_eq hname
    obtain ⟨hlow, hhigh⟩ := hconsistent.offset_bounds hoffset
    exact ⟨hoffset, Frame.dvd_of_offset? hoffset, hlow, hhigh⟩
  · exact hconsistent.offset_separate hne (hnames.offset?_eq hname) (hnames.offset?_eq hother)
  · exact (emits_function f before).offsets_eq hlines
  · obtain ⟨-, spills, body, -, -, rfl⟩ := code_function hlines
    exact ⟨spills ++ (body ++ epilogue), by simp [prologue]⟩

/-- The step of a loop and the arguments of a call are not emitted where they are written, but their
variables keep the slots that they have from there. -/
example :
    let f : Function := ⟨"f", ["a"], [.forLoop (.assign (.var "i") (.var "a")) (.var "i")
      (.assign (.var "i") (.var "s")) (.expr (.call "g" [.var "t", .var "s"]))]⟩
    (f.code 0).toOption.map (List.filterMap Line.slotOffset?) =
      some [8, 16, 8, 16, 24, 32, 16, 24] := by
  cbv

end MiniC
