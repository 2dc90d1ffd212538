import MiniC.Proofs.Stack.Balance

/-! Every path through a function keeps its stack in order, and returns with the stack pointer
where it was. -/
namespace MiniC

/-- Balanced lines of a listing that jumps do not leave. -/
structure Enclosed (frame : Frame) (code : List Line) (first : Nat) (own : List Line) : Prop where
  linesAt : LinesAt code first own
  nodup : (labelsOf code).Nodup
  closed : targetsOf own ⊆ labelsOf own
  balanced : Balanced frame ⟨.entry, 0⟩ own (.level frame 0)
  last : ∃ init, own = init ++ [.instr .ret]

/-- The mark that is read off the lines of a function. -/
def markAfter (frame : Frame) (lines : List Line) : Mark :=
  lines.foldl (Mark.after frame) ⟨.entry, 0⟩

/-- A visit of the line after the lines `a` of a function, with the pointers that are read off
them. -/
structure Visit.After (frame : Frame) (first : Nat) (a : List Line) (v : Visit) : Prop where
  line : v.line = first + a.length
  pointers : v.pointers = (markAfter frame a).pointers

namespace Enclosed

variable {frame : Frame} {code own a b : List Line} {first n : Nat} {line : Line} {v : Visit}

theorem fits (h : Enclosed frame code first own) (hown : own = a ++ line :: b) :
    line.Fits frame (markAfter frame a) := by
  have hbalanced := h.balanced
  rw [hown] at hbalanced
  obtain ⟨m, ha, hfits, -⟩ := balanced_append.mp hbalanced
  rwa [markAfter, ha.foldl]

theorem getElem? (h : Enclosed frame code first own) (hown : own = a ++ line :: b) :
    code[first + a.length]? = some line := by
  have hat := h.linesAt
  rw [hown] at hat
  exact hat.right.getElem?

theorem linesAt_of_getElem? (h : code[n]? = some line) : LinesAt code n [line] := by
  obtain ⟨hlt, rfl⟩ := List.getElem?_eq_some_iff.mp h
  exact ⟨code.take n, code.drop (n + 1), by simp, by simp; omega⟩

/-- A jump leads to the one line of the function that has its label. -/
theorem jump (h : Enclosed frame code first own) {l : Label} (hline : line ∈ own)
    (htarget : line.target? = some l) (hn : code[n]? = some (.label l)) :
    ∃ a b, own = a ++ .label l :: b ∧ n = first + a.length := by
  have hl : l ∈ labelsOf own := h.closed (List.mem_filterMap.mpr ⟨line, hline, htarget⟩)
  obtain ⟨line', hmem, hlabel⟩ := List.mem_filterMap.mp hl
  have hline' : line' = .label l := by
    cases line' <;> simp_all [Line.label?]
  subst hline'
  obtain ⟨a, b, hown⟩ := List.append_of_mem hmem
  have hhere := lineNumber?_label h.nodup (linesAt_of_getElem? hn)
  have hthere := lineNumber?_label h.nodup (linesAt_of_getElem? (h.getElem? hown))
  exact ⟨a, b, hown, Option.some.inj (hhere.symm.trans hthere)⟩

/-- Along a path, the pointers stay those that are read off the lines. -/
theorem follows (h : Enclosed frame code first own) {w : Visit} (hown : own = a ++ line :: b)
    (hv : v.After frame first a) (hstep : Follows code v w) :
    ∃ a' line' b', own = a' ++ line' :: b' ∧ w.After frame first a' := by
  have hfits := h.fits hown
  have hhere := h.getElem? hown
  have hpointers := hv.pointers
  rw [← hv.line] at hhere
  cases hstep with
  | @next n r line' hcode hfalls =>
    obtain rfl : line = line' := Option.some.inj (hhere.symm.trans hcode)
    obtain ⟨init, hlast⟩ := h.last
    have hb : b ≠ [] := by
      rintro rfl
      obtain ⟨-, hret⟩ := List.append_inj' (hown.symm.trans hlast) rfl
      obtain rfl := List.singleton_inj.mp hret
      cases hfalls
    obtain ⟨line', b', rfl⟩ := List.exists_cons_of_ne_nil hb
    refine ⟨a ++ [line], line', b', by simp [hown], ?_, ?_⟩
    · simp [show n = first + a.length from hv.line, Nat.add_assoc]
    · simp [markAfter, Mark.after, hfalls, show r = (markAfter frame a).pointers from hpointers]
  | @jump n m r line' l hcode htarget hlabel =>
    obtain rfl : line = line' := Option.some.inj (hhere.symm.trans hcode)
    obtain ⟨a', b', hown', hm⟩ := h.jump (by simp [hown]) htarget hlabel
    refine ⟨a', _, b', hown', hm, ?_⟩
    have hsource := hfits.joins l (.inr htarget)
    have htarget := (h.fits hown').joins l (.inl rfl)
    rw [htarget, ← hsource]
    exact hpointers

theorem exists_after (h : Enclosed frame code first own) (hv : Visited code first v) :
    ∃ a line b, own = a ++ line :: b ∧ v.After frame first a := by
  induction hv with
  | refl =>
    have hne : own ≠ [] := by
      obtain ⟨init, hlast⟩ := h.last
      simp [hlast]
    obtain ⟨line, b, rfl⟩ := List.exists_cons_of_ne_nil hne
    exact ⟨[], line, b, rfl, rfl, rfl⟩
  | tail _ hstep ih =>
    obtain ⟨a, line, b, hown, ha⟩ := ih
    exact h.follows hown ha hstep

/-- All paths to a line find the pointers that are read off the lines before it. -/
theorem after (h : Enclosed frame code first own) (hv : Visited code first v)
    (hown : own = a ++ b) (hline : v.line = first + a.length) : v.After frame first a := by
  obtain ⟨a', line, b', hown', ha'⟩ := h.exists_after hv
  have hlength : a.length = a'.length := by
    have hline' := ha'.line
    omega
  obtain ⟨rfl, -⟩ := List.append_inj (hown.symm.trans hown') hlength
  exact ha'

theorem visit (h : Enclosed frame code first own) (hv : Visited code first v)
    (hline : code[v.line]? = some line) :
    ∃ a b, own = a ++ line :: b ∧ v.After frame first a := by
  obtain ⟨a, line', b, hown, ha⟩ := h.exists_after hv
  have hhere := h.getElem? hown
  rw [← ha.line, hline] at hhere
  obtain rfl := Option.some.inj hhere
  exact ⟨a, b, hown, ha⟩

end Enclosed

/-- The lines `own` of a function, which begin at line number `first` of a listing, keep the stack
in order along every path from there. -/
structure StackDiscipline (before : ConstructCounts) (f : Function) (code : List Line)
    (first : Nat) (own : List Line) : Prop where
  inside : ∀ v, Visited code first v → first ≤ v.line ∧ v.line < first + own.length
  /-- All paths to a line agree on the pointers, so on the distance between them. -/
  agree : ∀ v w, Visited code first v → Visited code first w → v.line = w.line →
    v.pointers = w.pointers ∧ v.pointers.displacement = w.pointers.displacement
  known : ∀ v line, Visited code first v → code[v.line]? = some line →
    line.IsOutside ∨ ∃ d, v.pointers.displacement = some d
  /-- A word that is popped outside an epilogue lies below the frame. -/
  pop : ∀ v dst, Visited code first v → code[v.line]? = some (.instr (.pop dst)) →
    (∃ n, LinesAt code n epilogue ∧ v.line = n + 1) ∨
      ∃ d : Int, v.pointers.displacement = some d ∧ d + 8 ≤ -(f.frame.byteSize : Int)
  /-- The frame is on top of the stack where a statement begins and where it ends. -/
  statement : ∀ i before' s lines v,
    Piece.Begins f.frame (f.pieces before) i (.statement before' s) →
    s.code f.frame before' = .ok lines → Visited code first v →
    v.line = first + i ∨ v.line = first + i + lines.length →
    v.pointers.displacement = some (-(f.frame.byteSize : Int))
  /-- The stack is aligned at calls. -/
  call : ∀ v callee, Visited code first v → code[v.line]? = some (.instr (.call callee)) →
    ∃ d, v.pointers.rsp = some d ∧ ∀ start : Int, start % 16 = 8 → (start + d) % 16 = 0
  /-- A function returns with the stack pointer where it was. -/
  ret : ∀ v, Visited code first v → code[v.line]? = some (.instr .ret) → v.pointers.rsp = some 0
  /-- The count of pending words is right at every push and pop. -/
  count : ∀ a line b v, own = a ++ line :: b → line.depthChange ≠ 0 → Visited code first v →
    v.line = first + a.length →
    v.pointers.displacement = some (-(f.frame.byteSize : Int) - 8 * depthOf a)
  /-- The number of pending words that a part is given is this count, and right, also where it
  decides on the padding of a call. -/
  pending : ∀ a b q v, Piece.Begins f.frame (f.pieces before) a.length q → own = a ++ b →
    depthOf a = q.enters ∧ (Visited code first v → v.line = first + a.length →
      v.pointers.displacement = some (-(f.frame.byteSize : Int) - 8 * q.enters))

theorem depth_markAfter (frame : Frame) (a : List Line) :
    (markAfter frame a).depth = depthOf a := by
  rw [markAfter, depth_foldl, Int.zero_add]

section Disciplined

variable {before : ConstructCounts} {f : Function} {code own a b : List Line} {first i : Nat}
  {line : Line} {v : Visit}

/-- The marks where a part begins and where it ends. -/
theorem Piece.Begins.markAfter {q : Part} (h : Piece.Begins f.frame (f.pieces before) i q)
    (hown : f.code before = .ok own) :
    ∃ a c b, q.code f.frame = .ok c ∧ own = a ++ (c ++ b) ∧ a.length = i ∧
      markAfter f.frame a = .level f.frame q.enters ∧
      markAfter f.frame (a ++ c) = .level f.frame q.leaves := by
  obtain ⟨a, c, b, hc, rfl, rfl, ha⟩ :=
    h.balanced (linked_functionPieces before f) (codeOfAll_functionPieces hown)
  exact ⟨a, c, b, hc, rfl, rfl, ha.foldl, (balanced_append.mpr ⟨_, ha, balanced_code hc⟩).foldl⟩

namespace Enclosed

/-- Where the frame pointer is popped, an epilogue stands. -/
theorem linesAt_epilogue (h : Enclosed f.frame code first own) (hown : f.code before = .ok own)
    (hpop : own = a ++ .instr (.pop .rbp) :: b) :
    ∃ n, LinesAt code n epilogue ∧ first + a.length = n + 1 := by
  obtain ⟨a', b', rfl, rfl⟩ := restoresInEpilogues_function hown a b hpop
  have hlines : own = a' ++ (epilogue ++ b') := by simp [hpop, epilogue]
  have hat := h.linesAt
  rw [hlines] at hat
  refine ⟨_, hat.right.left, ?_⟩
  rw [List.length_append, List.length_singleton, Nat.add_assoc]

/-- Where words are pushed or popped, the count of pending words is right. -/
theorem displacement_of_depthChange (h : Enclosed f.frame code first own)
    (hv : v.After f.frame first a) (hown : own = a ++ line :: b) (hchange : line.depthChange ≠ 0) :
    v.pointers.displacement = some (-(f.frame.byteSize : Int) - 8 * depthOf a) ∧
      (line.depthChange < 0 → 0 < depthOf a) := by
  obtain ⟨n, hmark, hpositive⟩ := (h.fits hown).counted hchange
  have hdepth : depthOf a = n := by rw [← depth_markAfter f.frame a, hmark, Mark.level]
  refine ⟨?_, fun hneg => ?_⟩
  · rw [hv.pointers, hmark, hdepth]
    exact displacement_level n
  · have hn := hpositive hneg
    omega

/-- A word that is popped elsewhere lies below the frame. -/
theorem displacement_of_pop (h : Enclosed f.frame code first own) {dst : Reg}
    (hv : v.After f.frame first a) (hown : own = a ++ .instr (.pop dst) :: b) (hdst : dst ≠ .rbp) :
    ∃ d : Int, v.pointers.displacement = some d ∧ d + 8 ≤ -(f.frame.byteSize : Int) := by
  have hchange : (Line.instr (.pop dst)).depthChange = -1 := by simp [Line.depthChange, hdst]
  obtain ⟨hdisplacement, hpositive⟩ := h.displacement_of_depthChange hv hown (by omega)
  have hdepth := hpositive (by omega)
  exact ⟨_, hdisplacement, by omega⟩

/-- Where a part begins and where it ends, the number of pending words is that of the part. -/
theorem displacement_of_begins (h : Enclosed f.frame code first own) {q : Part} {c : List Line}
    (hown : f.code before = .ok own) (hbegins : Piece.Begins f.frame (f.pieces before) i q)
    (hcode : q.code f.frame = .ok c) (hv : Visited code first v) :
    (v.line = first + i → v.pointers = .level f.frame q.enters) ∧
      (v.line = first + i + c.length → v.pointers = .level f.frame q.leaves) := by
  obtain ⟨a, c', b, hc, hown', rfl, hstart, hend⟩ := hbegins.markAfter hown
  obtain rfl : c = c' := Except.ok.inj (hcode.symm.trans hc)
  refine ⟨fun hline => ?_, fun hline => ?_⟩
  · rw [(h.after hv hown' hline).pointers, hstart, Mark.level]
  · rw [← List.append_assoc] at hown'
    have hline' : v.line = first + (a ++ c).length := by
      rw [hline, List.length_append, Nat.add_assoc]
    rw [(h.after hv hown' hline').pointers, hend, Mark.level]

theorem stackDiscipline (h : Enclosed f.frame code first own) (hown : f.code before = .ok own) :
    StackDiscipline before f code first own where
  inside v hv := by
    obtain ⟨a, line, b, rfl, ha⟩ := h.exists_after hv
    have hline := ha.line
    simp only [List.length_append, List.length_cons]
    omega
  agree v w hv hw hvw := by
    obtain ⟨a, line, b, hown', ha⟩ := h.exists_after hv
    have hw' := h.after hw hown' (hvw.symm.trans ha.line)
    have hpointers : v.pointers = w.pointers := ha.pointers.trans hw'.pointers.symm
    exact ⟨hpointers, congrArg Pointers.displacement hpointers⟩
  known v line hv hline := by
    obtain ⟨a, b, hown', ha⟩ := h.visit hv hline
    rw [ha.pointers]
    exact (h.fits hown').known
  pop v dst hv hline := by
    obtain ⟨a, b, hown', ha⟩ := h.visit hv hline
    by_cases hdst : dst = .rbp
    · subst hdst
      rw [ha.line]
      exact .inl (h.linesAt_epilogue hown hown')
    · exact .inr (h.displacement_of_pop ha hown' hdst)
  statement i before' s lines v hbegins hcode hv hline := by
    have hzero : (Pointers.level f.frame 0).displacement = some (-(f.frame.byteSize : Int)) := by
      simp [displacement_level]
    obtain ⟨hstart, hend⟩ := h.displacement_of_begins hown hbegins hcode hv
    rcases hline with hline | hline
    · rw [hstart hline]
      exact hzero
    · rw [hend hline]
      exact hzero
  call v callee hv hline := by
    obtain ⟨a, b, hown', ha⟩ := h.visit hv hline
    obtain ⟨d, hd, hmod⟩ := (h.fits hown').call callee rfl
    refine ⟨d, by rw [ha.pointers, hd], fun start hstart => ?_⟩
    omega
  ret v hv hline := by
    obtain ⟨a, b, hown', ha⟩ := h.visit hv hline
    rw [ha.pointers]
    exact (h.fits hown').ret rfl
  count a line b v hown' hchange hv hline :=
    (h.displacement_of_depthChange (h.after hv hown' hline) hown' hchange).1
  pending a b q v hbegins hown' := by
    obtain ⟨a', c, b', hc, hown'', hlength, hmark, -⟩ := hbegins.markAfter hown
    obtain ⟨rfl, -⟩ := List.append_inj (hown'.symm.trans hown'') hlength.symm
    have hdepth := depth_markAfter f.frame a
    rw [hmark] at hdepth
    refine ⟨hdepth.symm, fun hv hline => ?_⟩
    rw [(h.displacement_of_begins hown hbegins hc hv).1 hline]
    exact displacement_level q.enters

end Enclosed

end Disciplined

theorem last_function {before : ConstructCounts} {f : Function} {own : List Line}
    (h : f.code before = .ok own) : ∃ init, own = init ++ [.instr .ret] := by
  obtain ⟨-, spills, body, -, -, rfl⟩ := code_function h
  exact ⟨.entry f.name :: (prologue f.frame ++ (spills ++ (body ++
    [.instr (.mov .rsp .rbp), .instr (.pop .rbp)]))), by simp [epilogue]⟩

/-- Every function of a program has lines of its own, which jumps do not leave. -/
theorem exists_enclosed {fs gs : List Function} {f : Function} {code : List Line}
    (h : Program.code (fs ++ f :: gs) = .ok code) (hn : (Program.counts (fs ++ f :: gs)).Numbered) :
    ∃ earlier own later, code = earlier ++ own ++ later ∧ Program.code fs = .ok earlier ∧
      f.code (Program.counts fs) = .ok own ∧ Enclosed f.frame code earlier.length own := by
  obtain ⟨earlier, rest, hearlier, hrest, rfl⟩ := codeAfter_append h
  have hzero : 0 + Program.counts fs = Program.counts fs :=
    ConstructCounts.eq_of_forall_of fun k => by simp
  rw [hzero] at hrest
  obtain ⟨own, later, hown, -, rfl⟩ := codeAfter_cons hrest
  exact ⟨earlier, own, later, by simp, hearlier, hown, ⟨earlier, later, by simp, rfl⟩,
    labelsOf_nodup h hn, targetsOf_subset_function hown, balanced_function hown,
    last_function hown⟩

/-- Every function of a program keeps its stack in order, wherever its paths lead. -/
theorem stack_disciplined {fs gs : List Function} {f : Function} {code : List Line}
    (h : Program.code (fs ++ f :: gs) = .ok code) (hn : (Program.counts (fs ++ f :: gs)).Numbered) :
    ∃ earlier own later, code = earlier ++ own ++ later ∧ Program.code fs = .ok earlier ∧
      f.code (Program.counts fs) = .ok own ∧
      StackDiscipline (Program.counts fs) f code earlier.length own := by
  obtain ⟨earlier, own, later, hcode, hearlier, hown, henclosed⟩ := exists_enclosed h hn
  exact ⟨earlier, own, later, hcode, hearlier, hown, henclosed.stackDiscipline hown⟩

/-- A function that returns from within a loop and calls itself with words pending. -/
def descend : Function where
  name := "descend"
  params := ["n"]
  body := [
    .whileLoop (.var "n") (.block [
      .ifThen (.binary .eq (.var "n") (.num 3)) (.ret (.var "n")),
      .expr (.assign (.var "n") (.binary .sub (.var "n") (.call "descend" [.num 1])))]),
    .ret (.binary .add (.num 1) (.call "descend" [.binary .sub (.var "n") (.num 1)]))]

theorem descend_disciplined : ∃ code earlier own, Program.code [.main [], descend] = .ok code ∧
    Program.code [.main []] = .ok earlier ∧ descend.code 0 = .ok own ∧
    StackDiscipline 0 descend code earlier.length own := by
  have hok : (Program.code ([.main []] ++ descend :: [])).toOption.isSome := by decide +kernel
  have hn : (Program.counts ([.main []] ++ descend :: [])).Numbered := by
    intro k
    cases k <;> decide +kernel
  cases hcode : Program.code ([.main []] ++ descend :: []) with
  | error e =>
    rw [hcode] at hok
    cases hok
  | ok code =>
    obtain ⟨earlier, own, later, -, hearlier, hown, hdiscipline⟩ := stack_disciplined hcode hn
    exact ⟨code, earlier, own, hcode, hearlier, hown, hdiscipline⟩

end MiniC
