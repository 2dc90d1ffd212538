import MiniC.Proofs.Code.Labels

/-! Constructs are numbered in source order, for each kind on its own. -/
namespace MiniC

/-- The kind of a statement that has labels. -/
def Stmt.construct? : Stmt → Option Construct
  | .ifThen _ _ => some .ifThen
  | .ifElse _ _ _ => some .ifElse
  | .whileLoop _ _ => some .whileLoop
  | .forLoop _ _ _ _ => some .forLoop
  | .expr _ | .ret _ | .block _ => none

mutual

/-- The statements with labels in source order, an outer one before those within it. -/
def Stmt.constructs : Stmt → List Stmt
  | .expr _ | .ret _ => []
  | .ifThen cond body => .ifThen cond body :: body.constructs
  | .ifElse cond body otherwise =>
    .ifElse cond body otherwise :: (body.constructs ++ otherwise.constructs)
  | .whileLoop cond body => .whileLoop cond body :: body.constructs
  | .forLoop init cond step body => .forLoop init cond step body :: body.constructs
  | .block body => Stmt.constructsOfAll body

def Stmt.constructsOfAll : List Stmt → List Stmt
  | [] => []
  | s :: ss => s.constructs ++ Stmt.constructsOfAll ss

end

/-- The statements of a program that have labels, and the functions that they belong to. -/
def Program.constructs (p : Program) : List (Function × Stmt) :=
  p.flatMap fun f => (Stmt.constructsOfAll f.body).map fun s => (f, s)

/-- How many statements are of a kind. -/
def countOf (k : Construct) (ss : List Stmt) : Nat :=
  ss.countP fun s => s.construct? = some k

section Counting

variable {k : Construct} {s : Stmt} {ss ts : List Stmt}

@[simp] theorem countOf_nil : countOf k [] = 0 :=
  rfl

@[simp] theorem countOf_cons :
    countOf k (s :: ss) = countOf k ss + if s.construct? = some k then 1 else 0 := by
  simp [countOf, List.countP_cons]

@[simp] theorem countOf_append : countOf k (ss ++ ts) = countOf k ss + countOf k ts :=
  List.countP_append

mutual

theorem counts_of (k : Construct) : ∀ s : Stmt, s.counts.of k = countOf k s.constructs
  | .expr _ | .ret _ => by simp [Stmt.counts, Stmt.constructs]
  | .ifThen _ body | .whileLoop _ body | .forLoop _ _ _ body => by
    simp [Stmt.counts, Stmt.constructs, Stmt.construct?, counts_of k body, Nat.add_comm]
  | .ifElse _ body otherwise => by
    simp [Stmt.counts, Stmt.constructs, Stmt.construct?, counts_of k body, counts_of k otherwise]
    omega
  | .block body => by
    rw [Stmt.counts, Stmt.constructs]
    exact countsOfAll_of k body

theorem countsOfAll_of (k : Construct) : ∀ ss : List Stmt,
    (Stmt.countsOfAll ss).of k = countOf k (Stmt.constructsOfAll ss)
  | [] => by simp [Stmt.countsOfAll, Stmt.constructsOfAll]
  | s :: ss => by
    simp [Stmt.countsOfAll, Stmt.constructsOfAll, counts_of k s, countsOfAll_of k ss]

end

theorem Program.counts_of (p : Program) (k : Construct) :
    p.counts.of k = countOf k (p.constructs.map Prod.snd) := by
  induction p with
  | nil => simp [Program.counts, Program.constructs]
  | cons f fs ih =>
    have hcounts : Program.counts (f :: fs) = f.counts + Program.counts fs := rfl
    have hconstructs : Program.constructs (f :: fs) =
        (Stmt.constructsOfAll f.body).map (fun s => (f, s)) ++ Program.constructs fs :=
      List.flatMap_cons
    rw [hcounts, hconstructs, ConstructCounts.of_add, ih, Function.counts, countsOfAll_of]
    simp [Function.comp_def]

end Counting

theorem append_eq_append_cons {α : Type} {a b xs ys : List α} {t : α}
    (h : a ++ b = xs ++ t :: ys) :
    (∃ ys', a = xs ++ t :: ys') ∨ ∃ xs', xs = a ++ xs' ∧ b = xs' ++ t :: ys := by
  obtain ⟨more, rfl, hb⟩ | ⟨more, rfl, hmore⟩ := List.append_eq_append_iff.mp h
  · exact .inr ⟨more, rfl, hb⟩
  · obtain ⟨rfl, hb⟩ | ⟨more', rfl, -⟩ := List.cons_eq_append_iff.mp hmore
    · exact .inr ⟨[], by simp, hb⟩
    · exact .inl ⟨more', rfl⟩

theorem LinesAt.within {code part part' : List Line} {pc pc' : Nat} (h : LinesAt code pc part)
    (h' : LinesAt part pc' part') : LinesAt code (pc + pc') part' := by
  obtain ⟨a, b, rfl, rfl⟩ := h
  obtain ⟨a', b', rfl, rfl⟩ := h'
  exact ⟨a ++ a', b' ++ b, by simp, by simp⟩

/-- Lines hold the code of a statement, which is numbered as it must be if the constructs `xs`
stand between it and `before`. -/
def Located (frame : Frame) (before : ConstructCounts) (code : List Line) (xs : List Stmt)
    (t : Stmt) : Prop :=
  ∃ here lines pc, t.code frame here = .ok lines ∧ LinesAt code pc lines ∧
    ∀ k, here.of k = before.of k + countOf k xs

namespace Located

variable {frame : Frame} {before mid : ConstructCounts} {code inner : List Line} {pc : Nat}
  {s t : Stmt} {xs zs rest ys : List Stmt}

theorem self (h : s.code frame before = .ok code) : Located frame before code [] s :=
  ⟨before, code, 0, h, ⟨[], [], by simp, rfl⟩, by simp⟩

theorem within (h : Located frame before inner xs t) (hl : LinesAt code pc inner) :
    Located frame before code xs t := by
  obtain ⟨here, lines, pc', ht, hl', hhere⟩ := h
  exact ⟨here, lines, pc + pc', ht, hl.within hl', hhere⟩

theorem after (h : Located frame mid code xs t) (hmid : ∀ k, mid.of k = before.of k + countOf k zs) :
    Located frame before code (zs ++ xs) t := by
  obtain ⟨here, lines, pc, ht, hl, hhere⟩ := h
  refine ⟨here, lines, pc, ht, hl, fun k => ?_⟩
  rw [hhere, hmid, countOf_append, Nat.add_assoc]

/-- The first construct of a statement with labels is the statement itself. -/
theorem of_construct {k : Construct} (h : s.code frame before = .ok code)
    (hk : s.construct? = some k) (hxs : s :: rest = xs ++ t :: ys)
    (hrest : ∀ xs', rest = xs' ++ t :: ys → Located frame (before + .one k) code xs' t) :
    Located frame before code xs t := by
  obtain ⟨rfl, ht⟩ | ⟨xs', rfl, hxs'⟩ := List.cons_eq_append_iff.mp hxs
  · obtain ⟨rfl, -⟩ := List.cons.inj ht
    exact self h
  · have hlater : Located frame before code ([s] ++ xs') t := by
      refine (hrest xs' hxs').after fun j => ?_
      simp [hk]
    exact hlater

end Located

section Statements

variable {t : Stmt}

theorem linesAt_append (a b : List Line) : LinesAt (a ++ b) a.length b :=
  ⟨a, [], by simp, rfl⟩

theorem linesAt_append_append (a b c : List Line) : LinesAt (a ++ (b ++ c)) a.length b :=
  ⟨a, c, by simp, rfl⟩

theorem linesAt_loopLines {beginning ending : Label} {test inner after : List Line} :
    LinesAt (loopLines beginning ending test inner after) (test.length + 1) inner :=
  ⟨.label beginning :: test, after ++ [.instr (.jmp beginning), .label ending],
    by simp [loopLines], by simp⟩

mutual

/-- Wherever a construct stands within a statement, its code stands within the code of the
statement. -/
theorem located_code {frame : Frame} {before : ConstructCounts} {code : List Line}
    {xs ys : List Stmt} (s : Stmt) (h : s.code frame before = .ok code)
    (hxs : s.constructs = xs ++ t :: ys) : Located frame before code xs t := by
  cases s with
  | expr e => simp [Stmt.constructs] at hxs
  | ret e => simp [Stmt.constructs] at hxs
  | ifThen cond body =>
    refine .of_construct h rfl hxs fun xs' hbody => ?_
    obtain ⟨test, inner, -, hi, rfl⟩ := code_ifThen h
    exact (located_code body hi hbody).within (linesAt_append_append _ _ _)
  | ifElse cond body otherwise =>
    refine .of_construct h rfl hxs fun xs' hparts => ?_
    obtain ⟨test, inner, other, -, hi, ho, rfl⟩ := code_ifElse h
    obtain ⟨ys', hbody⟩ | ⟨xs'', rfl, hotherwise⟩ := append_eq_append_cons hparts
    · exact (located_code body hi hbody).within (linesAt_append_append _ _ _)
    · have hmid : ∀ k, (before + .one .ifElse + body.counts).of k =
          (before + .one .ifElse).of k + countOf k body.constructs := fun k => by
        rw [ConstructCounts.of_add, counts_of]
      have hat : LinesAt (test ++ (inner ++ (.instr (.jmp (before.label .elseEnd)) ::
          .label (before.label .elseBegin) :: (other ++ [.label (before.label .elseEnd)]))))
          (test.length + (inner.length + 2)) other :=
        ⟨test ++ inner ++ [.instr (.jmp (before.label .elseEnd)),
          .label (before.label .elseBegin)], [.label (before.label .elseEnd)], by simp, by simp⟩
      exact ((located_code otherwise ho hotherwise).within hat).after hmid
  | whileLoop cond body =>
    refine .of_construct h rfl hxs fun xs' hbody => ?_
    obtain ⟨test, inner, -, hi, rfl⟩ := code_whileLoop h
    exact (located_code body hi hbody).within linesAt_loopLines
  | forLoop init cond step body =>
    refine .of_construct h rfl hxs fun xs' hbody => ?_
    obtain ⟨start, test, inner, after, -, -, hi, -, rfl⟩ := code_forLoop h
    exact ((located_code body hi hbody).within linesAt_loopLines).within (linesAt_append start _)
  | block body => exact located_codeOfAll body (code_block h) hxs

theorem located_codeOfAll {frame : Frame} {before : ConstructCounts} {code : List Line}
    {xs ys : List Stmt} (ss : List Stmt) (h : Stmt.codeOfAll frame before ss = .ok code)
    (hxs : Stmt.constructsOfAll ss = xs ++ t :: ys) : Located frame before code xs t := by
  cases ss with
  | nil => simp [Stmt.constructsOfAll] at hxs
  | cons s ss =>
    obtain ⟨first, rest, hf, hr, rfl⟩ := codeOfAll_cons h
    obtain ⟨ys', hfirst⟩ | ⟨xs', rfl, hrest⟩ := append_eq_append_cons hxs
    · exact (located_code s hf hfirst).within (linesAt_append_append [] first rest)
    · have hmid : ∀ k, (before + s.counts).of k = before.of k + countOf k s.constructs :=
        fun k => by rw [ConstructCounts.of_add, counts_of]
      exact ((located_codeOfAll ss hr hrest).within (linesAt_append first rest)).after hmid

end

/-- The labels of a construct carry its number, and its code ends in one of them. -/
theorem labels_of_construct {frame : Frame} {here : ConstructCounts} {lines : List Line}
    {k : Construct} (h : t.code frame here = .ok lines) (hk : t.construct? = some k) :
    (∀ place, place.construct = k → .label (here.label place) ∈ lines) ∧
      ∃ init place, place.construct = k ∧ lines = init ++ [.label (here.label place)] := by
  cases t with
  | expr e => cases hk
  | ret e => cases hk
  | block body => cases hk
  | ifThen cond body =>
    obtain ⟨test, inner, -, -, rfl⟩ := code_ifThen h
    obtain rfl := Option.some.inj hk
    refine ⟨fun place hplace => ?_, test ++ inner, .ifEnd, rfl, by simp⟩
    cases place <;> simp [LabelPlace.construct] at hplace
    simp
  | ifElse cond body otherwise =>
    obtain ⟨test, inner, other, -, -, -, rfl⟩ := code_ifElse h
    obtain rfl := Option.some.inj hk
    refine ⟨fun place hplace => ?_, test ++ inner ++ [.instr (.jmp (here.label .elseEnd)),
      .label (here.label .elseBegin)] ++ other, .elseEnd, rfl, by simp⟩
    cases place <;> simp [LabelPlace.construct] at hplace <;> simp
  | whileLoop cond body =>
    obtain ⟨test, inner, -, -, rfl⟩ := code_whileLoop h
    obtain rfl := Option.some.inj hk
    refine ⟨fun place hplace => ?_, .label (here.label .whileBegin) ::
      (test ++ (inner ++ [.instr (.jmp (here.label .whileBegin))])), .whileEnd, rfl,
      by simp [loopLines]⟩
    cases place <;> simp [LabelPlace.construct] at hplace <;> simp [loopLines]
  | forLoop init cond step body =>
    obtain ⟨start, test, inner, after, -, -, -, -, rfl⟩ := code_forLoop h
    obtain rfl := Option.some.inj hk
    refine ⟨fun place hplace => ?_, start ++ .label (here.label .forBegin) ::
      (test ++ (inner ++ (after ++ [.instr (.jmp (here.label .forBegin))]))), .forEnd, rfl,
      by simp [loopLines]⟩
    cases place <;> simp [LabelPlace.construct] at hplace <;> simp [loopLines]

end Statements

section Programs

variable {f : Function} {t : Stmt}

theorem located_function {before : ConstructCounts} {code : List Line} {xs ys : List Stmt}
    (h : f.code before = .ok code) (hxs : Stmt.constructsOfAll f.body = xs ++ t :: ys) :
    Located f.frame before code xs t := by
  obtain ⟨-, spills, body, -, hbody, rfl⟩ := code_function h
  have hat : LinesAt (.entry f.name :: (prologue f.frame ++ (spills ++ (body ++ epilogue))))
      (1 + ((prologue f.frame).length + spills.length)) body :=
    ⟨.entry f.name :: (prologue f.frame ++ spills), epilogue, by simp, by simp; omega⟩
  exact (located_codeOfAll f.body hbody hxs).within hat

theorem located_codeAfter {p : Program} {before : ConstructCounts} {code : List Line}
    {xs ys : List (Function × Stmt)} (h : Program.codeAfter before p = .ok code)
    (hxs : p.constructs = xs ++ (f, t) :: ys) :
    Located f.frame before code (xs.map Prod.snd) t := by
  induction p generalizing before code xs with
  | nil => simp [Program.constructs] at hxs
  | cons g fs ih =>
    obtain ⟨first, rest, hf, hr, rfl⟩ := codeAfter_cons h
    rw [Program.constructs, List.flatMap_cons] at hxs
    obtain ⟨ys', hfirst⟩ | ⟨xs', rfl, hrest⟩ := append_eq_append_cons hxs
    · obtain ⟨as, bs, hbody, rfl, hmap⟩ := List.map_eq_append_iff.mp hfirst
      obtain ⟨s, bs', rfl, hs, -⟩ := List.map_eq_cons_iff.mp hmap
      obtain ⟨rfl, rfl⟩ := Prod.mk.inj hs
      have hlocated := (located_function hf hbody).within (linesAt_append_append [] first rest)
      simpa [Function.comp_def] using hlocated
    · have hmid : ∀ k, (before + g.counts).of k =
          before.of k + countOf k (Stmt.constructsOfAll g.body) := fun k => by
        rw [ConstructCounts.of_add, Function.counts, countsOfAll_of]
      have hlocated := ((ih hr hrest).within (linesAt_append first rest)).after hmid
      simpa [Function.comp_def] using hlocated

end Programs

end MiniC
