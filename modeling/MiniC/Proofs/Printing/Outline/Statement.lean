import MiniC.Proofs.Printing.Outline.Expression

/-! Outlines of statements can be read back. A statement of another kind is told from an expression
by the space or brace after its first word. -/
namespace MiniC

/-- What the first line of a statement announces. -/
inductive Announcement where
  | expression
  | ret
  | choice
  | whileLoop
  | forLoop
  | block
  deriving DecidableEq

/-- What a line announces, by what comes after its first word. -/
def Announcement.ofText (text : List Char) : Announcement :=
  match (text.dropWhile Token.isWordRest).head? with
  | some ' ' =>
    match text.head? with
    | some 'r' => ret
    | some 'i' => choice
    | some 'w' => whileLoop
    | _ => forLoop
  | some '\x7b' => block
  | _ => expression

namespace Stmt

def announcement : Stmt → Announcement
  | .expr _ => .expression
  | .ret _ => .ret
  | .ifThen _ _ | .ifElse _ _ _ => .choice
  | .whileLoop _ _ => .whileLoop
  | .forLoop _ _ _ _ => .forLoop
  | .block _ => .block

/-- The first line of a statement. -/
def head : Stmt → String
  | .expr value => value.head
  | .ret value => if value.isLeaf then "return " ++ value.oneLine ++ ";" else "return ("
  | .ifThen _ _ | .ifElse _ _ _ => "if ("
  | .whileLoop _ _ => "while ("
  | .forLoop _ _ _ _ => "for ("
  | .block _ => "\x7b"

/-- The names in a statement are identifiers, and its literals have no sign. -/
def Legible (s : Stmt) : Prop :=
  ∀ x ∈ s.emitted, x.isLegible

end Stmt

section Statements

variable {s s' : Stmt}

theorem stmt_outline_head (s : Stmt) (depth : Nat) :
    ∃ more, s.outline depth = ⟨depth, s.head⟩ :: more := by
  cases s with
  | expr value => exact outline_head value depth
  | ret value =>
    rw [Stmt.outline, Stmt.head]
    split
    · exact ⟨[], rfl⟩
    · exact ⟨_, rfl⟩
  | _ => exact ⟨_, rfl⟩

/-- A text that begins with a word. -/
theorem dropWhile_word {word more : List Char} (hword : ∀ c ∈ word, Token.isWordRest c)
    (hmore : Opens (fun c => Token.isWordRest c = false) more) :
    (word ++ more).dropWhile Token.isWordRest = more := by
  rw [List.dropWhile_append_of_pos hword]
  cases more with
  | nil => rfl
  | cons c more => exact List.dropWhile_cons_of_neg (by simpa using opens_cons.mp hmore)

theorem announcement_expression {e : Expr} (h : e.Legible) :
    Announcement.ofText e.head.toList = .expression := by
  -- After the first word of an expression comes a bracket or a sign, if anything.
  have hrest : Opens (fun c => c ≠ ' ' ∧ c ≠ '\x7b')
      (e.head.toList.dropWhile Token.isWordRest) := by
    by_cases hunary : e.isUnary
    · have hsigned : Opens (fun c => isOperatorChar c) e.head.toList := by
        intro c hc
        have hbegins := (beginsSigned_head h).trans hunary
        rwa [beginsSigned, hc] at hbegins
      have hdrop := dropWhile_word (List.forall_mem_nil _)
        (hsigned.mono fun c hc => (Bool.or_eq_false_iff.mp (not_closed_of_isOperatorChar hc)).1)
      rw [List.nil_append] at hdrop
      rw [hdrop]
      refine hsigned.mono fun c hc => ⟨?_, ?_⟩ <;> rintro rfl <;> exact absurd hc (by decide)
    · obtain ⟨rest, hhead, hopens⟩ := head_atom hunary
      rw [hhead, dropWhile_word (isWordRest_of_mem_atom h.self)
        (hopens.mono fun c hc => by rw [hc]; decide)]
      exact hopens.mono fun c hc => by rw [hc]; decide
  unfold Announcement.ofText
  split
  · next hc => exact absurd rfl (hrest _ hc).1
  · next hc => exact absurd rfl (hrest _ hc).2
  · rfl

theorem announcement_head (h : s.Legible) :
    Announcement.ofText s.head.toList = s.announcement := by
  cases s with
  | expr value => exact announcement_expression h
  | ret value =>
    have hhead : ∃ more, (Stmt.ret value).head.toList = "return".toList ++ ' ' :: more := by
      rw [Stmt.head]
      split
      · exact ⟨_, by rw [String.append_assoc, String.toList_append]; rfl⟩
      · exact ⟨['('], rfl⟩
    obtain ⟨more, hmore⟩ := hhead
    rw [hmore, Announcement.ofText, dropWhile_word (List.all_eq_true.mp (by decide))
      (opens_cons.mpr (by decide))]
    rfl
  | ifThen cond body | ifElse cond body otherwise =>
    exact (by decide : Announcement.ofText "if (".toList = .choice)
  | whileLoop cond body => exact (by decide : Announcement.ofText "while (".toList = .whileLoop)
  | forLoop init cond step body =>
    exact (by decide : Announcement.ofText "for (".toList = .forLoop)
  | block body => exact (by decide : Announcement.ofText "\x7b".toList = .block)

theorem stmt_outlineOfAll_eq_flatMap (depth : Nat) (ss : List Stmt) :
    Stmt.outlineOfAll depth ss = ss.flatMap (Stmt.outline depth) := by
  induction ss with
  | nil => rfl
  | cons s ss ih => rw [Stmt.outlineOfAll, ih, List.flatMap_cons]

theorem Stmt.legible_of_mem {ss : List Stmt} (h : ∀ x ∈ Stmt.emittedOfAll ss, x.isLegible) :
    ∀ s ∈ ss, s.Legible := by
  induction ss with
  | nil => exact List.forall_mem_nil _
  | cons s ss ih =>
    obtain ⟨hs, hss⟩ := List.forall_mem_append.mp h
    exact List.forall_mem_cons.mpr ⟨hs, ih hss⟩

/-- What a statement is outlined as tells which statement it is. -/
def Stmt.OutlineReads (depth : Nat) (s : Stmt) : Prop :=
  Reads (Stmt.outline depth) Stmt.Legible (fun _ => True) s

variable {depth : Nat} {r r' : List OutlineLine}

theorem Expr.Legible.reads {e e' : Expr} (h : e.Legible) (h' : e'.Legible)
    (heq : e.outline depth ++ r = e'.outline depth ++ r') : e = e' ∧ r = r' :=
  outlineReads e h depth e' r r' h' (fun _ _ => trivial) (fun _ _ => trivial) heq

theorem Stmt.OutlineReads.reads (h : s.OutlineReads depth) (h' : s'.Legible)
    (heq : s.outline depth ++ r = s'.outline depth ++ r') : s = s' ∧ r = r' :=
  h s' r r' h' (fun _ _ => trivial) (fun _ _ => trivial) heq

theorem same_announcement (h : s.Legible) (h' : s'.Legible)
    (heq : s.outline depth ++ r = s'.outline depth ++ r') :
    s.announcement = s'.announcement := by
  obtain ⟨more, hmore⟩ := stmt_outline_head s depth
  obtain ⟨more', hmore'⟩ := stmt_outline_head s' depth
  rw [hmore, hmore'] at heq
  have hhead : s.head = s'.head := congrArg OutlineLine.text (List.cons.inj heq).1
  rw [← announcement_head h, ← announcement_head h', hhead]

theorem expr_outlineReads {value : Expr} (h : (Stmt.expr value).Legible) :
    (Stmt.expr value).OutlineReads depth := by
  intro s' r r' h' _ _ heq
  have hkind := same_announcement h h' heq
  cases s' with
  | expr value' =>
    obtain ⟨rfl, hr⟩ := Expr.Legible.reads h h' heq
    exact ⟨rfl, hr⟩
  | _ => cases hkind

theorem return_leaf_ne {e : Expr} (h : e.Legible) (hleaf : e.isLeaf) :
    "return " ++ e.oneLine ++ ";" ≠ "return (" := by
  obtain ⟨c, cs, hcs⟩ := List.exists_cons_of_ne_nil (legible_leaf hleaf h.self).1
  have hsplit : "return (" = "return " ++ "(" := by decide
  intro heq
  have htext := congrArg String.toList heq
  rw [hsplit, String.append_assoc, String.toList_append, String.toList_append,
    String.toList_append, hcs] at htext
  exact absurd (List.cons.inj (List.append_cancel_left htext)).2 (by simp)

theorem ret_reads {value value' : Expr} (h : value.Legible) (h' : value'.Legible)
    (heq : (Stmt.ret value).outline depth ++ r = (Stmt.ret value').outline depth ++ r') :
    value = value' ∧ r = r' := by
  rw [Stmt.outline, Stmt.outline] at heq
  split at heq <;> split at heq
  · next hleaf hleaf' =>
    obtain ⟨hline, hr⟩ := List.cons.inj heq
    have htext := congrArg String.toList (congrArg OutlineLine.text hline)
    simp only [String.toList_append, List.append_assoc] at htext
    have hleaves := List.append_cancel_right (List.append_cancel_left htext)
    exact ⟨leaf_inj hleaf hleaf' h.hasWordNames.self h'.hasWordNames.self hleaves, hr⟩
  · next hleaf _ =>
    exact absurd (congrArg OutlineLine.text (List.cons.inj heq).1) (return_leaf_ne h hleaf)
  · next _ hleaf =>
    exact absurd (congrArg OutlineLine.text (List.cons.inj heq).1).symm (return_leaf_ne h' hleaf)
  · simp only [List.cons_append, List.append_assoc] at heq
    obtain ⟨hvalue, hrest⟩ := h.reads h' (List.cons.inj heq).2
    exact ⟨hvalue, (List.cons.inj hrest).2⟩

theorem ret_outlineReads {value : Expr} (h : (Stmt.ret value).Legible) :
    (Stmt.ret value).OutlineReads depth := by
  intro s' r r' h' _ _ heq
  have hkind := same_announcement h h' heq
  cases s' with
  | ret value' =>
    obtain ⟨rfl, hr⟩ := ret_reads h h' heq
    exact ⟨rfl, hr⟩
  | _ => cases hkind

section Guarded

variable {init cond step : Expr} {body otherwise : Stmt}

/-- A condition, and the statement that it guards. -/
theorem guarded_reads {cond' : Expr} {body' : Stmt} {line : OutlineLine} (hcond : cond.Legible)
    (hcond' : cond'.Legible) (hbody : body.OutlineReads (depth + 1)) (hbody' : body'.Legible)
    (heq : cond.outline (depth + 1) ++ line :: (body.outline (depth + 1) ++ r) =
      cond'.outline (depth + 1) ++ line :: (body'.outline (depth + 1) ++ r')) :
    cond = cond' ∧ body = body' ∧ r = r' := by
  obtain ⟨hsame, hrest⟩ := hcond.reads hcond' heq
  exact ⟨hsame, hbody.reads hbody' (List.cons.inj hrest).2⟩

theorem brace_ne_else : (⟨depth, "\x7d"⟩ : OutlineLine) ≠ ⟨depth, "\x7d else \x7b"⟩ := by
  have htext : "\x7d" ≠ "\x7d else \x7b" := by decide
  exact fun h => htext (congrArg OutlineLine.text h)

theorem ifThen_outlineReads (h : (Stmt.ifThen cond body).Legible)
    (hbody : body.OutlineReads (depth + 1)) : (Stmt.ifThen cond body).OutlineReads depth := by
  intro s' r r' h' _ _ heq
  have hkind := same_announcement h h' heq
  obtain ⟨hcond, -⟩ := List.forall_mem_append.mp h
  cases s' with
  | ifThen cond' body' =>
    obtain ⟨hcond', hbody'⟩ := List.forall_mem_append.mp h'
    simp only [Stmt.outline, List.cons_append, List.append_assoc, List.nil_append] at heq
    obtain ⟨rfl, rfl, hclose⟩ := guarded_reads hcond hcond' hbody hbody' (List.cons.inj heq).2
    exact ⟨rfl, (List.cons.inj hclose).2⟩
  | ifElse cond' body' otherwise' =>
    obtain ⟨hcond', hrest'⟩ := List.forall_mem_append.mp h'
    obtain ⟨hbody', -⟩ := List.forall_mem_append.mp hrest'
    simp only [Stmt.outline, List.cons_append, List.append_assoc, List.nil_append] at heq
    obtain ⟨-, -, hclose⟩ := guarded_reads hcond hcond' hbody hbody' (List.cons.inj heq).2
    exact absurd (List.cons.inj hclose).1 brace_ne_else
  | _ => cases hkind

theorem ifElse_outlineReads (h : (Stmt.ifElse cond body otherwise).Legible)
    (hbody : body.OutlineReads (depth + 1)) (hother : otherwise.OutlineReads (depth + 1)) :
    (Stmt.ifElse cond body otherwise).OutlineReads depth := by
  intro s' r r' h' _ _ heq
  have hkind := same_announcement h h' heq
  obtain ⟨hcond, -⟩ := List.forall_mem_append.mp h
  cases s' with
  | ifThen cond' body' =>
    obtain ⟨hcond', hbody'⟩ := List.forall_mem_append.mp h'
    simp only [Stmt.outline, List.cons_append, List.append_assoc, List.nil_append] at heq
    obtain ⟨-, -, hclose⟩ := guarded_reads hcond hcond' hbody hbody' (List.cons.inj heq).2
    exact absurd (List.cons.inj hclose).1.symm brace_ne_else
  | ifElse cond' body' otherwise' =>
    obtain ⟨hcond', hrest'⟩ := List.forall_mem_append.mp h'
    obtain ⟨hbody', hother'⟩ := List.forall_mem_append.mp hrest'
    simp only [Stmt.outline, List.cons_append, List.append_assoc, List.nil_append] at heq
    obtain ⟨rfl, rfl, hclose⟩ := guarded_reads hcond hcond' hbody hbody' (List.cons.inj heq).2
    obtain ⟨rfl, hend⟩ := hother.reads hother' (List.cons.inj hclose).2
    exact ⟨rfl, (List.cons.inj hend).2⟩
  | _ => cases hkind

theorem whileLoop_outlineReads (h : (Stmt.whileLoop cond body).Legible)
    (hbody : body.OutlineReads (depth + 1)) : (Stmt.whileLoop cond body).OutlineReads depth := by
  intro s' r r' h' _ _ heq
  have hkind := same_announcement h h' heq
  obtain ⟨hcond, -⟩ := List.forall_mem_append.mp h
  cases s' with
  | whileLoop cond' body' =>
    obtain ⟨hcond', hbody'⟩ := List.forall_mem_append.mp h'
    simp only [Stmt.outline, List.cons_append, List.append_assoc, List.nil_append] at heq
    obtain ⟨rfl, rfl, hclose⟩ := guarded_reads hcond hcond' hbody hbody' (List.cons.inj heq).2
    exact ⟨rfl, (List.cons.inj hclose).2⟩
  | _ => cases hkind

theorem forLoop_outlineReads (h : (Stmt.forLoop init cond step body).Legible)
    (hbody : body.OutlineReads (depth + 1)) :
    (Stmt.forLoop init cond step body).OutlineReads depth := by
  intro s' r r' h' _ _ heq
  have hkind := same_announcement h h' heq
  obtain ⟨hinit, hrest⟩ := List.forall_mem_append.mp h
  obtain ⟨hcond, hrest⟩ := List.forall_mem_append.mp hrest
  obtain ⟨-, hstep⟩ := List.forall_mem_append.mp hrest
  cases s' with
  | forLoop init' cond' step' body' =>
    obtain ⟨hinit', hrest'⟩ := List.forall_mem_append.mp h'
    obtain ⟨hcond', hrest'⟩ := List.forall_mem_append.mp hrest'
    obtain ⟨hbody', hstep'⟩ := List.forall_mem_append.mp hrest'
    simp only [Stmt.outline, List.cons_append, List.append_assoc, List.nil_append] at heq
    obtain ⟨rfl, hclauses⟩ := Expr.Legible.reads hinit hinit' (List.cons.inj heq).2
    obtain ⟨rfl, hguarded⟩ := Expr.Legible.reads hcond hcond' hclauses
    obtain ⟨rfl, rfl, hclose⟩ := guarded_reads hstep hstep' hbody hbody' hguarded
    exact ⟨rfl, (List.cons.inj hclose).2⟩
  | _ => cases hkind

end Guarded

theorem block_outlineReads {body : List Stmt} (h : (Stmt.block body).Legible)
    (hbody : ∀ s ∈ body, s.OutlineReads (depth + 1)) : (Stmt.block body).OutlineReads depth := by
  intro s' r r' h' _ _ heq
  have hkind := same_announcement h h' heq
  cases s' with
  | block body' =>
    simp only [Stmt.outline, stmt_outlineOfAll_eq_flatMap, List.cons_append,
      List.append_assoc] at heq
    have hclose (r : List OutlineLine) :
        Opens (fun l => l.depth ≠ depth + 1) ([⟨depth, "\x7d"⟩] ++ r) :=
      opens_cons.mpr depth.succ_ne_self.symm
    obtain ⟨rfl, hrest⟩ := outlines_read hbody (Stmt.legible_of_mem h')
      (fun s => ⟨s.head, stmt_outline_head s (depth + 1)⟩) (hclose r) (hclose r')
      (List.cons.inj heq).2
    exact ⟨rfl, (List.cons.inj hrest).2⟩
  | _ => cases hkind

mutual

/-- The outline of a statement can be read back wherever it stands. -/
theorem stmt_outlineReads (s : Stmt) (hs : s.Legible) (depth : Nat) : s.OutlineReads depth := by
  cases s with
  | expr value => exact expr_outlineReads hs
  | ret value => exact ret_outlineReads hs
  | ifThen cond body =>
    have hbody := (List.forall_mem_append.mp hs).2
    exact ifThen_outlineReads hs (stmt_outlineReads body hbody (depth + 1))
  | ifElse cond body otherwise =>
    obtain ⟨hbody, hother⟩ := List.forall_mem_append.mp (List.forall_mem_append.mp hs).2
    exact ifElse_outlineReads hs (stmt_outlineReads body hbody (depth + 1))
      (stmt_outlineReads otherwise hother (depth + 1))
  | whileLoop cond body =>
    have hbody := (List.forall_mem_append.mp hs).2
    exact whileLoop_outlineReads hs (stmt_outlineReads body hbody (depth + 1))
  | forLoop init cond step body =>
    obtain ⟨-, hrest⟩ := List.forall_mem_append.mp (List.forall_mem_append.mp hs).2
    have hbody := (List.forall_mem_append.mp hrest).1
    exact forLoop_outlineReads hs (stmt_outlineReads body hbody (depth + 1))
  | block body => exact block_outlineReads hs (stmt_outlineOfAllReads body hs (depth + 1))

theorem stmt_outlineOfAllReads (ss : List Stmt) (hss : ∀ x ∈ Stmt.emittedOfAll ss, x.isLegible)
    (depth : Nat) : ∀ s ∈ ss, s.OutlineReads depth := by
  cases ss with
  | nil => exact List.forall_mem_nil _
  | cons s ss =>
    obtain ⟨hs, hss⟩ := List.forall_mem_append.mp hss
    exact List.forall_mem_cons.mpr
      ⟨stmt_outlineReads s hs depth, stmt_outlineOfAllReads ss hss depth⟩

end

end Statements

end MiniC
