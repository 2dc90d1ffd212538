import MiniC.Compile
import MiniC.Proofs.Code.Refusal
import MiniC.Proofs.Printing.Outline.Statement

/-! The outline of a program determines the program. -/
namespace MiniC

section Functions

/-- Names are identifiers, also where they are keywords, and literals have no sign. -/
structure Function.Legible (f : Function) : Prop where
  name : Token.isWord f.name
  params : ∀ param ∈ f.params, Token.isWord param
  body : ∀ x ∈ Stmt.emittedOfAll f.body, x.isLegible

/-- The first line of a function. -/
def Function.head (f : Function) : String :=
  f.name ++ "(" ++ String.intercalate ", " f.params ++ ") \x7b"

variable {f f' : Function}

theorem function_head (f : Function) :
    f.head.toList = f.name.toList ++ '(' ::
      ([',', ' '].intercalate (f.params.map String.toList) ++ [')', ' ', '\x7b']) := by
  simp [Function.head]

theorem word_reads {name : String} (h : Token.isWord name) :
    Reads String.toList (fun name => Token.isWord name) (fun c => Token.isWordRest c = false)
      name := by
  intro name' r r' h' hr hr' heq
  obtain ⟨hname, hrest⟩ := append_inj_of_boundary (Token.isWordRest_of_mem h)
    (Token.isWordRest_of_mem h') hr hr' heq
  exact ⟨String.toList_inj.mp hname, hrest⟩

theorem function_head_reads (h : f.Legible) (h' : f'.Legible) (heq : f.head = f'.head) :
    f.name = f'.name ∧ f.params = f'.params := by
  have hopens (l : List Char) : Opens (fun c => Token.isWordRest c = false) ('(' :: l) :=
    opens_cons.mpr (by decide)
  have htext : f.head.toList = f'.head.toList := by rw [heq]
  rw [function_head, function_head] at htext
  obtain ⟨hname, hrest⟩ := word_reads h.name f'.name _ _ h'.name (hopens _) (hopens _) htext
  have hstarts (param : String) (hparam : Token.isWord param) :
      ∃ c cs, param.toList = c :: cs ∧ c ≠ ')' := by
    obtain ⟨c, cs, hcs, hstart, -⟩ := Token.exists_wordStart hparam
    refine ⟨c, cs, hcs, ?_⟩
    rintro rfl
    exact absurd hstart (by decide)
  obtain ⟨hparams, -⟩ := separated_reads (fun param hparam => word_reads (h.params param hparam))
    h.params h'.params hstarts (by decide) (by decide) (List.cons.inj hrest).2
  exact ⟨hname, hparams⟩

/-- The outline of a function can be read back wherever it stands. -/
theorem function_outlineReads (h : f.Legible) :
    Reads Function.outline Function.Legible (fun _ => True) f := by
  intro f' r r' h' _ _ heq
  simp only [Function.outline, stmt_outlineOfAll_eq_flatMap, List.cons_append,
    List.append_assoc] at heq
  obtain ⟨hhead, hbody⟩ := List.cons.inj heq
  obtain ⟨hname, hparams⟩ := function_head_reads h h' (congrArg OutlineLine.text hhead)
  have hclose (r : List OutlineLine) : Opens (fun l => l.depth ≠ 1) ([⟨0, "\x7d"⟩] ++ r) :=
    opens_cons.mpr (by decide)
  obtain ⟨hstmts, hrest⟩ := outlines_read (stmt_outlineOfAllReads f.body h.body 1)
    (Stmt.legible_of_mem h'.body) (fun s => ⟨s.head, stmt_outline_head s 1⟩) (hclose r) (hclose r')
    hbody
  obtain ⟨name, params, body⟩ := f
  obtain ⟨name', params', body'⟩ := f'
  obtain rfl : name = name' := hname
  obtain rfl : params = params' := hparams
  obtain rfl : body = body' := hstmts
  exact ⟨rfl, (List.cons.inj hrest).2⟩

end Functions

section Text

theorem toList_render (l : OutlineLine) :
    l.render.toList = List.replicate (2 * l.depth) ' ' ++ l.text.toList ++ ['\n'] := by
  simp [OutlineLine.render]

/-- A line ends at its line feed, and its text begins where it is not indented any more. -/
theorem render_reads {l : OutlineLine} (h : isClean l.text) :
    Reads (fun l => l.render.toList) (fun l => isClean l.text) (fun _ => True) l := by
  have hline {l : OutlineLine} (h : isClean l.text) :
      ∀ c ∈ List.replicate (2 * l.depth) ' ' ++ l.text.toList, c != '\n' := by
    refine List.forall_mem_append.mpr ⟨fun c hc => ?_, fun c hc => ?_⟩
    · obtain ⟨-, rfl⟩ := List.mem_replicate.mp hc
      decide
    · refine bne_iff_ne.mpr ?_
      rintro rfl
      exact (isClean_iff.mp h).1 hc
  have hindent {l : OutlineLine} : ∀ c ∈ List.replicate (2 * l.depth) ' ', c == ' ' :=
    fun c hc => beq_iff_eq.mpr (List.mem_replicate.mp hc).2
  have htext {l : OutlineLine} (h : isClean l.text) :
      Opens (fun c => (c == ' ') = false) l.text.toList :=
    (isClean_iff.mp h).2.mono fun c hc => beq_false_of_ne hc
  have hbreak (r : List Char) : Opens (fun c => (c != '\n') = false) (['\n'] ++ r) :=
    opens_cons.mpr (by decide)
  intro l' r r' h' _ _ heq
  simp only [toList_render] at heq
  rw [List.append_assoc _ ['\n'], List.append_assoc _ ['\n']] at heq
  obtain ⟨hlines, hrest⟩ := append_inj_of_boundary (hline h) (hline h') (hbreak r) (hbreak r') heq
  obtain ⟨hspaces, htexts⟩ := append_inj_of_boundary hindent hindent (htext h) (htext h') hlines
  have hlength := congrArg List.length hspaces
  rw [List.length_replicate, List.length_replicate] at hlength
  have hdepth : l.depth = l'.depth := Nat.eq_of_mul_eq_mul_left (by decide) hlength
  obtain ⟨depth, text⟩ := l
  obtain ⟨depth', text'⟩ := l'
  obtain rfl : depth = depth' := hdepth
  obtain rfl : text = text' := String.toList_inj.mp htexts
  exact ⟨rfl, (List.cons.inj hrest).2⟩

theorem isClean_ret {value : Expr} (h : value.Legible) (depth : Nat) :
    ∀ l ∈ (Stmt.ret value).outline depth, isClean l.text := by
  have hopen : isClean "return (" := by decide
  have hclose : isClean ");" := by decide
  rw [Stmt.outline]
  split
  · have hvalue := newline_not_mem_oneLine value h.hasWordNames
    refine List.forall_mem_singleton.mpr (isClean_iff.mpr ⟨?_, ?_⟩)
    · rw [String.toList_append, String.toList_append, List.mem_append, List.mem_append, not_or,
        not_or]
      exact ⟨⟨by decide, hvalue⟩, by decide⟩
    · rw [String.append_assoc, String.toList_append]
      exact opens_cons.mpr (by decide)
  · exact List.forall_mem_cons.mpr ⟨hopen, List.forall_mem_append.mpr
      ⟨isClean_outline value h (depth + 1), List.forall_mem_singleton.mpr hclose⟩⟩

mutual

theorem isClean_stmt (s : Stmt) (h : s.Legible) (depth : Nat) :
    ∀ l ∈ s.outline depth, isClean l.text := by
  have hguard : isClean ") \x7b" ∧ isClean "\x7d" ∧ isClean "\x7d else \x7b" := by decide
  have hopen : isClean "if (" ∧ isClean "while (" ∧ isClean "for (" ∧ isClean "\x7b" := by decide
  cases s with
  | expr value => exact isClean_outline value h depth
  | ret value => exact isClean_ret h depth
  | ifThen cond body | whileLoop cond body =>
    obtain ⟨hcond, hbody⟩ := List.forall_mem_append.mp h
    have htest := isClean_outline cond hcond (depth + 1)
    have hlines := isClean_stmt body hbody (depth + 1)
    simp only [Stmt.outline, List.forall_mem_append, List.forall_mem_cons]
    tauto
  | ifElse cond body otherwise =>
    obtain ⟨hcond, hrest⟩ := List.forall_mem_append.mp h
    obtain ⟨hbody, hotherwise⟩ := List.forall_mem_append.mp hrest
    have htest := isClean_outline cond hcond (depth + 1)
    have hlines := isClean_stmt body hbody (depth + 1)
    have hother := isClean_stmt otherwise hotherwise (depth + 1)
    simp only [Stmt.outline, List.forall_mem_append, List.forall_mem_cons]
    tauto
  | forLoop init cond step body =>
    obtain ⟨hinit, hrest⟩ := List.forall_mem_append.mp h
    obtain ⟨hcond, hrest⟩ := List.forall_mem_append.mp hrest
    obtain ⟨hbody, hstep⟩ := List.forall_mem_append.mp hrest
    have hstart := isClean_outline init hinit (depth + 1)
    have htest := isClean_outline cond hcond (depth + 1)
    have hafter := isClean_outline step hstep (depth + 1)
    have hlines := isClean_stmt body hbody (depth + 1)
    simp only [Stmt.outline, List.forall_mem_append, List.forall_mem_cons]
    tauto
  | block body =>
    have hlines := isClean_stmts body h (depth + 1)
    simp only [Stmt.outline, List.forall_mem_append, List.forall_mem_cons]
    tauto

theorem isClean_stmts (ss : List Stmt) (h : ∀ x ∈ Stmt.emittedOfAll ss, x.isLegible)
    (depth : Nat) : ∀ l ∈ Stmt.outlineOfAll depth ss, isClean l.text := by
  cases ss with
  | nil => exact List.forall_mem_nil _
  | cons s ss =>
    obtain ⟨hs, hss⟩ := List.forall_mem_append.mp h
    rw [Stmt.outlineOfAll]
    exact List.forall_mem_append.mpr ⟨isClean_stmt s hs depth, isClean_stmts ss hss depth⟩

end

theorem isClean_function {f : Function} (h : f.Legible) : ∀ l ∈ f.outline, isClean l.text := by
  have hword {name : String} (hname : Token.isWord name) : '\n' ∉ name.toList :=
    fun hmem => absurd (Token.isWordRest_of_mem hname _ hmem) (by decide)
  have hparams : '\n' ∉ [',', ' '].intercalate (f.params.map String.toList) := by
    intro hmem
    rcases mem_of_mem_intercalate hmem with hmem | ⟨param, hparam, hmem⟩
    · exact absurd hmem (by decide)
    · exact hword (h.params param hparam) hmem
  have hhead : isClean f.head := by
    refine isClean_iff.mpr ⟨?_, ?_⟩
    · rw [function_head]
      simp only [List.mem_append, List.mem_cons, hword h.name, hparams, List.not_mem_nil]
      decide
    · obtain ⟨c, cs, hcs, hstart, -⟩ := Token.exists_wordStart h.name
      rw [function_head, hcs]
      refine opens_cons.mpr ?_
      rintro rfl
      exact absurd hstart (by decide)
  have hclose : isClean "\x7d" := by decide
  exact List.forall_mem_append.mpr
    ⟨List.forall_mem_cons.mpr ⟨hhead, isClean_stmts f.body h.body 1⟩,
      List.forall_mem_singleton.mpr hclose⟩

end Text

section Programs

def Program.Legible (p : Program) : Prop :=
  ∀ f ∈ p, f.Legible

theorem Expr.isLegible_of_isAdmissible {e : Expr} (h : e.isAdmissible) : e.isLegible := by
  cases e with
  | num value =>
    rw [Expr.isAdmissible, Bool.and_eq_true, decide_eq_true_eq] at h
    simpa [Expr.isLegible, Int64.le_iff_toInt_le] using h.1
  | var name => exact h
  | call callee args =>
    rw [Expr.isAdmissible, Bool.and_eq_true, Bool.and_eq_true] at h
    exact h.1.1
  | _ => rfl

theorem Program.legible_of_parse {source : String} {dialect : Dialect} {tokens : List Token}
    {p : Program} (h : parseTokens source dialect tokens = .ok p) : p.Legible := by
  intro f hf
  have hadmissible := (derives_of_parse (mapError_eq_ok_iff.mp h)).isAdmissible f hf
  simp only [Function.isAdmissible, Bool.and_eq_true, List.all_eq_true] at hadmissible
  obtain ⟨⟨⟨hname, hparams⟩, -⟩, hbody⟩ := hadmissible
  exact ⟨hname, hparams, fun x hx =>
    Expr.isLegible_of_isAdmissible (Stmt.isAdmissible_of_mem_emittedOfAll f.body hbody x hx)⟩

theorem Program.eq_of_outlineText_eq {p q : Program} (hp : p.Legible) (hq : q.Legible)
    (h : p.outlineText = q.outlineText) : p = q := by
  have hclean {p : Program} (hp : p.Legible) : ∀ l ∈ p.outline, isClean l.text := by
    intro l hl
    obtain ⟨f, hf, hl⟩ := List.mem_flatMap.mp hl
    exact isClean_function (hp f hf) l hl
  have htext (p : Program) :
      p.outlineText.toList = p.outline.flatMap fun l => l.render.toList := by
    rw [Program.outlineText, String.toList_join, List.flatMap_map]
  have hstarts (l : OutlineLine) : ∃ c more, l.render.toList = c :: more ∧ True := by
    obtain ⟨c, more, hc⟩ := List.exists_cons_of_ne_nil (l := l.render.toList)
      (by simp [toList_render])
    exact ⟨c, more, hc, trivial⟩
  have hchars : p.outline.flatMap (fun l => l.render.toList) ++ [] =
      q.outline.flatMap (fun l => l.render.toList) ++ [] := by
    rw [← htext, ← htext, h]
  have hlines : p.outline = q.outline :=
    (flatMap_reads (fun _ => True) (fun l hl => render_reads (hclean hp l hl)) (hclean hq)
      hstarts (fun _ _ => trivial) opens_nil opens_nil hchars).1
  have houtlines : p.flatMap Function.outline ++ [] = q.flatMap Function.outline ++ [] :=
    congrArg (· ++ []) hlines
  exact (flatMap_reads (fun _ => True) (fun f hf => function_outlineReads (hp f hf)) hq
    (fun f => ⟨_, _, rfl, trivial⟩) (fun _ _ => trivial) opens_nil opens_nil houtlines).1

/-- Outlines lose nothing: legible programs with the same outline are the same, and all programs
from the parser are legible. -/
theorem outline_lossless : Set.InjOn Program.outlineText {p | p.Legible} ∧
    ∀ source dialect tokens p, parseTokens source dialect tokens = .ok p → p.Legible :=
  ⟨fun _ hp _ hq h => Program.eq_of_outlineText_eq hp hq h,
    fun _ _ _ _ h => Program.legible_of_parse h⟩

/-- A value that takes more than one line is returned. -/
def returnStatement : Function :=
  .main [.ret (.unary .minus (.unary .minus (.num 1)))]

/-- A call of a function that is named like a keyword. -/
def returnCall : Function :=
  .main [.expr (.call "return" [.unary .minus (.unary .minus (.num 1))])]

theorem returnStatement_ne_returnCall :
    Program.Legible [returnStatement] ∧ Program.Legible [returnCall] ∧
      Program.outlineText [returnStatement] ≠ Program.outlineText [returnCall] := by
  have hderives : Program.Derives .functions (Program.texts [returnStatement]) [returnStatement] :=
    Program.derives_texts (by decide)
  obtain ⟨tokens, htokens⟩ := exists_parse_of_derives hderives
  have hreturning : Program.Legible [returnStatement] :=
    outline_lossless.2 "" .functions tokens _ (mapError_eq_ok_iff.mpr htokens)
  have hcalling : Program.Legible [returnCall] :=
    List.forall_mem_singleton.mpr ⟨by decide, by decide, by decide⟩
  refine ⟨hreturning, hcalling, fun h => ?_⟩
  have hsame := outline_lossless.1 hreturning hcalling h
  simp [returnStatement, returnCall, Function.main] at hsame

end Programs

end MiniC
