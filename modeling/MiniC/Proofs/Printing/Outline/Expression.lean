import MiniC.Proofs.Printing.OneLine
import MiniC.Program.Outline

/-! Outlines of expressions can be read back.

The first line tells whether more lines belong to the expression, and with its operands it tells
the expression. The operands are the deeper lines that follow, up to a line of the same depth. -/
namespace MiniC

/-- Whether the name in an expression is an identifier, and the literal has no sign. -/
def Expr.isLegible : Expr → Bool
  | .num value => 0 ≤ value
  | .var name => Token.isWord name
  | .call callee _ => Token.isWord callee
  | _ => true

def Expr.Legible (e : Expr) : Prop :=
  ∀ x ∈ e.emitted, x.isLegible

section Legible

variable {o e : Expr}

theorem Expr.Legible.operand (h : e.Legible) (ho : o ∈ e.operands) : o.Legible :=
  fun x hx => h x (Expr.mem_emitted_iff.mpr (.inr ⟨o, ho, hx⟩))

theorem Expr.Legible.self (h : e.Legible) : e.isLegible :=
  h e (Expr.mem_emitted_iff.mpr (.inl rfl))

theorem Expr.hasWordName_of_isLegible (h : e.isLegible) : e.hasWordName := by
  cases e with
  | var name | call callee args => exact h
  | _ => rfl

theorem Expr.Legible.hasWordNames (h : e.Legible) : e.HasWordNames :=
  fun x hx => Expr.hasWordName_of_isLegible (h x hx)

/-- Leaves without a sign are words and numerals. -/
theorem legible_leaf (hleaf : e.isLeaf) (h : e.isLegible) :
    e.oneLine.toList ≠ [] ∧ ∀ c ∈ e.oneLine.toList, Token.isWordRest c := by
  refine ⟨(leaf_shape hleaf (Expr.hasWordName_of_isLegible h)).1, ?_⟩
  cases e with
  | num value =>
    have hvalue : 0 ≤ value := by simpa [Expr.isLegible] using h
    obtain ⟨n, -, hnumeral, -⟩ := isNumeral_toString hvalue
    exact fun c hc => Token.isWordRest_of_isDigit (hnumeral.2.1 c hc)
  | var name => exact Token.isWordRest_of_mem h
  | _ => cases hleaf

end Legible

section Heads

/-- Whether an expression takes one line. -/
def Expr.isFlat (e : Expr) : Bool :=
  e.operands.all Expr.isLeaf

theorem isFlat_unary (op : UnOp) (operand : Expr) :
    (Expr.unary op operand).isFlat = operand.isLeaf :=
  Bool.and_true _

/-- The first line of an expression. -/
def Expr.head : Expr → String
  | .num value => (Expr.num value).oneLine
  | .var name => name
  | .unary op operand => op.symbol ++ if operand.isLeaf then operand.oneLine else "("
  | .binary op lhs rhs =>
    if lhs.isLeaf && rhs.isLeaf then (Expr.binary op lhs rhs).oneLine else "(" ++ op.symbol
  | .assign lhs rhs =>
    if lhs.isLeaf && rhs.isLeaf then (Expr.assign lhs rhs).oneLine else "(="
  | .call callee args =>
    if args.all Expr.isLeaf then (Expr.call callee args).oneLine else callee ++ "("

theorem outlineOfAll_eq_flatMap (depth : Nat) (es : List Expr) :
    Expr.outlineOfAll depth es = es.flatMap (Expr.outline depth) := by
  induction es with
  | nil => rfl
  | cons e es ih => rw [Expr.outlineOfAll, ih, List.flatMap_cons]

theorem outline_flat {e : Expr} (depth : Nat) (h : e.isFlat) :
    e.outline depth = [⟨depth, e.head⟩] := by
  cases e with
  | num value | var name => rfl
  | unary op operand =>
    have hleaf : operand.isLeaf := isFlat_unary op operand ▸ h
    simp [Expr.outline, Expr.head, hleaf]
  | binary op lhs rhs | assign lhs rhs =>
    have hleaf : lhs.isLeaf ∧ rhs.isLeaf := by simpa [Expr.isFlat, Expr.operands] using h
    simp [Expr.outline, Expr.head, hleaf]
  | call callee args =>
    have hleaf : args.all Expr.isLeaf := h
    rw [Expr.outline, Expr.head, if_pos hleaf, if_pos hleaf]

theorem outline_nested {e : Expr} (depth : Nat) (h : ¬ e.isFlat) :
    e.outline depth = ⟨depth, e.head⟩ ::
      (e.operands.flatMap (Expr.outline (depth + 1)) ++ [⟨depth, ")"⟩]) := by
  cases e with
  | num value | var name => exact absurd rfl h
  | unary op operand =>
    have hleaf : ¬ operand.isLeaf := isFlat_unary op operand ▸ h
    simp [Expr.outline, Expr.head, Expr.operands, hleaf]
  | binary op lhs rhs | assign lhs rhs =>
    have hleaf : (lhs.isLeaf && rhs.isLeaf) = false := by
      simpa [Expr.isFlat, Expr.operands] using h
    simp [Expr.outline, Expr.head, Expr.operands, hleaf]
  | call callee args =>
    have hleaf : ¬ args.all Expr.isLeaf := h
    rw [Expr.outline, Expr.head, if_neg hleaf, if_neg hleaf, outlineOfAll_eq_flatMap]
    rfl

/-- Whether an expression has one operand with a sign before it. -/
def Expr.isUnary : Expr → Bool
  | .unary _ _ => true
  | _ => false

variable {e e' : Expr}

theorem head_flat (hunary : ¬ e.isUnary) (h : e.isFlat) : e.head = e.oneLine := by
  cases e with
  | num value | var name => rfl
  | unary op operand => exact absurd rfl hunary
  | binary op lhs rhs | assign lhs rhs =>
    have hleaf : lhs.isLeaf ∧ rhs.isLeaf := by simpa [Expr.isFlat, Expr.operands] using h
    simp [Expr.head, hleaf]
  | call callee args =>
    have hleaf : args.all Expr.isLeaf := h
    rw [Expr.head, if_pos hleaf]

theorem head_nested (hunary : ¬ e.isUnary) (h : ¬ e.isFlat) :
    e.head.toList = e.atom.toList ++ '(' :: (e.symbol?.getD "").toList := by
  cases e with
  | num value | var name => exact absurd rfl h
  | unary op operand => exact absurd rfl hunary
  | binary op lhs rhs | assign lhs rhs =>
    have hleaf : (lhs.isLeaf && rhs.isLeaf) = false := by
      simpa [Expr.isFlat, Expr.operands] using h
    simp [Expr.head, Expr.atom, Expr.symbol?, hleaf]
  | call callee args =>
    have hleaf : ¬ args.all Expr.isLeaf := h
    simp [Expr.head, Expr.atom, Expr.symbol?, hleaf]

/-- Whether a text ends in a word or a closing bracket. -/
def endsClosed (text : List Char) : Bool :=
  text.getLast?.any fun c => Token.isWordRest c || c = ')'

theorem not_closed_of_isOperatorChar {c : Char} (h : isOperatorChar c) :
    (Token.isWordRest c || decide (c = ')')) = false := by
  simp only [isOperatorChar, List.mem_cons, List.not_mem_nil, or_false, decide_eq_true_eq] at h
  rcases h with rfl | rfl | rfl | rfl | rfl | rfl | rfl | rfl | rfl <;> decide

theorem endsClosed_append {a b : List Char} (hb : b ≠ []) :
    endsClosed (a ++ b) = endsClosed b := by
  rw [endsClosed, endsClosed, List.getLast?_append_of_ne_nil _ hb]

theorem endsClosed_leaf (hleaf : e.isLeaf) (h : e.isLegible) : endsClosed e.oneLine.toList := by
  obtain ⟨hne, hall⟩ := legible_leaf hleaf h
  rw [endsClosed, List.getLast?_eq_some_getLast hne]
  simp [hall _ (List.getLast_mem hne)]

theorem endsClosed_oneLine (h : e.isLegible) : endsClosed e.oneLine.toList := by
  by_cases hleaf : e.isLeaf
  · exact endsClosed_leaf hleaf h
  · rcases operator_or_call hleaf with ⟨symbol, hs, -⟩ | ⟨callee, args, rfl⟩
    · rw [oneLine_operator hs, ← List.cons_append, ← List.append_assoc,
        endsClosed_append (List.cons_ne_nil _ _)]
      decide
    · rw [oneLine_call, ← List.cons_append, ← List.append_assoc,
        endsClosed_append (List.cons_ne_nil _ _)]
      decide

theorem endsClosed_head (h : e.Legible) : endsClosed e.head.toList = e.isFlat := by
  by_cases hunary : e.isUnary
  · cases e with
    | unary op operand =>
      rw [Expr.head, String.toList_append, isFlat_unary]
      by_cases hleaf : operand.isLeaf
      · have hoperand := (h.operand (o := operand) (List.mem_singleton.mpr rfl)).self
        rw [if_pos hleaf, endsClosed_append (legible_leaf hleaf hoperand).1,
          endsClosed_leaf hleaf hoperand, hleaf]
      · rw [if_neg hleaf, endsClosed_append (by decide), Bool.eq_false_iff.mpr hleaf]
        decide
    | _ => cases hunary
  · by_cases hflat : e.isFlat
    · rw [head_flat hunary hflat, endsClosed_oneLine h.self, hflat]
    · have hopen : ∀ c ∈ '(' :: (e.symbol?.getD "").toList,
          (Token.isWordRest c || decide (c = ')')) = false := by
        refine List.forall_mem_cons.mpr ⟨by decide, ?_⟩
        cases hs : e.symbol? with
        | none => exact List.forall_mem_nil _
        | some symbol =>
          exact fun c hc => not_closed_of_isOperatorChar (isOperatorChar_of_mem hs c hc)
      rw [head_nested hunary hflat, endsClosed_append (List.cons_ne_nil _ _), endsClosed,
        List.getLast?_eq_some_getLast (List.cons_ne_nil _ _), Option.any_some,
        hopen _ (List.getLast_mem _)]
      simpa using hflat

theorem isWordRest_of_mem_atom (h : e.isLegible) : ∀ c ∈ e.atom.toList, Token.isWordRest c := by
  cases e with
  | num value => exact (legible_leaf (e := .num value) rfl h).2
  | var name | call callee args => exact Token.isWordRest_of_mem h
  | _ => exact List.forall_mem_nil _

/-- An expression without a sign before it begins with its atom. -/
theorem head_atom (hunary : ¬ e.isUnary) :
    ∃ rest, e.head.toList = e.atom.toList ++ rest ∧ Opens (· = '(') rest := by
  by_cases hflat : e.isFlat
  · rw [head_flat hunary hflat]
    by_cases hleaf : e.isLeaf
    · exact ⟨[], by rw [oneLine_leaf hleaf, List.append_nil], opens_nil⟩
    · obtain ⟨more, hmore⟩ := oneLine_bracket hleaf
      exact ⟨'(' :: more, hmore, opens_cons.mpr rfl⟩
  · exact ⟨_, head_nested hunary hflat, opens_cons.mpr rfl⟩

/-- Whether a text begins with a sign. -/
def beginsSigned (text : List Char) : Bool :=
  text.head?.any isOperatorChar

theorem beginsSigned_head (h : e.Legible) : beginsSigned e.head.toList = e.isUnary := by
  by_cases hunary : e.isUnary
  · cases e with
    | unary op operand =>
      rw [Expr.head, String.toList_append]
      cases op <;> rfl
    | _ => cases hunary
  · obtain ⟨rest, hrest, hopens⟩ := head_atom hunary
    have hatom := isWordRest_of_mem_atom h.self
    rw [hrest, Bool.eq_false_iff.mpr hunary]
    cases htext : e.atom.toList with
    | nil =>
      cases rest with
      | nil => rfl
      | cons c cs =>
        obtain rfl := opens_cons.mp hopens
        rfl
    | cons c cs =>
      rw [htext] at hatom
      have hword := hatom c List.mem_cons_self
      by_contra hsigned
      have hclosed := not_closed_of_isOperatorChar (Bool.eq_true_of_not_eq_false hsigned)
      simp [hword] at hclosed

theorem unary_reads {op op' : UnOp} {o o' : Expr} (h : (Expr.unary op o).Legible)
    (h' : (Expr.unary op' o').Legible)
    (heq : (Expr.unary op o).head.toList = (Expr.unary op' o').head.toList) :
    op = op' ∧ (o.isLeaf → o'.isLeaf → o = o') := by
  have hsymbol (op : UnOp) : ∃ c, op.symbol.toList = [c] := by
    cases op <;> exact ⟨_, rfl⟩
  obtain ⟨c, hc⟩ := hsymbol op
  obtain ⟨c', hc'⟩ := hsymbol op'
  rw [Expr.head, Expr.head, String.toList_append, String.toList_append, hc, hc',
    List.singleton_append, List.singleton_append] at heq
  obtain ⟨rfl, hrest⟩ := List.cons.inj heq
  refine ⟨UnOp.symbol_injective (String.toList_inj.mp (hc.trans hc'.symm)), fun hleaf hleaf' => ?_⟩
  rw [if_pos hleaf, if_pos hleaf'] at hrest
  have ho := (h.operand (List.mem_singleton.mpr rfl)).hasWordNames.self
  have ho' := (h'.operand (List.mem_singleton.mpr rfl)).hasWordNames.self
  exact leaf_inj hleaf hleaf' ho ho' hrest

theorem nested_reads (hunary : ¬ e.isUnary) (hunary' : ¬ e'.isUnary) (hflat : ¬ e.isFlat)
    (hflat' : ¬ e'.isFlat) (h : e.isLegible) (h' : e'.isLegible)
    (heq : e.head.toList = e'.head.toList) (hoperands : e.operands = e'.operands) : e = e' := by
  have hopens (l : List Char) : Opens (fun c => Token.isWordRest c = false) ('(' :: l) :=
    opens_cons.mpr (by decide)
  have hleaf {e : Expr} (hflat : ¬ e.isFlat) : ¬ e.isLeaf := by
    intro hleaf
    refine hflat ?_
    cases e with
    | num value | var name => rfl
    | _ => cases hleaf
  rw [head_nested hunary hflat, head_nested hunary' hflat'] at heq
  obtain ⟨hatom, htext⟩ := append_inj_of_boundary (isWordRest_of_mem_atom h)
    (isWordRest_of_mem_atom h') (hopens _) (hopens _) heq
  have hsymbol := String.toList_inj.mp (List.cons.inj htext).2
  rcases operators_or_calls (hleaf hflat) (hleaf hflat') (Expr.hasWordName_of_isLegible h)
    (Expr.hasWordName_of_isLegible h') (String.toList_inj.mp hatom) with
    ⟨symbol, symbol', hs, hs'⟩ | ⟨callee, args, args', rfl, rfl⟩
  · rw [hs, hs'] at hsymbol
    obtain rfl : symbol = symbol' := hsymbol
    exact operator_inj hs hs' hoperands
  · obtain rfl : args = args' := hoperands
    rfl

/-- The first line tells an expression of one line, and otherwise all but the operands. -/
theorem head_reads (h : e.Legible) (h' : e'.Legible) (heq : e.head = e'.head) :
    e.isFlat = e'.isFlat ∧ (e.isFlat → e = e') ∧ (e.operands = e'.operands → e = e') := by
  have hflat : e.isFlat = e'.isFlat := by
    rw [← endsClosed_head h, ← endsClosed_head h', heq]
  have hkind : e.isUnary = e'.isUnary := by
    rw [← beginsSigned_head h, ← beginsSigned_head h', heq]
  have htext : e.head.toList = e'.head.toList := by rw [heq]
  refine ⟨hflat, ?_⟩
  by_cases hunary : e.isUnary
  · have hunary' := hkind.symm.trans hunary
    cases e with
    | unary op o =>
      cases e' with
      | unary op' o' =>
        obtain ⟨rfl, hleaf⟩ := unary_reads h h' htext
        rw [isFlat_unary, isFlat_unary] at hflat
        rw [isFlat_unary]
        refine ⟨fun hone => ?_, fun hoperands => ?_⟩
        · rw [hleaf hone (hflat ▸ hone)]
        · rw [List.singleton_inj.mp hoperands]
      | _ => cases hunary'
    | _ => cases hunary
  · have hunary' : ¬ e'.isUnary := hkind ▸ hunary
    by_cases hone : e.isFlat
    · have hone' : e'.isFlat := hflat ▸ hone
      rw [head_flat hunary hone, head_flat hunary' hone'] at htext
      have hsame : e = e' := (oneLineReads e h.hasWordNames e' [] [] h'.hasWordNames opens_nil
        opens_nil (congrArg (· ++ []) htext)).1
      exact ⟨fun _ => hsame, fun _ => hsame⟩
    · have hone' : ¬ e'.isFlat := hflat ▸ hone
      exact ⟨fun hyes => absurd hyes hone,
        nested_reads hunary hunary' hone hone' h.self h'.self htext⟩

end Heads

section Lines

variable {e : Expr}

theorem outline_head (e : Expr) (depth : Nat) :
    ∃ more, e.outline depth = ⟨depth, e.head⟩ :: more := by
  by_cases hflat : e.isFlat
  · exact ⟨[], outline_flat depth hflat⟩
  · exact ⟨_, outline_nested depth hflat⟩

/-- Outlines that begin at one depth, up to a line of another depth. -/
theorem outlines_read {α : Type} {write : α → List OutlineLine} {ok : α → Prop} {depth : Nat}
    {as as' : List α} {r r' : List OutlineLine} (has : ∀ a ∈ as, Reads write ok (fun _ => True) a)
    (has' : ∀ a ∈ as', ok a) (hhead : ∀ a, ∃ text more, write a = ⟨depth, text⟩ :: more)
    (hr : Opens (fun l => l.depth ≠ depth) r) (hr' : Opens (fun l => l.depth ≠ depth) r')
    (h : as.flatMap write ++ r = as'.flatMap write ++ r') : as = as' ∧ r = r' := by
  have hstarts (a : α) : ∃ l more, write a = l :: more ∧ l.depth = depth := by
    obtain ⟨text, more, hmore⟩ := hhead a
    exact ⟨_, more, hmore, rfl⟩
  exact flatMap_reads (fun l => l.depth = depth) has has' hstarts (fun _ _ => trivial)
    (hr.mono fun _ hl => ⟨trivial, hl⟩) (hr'.mono fun _ hl => ⟨trivial, hl⟩) h

/-- The outline of an expression can be read back wherever it stands. -/
theorem outlineReads (e : Expr) : e.Legible → ∀ depth,
    Reads (Expr.outline depth) Expr.Legible (fun _ => True) e := by
  induction e using Expr.operandsInduction with
  | h e ih =>
    intro he depth e' r r' he' _ _ heq
    obtain ⟨more, hmore⟩ := outline_head e depth
    obtain ⟨more', hmore'⟩ := outline_head e' depth
    have hhead : e.head = e'.head := by
      rw [hmore, hmore'] at heq
      exact congrArg OutlineLine.text (List.cons.inj heq).1
    obtain ⟨hflat, hone, hnested⟩ := head_reads he he' hhead
    by_cases h : e.isFlat
    · have h' : e'.isFlat := hflat ▸ h
      rw [outline_flat depth h, outline_flat depth h'] at heq
      exact ⟨hone h, (List.cons.inj heq).2⟩
    · have h' : ¬ e'.isFlat := hflat ▸ h
      rw [outline_nested depth h, outline_nested depth h', List.cons_append, List.cons_append,
        List.append_assoc, List.append_assoc] at heq
      have hclose (r : List OutlineLine) :
          Opens (fun l => l.depth ≠ depth + 1) ([⟨depth, ")"⟩] ++ r) :=
        opens_cons.mpr depth.succ_ne_self.symm
      obtain ⟨hoperands, hrest⟩ := outlines_read
        (fun o ho => ih o ho (he.operand ho) (depth + 1)) (fun o ho => he'.operand ho)
        (fun o => ⟨o.head, outline_head o (depth + 1)⟩) (hclose r) (hclose r')
        (List.cons.inj heq).2
      exact ⟨hnested hoperands, (List.cons.inj hrest).2⟩

/-- Whether a text has no line feed and does not begin with a space. -/
def isClean (text : String) : Bool :=
  '\n' ∉ text.toList && text.toList.head? ≠ some ' '

theorem isClean_iff {text : String} :
    isClean text ↔ '\n' ∉ text.toList ∧ Opens (· ≠ ' ') text.toList := by
  rw [isClean, Bool.and_eq_true, decide_eq_true_eq, decide_eq_true_eq]
  refine and_congr_right fun _ => ⟨?_, ?_⟩
  · rintro h _ hc rfl
    exact h hc
  · exact fun h hspace => h ' ' hspace rfl

theorem newline_not_mem_atom (h : e.hasWordName) : '\n' ∉ e.atom.toList :=
  fun hmem => absurd (isAtomChar_of_mem_atom h _ hmem) (by decide)

theorem newline_not_mem_symbol {symbol : String} (h : e.symbol? = some symbol) :
    '\n' ∉ symbol.toList :=
  fun hmem => absurd (isOperatorChar_of_mem h _ hmem) (by decide)

theorem newline_not_mem_oneLine (e : Expr) : e.HasWordNames → '\n' ∉ e.oneLine.toList := by
  induction e using Expr.operandsInduction with
  | h e ih =>
    intro h
    have hoperands : ∀ o ∈ e.operands, '\n' ∉ o.oneLine.toList := fun o ho => ih o ho (h.operand ho)
    by_cases hleaf : e.isLeaf
    · rw [oneLine_leaf hleaf]
      exact newline_not_mem_atom h.self
    · rcases operator_or_call hleaf with ⟨symbol, hs, -⟩ | ⟨callee, args, rfl⟩
      · simpa [oneLine_operator hs, newline_not_mem_symbol hs] using hoperands
      · have hcallee : '\n' ∉ callee.toList := newline_not_mem_atom h.self
        have hargs : '\n' ∉ [',', ' '].intercalate (args.map fun e => e.oneLine.toList) := by
          intro hmem
          rcases mem_of_mem_intercalate hmem with hmem | ⟨o, ho, hmem⟩
          · exact absurd hmem (by decide)
          · exact hoperands o ho hmem
        rw [oneLine_call]
        simp only [List.mem_append, List.mem_cons, hcallee, hargs, List.not_mem_nil]
        decide

theorem newline_not_mem_head (h : e.Legible) : '\n' ∉ e.head.toList := by
  have hatom := newline_not_mem_atom h.hasWordNames.self
  by_cases hunary : e.isUnary
  · cases e with
    | unary op operand =>
      have hsymbol := newline_not_mem_symbol (e := .unary op operand) rfl
      have hoperand := h.operand (o := operand) (List.mem_singleton.mpr rfl)
      rw [Expr.head, String.toList_append, List.mem_append, not_or]
      refine ⟨hsymbol, ?_⟩
      split
      · exact newline_not_mem_oneLine operand hoperand.hasWordNames
      · decide
    | _ => cases hunary
  · by_cases hflat : e.isFlat
    · rw [head_flat hunary hflat]
      exact newline_not_mem_oneLine e h.hasWordNames
    · rw [head_nested hunary hflat]
      cases hs : e.symbol? with
      | none => simp [hatom]
      | some symbol => simp [hatom, newline_not_mem_symbol hs]

/-- The first characters of outlines are those of atoms and operators. -/
theorem isClean_head (h : e.Legible) : isClean e.head := by
  refine isClean_iff.mpr ⟨newline_not_mem_head h, ?_⟩
  by_cases hunary : e.isUnary
  · have hsigned := (beginsSigned_head h).trans hunary
    rintro _ hc rfl
    rw [beginsSigned, hc] at hsigned
    exact absurd hsigned (by decide)
  · obtain ⟨rest, hrest, hopens⟩ := head_atom hunary
    have hatom := isWordRest_of_mem_atom h.self
    rw [hrest]
    cases htext : e.atom.toList with
    | nil => exact hopens.mono fun c hc => by rw [hc]; decide
    | cons c cs =>
      have hword := hatom c (htext ▸ List.mem_cons_self)
      refine opens_cons.mpr ?_
      rintro rfl
      exact absurd hword (by decide)

theorem isClean_outline (e : Expr) :
    e.Legible → ∀ depth, ∀ l ∈ e.outline depth, isClean l.text := by
  induction e using Expr.operandsInduction with
  | h e ih =>
    intro he depth
    by_cases hflat : e.isFlat
    · rw [outline_flat depth hflat]
      exact List.forall_mem_singleton.mpr (isClean_head he)
    · rw [outline_nested depth hflat]
      refine List.forall_mem_cons.mpr ⟨isClean_head he, List.forall_mem_append.mpr ⟨?_, ?_⟩⟩
      · intro l hl
        obtain ⟨o, ho, hl⟩ := List.mem_flatMap.mp hl
        exact ih o ho (he.operand ho) (depth + 1) l hl
      · have hclose : isClean ")" := by decide
        exact List.forall_mem_singleton.mpr hclose

end Lines

end MiniC
