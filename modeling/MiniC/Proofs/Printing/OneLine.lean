import MiniC.Proofs.Code.Emission
import MiniC.Proofs.Printing.Readable
import MiniC.Proofs.Printing.Render
import MiniC.Proofs.Printing.Scanning
import MiniC.Program.OneLine

/-! One-line forms of expressions can be read back.

A number or name ends where a space, a comma or a bracket comes. An operator stands in brackets
with its operands, so that operators with the same symbol differ in the number of operands. -/
namespace MiniC

namespace Expr

/-- The expressions that an expression is made of. -/
def operands : Expr → List Expr
  | .num _ | .var _ => []
  | .unary _ operand => [operand]
  | .binary _ lhs rhs | .assign lhs rhs => [lhs, rhs]
  | .call _ args => args

mutual

/-- What follows for an expression from its operands holds of all expressions. -/
theorem operandsInduction {P : Expr → Prop} (h : ∀ e, (∀ o ∈ e.operands, P o) → P e) :
    ∀ e, P e
  | .num value => h (.num value) (List.forall_mem_nil _)
  | .var name => h (.var name) (List.forall_mem_nil _)
  | .unary op operand => h (.unary op operand) (by
      simpa [operands] using operandsInduction h operand)
  | .binary op lhs rhs => h (.binary op lhs rhs) (by
      simpa [operands] using And.intro (operandsInduction h lhs) (operandsInduction h rhs))
  | .assign lhs rhs => h (.assign lhs rhs) (by
      simpa [operands] using And.intro (operandsInduction h lhs) (operandsInduction h rhs))
  | .call callee args => h (.call callee args) (operandsInductionAll h args)

theorem operandsInductionAll {P : Expr → Prop} (h : ∀ e, (∀ o ∈ e.operands, P o) → P e) :
    ∀ es : List Expr, ∀ e ∈ es, P e
  | [] => List.forall_mem_nil _
  | e :: es => List.forall_mem_cons.mpr ⟨operandsInduction h e, operandsInductionAll h es⟩

end

/-- Whether the name of a variable or callee is an identifier. -/
def hasWordName : Expr → Bool
  | .var name => Token.isWord name
  | .call callee _ => Token.isWord callee
  | _ => true

/-- All names in an expression are identifiers. -/
def HasWordNames (e : Expr) : Prop :=
  ∀ x ∈ e.emitted, x.hasWordName

theorem mem_emittedOfAll_iff {x : Expr} {es : List Expr} :
    x ∈ emittedOfAll es ↔ ∃ e ∈ es, x ∈ e.emitted := by
  induction es with
  | nil => simp [emittedOfAll]
  | cons e es ih => simp [emittedOfAll, ih, or_comm]

theorem mem_emitted_iff {x e : Expr} :
    x ∈ e.emitted ↔ x = e ∨ ∃ o ∈ e.operands, x ∈ o.emitted := by
  cases e with
  | call callee args => rw [emitted, List.mem_cons, mem_emittedOfAll_iff, operands]
  | _ => simp [emitted, operands]

theorem HasWordNames.operand {o e : Expr} (h : e.HasWordNames) (ho : o ∈ e.operands) :
    o.HasWordNames :=
  fun x hx => h x (mem_emitted_iff.mpr (.inr ⟨o, ho, hx⟩))

theorem HasWordNames.self {e : Expr} (h : e.HasWordNames) : e.hasWordName :=
  h e (mem_emitted_iff.mpr (.inl rfl))

end Expr

section Leaves

/-- Characters of numbers and names. -/
def isAtomChar (c : Char) : Bool :=
  Token.isWordRest c || c = '-'

theorem isAtomChar_of_mem_word {name : String} (h : Token.isWord name) :
    ∀ c ∈ name.toList, isAtomChar c :=
  fun c hc => by simp [isAtomChar, Token.isWordRest_of_mem h c hc]

theorem isAtomChar_of_mem_toDigits (n : Nat) : ∀ c ∈ Nat.toDigits 10 n, isAtomChar c := by
  intro c hc
  have hdigit := Nat.isDigit_of_mem_toDigits (by decide) le_rfl hc
  simp [isAtomChar, Token.isWordRest_of_isDigit hdigit]

/-- A number begins with a sign or a digit. -/
theorem repr_shape (i : Int) : ∃ c cs, i.repr.toList = c :: cs ∧ (c = '-' ∨ c.isDigit) ∧
    ∀ d ∈ c :: cs, isAtomChar d := by
  cases i with
  | ofNat n =>
    rw [Int.repr, Nat.toList_repr]
    obtain ⟨c, cs, hcs⟩ := List.exists_cons_of_ne_nil (Nat.toDigits_ne_nil (b := 10) (n := n))
    have hmem : c ∈ Nat.toDigits 10 n := hcs ▸ List.mem_cons_self
    have hdigit : c.isDigit := Nat.isDigit_of_mem_toDigits (by decide) le_rfl hmem
    exact ⟨c, cs, hcs, .inr hdigit, hcs ▸ isAtomChar_of_mem_toDigits n⟩
  | negSucc n =>
    rw [Int.repr, String.toList_append, Nat.toList_repr]
    exact ⟨'-', _, rfl, .inl rfl,
      List.forall_mem_cons.mpr ⟨by decide, isAtomChar_of_mem_toDigits (n + 1)⟩⟩

variable {e e' : Expr}

theorem leaf_shape (hleaf : e.isLeaf) (h : e.hasWordName) :
    e.oneLine.toList ≠ [] ∧ ∀ c ∈ e.oneLine.toList, isAtomChar c := by
  cases e with
  | num value =>
    obtain ⟨c, cs, hcs, -, hall⟩ := repr_shape value.toInt
    have hline : (Expr.num value).oneLine.toList = c :: cs := hcs
    rw [hline]
    exact ⟨List.cons_ne_nil c cs, hall⟩
  | var name =>
    obtain ⟨c, cs, hcs, -⟩ := Token.exists_wordStart h
    have hline : (Expr.var name).oneLine.toList = c :: cs := hcs
    refine ⟨hline ▸ List.cons_ne_nil c cs, isAtomChar_of_mem_word h⟩
  | _ => cases hleaf

/-- No number is an identifier. -/
theorem num_ne_word {i : Int} {name : String} (h : Token.isWord name) :
    i.repr.toList ≠ name.toList := by
  obtain ⟨c, cs, hcs, hstart, -⟩ := repr_shape i
  obtain ⟨d, ds, hds, hword, -⟩ := Token.exists_wordStart h
  rw [hcs, hds]
  intro heq
  obtain ⟨rfl, -⟩ := List.cons.inj heq
  rcases hstart with rfl | hdigit
  · exact absurd hword (by decide)
  · exact Bool.false_ne_true ((Token.not_isDigit_of_isWordStart hword).symm.trans hdigit)

theorem leaf_inj (hleaf : e.isLeaf) (hleaf' : e'.isLeaf) (h : e.hasWordName) (h' : e'.hasWordName)
    (heq : e.oneLine.toList = e'.oneLine.toList) : e = e' := by
  cases e with
  | num value =>
    cases e' with
    | num value' =>
      have hvalue := Int.repr_inj.mp (String.toList_inj.mp heq)
      rw [Int64.toInt_inj.mp hvalue]
    | var name => exact absurd heq (num_ne_word h')
    | _ => cases hleaf'
  | var name =>
    cases e' with
    | num value => exact absurd heq.symm (num_ne_word h)
    | var name' =>
      rw [Expr.oneLine, Expr.oneLine] at heq
      rw [String.toList_inj.mp heq]
    | _ => cases hleaf'
  | _ => cases hleaf

end Leaves

section Operators

/-- The symbol of an operator. -/
def Expr.symbol? : Expr → Option String
  | .unary op _ => some op.symbol
  | .binary op _ _ => some op.symbol
  | .assign _ _ => some "="
  | _ => none

/-- Characters of the symbols of operators. -/
def isOperatorChar (c : Char) : Bool :=
  c ∈ ['+', '-', '*', '/', '=', '!', '<', '>', '&']

variable {e e' : Expr} {symbol : String}

theorem UnOp.symbol_injective : Function.Injective UnOp.symbol := by
  intro a b h
  cases a <;> cases b <;> first | rfl | exact absurd h (by decide)

theorem BinOp.symbol_injective : Function.Injective BinOp.symbol := by
  intro a b h
  cases a <;> cases b <;> first | rfl | exact absurd h (by decide)

theorem BinOp.symbol_ne_assign (op : BinOp) : op.symbol ≠ "=" := by
  cases op <;> decide

/-- An operator is given by its symbol and its operands. -/
theorem operator_inj (h : e.symbol? = some symbol) (h' : e'.symbol? = some symbol)
    (hoperands : e.operands = e'.operands) : e = e' := by
  have hsymbol := h.trans h'.symm
  cases e with
  | unary op operand =>
    cases e' with
    | unary op' operand' =>
      obtain rfl := UnOp.symbol_injective (Option.some.inj hsymbol)
      rw [List.singleton_inj.mp hoperands]
    | binary op' lhs' rhs' | assign lhs' rhs' => cases hoperands
    | _ => cases h'
  | binary op lhs rhs =>
    cases e' with
    | unary op' operand' => cases hoperands
    | binary op' lhs' rhs' =>
      obtain rfl := BinOp.symbol_injective (Option.some.inj hsymbol)
      cases hoperands
      rfl
    | assign lhs' rhs' => exact absurd (Option.some.inj hsymbol) op.symbol_ne_assign
    | _ => cases h'
  | assign lhs rhs =>
    cases e' with
    | unary op' operand' => cases hoperands
    | binary op' lhs' rhs' => exact absurd (Option.some.inj hsymbol).symm op'.symbol_ne_assign
    | assign lhs' rhs' =>
      cases hoperands
      rfl
    | _ => cases h'
  | _ => cases h

/-- Operators stand in brackets with their operands. -/
theorem oneLine_operator (h : e.symbol? = some symbol) :
    e.oneLine.toList = '(' ::
      (symbol.toList ++ (e.operands.flatMap (fun o => ' ' :: o.oneLine.toList) ++ [')'])) := by
  cases e with
  | unary op operand | binary op lhs rhs | assign lhs rhs =>
    obtain rfl := Option.some.inj h
    simp [Expr.oneLine, Expr.operands]
  | _ => cases h

theorem oneLine_call (callee : String) (args : List Expr) :
    (Expr.call callee args).oneLine.toList =
      callee.toList ++ '(' ::
        ([',', ' '].intercalate (args.map fun e => e.oneLine.toList) ++ [')']) := by
  have hlines : Expr.oneLines args = args.map Expr.oneLine := by
    induction args with
    | nil => rfl
    | cons e es ih => rw [Expr.oneLines, ih, List.map_cons]
  simp [Expr.oneLine, hlines, Function.comp_def]

theorem isOperatorChar_of_mem (h : e.symbol? = some symbol) :
    ∀ c ∈ symbol.toList, isOperatorChar c := by
  rw [← List.all_eq_true]
  cases e with
  | unary op operand =>
    obtain rfl := Option.some.inj h
    cases op <;> decide
  | binary op lhs rhs =>
    obtain rfl := Option.some.inj h
    cases op <;> decide
  | assign lhs rhs =>
    obtain rfl := Option.some.inj h
    decide
  | _ => cases h

end Operators

section Reading

variable {e e' : Expr} {r r' : List Char}

/-- What comes after an expression within a one-line form. -/
def IsBreak (c : Char) : Prop :=
  c = ' ' ∨ c = ',' ∨ c = ')'

/-- What an expression is written as within a one-line form tells which expression it is. -/
def Expr.OneLineReads (e : Expr) : Prop :=
  Reads (fun e => e.oneLine.toList) Expr.HasWordNames IsBreak e

theorem operator_reads {symbol symbol' : String} (h : e.symbol? = some symbol)
    (h' : e'.symbol? = some symbol') (hoperands : ∀ o ∈ e.operands, o.OneLineReads)
    (he' : e'.HasWordNames) (heq : e.oneLine.toList ++ r = e'.oneLine.toList ++ r') :
    e = e' ∧ r = r' := by
  have hends {es : List Expr} {l : List Char} :
      Opens (fun c => isOperatorChar c = false)
        (es.flatMap (fun o => ' ' :: o.oneLine.toList) ++ ')' :: l) := by
    cases es with
    | nil => exact opens_cons.mpr rfl
    | cons e es => exact opens_cons.mpr rfl
  simp only [oneLine_operator h, oneLine_operator h', List.cons_append, List.append_assoc,
    List.nil_append] at heq
  obtain ⟨htext, hrest⟩ := append_inj_of_boundary (isOperatorChar_of_mem h)
    (isOperatorChar_of_mem h') hends hends (List.cons.inj heq).2
  obtain rfl := String.toList_inj.mp htext
  obtain ⟨hlist, hclose⟩ := flatMap_reads (· = ' ')
    (fun o ho => (hoperands o ho).cons ' ') (fun o ho => he'.operand ho)
    (fun o => ⟨' ', _, rfl, rfl⟩) (by rintro _ rfl; exact .inl rfl)
    (opens_cons.mpr ⟨.inr (.inr rfl), by decide⟩) (opens_cons.mpr ⟨.inr (.inr rfl), by decide⟩)
    hrest
  exact ⟨operator_inj h h' hlist, (List.cons.inj hclose).2⟩

/-- The number or name that a one-line form begins with. -/
def Expr.atom : Expr → String
  | .num value => toString value.toInt
  | .var name => name
  | .call callee _ => callee
  | _ => ""

theorem isAtomChar_of_mem_atom (h : e.hasWordName) : ∀ c ∈ e.atom.toList, isAtomChar c := by
  cases e with
  | num value => exact (leaf_shape (e := .num value) rfl rfl).2
  | var name => exact isAtomChar_of_mem_word h
  | call callee args => exact isAtomChar_of_mem_word h
  | _ => exact List.forall_mem_nil _

theorem oneLine_leaf (h : e.isLeaf) : e.oneLine = e.atom := by
  cases e with
  | num value | var name => rw [Expr.oneLine, Expr.atom]
  | _ => cases h

/-- A form that is no leaf has a bracket after its atom. -/
theorem oneLine_bracket (h : ¬ e.isLeaf) :
    ∃ more, e.oneLine.toList = e.atom.toList ++ '(' :: more := by
  cases e with
  | num value | var name => exact absurd rfl h
  | call callee args => exact ⟨_, oneLine_call callee args⟩
  | _ => exact ⟨_, oneLine_operator rfl⟩

theorem oneLine_head (h : e.hasWordName) :
    ∃ c cs, e.oneLine.toList = c :: cs ∧ (isAtomChar c ∨ c = '(') := by
  by_cases hleaf : e.isLeaf
  · obtain ⟨hne, hall⟩ := leaf_shape hleaf h
    obtain ⟨c, cs, hcs⟩ := List.exists_cons_of_ne_nil hne
    exact ⟨c, cs, hcs, .inl (hall c (hcs ▸ List.mem_cons_self))⟩
  · obtain ⟨more, hmore⟩ := oneLine_bracket hleaf
    rw [hmore]
    cases hatom : e.atom.toList with
    | nil => exact ⟨'(', more, rfl, .inr rfl⟩
    | cons c cs =>
      exact ⟨c, _, rfl, .inl (isAtomChar_of_mem_atom h c (hatom ▸ List.mem_cons_self))⟩

theorem ne_of_isBreak {c : Char} (h : IsBreak c) : isAtomChar c = false ∧ c ≠ '(' := by
  rcases h with rfl | rfl | rfl <;> decide

/-- After an atom comes a bracket, or else what follows a leaf. -/
theorem exists_rest_of_atom (e : Expr) (hr : Opens IsBreak r) :
    ∃ rest, e.oneLine.toList ++ r = e.atom.toList ++ rest ∧
      Opens (fun c => isAtomChar c = false) rest ∧ (e.isLeaf ↔ Opens (· ≠ '(') rest) ∧
      (e.isLeaf → rest = r) := by
  by_cases hleaf : e.isLeaf
  · have hopens : Opens (· ≠ '(') r := hr.mono fun _ hc => (ne_of_isBreak hc).2
    exact ⟨r, by rw [oneLine_leaf hleaf], hr.mono fun _ hc => (ne_of_isBreak hc).1,
      iff_of_true hleaf hopens, fun _ => rfl⟩
  · obtain ⟨more, hmore⟩ := oneLine_bracket hleaf
    have hnot : ¬ Opens (· ≠ '(') ('(' :: (more ++ r)) := fun h => opens_cons.mp h rfl
    exact ⟨'(' :: (more ++ r), by rw [hmore, List.append_assoc]; rfl,
      opens_cons.mpr (by decide), iff_of_false hleaf hnot, fun h => absurd h hleaf⟩

theorem atom_reads (h : e.hasWordName) (h' : e'.hasWordName) (hr : Opens IsBreak r)
    (hr' : Opens IsBreak r') (heq : e.oneLine.toList ++ r = e'.oneLine.toList ++ r') :
    e.atom = e'.atom ∧ (e.isLeaf ↔ e'.isLeaf) ∧ (e.isLeaf → r = r') := by
  obtain ⟨rest, htext, hrest, hleaf, hsame⟩ := exists_rest_of_atom e hr
  obtain ⟨rest', htext', hrest', hleaf', hsame'⟩ := exists_rest_of_atom e' hr'
  rw [htext, htext'] at heq
  obtain ⟨hatom, rfl⟩ := append_inj_of_boundary (isAtomChar_of_mem_atom h)
    (isAtomChar_of_mem_atom h') hrest hrest' heq
  have hiff : e.isLeaf ↔ e'.isLeaf := hleaf.trans hleaf'.symm
  exact ⟨String.toList_inj.mp hatom, hiff, fun h => (hsame h).symm.trans (hsame' (hiff.mp h))⟩

theorem call_reads {callee : String} {args args' : List Expr}
    (hargs : ∀ o ∈ args, o.OneLineReads) (h : (Expr.call callee args).HasWordNames)
    (h' : (Expr.call callee args').HasWordNames)
    (heq : (Expr.call callee args).oneLine.toList ++ r =
      (Expr.call callee args').oneLine.toList ++ r') : args = args' ∧ r = r' := by
  simp only [oneLine_call, List.append_assoc, List.cons_append, List.nil_append] at heq
  have hinner := (List.cons.inj (List.append_cancel_left heq)).2
  have hstarts : ∀ o : Expr, o.HasWordNames → ∃ c cs, o.oneLine.toList = c :: cs ∧ c ≠ ')' := by
    intro o ho
    obtain ⟨c, cs, hcs, hc⟩ := oneLine_head ho.self
    refine ⟨c, cs, hcs, ?_⟩
    rintro rfl
    exact absurd hc (by decide)
  exact separated_reads hargs (fun o ho => h.operand ho) (fun o ho => h'.operand ho) hstarts
    (.inr (.inl rfl)) (.inr (.inr rfl)) hinner

theorem operator_or_call (h : ¬ e.isLeaf) :
    (∃ symbol, e.symbol? = some symbol ∧ e.atom = "") ∨ ∃ callee args, e = .call callee args := by
  cases e with
  | num value | var name => exact absurd rfl h
  | call callee args => exact .inr ⟨callee, args, rfl⟩
  | _ => exact .inl ⟨_, rfl, rfl⟩

/-- Operators have their bracket first, and calls have a name before it. -/
theorem operators_or_calls (hleaf : ¬ e.isLeaf) (hleaf' : ¬ e'.isLeaf) (h : e.hasWordName)
    (h' : e'.hasWordName) (hatom : e.atom = e'.atom) :
    (∃ symbol symbol', e.symbol? = some symbol ∧ e'.symbol? = some symbol') ∨
      ∃ callee args args', e = .call callee args ∧ e' = .call callee args' := by
  have hempty : ¬ Token.isWord "" := by decide
  rcases operator_or_call hleaf with ⟨symbol, hs, ha⟩ | ⟨callee, args, rfl⟩ <;>
    rcases operator_or_call hleaf' with ⟨symbol', hs', ha'⟩ | ⟨callee', args', rfl⟩
  · exact .inl ⟨symbol, symbol', hs, hs'⟩
  · obtain rfl : callee' = "" := hatom.symm.trans ha
    exact absurd h' hempty
  · obtain rfl : callee = "" := hatom.trans ha'
    exact absurd h hempty
  · obtain rfl : callee = callee' := hatom
    exact .inr ⟨callee, args, args', rfl, rfl⟩

/-- The one-line form of an expression can be read back wherever it stands. -/
theorem oneLineReads (e : Expr) : e.HasWordNames → e.OneLineReads := by
  induction e using Expr.operandsInduction with
  | h e ih =>
    intro he e' r r' he' hr hr' heq
    have hoperands : ∀ o ∈ e.operands, o.OneLineReads := fun o ho => ih o ho (he.operand ho)
    obtain ⟨hatom, hiff, hsame⟩ := atom_reads he.self he'.self hr hr' heq
    by_cases hleaf : e.isLeaf
    · obtain rfl := hsame hleaf
      exact ⟨leaf_inj hleaf (hiff.mp hleaf) he.self he'.self (List.append_cancel_right heq), rfl⟩
    · rcases operators_or_calls hleaf (mt hiff.mpr hleaf) he.self he'.self hatom with
        ⟨symbol, symbol', hs, hs'⟩ | ⟨callee, args, args', rfl, rfl⟩
      · exact operator_reads hs hs' hoperands he' heq
      · obtain ⟨rfl, rfl⟩ := call_reads hoperands he he' heq
        exact ⟨rfl, rfl⟩

end Reading

end MiniC
