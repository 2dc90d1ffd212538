import MiniC.Compile
import MiniC.Proofs.Code.Hygiene
import MiniC.Proofs.Code.Shift
import MiniC.Proofs.Printing.Scanning

/-! The listing of a program is put together from the listings of its functions.

The labels in the text of a listing are recognized by the point that they begin with, which no
identifier has. So a listing can be renumbered as a text, and renumbering the text agrees with
shifting the labels of its lines. -/
namespace MiniC

theorem exists_stem_eq (place : LabelPlace) : ∃ tail, place.stem.toList = '.' :: tail := by
  cases place <;> exact ⟨_, rfl⟩

section Callees

/-- Whether an instruction that names a function names it by an identifier. -/
def Instr.isNamed : Instr → Bool
  | call callee => Token.isWord callee
  | _ => true

def Line.isNamed : Line → Bool
  | entry function => Token.isWord function
  | instr i => i.isNamed
  | label _ => true

/-- The callees among some expressions are identifiers. -/
def WordCallees (es : List Expr) : Prop :=
  ∀ callee args, .call callee args ∈ es → Token.isWord callee

variable {e : Expr} {es es' : List Expr} {frame : Frame} {before : ConstructCounts}

theorem WordCallees.mono (h : WordCallees es) (hsub : es' ⊆ es) : WordCallees es' :=
  fun callee args hmem => h callee args (hsub hmem)

theorem wordCallees_append :
    WordCallees (es ++ es') ↔ WordCallees es ∧ WordCallees es' := by
  constructor
  · exact fun h => ⟨h.mono (List.subset_append_left _ _), h.mono (List.subset_append_right _ _)⟩
  · rintro ⟨h, h'⟩ callee args hmem
    rcases List.mem_append.mp hmem with hmem | hmem
    · exact h callee args hmem
    · exact h' callee args hmem

theorem WordCallees.tail (h : WordCallees (e :: es)) : WordCallees es :=
  h.mono (List.subset_cons_self e es)

mutual

theorem isNamed_valueCode {pending : Nat} {code : List Instr} (e : Expr)
    (he : WordCallees e.emitted) (h : e.valueCode frame pending = .ok code) :
    code.all Instr.isNamed := by
  cases e with
  | num value =>
    rw [valueCode_num h, literalCode]
    split <;> rfl
  | var name =>
    obtain ⟨slot, hs, rfl⟩ := valueCode_var h
    obtain ⟨offset, -, rfl⟩ := slotCode_eq_ok hs
    rfl
  | unary op operand =>
    cases op with
    | plus => exact isNamed_valueCode operand he.tail (valueCode_plus h)
    | minus =>
      obtain ⟨value, hv, rfl⟩ := valueCode_minus h
      rw [List.all_append, isNamed_valueCode operand he.tail hv]
      rfl
    | address => exact isNamed_addressCode operand he.tail (valueCode_address h)
    | deref =>
      obtain ⟨pointer, hp, rfl⟩ := valueCode_deref h
      rw [List.all_append, isNamed_valueCode operand he.tail hp]
      rfl
  | binary op lhs rhs =>
    obtain ⟨hl, hr⟩ := wordCallees_append.mp he.tail
    obtain ⟨left, right, hleft, hright, rfl⟩ := valueCode_binary h
    rw [List.all_append, List.all_append, isNamed_valueCode lhs hl hleft,
      isNamed_valueCode rhs hr hright]
    cases op <;> rfl
  | assign lhs rhs =>
    obtain ⟨hl, hr⟩ := wordCallees_append.mp he.tail
    obtain ⟨target, value, htarget, hvalue, rfl⟩ := valueCode_assign h
    rw [List.all_append, List.all_append, isNamed_addressCode lhs hl htarget,
      isNamed_valueCode rhs hr hvalue]
    rfl
  | call callee args =>
    have hcallee := he callee args List.mem_cons_self
    obtain ⟨-, values, hv, rfl⟩ := valueCode_call h
    have hcall : (callCode pending callee).all Instr.isNamed := by
      unfold callCode
      split <;> simp [Instr.isNamed, hcallee]
    have hpops : ((argumentRegisters.take args.length).map Instr.pop).all Instr.isNamed := by
      rw [List.all_map]
      exact List.all_eq_true.mpr fun _ _ => rfl
    rw [List.all_append, List.all_append, List.all_append, isNamed_argumentCode args he.tail hv,
      hpops, hcall]
    rfl

theorem isNamed_addressCode {pending : Nat} {refuse : Expr → SemanticError} {code : List Instr}
    (e : Expr) (he : WordCallees e.emitted) (h : e.addressCode frame pending refuse = .ok code) :
    code.all Instr.isNamed := by
  match e with
  | .var name =>
    obtain ⟨offset, -, rfl⟩ := slotCode_eq_ok h
    rfl
  | .unary .deref pointer => exact isNamed_valueCode pointer he.tail h

theorem isNamed_argumentCode {pending : Nat} {code : List Instr} (es : List Expr)
    (hes : WordCallees (Expr.emittedOfAll es))
    (h : Expr.argumentCode frame pending es = .ok code) : code.all Instr.isNamed := by
  cases es with
  | nil =>
    rw [argumentCode_nil h]
    rfl
  | cons e es =>
    obtain ⟨hlater, hfirst⟩ := wordCallees_append.mp hes
    obtain ⟨later, first, hl, hf, rfl⟩ := argumentCode_cons h
    rw [List.all_append, isNamed_argumentCode es hlater hl, isNamed_valueCode e hfirst hf]
    rfl

end

variable {code : List Line}

theorem isNamed_evaluateCode (he : WordCallees e.emitted) (h : evaluateCode frame e = .ok code) :
    code.all Line.isNamed := by
  obtain ⟨value, hv, rfl⟩ := evaluateCode_eq_ok h
  have hvalue : (value.map Line.instr).all Line.isNamed := by
    rw [List.all_map]
    exact isNamed_valueCode e he hv
  rw [List.all_append, hvalue]
  rfl

theorem isNamed_conditionCode {target : Label} (he : WordCallees e.emitted)
    (h : conditionCode frame e target = .ok code) : code.all Line.isNamed := by
  obtain ⟨value, hv, rfl⟩ := conditionCode_eq_ok h
  rw [List.all_append, isNamed_evaluateCode he hv]
  rfl

theorem isNamed_loopLines {first last : Label} {test inner after : List Line}
    (ht : test.all Line.isNamed) (hi : inner.all Line.isNamed) (ha : after.all Line.isNamed) :
    (loopLines first last test inner after).all Line.isNamed := by
  rw [loopLines, List.all_cons, List.all_append, List.all_append, List.all_append, ht, hi, ha]
  rfl

mutual

/-- If the callees of a statement are identifiers, then its code names functions by identifiers
only. -/
theorem isNamed_code {before : ConstructCounts} {code : List Line} (s : Stmt)
    (hs : WordCallees s.emitted) (h : s.code frame before = .ok code) :
    code.all Line.isNamed := by
  cases s with
  | expr e => exact isNamed_evaluateCode hs (code_expr h)
  | ret e =>
    obtain ⟨value, hv, rfl⟩ := code_ret h
    rw [List.all_append, isNamed_evaluateCode hs hv]
    rfl
  | ifThen cond body =>
    obtain ⟨hc, hb⟩ := wordCallees_append.mp hs
    obtain ⟨test, inner, ht, hi, rfl⟩ := code_ifThen h
    rw [List.all_append, List.all_append, isNamed_conditionCode hc ht, isNamed_code body hb hi]
    rfl
  | ifElse cond body otherwise =>
    obtain ⟨hc, hrest⟩ := wordCallees_append.mp hs
    obtain ⟨hb, ho⟩ := wordCallees_append.mp hrest
    obtain ⟨test, inner, other, ht, hi, hother, rfl⟩ := code_ifElse h
    rw [List.all_append, List.all_append, List.all_cons, List.all_cons, List.all_append,
      isNamed_conditionCode hc ht, isNamed_code body hb hi, isNamed_code otherwise ho hother]
    rfl
  | whileLoop cond body =>
    obtain ⟨hc, hb⟩ := wordCallees_append.mp hs
    obtain ⟨test, inner, ht, hi, rfl⟩ := code_whileLoop h
    exact isNamed_loopLines (isNamed_conditionCode hc ht) (isNamed_code body hb hi) rfl
  | forLoop init cond step body =>
    obtain ⟨hinit, hrest⟩ := wordCallees_append.mp hs
    obtain ⟨hc, hrest⟩ := wordCallees_append.mp hrest
    obtain ⟨hb, hstep⟩ := wordCallees_append.mp hrest
    obtain ⟨start, test, inner, after, hstart, ht, hi, ha, rfl⟩ := code_forLoop h
    rw [List.all_append, isNamed_evaluateCode hinit hstart,
      isNamed_loopLines (isNamed_conditionCode hc ht) (isNamed_code body hb hi)
        (isNamed_evaluateCode hstep ha)]
    rfl
  | block body => exact isNamed_codeOfAll body hs (code_block h)

theorem isNamed_codeOfAll {before : ConstructCounts} {code : List Line} (ss : List Stmt)
    (hss : WordCallees (Stmt.emittedOfAll ss)) (h : Stmt.codeOfAll frame before ss = .ok code) :
    code.all Line.isNamed := by
  cases ss with
  | nil =>
    rw [codeOfAll_nil h]
    rfl
  | cons s ss =>
    obtain ⟨hfirst, hrest⟩ := wordCallees_append.mp hss
    obtain ⟨first, rest, hf, hr, rfl⟩ := codeOfAll_cons h
    rw [List.all_append, isNamed_code s hfirst hf, isNamed_codeOfAll ss hrest hr]
    rfl

end

theorem isNamed_spillCode {bindings : List (String × Reg)}
    (h : spillCode frame bindings = .ok code) : code.all Line.isNamed := by
  induction bindings generalizing code with
  | nil =>
    rw [spillCode_nil h]
    rfl
  | cons b rest ih =>
    obtain ⟨param, reg⟩ := b
    obtain ⟨offset, later, -, hl, rfl⟩ := spillCode_cons h
    rw [List.all_cons, ih hl]
    rfl

/-- Functions and callees of a program are named by identifiers. -/
def Program.HasWordFunctionNames (p : Program) : Prop :=
  ∀ f ∈ p, Token.isWord f.name ∧ WordCallees (Stmt.emittedOfAll f.body)

theorem isNamed_function {f : Function} (hname : Token.isWord f.name)
    (hcallees : WordCallees (Stmt.emittedOfAll f.body)) (h : f.code before = .ok code) :
    code.all Line.isNamed := by
  obtain ⟨-, spills, body, hs, hb, rfl⟩ := code_function h
  have hentry : (Line.entry f.name).isNamed := hname
  have hprologue : (prologue f.frame).all Line.isNamed := by
    unfold prologue
    split <;> rfl
  rw [List.all_cons, List.all_append, List.all_append, List.all_append, hentry, hprologue,
    isNamed_spillCode hs, isNamed_codeOfAll f.body hcallees hb]
  rfl

theorem isNamed_codeAfter {p : Program} (hp : p.HasWordFunctionNames)
    (h : Program.codeAfter before p = .ok code) : code.all Line.isNamed := by
  induction p generalizing before code with
  | nil =>
    rw [codeAfter_nil h]
    rfl
  | cons f fs ih =>
    obtain ⟨⟨hname, hcallees⟩, hfs⟩ := List.forall_mem_cons.mp hp
    obtain ⟨first, rest, hf, hr, rfl⟩ := codeAfter_cons h
    rw [List.all_append, isNamed_function hname hcallees hf, ih hfs hr]
    rfl

end Callees

section Numbers

/-- Adding the constructs before a label does not lead past the numbers that labels have. -/
def Label.Fits (earlier : ConstructCounts) (l : Label) : Prop :=
  earlier.of l.place.construct + l.number.toNat < 2 ^ 32

theorem Label.Fits.number_shift {earlier : ConstructCounts} {l : Label} (h : l.Fits earlier) :
    (l.shift earlier).number.toNat = earlier.of l.place.construct + l.number.toNat := by
  have hearlier : earlier.of l.place.construct < 2 ^ 32 := lt_of_le_of_lt (Nat.le_add_right _ _) h
  rw [Label.shift, UInt32.toNat_add, UInt32.toNat_ofNat_of_lt' hearlier]
  exact Nat.mod_eq_of_lt h

/-- All labels that a line defines or jumps to fit. -/
def Line.LabelsFit (earlier : ConstructCounts) (line : Line) : Prop :=
  ∀ l, line.label? = some l ∨ line.target? = some l → l.Fits earlier

theorem targetsOf_subset_codeAfter {before : ConstructCounts} {p : Program} {code : List Line}
    (h : Program.codeAfter before p = .ok code) : targetsOf code ⊆ labelsOf code := by
  induction p generalizing before code with
  | nil =>
    rw [codeAfter_nil h]
    exact List.Subset.refl _
  | cons f fs ih =>
    obtain ⟨first, rest, hf, hr, rfl⟩ := codeAfter_cons h
    rw [targetsOf_append, labelsOf_append]
    exact List.append_subset.mpr
      ⟨List.subset_append_of_subset_left _ (targetsOf_subset_function hf),
        List.subset_append_of_subset_right _ (ih hr)⟩

theorem labelsFit_of_mem_code {earlier : ConstructCounts} {p : Program} {code : List Line}
    {line : Line} (hn : (earlier + p.counts).Numbered) (h : p.code = .ok code)
    (hline : line ∈ code) : line.LabelsFit earlier := by
  have hp : (0 + p.counts).Numbered := fun k => le_trans (by simp) (hn k)
  intro l hl
  have hmem : l ∈ labelsOf code := by
    rcases hl with hl | hl
    · exact List.mem_filterMap.mpr ⟨line, hline, hl⟩
    · exact targetsOf_subset_codeAfter h (List.mem_filterMap.mpr ⟨line, hline, hl⟩)
  have hlast := ((labelsBetween_codeAfter h hp).bounds l hmem).2
  have htotal := hn l.place.construct
  rw [ConstructCounts.zero_add] at hlast
  rw [ConstructCounts.of_add] at htotal
  unfold Label.Fits
  omega

end Numbers

section Texts

def LabelPlace.all : List LabelPlace :=
  [.ifEnd, .elseBegin, .elseEnd, .whileBegin, .whileEnd, .forBegin, .forEnd]

/-- What a label marks whose name begins a text. -/
def LabelPlace.ofText? (text : List Char) : Option LabelPlace :=
  all.find? fun place => place.stem.toList.isPrefixOf text

/-- The text with the number in each name of a label increased by the constructs of its kind. -/
def renumberChars (earlier : ConstructCounts) : List Char → List Char
  | [] => []
  | c :: cs =>
    match LabelPlace.ofText? (c :: cs) with
    | none => c :: renumberChars earlier cs
    | some place =>
      let rest := cs.drop place.stem.toList.tail.length
      let number := Nat.ofDigitChars 10 (rest.takeWhile Char.isDigit) 0
      place.stem.toList ++ (earlier.of place.construct + number).repr.toList ++
        renumberChars earlier (rest.dropWhile Char.isDigit)
termination_by text => text.length
decreasing_by
  · simp
  · have hdrop := (List.dropWhile_sublist Char.isDigit (l := rest)).length_le
    simp only [rest, List.length_drop, List.length_cons] at *
    omega

def renumber (earlier : ConstructCounts) (text : String) : String :=
  .ofList (renumberChars earlier text.toList)

/-- A listing without the two lines that begin it. -/
def listingBody (text : String) : String :=
  .ofList (text.toList.drop listingHeader.length)

variable {earlier : ConstructCounts} {cs rest : List Char}

theorem ofText?_eq_none {c : Char} (hc : c ≠ '.') : LabelPlace.ofText? (c :: cs) = none := by
  refine List.find?_eq_none.mpr fun place _ hprefix => ?_
  obtain ⟨tail, htail⟩ := exists_stem_eq place
  rw [htail] at hprefix
  simp [List.isPrefixOf] at hprefix
  exact hc hprefix.1.symm

theorem ofText?_stem (place : LabelPlace) (rest : List Char) :
    LabelPlace.ofText? (place.stem.toList ++ rest) = some place := by
  cases place <;> rfl

theorem renumberChars_append_of_not_mem (h : '.' ∉ cs) :
    renumberChars earlier (cs ++ rest) = cs ++ renumberChars earlier rest := by
  induction cs with
  | nil => rfl
  | cons c cs ih =>
    obtain ⟨hc, hcs⟩ := List.ne_and_not_mem_of_not_mem_cons h
    rw [List.cons_append, renumberChars, ofText?_eq_none (Ne.symm hc)]
    simp [ih hcs]

theorem renumberChars_name {l : Label} {c : Char} (hfits : l.Fits earlier)
    (hc : c.isDigit = false) :
    renumberChars earlier (l.name.toList ++ c :: rest) =
      (l.shift earlier).name.toList ++ renumberChars earlier (c :: rest) := by
  obtain ⟨tail, htail⟩ := exists_stem_eq l.place
  obtain ⟨-, hdigits, hvalue⟩ := isNumeral_repr l.number.toNat
  have htext : l.name.toList ++ c :: rest =
      '.' :: (tail ++ (l.number.toNat.repr.toList ++ c :: rest)) := by
    simp [Label.name, htail]
  have hplace := ofText?_stem l.place (l.number.toNat.repr.toList ++ c :: rest)
  rw [htail, List.cons_append] at hplace
  have htake : (l.number.toNat.repr.toList ++ c :: rest).takeWhile Char.isDigit =
      l.number.toNat.repr.toList := by
    rw [List.takeWhile_append_of_pos hdigits, List.takeWhile_cons_of_neg (by simp [hc]),
      List.append_nil]
  have hdrop : (l.number.toNat.repr.toList ++ c :: rest).dropWhile Char.isDigit = c :: rest := by
    rw [List.dropWhile_append_of_pos hdigits, List.dropWhile_cons_of_neg (by simp [hc])]
  have hname : (l.shift earlier).name.toList =
      l.place.stem.toList ++ (earlier.of l.place.construct + l.number.toNat).repr.toList := by
    rw [Label.name, hfits.number_shift, String.toList_append]
    rfl
  rw [htext, renumberChars, hplace, hname]
  simp only [htail, List.tail_cons, List.drop_left, htake, hdrop, ← hvalue, List.append_assoc]

theorem point_not_mem_of_isWord {text : String} (h : Token.isWord text) : '.' ∉ text.toList :=
  fun hmem => absurd (Token.isWordRest_of_mem h _ hmem) (by decide)

@[simp] theorem point_not_mem_toDigits (n : Nat) : '.' ∉ Nat.toDigits 10 n :=
  fun hmem => absurd (Nat.isDigit_of_mem_toDigits (by decide) le_rfl hmem) (by decide)

@[simp] theorem point_not_mem_repr (i : Int) : '.' ∉ i.repr.toList := by
  cases i with
  | ofNat n =>
    rw [Int.repr, Nat.toList_repr]
    exact point_not_mem_toDigits n
  | negSucc n =>
    rw [Int.repr, String.toList_append, Nat.toList_repr]
    exact List.not_mem_cons_of_ne_of_not_mem (by decide) (point_not_mem_toDigits (n + 1))

@[simp] theorem point_not_mem_regName (r : Reg) : '.' ∉ r.name.toList := by
  cases r <;> decide

theorem point_not_mem_text {i : Instr} (hnamed : i.isNamed)
    (htarget : (Line.instr i).target? = none) : '.' ∉ i.text.toList := by
  cases i with
  | jmp l | je l => cases htarget
  | call callee =>
    have hcallee : '.' ∉ callee.toList := point_not_mem_of_isWord hnamed
    simp [Instr.text, hcallee]
  | set relation => cases relation <;> decide
  | _ => simp [Instr.text, Instr.binaryText]

/-- A text with the name of one label in it. -/
theorem renumberChars_around {l : Label} {c : Char} (start stop : List Char)
    (hfits : l.Fits earlier) (hstart : '.' ∉ start) (hc : c.isDigit = false)
    (hstop : '.' ∉ c :: stop) :
    renumberChars earlier (start ++ (l.name.toList ++ c :: stop) ++ rest) =
      start ++ ((l.shift earlier).name.toList ++ c :: stop) ++ renumberChars earlier rest := by
  rw [List.append_assoc, renumberChars_append_of_not_mem hstart, List.append_assoc,
    List.cons_append, renumberChars_name hfits hc, ← List.cons_append,
    renumberChars_append_of_not_mem hstop]
  simp only [List.append_assoc]

/-- Renumbering goes through a listing line by line. -/
theorem renumberChars_render {line : Line} (hnamed : line.isNamed)
    (hfits : line.LabelsFit earlier) :
    renumberChars earlier (line.render.toList ++ rest) =
      (line.shift earlier).render.toList ++ renumberChars earlier rest := by
  cases line with
  | entry f =>
    have hpoint : '.' ∉ f.toList := point_not_mem_of_isWord hnamed
    refine renumberChars_append_of_not_mem ?_
    simp [Line.render, hpoint]
  | label l =>
    simpa [Line.render, Line.shift] using
      renumberChars_around [] ['\n'] (c := ':') (hfits l (.inl rfl))
        (by decide) (by decide) (by decide)
  | instr i =>
    cases htarget : (Line.instr i).target? with
    | none =>
      have hshift : i.shift earlier = i := by
        cases i <;> first | rfl | cases htarget
      rw [Line.shift, hshift]
      refine renumberChars_append_of_not_mem ?_
      simp [Line.render, point_not_mem_text hnamed htarget]
    | some l =>
      obtain ⟨mnemonic, hpoint, hi, hshift⟩ : ∃ mnemonic : String, '.' ∉ mnemonic.toList ∧
          i.text = mnemonic ++ l.name ∧
          (i.shift earlier).text = mnemonic ++ (l.shift earlier).name := by
        cases i <;> cases htarget
        · exact ⟨"jmp ", by decide, rfl, rfl⟩
        · exact ⟨"je ", by decide, rfl, rfl⟩
      simpa [Line.render, Line.shift, hi, hshift] using
        renumberChars_around ("  ".toList ++ mnemonic.toList) [] (c := '\n')
          (hfits l (.inr htarget)) (by simp [hpoint]) (by decide) (by decide)

theorem renumberChars_join {code : List Line} (hnamed : code.all Line.isNamed)
    (hfits : ∀ line ∈ code, line.LabelsFit earlier) :
    renumberChars earlier (String.join (code.map Line.render)).toList =
      (String.join ((code.map (Line.shift earlier)).map Line.render)).toList := by
  induction code with
  | nil => rw [List.map_nil, List.map_nil, String.join_nil, String.toList_empty, renumberChars,
      List.map_nil, String.join_nil, String.toList_empty]
  | cons line code ih =>
    rw [List.all_cons, Bool.and_eq_true] at hnamed
    obtain ⟨hline, hcode⟩ := List.forall_mem_cons.mp hfits
    simp only [List.map_cons, String.join_cons, String.toList_append,
      renumberChars_render hnamed.1 hline, ih hnamed.2 hcode]

theorem renumber_listingBody {code : List Line} (hnamed : code.all Line.isNamed)
    (hfits : ∀ line ∈ code, line.LabelsFit earlier) :
    renumber earlier (listingBody (listing code)) =
      String.join ((code.map (Line.shift earlier)).map Line.render) := by
  have hbody : (listingBody (listing code)).toList =
      (String.join (code.map Line.render)).toList := by
    rw [listingBody, listing, String.toList_append, String.toList_ofList]
    exact List.drop_left
  rw [renumber, hbody, renumberChars_join hnamed hfits, String.ofList_toList]

example : renumber ⟨0, 0, 1, 0⟩ "  jmp .Lwhilebegin9\n.Lifend9:\n" =
    "  jmp .Lwhilebegin10\n.Lifend9:\n" := by
  decide +kernel

end Texts

theorem listing_append (a b : List Line) :
    listing (a ++ b) = listing a ++ String.join (b.map Line.render) := by
  rw [listing, listing, List.map_append, String.join_append, String.append_assoc]

/-- The listing of programs one after the other is the listing of the first, then that of the
second without its header and with the numbers of its labels going on where those of the first
end. It fails as the first one fails, or else as the second. -/
theorem assembly_append {p q : Program} (hq : q.HasWordFunctionNames)
    (hn : (p.counts + q.counts).Numbered) :
    Program.assembly (p ++ q) =
      (do return (← p.assembly) ++ renumber p.counts (listingBody (← q.assembly))) := by
  rw [Program.assembly, assemble_append, Program.assembly, Program.assembly]
  cases hp : assemble p with
  | error e => rfl
  | ok cp =>
    cases hcode : assemble q with
    | error e => rfl
    | ok cq =>
      have hcq : q.code = .ok cq := mapError_eq_ok_iff.mp hcode
      have htext := renumber_listingBody (isNamed_codeAfter hq hcq)
        fun line hline => labelsFit_of_mem_code hn hcq hline
      simp only [bind, Except.bind, pure, Except.pure, Except.map, htext, listing_append]

theorem hasWordFunctionNames_descend : Program.HasWordFunctionNames [descend] := by
  have hcallees : WordCallees (Stmt.emittedOfAll descend.body) := by
    intro callee args hmem
    simp [descend, Stmt.emitted, Stmt.emittedOfAll, Expr.emitted, Expr.emittedOfAll] at hmem
    rcases hmem with ⟨rfl, -⟩ | ⟨rfl, -⟩ <;> decide
  intro f hf
  obtain rfl := List.mem_singleton.mp hf
  exact ⟨by decide, hcallees⟩

/-- The loops of two functions are numbered apart. -/
theorem assembly_alternate_descend : ∃ first second,
    Program.assembly [alternate] = .ok first ∧ Program.assembly [descend] = .ok second ∧
    Program.assembly ([alternate] ++ [descend]) =
      .ok (first ++ renumber ⟨0, 1, 1, 1⟩ (listingBody second)) := by
  have hn : (Program.counts [alternate] + Program.counts [descend]).Numbered := by
    intro k
    cases k <;> decide
  exact ⟨_, _, rfl, rfl, assembly_append hasWordFunctionNames_descend hn⟩

end MiniC
