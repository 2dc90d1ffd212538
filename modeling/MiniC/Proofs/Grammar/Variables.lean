import MiniC.Proofs.Frame
import MiniC.Proofs.Grammar.Recognition
import MiniC.Proofs.Printing.Render
import MiniC.Proofs.Token.Decomposition

/-! Slots follow the source text.

A word of a function body is a variable if it is no keyword and no bracket follows it. Read in this
way, without a parser, the tokens of a body give the variables in the order in which the tree has
them, so the frame of a function can be read off its tokens. -/
namespace MiniC

namespace Token

/-- The tokens that name variables: words that are no keywords and stand before no bracket. -/
def variableTokens : List Token → List Token
  | [] => []
  | t :: ts =>
    if t.kind = .word ∧ t.text ∉ keywords ∧ (texts ts).head? ≠ some "(" then
      t :: variableTokens ts
    else variableTokens ts

/-- The words between the brackets that follow the name in a function definition. -/
def parameterTokens (definition : List Token) : List Token :=
  (definition.tail.takeWhile (·.text ≠ ")")).filter (·.kind = .word)

/-- The tokens between the outermost braces of a function definition. -/
def bodyTokens (definition : List Token) : List Token :=
  (definition.dropWhile (·.text ≠ "\x7b")).tail.dropLast

end Token

/-- The texts that name variables. -/
def variableTexts : List String → List String
  | [] => []
  | text :: texts =>
    if isName text ∧ texts.head? ≠ some "(" then text :: variableTexts texts
    else variableTexts texts

section Texts

variable {text : String} {texts : List String}

theorem variableTexts_cons_of_not_isName (h : isName text = false) :
    variableTexts (text :: texts) = variableTexts texts := by
  simp [variableTexts, h]

theorem variableTexts_called : variableTexts (text :: "(" :: texts) = variableTexts texts := by
  rw [variableTexts, if_neg (by simp), variableTexts_cons_of_not_isName (by decide)]

theorem isName_of_hasBinary {l : Level} {op : BinOp} (h : l.HasBinary text op) :
    isName text = false ∧ text ≠ "(" := by
  cases h <;> decide

theorem isName_of_hasUnary {l : Level} {op : UnOp} (h : l.HasUnary text op) :
    isName text = false := by
  cases h <;> decide

theorem isWord_of_isNumeral {n : Nat} (h : IsNumeral text n) : Token.isWord text = false := by
  obtain ⟨hne, hdigits, -⟩ := h
  unfold Token.isWord
  cases hlist : text.toList with
  | nil => rfl
  | cons c cs =>
    have hc : c.isDigit := hdigits c (by simp [hlist])
    simp [not_isWordStart_of_isDigit hc]

end Texts

section Derivations

theorem Expr.namesOfAll_eq_flatMap (es : List Expr) :
    Expr.namesOfAll es = es.flatMap Expr.names := by
  induction es with
  | nil => rfl
  | cons e es ih => rw [Expr.namesOfAll, ih, List.flatMap_cons]

/-- What arguments name, each of which names what its expression does. -/
theorem variableTexts_intercalate {args : List (List String × Expr)} {rest : List String}
    (h : ∀ arg ∈ args, ∀ rest : List String, rest.head? ≠ some "(" →
      variableTexts (arg.1 ++ rest) = arg.2.names ++ variableTexts rest)
    (hrest : rest.head? ≠ some "(") :
    variableTexts (List.intercalate [","] (args.map Prod.fst) ++ rest) =
      Expr.namesOfAll (args.map Prod.snd) ++ variableTexts rest := by
  induction args with
  | nil => simp [Expr.namesOfAll]
  | cons arg args ih =>
    obtain ⟨harg, hargs⟩ := List.forall_mem_cons.mp h
    cases args with
    | nil => simpa [Expr.namesOfAll] using harg rest hrest
    | cons arg' args =>
      have hlater := ih hargs
      rw [List.map_cons] at hlater
      rw [List.map_cons, List.map_cons, List.intercalate_cons_cons, List.append_assoc,
        List.append_assoc, harg _ (by simp), List.singleton_append,
        variableTexts_cons_of_not_isName (by decide), hlater, List.map_cons (a := arg),
        Expr.namesOfAll, List.append_assoc]

/-- The texts of an expression name its variables, if no bracket follows that would make a call of
the last one. -/
theorem Expr.Derives.variableTexts {l : Level} {ts : List String} {e : Expr}
    (h : Expr.Derives l ts e) (hnames : ∀ name ∈ e.names, name ∉ keywords) {rest : List String}
    (hrest : rest.head? ≠ some "(") :
    MiniC.variableTexts (ts ++ rest) = e.names ++ MiniC.variableTexts rest := by
  induction h generalizing rest with
  | next _ _ ih => exact ih hnames hrest
  | binary hop _ _ _ iha ihb =>
    obtain ⟨ha, hb⟩ := List.forall_mem_append.mp hnames
    obtain ⟨hsymbol, hne⟩ := isName_of_hasBinary hop
    rw [List.append_assoc, iha ha (by simpa using hne), List.cons_append,
      variableTexts_cons_of_not_isName hsymbol, ihb hb hrest, Expr.names, List.append_assoc]
  | assign _ _ iha ihb =>
    obtain ⟨ha, hb⟩ := List.forall_mem_append.mp hnames
    rw [List.append_assoc, iha ha (by simp), List.cons_append,
      variableTexts_cons_of_not_isName (by decide), ihb hb hrest, Expr.names, List.append_assoc]
  | unary hop _ ih =>
    rw [List.cons_append, variableTexts_cons_of_not_isName (isName_of_hasUnary hop)]
    exact ih hnames hrest
  | brackets _ ih =>
    rw [List.cons_append, variableTexts_cons_of_not_isName (by decide), List.append_assoc,
      ih hnames (by simp), List.singleton_append, variableTexts_cons_of_not_isName (by decide)]
  | var hname =>
    have hisName := isName_iff.mpr ⟨hname, hnames _ (List.mem_singleton_self _)⟩
    rw [List.singleton_append, MiniC.variableTexts, if_pos ⟨hisName, hrest⟩]
    rfl
  | num hnumeral _ =>
    rw [List.singleton_append, variableTexts_cons_of_not_isName]
    · rfl
    · rw [isName, isWord_of_isNumeral hnumeral, Bool.false_and]
  | @call name args _ _ _ ih =>
    have hargs : ∀ arg ∈ args, ∀ rest : List String, rest.head? ≠ some "(" →
        MiniC.variableTexts (arg.1 ++ rest) = arg.2.names ++ MiniC.variableTexts rest := by
      intro arg harg rest hrest
      refine ih arg harg (fun name hname => hnames name ?_) hrest
      rw [Expr.names, Expr.namesOfAll_eq_flatMap]
      exact List.mem_flatMap.mpr ⟨arg.2, List.mem_map_of_mem harg, hname⟩
    rw [List.cons_append, List.cons_append, variableTexts_called, List.append_assoc,
      variableTexts_intercalate hargs (by simp), List.singleton_append,
      variableTexts_cons_of_not_isName (by decide)]
    rfl

theorem Expr.DerivesClause.variableTexts {ts : List String} {e : Expr}
    (h : Expr.DerivesClause ts e) (hnames : ∀ name ∈ e.names, name ∉ keywords)
    {rest : List String} (hrest : rest.head? ≠ some "(") :
    MiniC.variableTexts (ts ++ rest) = e.names ++ MiniC.variableTexts rest := by
  cases h with
  | empty => rfl
  | expression h => exact h.variableTexts hnames hrest

theorem variableTexts_heading {word : String} {cond : Expr} {cs rest : List String}
    (h : Expr.Derives .assignment cs cond) (hnames : ∀ name ∈ cond.names, name ∉ keywords) :
    variableTexts (word :: "(" :: (cs ++ ")" :: rest)) = cond.names ++ variableTexts rest := by
  rw [variableTexts_called, h.variableTexts hnames (by simp),
    variableTexts_cons_of_not_isName (by decide)]

mutual

/-- The texts of a statement name its variables, whatever follows. -/
theorem Stmt.Derives.variableTexts {following : Option String} {ts : List String} (s : Stmt)
    (h : Stmt.Derives following ts s) (hnames : ∀ name ∈ s.names, name ∉ keywords)
    (rest : List String) :
    MiniC.variableTexts (ts ++ rest) = s.names ++ MiniC.variableTexts rest := by
  cases h with
  | block h =>
    rw [List.cons_append, variableTexts_cons_of_not_isName (by decide), List.append_assoc,
      Stmt.DerivesAll.variableTexts _ h hnames, List.singleton_append,
      variableTexts_cons_of_not_isName (by decide), Stmt.names]
  | ret h =>
    rw [List.cons_append, variableTexts_cons_of_not_isName (by decide), List.append_assoc,
      h.variableTexts hnames (by simp), List.singleton_append,
      variableTexts_cons_of_not_isName (by decide), Stmt.names]
  | ifThen hcond hbody _ =>
    obtain ⟨hc, hb⟩ := List.forall_mem_append.mp hnames
    simp only [List.cons_append, List.append_assoc]
    rw [variableTexts_heading hcond hc, Stmt.Derives.variableTexts _ hbody hb, Stmt.names,
      List.append_assoc]
  | ifElse hcond hbody hotherwise =>
    obtain ⟨hcb, ho⟩ := List.forall_mem_append.mp hnames
    obtain ⟨hc, hb⟩ := List.forall_mem_append.mp hcb
    simp only [List.cons_append, List.append_assoc]
    rw [variableTexts_heading hcond hc, Stmt.Derives.variableTexts _ hbody hb,
      variableTexts_cons_of_not_isName (by decide), Stmt.Derives.variableTexts _ hotherwise ho,
      Stmt.names, List.append_assoc, List.append_assoc]
  | forLoop hinit hcond hstep hbody =>
    obtain ⟨hics, hb⟩ := List.forall_mem_append.mp hnames
    obtain ⟨hic, hs⟩ := List.forall_mem_append.mp hics
    obtain ⟨hi, hc⟩ := List.forall_mem_append.mp hic
    simp only [List.cons_append, List.append_assoc]
    rw [variableTexts_called, hinit.variableTexts hi (by simp),
      variableTexts_cons_of_not_isName (by decide), hcond.variableTexts hc (by simp),
      variableTexts_cons_of_not_isName (by decide), hstep.variableTexts hs (by simp),
      variableTexts_cons_of_not_isName (by decide), Stmt.Derives.variableTexts _ hbody hb]
    simp only [Stmt.names, List.append_assoc]
  | whileLoop hcond hbody =>
    obtain ⟨hc, hb⟩ := List.forall_mem_append.mp hnames
    simp only [List.cons_append, List.append_assoc]
    rw [variableTexts_heading hcond hc, Stmt.Derives.variableTexts _ hbody hb, Stmt.names,
      List.append_assoc]
  | expression h _ =>
    rw [List.append_assoc, h.variableTexts hnames (by simp), List.singleton_append,
      variableTexts_cons_of_not_isName (by decide), Stmt.names]

theorem Stmt.DerivesAll.variableTexts {following : Option String} {ts : List String}
    (ss : List Stmt) (h : Stmt.DerivesAll following ts ss)
    (hnames : ∀ name ∈ Stmt.namesOfAll ss, name ∉ keywords) (rest : List String) :
    MiniC.variableTexts (ts ++ rest) = Stmt.namesOfAll ss ++ MiniC.variableTexts rest := by
  cases h with
  | nil => rfl
  | cons hfirst hrest =>
    obtain ⟨hs, hss⟩ := List.forall_mem_append.mp hnames
    rw [List.append_assoc, Stmt.Derives.variableTexts _ hfirst hs,
      Stmt.DerivesAll.variableTexts _ hrest hss, Stmt.namesOfAll, List.append_assoc]

end

end Derivations
section Definitions

/-- The kind of each token is that of its text, as far as words are concerned. -/
def Token.Classified (ts : List Token) : Prop :=
  ∀ t ∈ ts, t.kind = .word ↔ Token.isWord t.text

theorem Token.isWord_of_longest {t : Token} {after : List Char}
    (h : Token.Longest t.kind t.text after) : t.kind = .word ↔ Token.isWord t.text := by
  have hpunctuators : ∀ text ∈ Token.punctuators, Token.isWord text = false := by decide
  cases hkind : t.kind with
  | punctuator =>
    rw [hkind] at h
    simp [hpunctuators _ h.1]
  | number =>
    rw [hkind] at h
    simp [isWord_of_isNumeral ⟨h.1, h.2.1, rfl⟩]
  | word =>
    rw [hkind] at h
    simpa using isIdentifier_iff.mp h.1

theorem Token.classified_of_tokenize {source : String} {tokens : List Token}
    (h : tokenize source = .ok tokens) : Token.Classified tokens := by
  intro t ht
  have hcuts := Token.cutsFrom_of_scanLines (i := 0) (mapError_eq_ok_iff.mp h)
  obtain ⟨-, line, -, -, after, -, -, hlongest⟩ := hcuts.placed t ht
  exact Token.isWord_of_longest hlongest

variable {ts definition : List Token} {f : Function}

theorem Token.texts_variableTokens (h : Token.Classified ts) :
    Token.texts (Token.variableTokens ts) = variableTexts (Token.texts ts) := by
  induction ts with
  | nil => rfl
  | cons t ts ih =>
    obtain ⟨ht, hts⟩ := List.forall_mem_cons.mp h
    have hname : isName t.text ↔ t.kind = .word ∧ t.text ∉ keywords := by
      rw [isName, Bool.and_eq_true, decide_eq_true_eq, ht]
    simp only [Token.variableTokens, Token.texts_cons, variableTexts, hname, and_assoc]
    split
    · rw [Token.texts_cons, ih hts]
    · exact ih hts

theorem forall_mem_intersperse {names : List String} (h : ∀ name ∈ names, IsIdentifier name) :
    ∀ text ∈ names.intersperse ",", IsIdentifier text ∨ text = "," := by
  induction names with
  | nil => simp
  | cons name names ih =>
    obtain ⟨hname, hnames⟩ := List.forall_mem_cons.mp h
    cases names with
    | nil => simpa using Or.inl hname
    | cons name' names =>
      rw [List.intersperse_cons_cons]
      exact List.forall_mem_cons.mpr
        ⟨.inl hname, List.forall_mem_cons.mpr ⟨.inr rfl, ih hnames⟩⟩

theorem filter_isWord_intersperse {names : List String} (h : ∀ name ∈ names, IsIdentifier name) :
    (names.intersperse ",").filter Token.isWord = names := by
  have hcomma : Token.isWord "," = false := by decide
  induction names with
  | nil => rfl
  | cons name names ih =>
    obtain ⟨hname, hnames⟩ := List.forall_mem_cons.mp h
    have hword := isIdentifier_iff.mp hname
    cases names with
    | nil => simp [hword]
    | cons name' names =>
      rw [List.intersperse_cons_cons, List.filter_cons_of_pos hword,
        List.filter_cons_of_neg (by simp [hcomma]), ih hnames]

theorem ne_of_isIdentifier_or {text symbol : String} (h : IsIdentifier text ∨ text = ",")
    (hsymbol : Token.isWord symbol = false) (hne : symbol ≠ ",") : text ≠ symbol := by
  rintro rfl
  rcases h with h | rfl
  · rw [isIdentifier_iff, hsymbol] at h
    cases h
  · exact hne rfl

/-- The words between the first brackets of a definition are its parameters. -/
theorem Function.Derives.texts_parameterTokens (h : Function.Derives (Token.texts definition) f)
    (hclass : Token.Classified definition) :
    Token.texts (Token.parameterTokens definition) = f.params := by
  have htexts : Token.texts (Token.parameterTokens definition) =
      ((Token.texts definition).tail.takeWhile (· ≠ ")")).filter Token.isWord := by
    unfold Token.texts Token.parameterTokens
    rw [← List.map_tail, List.takeWhile_map, List.filter_map]
    refine congrArg (List.map Token.text) (List.filter_congr fun t ht => ?_)
    have hmem := List.mem_of_mem_tail ((List.takeWhile_prefix _).subset ht)
    simp [hclass t hmem]
  rw [htexts]
  generalize Token.texts definition = texts at h
  cases h with
  | @mk name params body _ _ hparams _ _ =>
    have hwords : ∀ text ∈ params.intersperse ",", decide (text ≠ ")") := fun text htext =>
      decide_eq_true
        (ne_of_isIdentifier_or (forall_mem_intersperse hparams text htext) (by decide) (by decide))
    rw [List.tail_cons, List.takeWhile_cons_of_pos (by decide), List.takeWhile_append_of_pos hwords,
      List.takeWhile_cons_of_neg (by decide), List.append_nil,
      List.filter_cons_of_neg (by decide), filter_isWord_intersperse hparams]

/-- The texts between the outermost braces of a definition derive its body. -/
theorem Function.Derives.bodyTokens (h : Function.Derives (Token.texts definition) f) :
    Stmt.DerivesAll (some "\x7d") (Token.texts (Token.bodyTokens definition)) f.body := by
  have htexts : Token.texts (Token.bodyTokens definition) =
      ((Token.texts definition).dropWhile (· ≠ "\x7b")).tail.dropLast := by
    unfold Token.texts Token.bodyTokens
    rw [List.dropWhile_map, ← List.map_tail, ← List.map_dropLast]
    rfl
  rw [htexts]
  generalize Token.texts definition = texts at h
  cases h with
  | @mk name params body _ hname hparams _ hbody =>
    have hwords : ∀ text ∈ params.intersperse ",", decide (text ≠ "\x7b") := fun text htext =>
      decide_eq_true
        (ne_of_isIdentifier_or (forall_mem_intersperse hparams text htext) (by decide) (by decide))
    have hbrace : decide (name ≠ "\x7b") :=
      decide_eq_true (ne_of_isIdentifier_or (.inl hname) (by decide) (by decide))
    rw [List.dropWhile_cons_of_pos (by exact hbrace), List.dropWhile_cons_of_pos (by decide),
      List.dropWhile_append_of_pos hwords, List.dropWhile_cons_of_pos (by decide),
      List.dropWhile_cons_of_neg (by decide), List.tail_cons, List.dropLast_concat]
    exact hbody

/-- The tokens of a program are those of its definitions, one after the other. -/
theorem exists_definitions {tokens : List Token} {p : Program}
    (h : Function.DerivesAll (Token.texts tokens) p) :
    ∃ definitions : List (List Token), definitions.flatten = tokens ∧
      List.Forall₂ (fun definition f => Function.Derives (Token.texts definition) f)
        definitions p := by
  generalize htexts : Token.texts tokens = texts at h
  induction h generalizing tokens with
  | nil =>
    obtain rfl := List.map_eq_nil_iff.mp htexts
    exact ⟨[], rfl, .nil⟩
  | cons hf _ ih =>
    obtain ⟨definition, rest, rfl, hdefinition, hrest⟩ := List.map_eq_append_iff.mp htexts
    obtain ⟨definitions, rfl, hall⟩ := ih hrest
    refine ⟨definition :: definitions, rfl, .cons ?_ hall⟩
    rwa [Token.texts, hdefinition]

end Definitions

/-- A frame has the parameters of a definition and then the variables of its body, each at its first
occurrence, one word after the other. -/
structure Frame.Follows (frame : Frame) (definition : List Token) : Prop where
  names : frame.names.toList = (Token.texts (Token.parameterTokens definition ++
    Token.variableTokens (Token.bodyTokens definition))).eraseDups
  offsets : ∀ (i : Nat) (name : String), frame.names[i]? = some name →
    frame.offset? name = some (8 * (i + 1))

theorem Function.Derives.frame_follows {definition : List Token} {f : Function}
    (h : Function.Derives (Token.texts definition) f) (hclass : Token.Classified definition)
    (hnames : ∀ name ∈ Stmt.namesOfAll f.body, name ∉ keywords) : f.frame.Follows definition := by
  have hbody : Token.Classified (Token.bodyTokens definition) := fun t ht =>
    hclass t ((List.dropWhile_suffix _).subset (List.mem_of_mem_tail (List.mem_of_mem_dropLast ht)))
  have hvariables := Stmt.DerivesAll.variableTexts f.body h.bodyTokens hnames []
  rw [List.append_nil, variableTexts, List.append_nil] at hvariables
  refine ⟨?_, fun i name hi => f.consistent_frame.offset?_of_getElem? hi⟩
  rw [Token.texts_append, h.texts_parameterTokens hclass, Token.texts_variableTokens hbody,
    hvariables]
  exact Frame.toList_names_ofNames f.names

/-- Where no variable is called like a keyword, the frames of a program can be read off its source:
the words of each definition that are parameters or variables have slots in the order in which they
occur first. -/
theorem slots_follow_source {source : String} {tokens : List Token} {p : Program}
    (htokens : tokenize source = .ok tokens)
    (hp : parseTokens source .functions tokens = .ok p)
    (hnames : ∀ f ∈ p, ∀ name ∈ Stmt.namesOfAll f.body, name ∉ keywords) :
    ∃ definitions : List (List Token), definitions.flatten = tokens ∧
      List.Forall₂ (fun definition f =>
        Function.Derives (Token.texts definition) f ∧ f.frame.Follows definition)
        definitions p := by
  have hclass := Token.classified_of_tokenize htokens
  cases derives_of_parse (mapError_eq_ok_iff.mp hp) with
  | functions h =>
    obtain ⟨definitions, rfl, hall⟩ := exists_definitions h
    obtain ⟨hlength, hzip⟩ := List.forall₂_iff_zip.mp hall
    refine ⟨definitions, rfl, List.forall₂_iff_zip.mpr ⟨hlength, fun hmem => ?_⟩⟩
    obtain ⟨hdefinition, hf⟩ := List.of_mem_zip hmem
    exact ⟨hzip hmem, (hzip hmem).frame_follows
      (fun t ht => hclass t (List.mem_flatten.mpr ⟨_, hdefinition, ht⟩)) (hnames _ hf)⟩

def addingSource : String :=
  "add(p, q) \x7b b = p;\n  for (i = 0; i < q; k = b) s = add(i, s); return s;\x7d"

/-- The function of the source above. -/
def adding : Function where
  name := "add"
  params := ["p", "q"]
  body := [
    .expr (.assign (.var "b") (.var "p")),
    .forLoop (.assign (.var "i") (.num 0)) (.binary .lt (.var "i") (.var "q"))
      (.assign (.var "k") (.var "b"))
      (.expr (.assign (.var "s") (.call "add" [.var "i", .var "s"]))),
    .ret (.var "s")]

theorem adding_follows_source :
    ∃ tokens, tokenize addingSource = .ok tokens ∧
      parseTokens addingSource .functions tokens = .ok [adding] ∧
      (∀ f ∈ [adding], ∀ name ∈ Stmt.namesOfAll f.body, name ∉ keywords) ∧
      ∃ definitions : List (List Token), definitions.flatten = tokens ∧
        List.Forall₂ (fun definition f =>
          Function.Derives (Token.texts definition) f ∧ f.frame.Follows definition)
          definitions [adding] := by
  have h : ∃ tokens, tokenize addingSource = .ok tokens ∧
      Token.texts tokens = Program.texts [adding] :=
    ⟨_, by cbv, by cbv⟩
  obtain ⟨tokens, htokens, htexts⟩ := h
  have hderives : Program.Derives .functions (Program.texts [adding]) [adding] :=
    Program.derives_texts (by decide)
  rw [← htexts] at hderives
  have hparse : parseTokens addingSource .functions tokens = .ok [adding] :=
    mapError_eq_ok_iff.mpr (parse_of_derives hderives)
  have hnames : ∀ f ∈ [adding], ∀ name ∈ Stmt.namesOfAll f.body, name ∉ keywords := by decide
  exact ⟨tokens, htokens, hparse, hnames, slots_follow_source htokens hparse hnames⟩

example : adding.frame.names = #["p", "q", "b", "i", "k", "s"] := by decide

end MiniC
