import MiniC.Proofs.Except
import MiniC.Proofs.Grammar.Derivation

/-! What has a derivation is read, up to the first token that cannot continue it. -/
namespace MiniC

/-- Texts that cannot continue an operand of a level. -/
def Level.Stops (l : Level) (text : String) : Prop :=
  text ≠ "(" ∧ (∀ l' : Level, l'.rank < l.rank → l'.binOp? text = none) ∧
    (l = .assignment → text ≠ "=")

/-- Texts that an expression of a level can begin with. -/
def Level.Starts (l : Level) (text : String) : Prop :=
  text = "(" ∨ IsIdentifier text ∨ (∃ n, IsNumeral text n) ∨
    ∃ l' op, l'.rank ≤ l.rank ∧ Level.HasUnary l' text op

variable {l l' : Level} {text : String} {t : Token} {ts rest : List Token} {e : Expr}

theorem stops_of_mem (h : text ∈ [")", ";", ","]) : l.Stops text := by
  simp only [List.mem_cons, List.not_mem_nil, or_false] at h
  rcases h with rfl | rfl | rfl
  all_goals exact ⟨by decide, fun l' _ => by cases l' <;> rfl, fun _ => by decide⟩

theorem stops_equality : Level.Stops .equality "=" :=
  ⟨by decide, fun l' _ => by cases l' <;> rfl, fun h => by cases h⟩

theorem stops_of_hasBinary {op : BinOp} (h : l.HasBinary text op) : l.Stops text := by
  refine ⟨?_, ?_, ?_⟩
  · cases h <;> decide
  · intro l' hrank
    cases h <;> cases l' <;> first | rfl | (simp [Level.rank] at hrank)
  · cases h <;> simp

theorem Level.Stops.tighter (h : l.Stops text) (hn : l.Next l') : l'.Stops text := by
  obtain ⟨hl, rfl⟩ := Level.next_iff.mp hn
  have hrank := Level.rank_tighter_lt hl
  refine ⟨h.1, fun l' hl' => h.2.1 l' (hl'.trans hrank), ?_⟩
  intro hassignment
  cases hn <;> cases hassignment

theorem Level.Starts.of_next (h : l'.Starts text) (hn : l.Next l') : l.Starts text := by
  obtain ⟨hl, rfl⟩ := Level.next_iff.mp hn
  have hrank := Level.rank_tighter_lt hl
  rcases h with h | h | h | ⟨l', op, hl', h⟩
  · exact .inl h
  · exact .inr (.inl h)
  · exact .inr (.inr (.inl h))
  · exact .inr (.inr (.inr ⟨l', op, by omega, h⟩))

theorem IsNumeral.not_isWord {n : Nat} (h : IsNumeral text n) : Token.isWord text = false := by
  obtain ⟨hne, hdigits, -⟩ := h
  unfold Token.isWord
  cases hs : text.toList with
  | nil => rfl
  | cons c cs =>
    have hc := hdigits c (by simp [hs])
    simp [not_isWordStart_of_isDigit hc]

theorem not_isNumeral_of_mem (h : text ∈ ["(", ")", ";", "\x7b", "\x7d"]) {n : Nat} :
    ¬ IsNumeral text n := by
  rintro ⟨-, hdigits, -⟩
  simp only [List.mem_cons, List.not_mem_nil, or_false] at h
  rcases h with rfl | rfl | rfl | rfl | rfl <;> simp at hdigits

theorem Level.Starts.not_mem (h : l.Starts text) : text ∉ [")", ";", "\x7b", "\x7d"] := by
  intro hmem
  rcases h with rfl | h | ⟨n, h⟩ | ⟨l', op, -, h⟩
  · exact absurd hmem (by decide)
  · rw [isIdentifier_iff] at h
    simp only [List.mem_cons, List.not_mem_nil, or_false] at hmem
    rcases hmem with rfl | rfl | rfl | rfl <;> exact absurd h (by decide)
  · exact not_isNumeral_of_mem (List.mem_cons_of_mem _ hmem) h
  · cases h <;> exact absurd hmem (by decide)

/-- The unary operators of a level do not begin tighter expressions. -/
theorem Level.Starts.unOp?_eq_none (h : l'.Starts text) (hn : l.Next l') :
    l.unOp? text = none := by
  have hnone : (∀ op, ¬ l.HasUnary text op) → l.unOp? text = none := fun hnot =>
    Option.eq_none_iff_forall_ne_some.mpr fun op hop => hnot op (Level.hasUnary_iff.mpr hop)
  rcases h with h | h | ⟨n, -, hdigits, -⟩ | ⟨l₁, op₁, hrank, h⟩
  · refine hnone fun op hop => ?_
    cases hop <;> simp at h
  · refine hnone fun op hop => ?_
    rw [isIdentifier_iff] at h
    cases hop <;> exact absurd h (by decide)
  · refine hnone fun op hop => ?_
    cases hop <;> simp at hdigits
  · cases h <;> cases hn <;> first | rfl | (simp [Level.rank] at hrank)

theorem Expr.Derives.starts {used : List String} (h : Expr.Derives l used e) :
    ∃ text us, used = text :: us ∧ l.Starts text := by
  induction h with
  | next hn h ih =>
    obtain ⟨text, us, rfl, hs⟩ := ih
    exact ⟨text, us, rfl, hs.of_next hn⟩
  | binary ho hn ha hb iha ihb =>
    obtain ⟨text, us, rfl, hs⟩ := iha
    exact ⟨text, _, rfl, hs⟩
  | assign ha hb iha ihb =>
    obtain ⟨text, us, rfl, hs⟩ := iha
    exact ⟨text, _, rfl, hs.of_next .assignment⟩
  | unary ho h ih => exact ⟨_, _, rfl, .inr (.inr (.inr ⟨_, _, le_rfl, ho⟩))⟩
  | brackets h ih => exact ⟨_, _, rfl, .inl rfl⟩
  | var h => exact ⟨_, _, rfl, .inr (.inl h)⟩
  | num h _ => exact ⟨_, _, rfl, .inr (.inr (.inl ⟨_, h⟩))⟩
  | call h _ _ _ => exact ⟨_, _, rfl, .inr (.inl h)⟩

theorem readOperators_of_unary (hl : l.binOps = []) (ha : l ≠ .assignment) :
    readOperators l e ts = .ok (e, ts) := by
  apply readOperators_of_stop
  · intro t _
    rw [Level.binOp?, hl]
    rfl
  · intro h
    exact absurd h ha

/-- Nothing is read after an operand of the next level. -/
theorem readOperators_of_stops (hn : l.Next l') (hrest : ∀ t ∈ rest.head?, l.Stops t.text) :
    readOperators l' e rest = .ok (e, rest) := by
  obtain ⟨hl, rfl⟩ := Level.next_iff.mp hn
  apply readOperators_of_stop
  · intro t ht
    exact (hrest t ht).2.1 _ (Level.rank_tighter_lt hl)
  · intro h
    cases hn <;> cases h

theorem readOperators_assignment (hrest : ∀ t ∈ rest.head?, Level.Stops .assignment t.text) :
    readOperators .assignment e rest = .ok (e, rest) :=
  readOperators_of_stop (fun t _ => binOp?_assignment t.text) fun _ t ht => (hrest t ht).2.2 rfl

theorem readNumber_of_isNumeral {n : Nat} (h : IsNumeral t.text n) (hn : n ≤ 2 ^ 63 - 1) :
    readNumber (t :: ts) = .ok (.ofNat n, ts) := by
  obtain ⟨hne, hdigits, rfl⟩ := h
  have hall : t.text.toList.all Char.isDigit := by simpa using hdigits
  simp only [readNumber, Step.number, Step.plain, hall, hne, if_true, if_false]
  rw [if_pos (by exact hn)]
  rfl

theorem readArgumentList_of_forall {args : List (List String × Expr)} {u : Token}
    (hne : args ≠ []) (hu : u.text = ")")
    (hargs : ∀ arg ∈ args, ∀ us rest : List Token, Token.texts us = arg.1 →
      (∀ t ∈ rest.head?, Level.Stops .assignment t.text) →
      readExpr .assignment (us ++ rest) = .ok (arg.2, rest))
    (hts : Token.texts ts = List.intercalate [","] (args.map Prod.fst)) :
    readArgumentList (ts ++ u :: rest) = .ok (args.map Prod.snd, rest) := by
  induction args generalizing ts with
  | nil => exact absurd rfl hne
  | cons arg args ih =>
    have harg := hargs arg List.mem_cons_self
    cases args with
    | nil =>
      have hts' : Token.texts ts = arg.1 := by simpa using hts
      have hclose : ∀ t ∈ (u :: rest).head?, Level.Stops .assignment t.text := by
        simpa [hu] using stops_of_mem (by simp)
      rw [readArgumentList_eq, harg ts (u :: rest) hts' hclose]
      simp [bind, Except.bind, hu, readSymbol_cons_of_eq hu, Except.map]
    | cons arg' args =>
      rw [List.map_cons, List.map_cons, List.intercalate_cons_cons, List.append_assoc] at hts
      obtain ⟨us, vs, rfl, hus, hvs⟩ := List.map_eq_append_iff.mp hts
      obtain ⟨comma, ts', rfl, hcomma, hts'⟩ := List.map_eq_cons_iff.mp hvs
      have hmore := ih (List.cons_ne_nil _ _) (fun a ha => hargs a (List.mem_cons_of_mem _ ha)) hts'
      rw [readArgumentList_eq, List.append_assoc,
        harg us _ hus (by simpa [hcomma] using stops_of_mem (by simp))]
      simp [bind, Except.bind, hcomma, hmore, Except.map]

theorem readArguments_of_forall {args : List (List String × Expr)} {u : Token} (hu : u.text = ")")
    (hderives : ∀ arg ∈ args, Expr.Derives .assignment arg.1 arg.2)
    (hargs : ∀ arg ∈ args, ∀ us rest : List Token, Token.texts us = arg.1 →
      (∀ t ∈ rest.head?, Level.Stops .assignment t.text) →
      readExpr .assignment (us ++ rest) = .ok (arg.2, rest))
    (hts : Token.texts ts = List.intercalate [","] (args.map Prod.fst)) :
    readArguments (ts ++ u :: rest) = .ok (args.map Prod.snd, rest) := by
  cases args with
  | nil =>
    obtain rfl := List.map_eq_nil_iff.mp hts
    exact readArguments_nil hu
  | cons arg args =>
    have hlist : readArgumentList (ts ++ u :: rest) = .ok (_, rest) :=
      readArgumentList_of_forall (List.cons_ne_nil _ _) hu hargs hts
    obtain ⟨text, more, hmore, hs⟩ := (hderives arg List.mem_cons_self).starts
    have hne : ∀ t ∈ (ts ++ u :: rest).head?, t.text ≠ ")" := by
      have hhead : ∃ more', Token.texts ts = text :: more' := by
        cases args <;> simp [hts, hmore]
      obtain ⟨more', hmore'⟩ := hhead
      obtain ⟨t, ts', rfl, rfl, -⟩ := List.map_eq_cons_iff.mp hmore'
      have hnot := hs.not_mem
      simp only [List.mem_cons, not_or] at hnot
      simpa using hnot.1
    rw [readArguments_cons hne, hlist]

theorem readExpr_of_derives {used : List String} (h : Expr.Derives l used e) {ts rest : List Token}
    (hts : Token.texts ts = used) (hrest : ∀ t ∈ rest.head?, l.Stops t.text) :
    readExpr l (ts ++ rest) = readOperators l e rest := by
  induction h generalizing ts rest with
  | @next l l' used e hn h ih =>
    obtain ⟨text, us, rfl, hs⟩ := h.starts
    obtain ⟨t, ts, rfl, rfl, -⟩ := List.map_eq_cons_iff.mp hts
    have hunary := hs.unOp?_eq_none hn
    have hl := (Level.next_iff.mp hn).1
    rw [List.cons_append, readExpr_of_tighter hl (by simpa using hunary),
      ← (Level.next_iff.mp hn).2, ← List.cons_append, ih hts fun t ht => (hrest t ht).tighter hn,
      readOperators_of_stops hn hrest]
    rfl
  | @binary l l' text op as bs a b ho hn ha hb iha ihb =>
    obtain ⟨as', ts', rfl, has, hts'⟩ := List.map_eq_append_iff.mp hts
    obtain ⟨t, bs', rfl, ht, hbs⟩ := List.map_eq_cons_iff.mp hts'
    subst ht
    rw [List.append_assoc, iha has (by simpa using stops_of_hasBinary ho), List.cons_append,
      readOperators_of_binOp (Level.hasBinary_iff.mp ho), ← (Level.next_iff.mp hn).2,
      ihb hbs fun t ht => (hrest t ht).tighter hn, readOperators_of_stops hn hrest]
    rfl
  | @assign as bs a b ha hb iha ihb =>
    obtain ⟨as', ts', rfl, has, hts'⟩ := List.map_eq_append_iff.mp hts
    obtain ⟨t, bs', rfl, ht, hbs⟩ := List.map_eq_cons_iff.mp hts'
    have hstop : readOperators .equality a (t :: (bs' ++ rest)) = .ok (a, t :: (bs' ++ rest)) :=
      readOperators_of_stop (by simp [ht]; rfl) fun h => by cases h
    have hsign : ∀ u ∈ (t :: bs' ++ rest).head?, Level.Stops .equality u.text := by
      simpa [ht] using stops_equality
    rw [List.append_assoc, readExpr_of_tighter (by decide) fun _ _ => rfl]
    change readExpr .equality _ >>= _ = _
    rw [iha has hsign, List.cons_append, hstop]
    change readOperators .assignment a (t :: (bs' ++ rest)) = _
    rw [readOperators_of_assign ht, ihb hbs hrest, readOperators_assignment hrest,
      readOperators_assignment hrest]
    rfl
  | @unary l text op used e ho h ih =>
    have hunary : ∀ e', readOperators l e' rest = .ok (e', rest) := fun e' =>
      readOperators_of_unary (by cases ho <;> rfl) (by cases ho <;> decide)
    obtain ⟨t, ts', rfl, rfl, hts'⟩ := List.map_eq_cons_iff.mp hts
    rw [List.cons_append, readExpr_of_unOp (Level.hasUnary_iff.mp ho), ih hts' hrest, hunary,
      hunary]
    rfl
  | @brackets used e h ih =>
    obtain ⟨t, ts', rfl, ht, hts'⟩ := List.map_eq_cons_iff.mp hts
    obtain ⟨us, vs, rfl, hus, hvs⟩ := List.map_eq_append_iff.mp hts'
    obtain ⟨u, rfl, hu⟩ := List.map_eq_singleton_iff.mp hvs
    have hclose : ∀ v ∈ (u :: rest).head?, Level.Stops .assignment v.text := by
      simpa [hu] using stops_of_mem (by simp)
    rw [List.cons_append, readExpr_bracket ht, List.append_assoc, List.singleton_append,
      ih hus hclose, readOperators_assignment hclose, readOperators_of_unary rfl (by decide)]
    simp [bind, Except.bind, readSymbol_cons_of_eq hu]
    rfl
  | @var name h =>
    obtain ⟨t, rfl, rfl⟩ := List.map_eq_singleton_iff.mp hts
    rw [List.singleton_append, readExpr_var (isIdentifier_iff.mp h) fun u hu => (hrest u hu).1,
      readOperators_of_unary rfl (by decide)]
  | @num text n h hn =>
    obtain ⟨t, rfl, rfl⟩ := List.map_eq_singleton_iff.mp hts
    have hb : t.text ≠ "(" := by
      intro heq
      rw [heq] at h
      exact not_isNumeral_of_mem (by simp) h
    rw [List.singleton_append, readExpr_number (by simpa using hb) (by simpa using h.not_isWord),
      readNumber_of_isNumeral h hn, readOperators_of_unary rfl (by decide)]
    rfl
  | @call name args h hlength hargs ih =>
    obtain ⟨t, ts', rfl, rfl, hts'⟩ := List.map_eq_cons_iff.mp hts
    obtain ⟨u, ts'', rfl, hu, hts''⟩ := List.map_eq_cons_iff.mp hts'
    obtain ⟨us, vs, rfl, hus, hvs⟩ := List.map_eq_append_iff.mp hts''
    obtain ⟨v, rfl, hv⟩ := List.map_eq_singleton_iff.mp hvs
    have hall : readArguments (us ++ v :: rest) = .ok (args.map Prod.snd, rest) := by
      refine readArguments_of_forall hv hargs ?_ hus
      intro arg harg ws rest' hws hrest'
      rw [ih arg harg hws hrest', readOperators_assignment hrest']
    rw [List.cons_append, List.cons_append, readExpr_call (isIdentifier_iff.mp h) hu,
      List.append_assoc, List.singleton_append, hall, readOperators_of_unary rfl (by decide)]
    simp [bind, Except.bind, maxArity, hlength]
    rfl

section Statements

variable {u : Token} {used : List String} {following : Option String} {stop : String} {n : Nat}
  {s : Stmt} {ss : List Stmt}

theorem readTerminated_of_derives (h : Expr.Derives .assignment used e)
    (hts : Token.texts ts = used) (hu : u.text = stop) (hstop : stop ∈ [")", ";", ","]) :
    readTerminated stop (ts ++ u :: rest) = .ok (e, rest) := by
  have hstops : ∀ v ∈ (u :: rest).head?, Level.Stops .assignment v.text := by
    simpa [hu] using stops_of_mem hstop
  rw [readTerminated_eq, readExpr_of_derives h hts hstops, readOperators_assignment hstops]
  simp [bind, Except.bind, readSymbol_cons_of_eq hu]
  rfl

/-- The first token of an expression is not a symbol that ends something. -/
theorem head_of_derives {l : Level} (h : Expr.Derives l used e) (hts : Token.texts ts = used) :
    ∃ t us, ts = t :: us ∧ t.text ∉ [")", ";", "\x7b", "\x7d"] := by
  obtain ⟨text, more, rfl, hs⟩ := h.starts
  obtain ⟨t, us, rfl, rfl, -⟩ := List.map_eq_cons_iff.mp hts
  exact ⟨t, us, rfl, hs.not_mem⟩

theorem readClause_of_derives (h : Expr.DerivesClause used e) (hts : Token.texts ts = used)
    (hu : u.text = stop) (hstop : stop ∈ [")", ";"]) :
    readClause stop (ts ++ u :: rest) = .ok (e, rest) := by
  cases h with
  | empty =>
    obtain rfl := List.map_eq_nil_iff.mp hts
    exact readClause_empty hu
  | expression h =>
    obtain ⟨t, us, rfl, ht⟩ := head_of_derives h hts
    have hne : ∀ v ∈ (t :: us ++ u :: rest).head?, v.text ≠ stop := by
      rintro v hv rfl
      obtain rfl : t = v := by simpa using hv
      simp only [List.mem_cons, List.not_mem_nil, or_false, not_or] at ht hstop
      rcases hstop with hstop | hstop
      · exact ht.1 hstop
      · exact ht.2.1 hstop
    rw [readClause_of_ne hne]
    exact readTerminated_of_derives h hts hu (List.mem_of_mem_dropLast (by simpa using hstop))

theorem readCondition_of_derives (h : Expr.Derives .assignment used e)
    (hts : Token.texts ts = used) (ht : t.text = "(") (hu : u.text = ")") :
    readCondition (t :: (ts ++ u :: rest)) = .ok (e, rest) := by
  rw [readCondition_eq, readSymbol_cons_of_eq ht]
  exact readTerminated_of_derives h hts hu (by simp)

theorem Stmt.Derives.head (h : Stmt.Derives following used s) (hts : Token.texts ts = used) :
    ∃ t us, ts = t :: us ∧ t.text ≠ "\x7d" := by
  have hword : ∀ {text : String} {more : List String}, text ≠ "\x7d" → used = text :: more →
      ∃ t us, ts = t :: us ∧ t.text ≠ "\x7d" := by
    rintro text more hne rfl
    obtain ⟨t, us, rfl, rfl, -⟩ := List.map_eq_cons_iff.mp hts
    exact ⟨t, us, rfl, hne⟩
  cases h with
  | expression h hword =>
    obtain ⟨us, vs, rfl, hus, -⟩ := List.map_eq_append_iff.mp hts
    obtain ⟨t, us', rfl, ht⟩ := head_of_derives h hus
    refine ⟨t, us' ++ vs, rfl, ?_⟩
    intro heq
    simp [heq] at ht
  | _ => exact hword (by decide) rfl

/-- Statements of less than `n` texts are read. -/
def StmtComplete (n : Nat) : Prop :=
  ∀ {following : Option String} {used : List String} {s : Stmt} {ts rest : List Token},
    used.length < n → Stmt.Derives following used s → Token.texts ts = used →
    following = (Token.texts rest).head? → readStmt (ts ++ rest) = .ok (s, rest)

theorem readBlock_of_derives (hn : StmtComplete n) (hlength : used.length < n)
    (h : Stmt.DerivesAll (some "\x7d") used ss) (hts : Token.texts ts = used)
    (hu : u.text = "\x7d") : readBlock (ts ++ u :: rest) = .ok (ss, rest) := by
  induction ss generalizing used ts with
  | nil =>
    cases h
    obtain rfl := List.map_eq_nil_iff.mp hts
    exact readBlock_end hu
  | cons s ss ih =>
    cases h with
    | @cons _ first more _ _ hs hss =>
      rw [List.length_append] at hlength
      obtain ⟨us, vs, rfl, hus, hvs⟩ := List.map_eq_append_iff.mp hts
      have hread : readStmt (us ++ (vs ++ u :: rest)) = .ok (s, vs ++ u :: rest) := by
        refine hn (by omega) hs hus ?_
        change Token.texts vs = more at hvs
        rw [Token.texts_append, hvs, List.head?_append, Token.texts_cons, hu, List.head?_cons]
      obtain ⟨t, us', rfl, ht⟩ := hs.head hus
      rw [List.append_assoc, List.cons_append, readBlock_cons ht, ← List.cons_append, hread]
      simp only [bind, Except.bind, ih (by omega) hss hvs]
      rfl

theorem readStmt_expr_of_derives (h : Expr.Derives .assignment used e)
    (hword : ∀ text ∈ used.head?, text ∉ ["return", "if", "for", "while"])
    (hts : Token.texts ts = used) (hu : u.text = ";") :
    readStmt (ts ++ u :: rest) = .ok (.expr e, rest) := by
  obtain ⟨t, us, rfl, ht⟩ := head_of_derives h hts
  have hopening : ∀ v ∈ (t :: us ++ u :: rest).head?, Opening.ofText? v.text = none := by
    rintro v hv
    obtain rfl : t = v := by simpa using hv
    refine Opening.ofText?_eq_none_iff.mpr ⟨?_, hword _ (by simp [← hts])⟩
    intro heq
    simp [heq] at ht
  rw [readStmt_expr hopening, readTerminated_of_derives h hts hu (by simp)]
  rfl

theorem readStmt_branch_of_derives {cs bs : List String} {c : Expr} {ts : List Token}
    (hn : StmtComplete n) (hlength : bs.length < n) (hc : Expr.Derives .assignment cs c)
    (hs : Stmt.Derives following bs s)
    (hts : Token.texts ts = "if" :: "(" :: (cs ++ ")" :: bs))
    (hfollowing : following = (Token.texts rest).head?) :
    readStmt (ts ++ rest) = (match rest with
      | [] => return (.ifThen c s, [])
      | u :: us =>
        if u.text = "else" then (readStmt us).map fun p => (.ifElse c s p.1, p.2)
        else return (.ifThen c s, u :: us)) := by
  obtain ⟨t, ts₁, rfl, ht, hts₁⟩ := List.map_eq_cons_iff.mp hts
  obtain ⟨v, ts₂, rfl, hv, hts₂⟩ := List.map_eq_cons_iff.mp hts₁
  obtain ⟨cs', ts₃, rfl, hcs, hts₃⟩ := List.map_eq_append_iff.mp hts₂
  obtain ⟨w, bs', rfl, hw, hbs⟩ := List.map_eq_cons_iff.mp hts₃
  have hcond : readCondition (v :: (cs' ++ w :: (bs' ++ rest))) = .ok (c, bs' ++ rest) :=
    readCondition_of_derives hc hcs hv hw
  have hbody := hn hlength hs hbs hfollowing
  have happend : v :: (cs' ++ w :: bs') ++ rest = v :: (cs' ++ w :: (bs' ++ rest)) := by simp
  rw [List.cons_append, readStmt_branch (Opening.ofText?_eq_some_iff.mpr ht), happend, hcond]
  simp only [bind, Except.bind, hbody]
  cases rest <;> rfl

theorem readStmt_forLoop_of_derives {as cs bs ss : List String} {a c b : Expr} {ts : List Token}
    (hn : StmtComplete n) (hlength : ss.length < n) (ha : Expr.DerivesClause as a)
    (hc : Expr.DerivesClause cs c) (hb : Expr.DerivesClause bs b)
    (hs : Stmt.Derives following ss s)
    (hts : Token.texts ts =
      "for" :: "(" :: (as ++ ";" :: (cs ++ ";" :: (bs ++ ")" :: ss))))
    (hfollowing : following = (Token.texts rest).head?) :
    readStmt (ts ++ rest) = .ok (.forLoop a c b s, rest) := by
  obtain ⟨t, ts₁, rfl, ht, hts₁⟩ := List.map_eq_cons_iff.mp hts
  obtain ⟨v, ts₂, rfl, hv, hts₂⟩ := List.map_eq_cons_iff.mp hts₁
  obtain ⟨as', ts₃, rfl, has, hts₃⟩ := List.map_eq_append_iff.mp hts₂
  obtain ⟨u, ts₄, rfl, hu, hts₄⟩ := List.map_eq_cons_iff.mp hts₃
  obtain ⟨cs', ts₅, rfl, hcs, hts₅⟩ := List.map_eq_append_iff.mp hts₄
  obtain ⟨w, ts₆, rfl, hw, hts₆⟩ := List.map_eq_cons_iff.mp hts₅
  obtain ⟨bs', ts₇, rfl, hbs, hts₇⟩ := List.map_eq_append_iff.mp hts₆
  obtain ⟨x, ss', rfl, hx, hss⟩ := List.map_eq_cons_iff.mp hts₇
  have happend : as' ++ u :: (cs' ++ w :: (bs' ++ x :: ss')) ++ rest =
      as' ++ u :: (cs' ++ w :: (bs' ++ x :: (ss' ++ rest))) := by simp
  have hbody := hn hlength hs hss hfollowing
  rw [List.cons_append, List.cons_append, readStmt_forLoop (Opening.ofText?_eq_some_iff.mpr ht),
    readSymbol_cons_of_eq hv, happend]
  simp only [bind, Except.bind, readClause_of_derives ha has hu (by simp),
    readClause_of_derives hc hcs hw (by simp), readClause_of_derives hb hbs hx (by simp), hbody]
  rfl

theorem readStmt_of_derives_step (hn : StmtComplete n) (hlength : used.length ≤ n)
    (h : Stmt.Derives following used s) (hts : Token.texts ts = used)
    (hfollowing : following = (Token.texts rest).head?) :
    readStmt (ts ++ rest) = .ok (s, rest) := by
  cases h with
  | @block _ bs ss hss =>
    obtain ⟨t, ts₁, rfl, ht, hts₁⟩ := List.map_eq_cons_iff.mp hts
    obtain ⟨bs', ts₂, rfl, hbs, hts₂⟩ := List.map_eq_append_iff.mp hts₁
    obtain ⟨u, rfl, hu⟩ := List.map_eq_singleton_iff.mp hts₂
    simp only [List.length_cons, List.length_append] at hlength
    rw [List.cons_append, readStmt_block (Opening.ofText?_eq_some_iff.mpr ht), List.append_assoc,
      List.singleton_append, readBlock_of_derives hn (by omega) hss hbs hu]
    rfl
  | @ret _ es e he =>
    obtain ⟨t, ts₁, rfl, ht, hts₁⟩ := List.map_eq_cons_iff.mp hts
    obtain ⟨es', ts₂, rfl, hes, hts₂⟩ := List.map_eq_append_iff.mp hts₁
    obtain ⟨u, rfl, hu⟩ := List.map_eq_singleton_iff.mp hts₂
    rw [List.cons_append, readStmt_ret (Opening.ofText?_eq_some_iff.mpr ht), List.append_assoc,
      List.singleton_append, readTerminated_of_derives he hes hu (by simp)]
    rfl
  | @ifThen _ cs bs c s hc hs hne =>
    simp only [List.length_cons, List.length_append] at hlength
    rw [readStmt_branch_of_derives hn (by omega) hc hs hts hfollowing]
    cases rest with
    | nil => rfl
    | cons u us =>
      have hu : u.text ≠ "else" := by simpa [hfollowing] using hne
      simp only [hu, if_false]
      rfl
  | @ifElse _ cs bs os c s o hc hs ho =>
    simp only [List.length_cons, List.length_append] at hlength
    have hsplit : "if" :: "(" :: (cs ++ ")" :: (bs ++ "else" :: os)) =
        ("if" :: "(" :: (cs ++ ")" :: bs)) ++ "else" :: os := by simp
    rw [hsplit] at hts
    obtain ⟨ts₁, ts₂, rfl, hts₁, hts₂⟩ := List.map_eq_append_iff.mp hts
    obtain ⟨u, os', rfl, hu, hos⟩ := List.map_eq_cons_iff.mp hts₂
    rw [List.append_assoc, List.cons_append,
      readStmt_branch_of_derives hn (by omega) hc hs hts₁ (by simp [hu])]
    simp only [hu, if_true, hn (by omega) ho hos hfollowing]
    rfl
  | @forLoop _ as cs bs ss a c b s ha hc hb hs =>
    simp only [List.length_cons, List.length_append] at hlength
    exact readStmt_forLoop_of_derives hn (by omega) ha hc hb hs hts hfollowing
  | @whileLoop _ cs bs c s hc hs =>
    simp only [List.length_cons, List.length_append] at hlength
    obtain ⟨t, ts₁, rfl, ht, hts₁⟩ := List.map_eq_cons_iff.mp hts
    obtain ⟨v, ts₂, rfl, hv, hts₂⟩ := List.map_eq_cons_iff.mp hts₁
    obtain ⟨cs', ts₃, rfl, hcs, hts₃⟩ := List.map_eq_append_iff.mp hts₂
    obtain ⟨w, bs', rfl, hw, hbs⟩ := List.map_eq_cons_iff.mp hts₃
    have happend : v :: (cs' ++ w :: bs') ++ rest = v :: (cs' ++ w :: (bs' ++ rest)) := by simp
    have hbody := hn (by omega) hs hbs hfollowing
    rw [List.cons_append, readStmt_whileLoop (Opening.ofText?_eq_some_iff.mpr ht), happend,
      readCondition_of_derives hc hcs hv hw]
    simp only [bind, Except.bind, hbody]
    rfl
  | @expression _ es e he hword =>
    obtain ⟨es', ts₂, rfl, hes, hts₂⟩ := List.map_eq_append_iff.mp hts
    obtain ⟨u, rfl, hu⟩ := List.map_eq_singleton_iff.mp hts₂
    rw [List.append_assoc, List.singleton_append]
    exact readStmt_expr_of_derives he hword hes hu

theorem stmtComplete (n : Nat) : StmtComplete n := by
  induction n with
  | zero =>
    intro following used s ts rest hlength
    exact absurd hlength (Nat.not_lt_zero _)
  | succ n ih =>
    intro following used s ts rest hlength h hts hfollowing
    exact readStmt_of_derives_step ih (Nat.le_of_lt_succ hlength) h hts hfollowing

end Statements

section Programs

theorem many_statement_of_derives {ss : List Stmt}
    (h : Stmt.DerivesAll none (Token.texts ts) ss) : Step.many Step.statement ts = .ok ss := by
  induction ss generalizing ts with
  | nil =>
    generalize hused : Token.texts ts = used at h
    cases h
    obtain rfl := List.map_eq_nil_iff.mp hused
    exact many_nil _
  | cons s ss ih =>
    generalize hused : Token.texts ts = used at h
    cases h with
    | @cons _ first more _ _ hs hss =>
      obtain ⟨us, vs, rfl, hus, rfl⟩ := List.map_eq_append_iff.mp hused
      obtain ⟨t, us', rfl, -⟩ := hs.head hus
      have hread : readStmt (t :: us' ++ vs) = .ok (s, vs) := by
        refine stmtComplete _ (Nat.lt_succ_self _) hs hus ?_
        rw [Option.or_none]
        rfl
      rw [List.cons_append] at hread ⊢
      rw [many_cons]
      change readStmt _ >>= _ = _
      rw [hread]
      simp only [bind, Except.bind, ih hss]
      rfl

theorem readParameterList_of_names {params : List String} {u : Token} (hne : params ≠ [])
    (hnames : ∀ param ∈ params, IsIdentifier param) (hu : u.text = ")")
    (hts : Token.texts ts = params.intersperse ",") :
    readParameterList (ts ++ u :: rest) = .ok (params, rest) := by
  induction params generalizing ts with
  | nil => exact absurd rfl hne
  | cons param params ih =>
    have hname := isIdentifier_iff.mp (hnames param List.mem_cons_self)
    cases params with
    | nil =>
      obtain ⟨t, rfl, rfl⟩ := List.map_eq_singleton_iff.mp hts
      rw [readParameterList_eq, List.singleton_append, readIdentifier_cons_of_isWord hname]
      simp [bind, Except.bind, hu, readSymbol_cons_of_eq hu, Except.map]
    | cons param' params =>
      rw [List.intersperse_cons_cons] at hts
      obtain ⟨t, ts₁, rfl, rfl, hts₁⟩ := List.map_eq_cons_iff.mp hts
      obtain ⟨v, ts₂, rfl, hv, hts₂⟩ := List.map_eq_cons_iff.mp hts₁
      have hmore := ih (List.cons_ne_nil _ _) (fun x hx => hnames x (List.mem_cons_of_mem _ hx))
        hts₂
      rw [readParameterList_eq, List.cons_append, readIdentifier_cons_of_isWord hname]
      simp [bind, Except.bind, hv, hmore, Except.map]

theorem readParameters_of_names {params : List String} {u : Token}
    (hnames : ∀ param ∈ params, IsIdentifier param) (hu : u.text = ")")
    (hts : Token.texts ts = params.intersperse ",") :
    readParameters (ts ++ u :: rest) = .ok (params, rest) := by
  cases params with
  | nil =>
    obtain rfl := List.map_eq_nil_iff.mp hts
    exact readParameters_nil hu
  | cons param params =>
    have hlist : readParameterList (ts ++ u :: rest) = .ok (param :: params, rest) :=
      readParameterList_of_names (List.cons_ne_nil _ _) hnames hu hts
    have hhead : ∃ more, Token.texts ts = param :: more := by
      cases params <;> simp [hts]
    obtain ⟨more, hmore⟩ := hhead
    obtain ⟨t, ts', rfl, ht, -⟩ := List.map_eq_cons_iff.mp hmore
    have hne : t.text ≠ ")" := by
      intro heq
      have hword := isIdentifier_iff.mp (hnames param List.mem_cons_self)
      rw [← ht, heq] at hword
      exact absurd hword (by decide)
    rw [readParameters_cons (by simpa using hne), hlist]

theorem readFunction_of_derives {f : Function} {used : List String}
    (h : Function.Derives used f) (hts : Token.texts ts = used) :
    readFunction (ts ++ rest) = .ok (f, rest) := by
  cases h with
  | @mk name params bs body hname hnames hlength hbody =>
    obtain ⟨t, ts₁, rfl, rfl, hts₁⟩ := List.map_eq_cons_iff.mp hts
    obtain ⟨u, ts₂, rfl, hu, hts₂⟩ := List.map_eq_cons_iff.mp hts₁
    obtain ⟨ps, ts₃, rfl, hps, hts₃⟩ := List.map_eq_append_iff.mp hts₂
    obtain ⟨v, ts₄, rfl, hv, hts₄⟩ := List.map_eq_cons_iff.mp hts₃
    obtain ⟨w, ts₅, rfl, hw, hts₅⟩ := List.map_eq_cons_iff.mp hts₄
    obtain ⟨bs', ts₆, rfl, hbs, hts₆⟩ := List.map_eq_append_iff.mp hts₅
    obtain ⟨x, rfl, hx⟩ := List.map_eq_singleton_iff.mp hts₆
    have happend : ps ++ v :: w :: (bs' ++ [x]) ++ rest =
        ps ++ v :: w :: (bs' ++ x :: rest) := by simp
    have harity : ¬ maxArity < params.length := Nat.not_lt.mpr hlength
    rw [List.cons_append, List.cons_append, readFunction_eq,
      readIdentifier_cons_of_isWord (isIdentifier_iff.mp hname), happend]
    simp only [bind, Except.bind, readSymbol_cons_of_eq hu, readParameters_of_names hnames hv hps,
      harity, if_false, readSymbol_cons_of_eq hw,
      readBlock_of_derives (stmtComplete _) (Nat.lt_succ_self _) hbody hbs hx]
    rfl

theorem many_function_of_derives {fs : List Function}
    (h : Function.DerivesAll (Token.texts ts) fs) : Step.many Step.function ts = .ok fs := by
  induction fs generalizing ts with
  | nil =>
    generalize hused : Token.texts ts = used at h
    cases h
    obtain rfl := List.map_eq_nil_iff.mp hused
    exact many_nil _
  | cons f fs ih =>
    generalize hused : Token.texts ts = used at h
    cases h with
    | @cons first more _ _ hf hfs =>
      obtain ⟨us, vs, rfl, hus, rfl⟩ := List.map_eq_append_iff.mp hused
      have hread : readFunction (us ++ vs) = .ok (f, vs) := readFunction_of_derives hf hus
      obtain ⟨t, us', rfl⟩ : ∃ t us', us = t :: us' := by
        refine List.exists_cons_of_ne_nil ?_
        rintro rfl
        exact hf.ne_nil hus.symm
      rw [List.cons_append] at hread ⊢
      rw [many_cons]
      change readFunction _ >>= _ = _
      rw [hread]
      simp only [bind, Except.bind, ih hfs]
      rfl

/-- Tokens whose texts derive a program are parsed as that program. -/
theorem parse_of_derives {dialect : Dialect} {p : Program}
    (h : Program.Derives dialect (Token.texts ts) p) : parse dialect ts = .ok p := by
  cases h with
  | expression h =>
    have hread : readExpr .assignment (ts ++ []) = readOperators .assignment _ [] :=
      readExpr_of_derives h rfl (by simp)
    rw [List.append_nil, readOperators_assignment (by simp)] at hread
    rw [parse_expression, hread]
    rfl
  | statements h =>
    simp only [parse, many_statement_of_derives h]
    rfl
  | functions h => exact many_function_of_derives h

/-- Every text that derives a program is that of tokens. -/
theorem exists_parse_of_derives {dialect : Dialect} {texts : List String} {p : Program}
    (h : Program.Derives dialect texts p) : ∃ tokens, parse dialect tokens = .ok p := by
  let tokens : List Token := texts.map fun text => ⟨.word, text, 0, 0⟩
  have htexts : Token.texts tokens = texts := by
    rw [Token.texts, List.map_map]
    exact List.map_id _
  exact ⟨tokens, parse_of_derives (htexts ▸ h)⟩

end Programs

end MiniC
