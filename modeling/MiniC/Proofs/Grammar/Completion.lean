import MiniC.Proofs.Grammar.Continuation

/-! Statements, functions and programs that came to an end too early. -/
namespace MiniC

section Clauses

variable {stop : String} {ts rest : List Token} {e : Expr}

theorem texts_of_readSymbol {text : String} {u : Unit} (h : readSymbol text ts = .ok (u, rest)) :
    ∃ used, Token.texts ts = used ++ Token.texts rest := by
  obtain ⟨t, rfl, -⟩ := of_readSymbol h
  exact ⟨[t.text], rfl⟩

theorem texts_of_readClause (h : readClause stop ts = .ok (e, rest)) :
    ∃ used, Token.texts ts = used ++ Token.texts rest := by
  obtain ⟨used, htexts, -⟩ := derives_of_readClause h
  exact ⟨used ++ [stop], by rw [htexts, List.append_assoc, List.singleton_append]⟩

theorem texts_of_readCondition (h : readCondition ts = .ok (e, rest)) :
    ∃ used, Token.texts ts = used ++ Token.texts rest := by
  obtain ⟨-, used, htexts, -⟩ := derives_of_readCondition h
  exact ⟨"(" :: (used ++ [")"]), by simp [htexts]⟩

theorem texts_of_readStmt {s : Stmt} (h : readStmt ts = .ok (s, rest)) :
    ∃ used, Token.texts ts = used ++ Token.texts rest := by
  obtain ⟨used, htexts, -⟩ := stmtSound _ (Nat.lt_succ_self _) h
  exact ⟨used, htexts⟩

theorem texts_of_readParameters {params : List String}
    (h : readParameters ts = .ok (params, rest)) :
    ∃ used, Token.texts ts = used ++ Token.texts rest := by
  obtain ⟨htexts, -⟩ := derives_of_readParameters h
  exact ⟨params.intersperse "," ++ [")"], by simp [htexts]⟩

theorem texts_of_readFunction {f : Function} (h : readFunction ts = .ok (f, rest)) :
    ∃ used, Token.texts ts = used ++ Token.texts rest := by
  obtain ⟨used, htexts, -⟩ := derives_of_readFunction h
  exact ⟨used, htexts⟩

theorem readTerminated_one (hstop : stop ∈ [")", ";"]) (rest : List Token) :
    readTerminated stop (.written "1" :: .written stop :: rest) = .ok (.num 1, rest) := by
  rw [readTerminated_eq, readExpr_one .assignment (closing_written hstop rest)]
  dsimp only [bind, Except.bind]
  rw [readSymbol_written]
  rfl

theorem readClause_written (stop : String) (rest : List Token) :
    readClause stop (.written stop :: rest) = .ok (.num 1, rest) :=
  readClause_empty rfl

theorem readTerminated_continues (hstop : stop ∈ [")", ";"])
    (h : RunsOut (readTerminated stop ts)) :
    Continues (fun _ => True) (Token.texts ts) fun us => readTerminated stop (ts ++ us) :=
  readTerminated_continues_of hstop (readExpr_continues .assignment ts) h

theorem readClause_continues (hstop : stop ∈ [")", ";"]) (h : RunsOut (readClause stop ts)) :
    Continues (fun _ => True) (Token.texts ts) fun us => readClause stop (ts ++ us) := by
  cases ts with
  | nil => exact .inl ⟨[.written stop], fun rest _ => ⟨_, readClause_written stop rest⟩⟩
  | cons t ts =>
    by_cases ht : t.text = stop
    · rw [readClause_empty ht] at h
      exact absurd h not_runsOut_ok
    · have heq (us : List Token) :
          readClause stop (t :: ts ++ us) = readTerminated stop (t :: ts ++ us) :=
        readClause_of_ne (by simpa using ht)
      rw [readClause_of_ne (by simpa using ht)] at h
      simp only [heq]
      exact readTerminated_continues hstop h

theorem readCondition_continues (h : RunsOut (readCondition ts)) :
    Continues (fun _ => True) (Token.texts ts) fun us => readCondition (ts ++ us) := by
  rw [readCondition_eq] at h
  simp only [readCondition_eq]
  rcases runsOut_bind h with hopen | ⟨⟨⟨⟩, rest⟩, hopen, h⟩
  · obtain rfl := eq_nil_of_readSymbol hopen
    refine .inl ⟨[.written "(", .written "1", .written ")"], fun rest _ => ⟨.num 1, ?_⟩⟩
    dsimp only [List.cons_append, List.nil_append]
    rw [readSymbol_written]
    exact readTerminated_one (by simp) rest
  · exact .after (texts_of_readSymbol hopen)
      (fun us => (readSymbol_extends us "(" ts).eq_ok hopen trivial)
      (readTerminated_continues (by simp) h)

end Clauses

section Statements

variable {ts : List Token}

theorem readStmt_one (rest : List Token) :
    readStmt (.written "1" :: .written ";" :: rest) = .ok (.expr (.num 1), rest) := by
  rw [readStmt_expr (by simp; rfl), readTerminated_one (by simp)]
  rfl

/-- A branch does not go on before a closing token. -/
theorem ifThen_of_closing (cond : Expr) (body : Stmt) (rest : List Token) : Closing rest →
    (match rest with
      | [] => return (Stmt.ifThen cond body, [])
      | u :: us =>
        if u.text = "else" then (readStmt us).map fun p => (Stmt.ifElse cond body p.1, p.2)
        else return (Stmt.ifThen cond body, u :: us) : Except GrammarError (Stmt × List Token)) =
      .ok (.ifThen cond body, rest) := by
  intro h
  cases rest with
  | nil => rfl
  | cons u us => exact if_neg (show u.text ≠ "else" from h.ne (by simp) rfl)

/-- Statements that run out of tokens can go on, in lists of less than `n` tokens. -/
def StmtContinues (n : Nat) : Prop :=
  ∀ ts, ts.length < n → RunsOut (readStmt ts) →
    Continues Closing (Token.texts ts) fun us => readStmt (ts ++ us)

section Step

variable {n : Nat} {t : Token} {ts : List Token}

theorem readStmt_branch_continues (hn : StmtContinues n)
    (ho : Opening.ofText? t.text = some .branch) (hts : ts.length ≤ n) (h : RunsOut (readStmt (t :: ts))) :
    Continues Closing (Token.texts ts) fun us => readStmt (t :: (ts ++ us)) := by
  rw [readStmt_branch ho] at h
  simp only [readStmt_branch ho]
  rcases runsOut_bind h with hrun | ⟨⟨cond, ts₁⟩, hcond, h⟩
  · refine (readCondition_continues hrun).bind [.written "1", .written ";"]
      (fun _ _ => trivial) fun cond rest hrest => ⟨.ifThen cond (.expr (.num 1)), ?_⟩
    dsimp only [List.cons_append, List.nil_append]
    rw [readStmt_one]
    exact ifThen_of_closing cond _ rest hrest
  have hlength := length_lt_of_plain hcond
  refine .after (texts_of_readCondition hcond)
    (fun us => (readCondition_extends us ts).eq_ok hcond trivial) ?_
  dsimp only
  rcases runsOut_bind h with hrun | ⟨⟨body, ts₂⟩, hbody, h⟩
  · exact (hn ts₁ (by omega) hrun).bind [] (fun _ hrest => hrest)
      fun body rest hrest => ⟨_, ifThen_of_closing cond body rest hrest⟩
  have hlength' := length_lt_of_plain hbody
  cases ts₂ with
  | nil => exact absurd h not_runsOut_ok
  | cons u ts₃ =>
    rw [List.length_cons] at hlength'
    refine .after (texts_of_readStmt hbody)
      (fun us => (readStmt_extends us ts₁).eq_ok hbody (.inl (List.cons_ne_nil _ _))) ?_
    dsimp only at h ⊢
    split_ifs at h with helse
    · simp only [List.cons_append, if_pos helse]
      exact ((hn ts₃ (by omega) (runsOut_map h)).map _).cons u.text
    · exact absurd h not_runsOut_ok

theorem readStmt_forLoop_continues (hn : StmtContinues n)
    (ho : Opening.ofText? t.text = some .forLoop) (hts : ts.length ≤ n) (h : RunsOut (readStmt (t :: ts))) :
    Continues Closing (Token.texts ts) fun us => readStmt (t :: (ts ++ us)) := by
  rw [readStmt_forLoop ho] at h
  simp only [readStmt_forLoop ho]
  -- The first part that runs out is gone on with, and the parts after it are written out as short
  -- as they can be: empty clauses, and a number as the body.
  rcases runsOut_bind h with hrun | ⟨⟨⟨⟩, ts₁⟩, hopen, h⟩
  · obtain rfl := eq_nil_of_readSymbol hrun
    refine .inl ⟨[.written "(", .written ";", .written ";", .written ")", .written "1",
      .written ";"], fun rest _ => ⟨.forLoop (.num 1) (.num 1) (.num 1) (.expr (.num 1)), ?_⟩⟩
    simp only [List.cons_append, List.nil_append, readSymbol_written, readClause_written,
      readStmt_one, bind, Except.bind]
    rfl
  have hlt₁ := length_lt_of_plain hopen
  refine .after (texts_of_readSymbol hopen)
    (fun us => (readSymbol_extends us "(" ts).eq_ok hopen trivial) ?_
  dsimp only
  rcases runsOut_bind h with hrun | ⟨⟨init, ts₂⟩, hinit, h⟩
  · refine (readClause_continues (by simp) hrun).bind
      [.written ";", .written ")", .written "1", .written ";"] (fun _ _ => trivial)
      fun init rest _ => ⟨.forLoop init (.num 1) (.num 1) (.expr (.num 1)), ?_⟩
    simp only [List.cons_append, List.nil_append, readClause_written, readStmt_one, bind,
      Except.bind]
    rfl
  have hlt₂ := length_lt_of_plain hinit
  refine .after (texts_of_readClause hinit)
    (fun us => (readClause_extends us ";" ts₁).eq_ok hinit trivial) ?_
  dsimp only
  rcases runsOut_bind h with hrun | ⟨⟨cond, ts₃⟩, hcond, h⟩
  · refine (readClause_continues (by simp) hrun).bind
      [.written ")", .written "1", .written ";"] (fun _ _ => trivial)
      fun cond rest _ => ⟨.forLoop init cond (.num 1) (.expr (.num 1)), ?_⟩
    simp only [List.cons_append, List.nil_append, readClause_written, readStmt_one, bind,
      Except.bind]
    rfl
  have hlt₃ := length_lt_of_plain hcond
  refine .after (texts_of_readClause hcond)
    (fun us => (readClause_extends us ";" ts₂).eq_ok hcond trivial) ?_
  dsimp only
  rcases runsOut_bind h with hrun | ⟨⟨step, ts₄⟩, hstep, h⟩
  · refine (readClause_continues (by simp) hrun).bind [.written "1", .written ";"]
      (fun _ _ => trivial) fun step rest _ => ⟨.forLoop init cond step (.expr (.num 1)), ?_⟩
    simp only [List.cons_append, List.nil_append, readStmt_one, bind, Except.bind]
    rfl
  have hlt₄ := length_lt_of_plain hstep
  refine .after (texts_of_readClause hstep)
    (fun us => (readClause_extends us ")" ts₃).eq_ok hstep trivial) ?_
  dsimp only
  rcases runsOut_bind h with hrun | ⟨_, _, hpure⟩
  · exact (hn ts₄ (by omega) hrun).bind [] (fun _ hrest => hrest)
      fun body rest _ => ⟨.forLoop init cond step body, rfl⟩
  · exact absurd hpure not_runsOut_ok

theorem readStmt_whileLoop_continues (hn : StmtContinues n)
    (ho : Opening.ofText? t.text = some .whileLoop) (hts : ts.length ≤ n) (h : RunsOut (readStmt (t :: ts))) :
    Continues Closing (Token.texts ts) fun us => readStmt (t :: (ts ++ us)) := by
  rw [readStmt_whileLoop ho] at h
  simp only [readStmt_whileLoop ho]
  rcases runsOut_bind h with hrun | ⟨⟨cond, ts₁⟩, hcond, h⟩
  · refine (readCondition_continues hrun).bind [.written "1", .written ";"]
      (fun _ _ => trivial) fun cond rest _ => ⟨.whileLoop cond (.expr (.num 1)), ?_⟩
    dsimp only [List.cons_append, List.nil_append]
    rw [readStmt_one]
    rfl
  have hlength := length_lt_of_plain hcond
  refine .after (texts_of_readCondition hcond)
    (fun us => (readCondition_extends us ts).eq_ok hcond trivial) ?_
  dsimp only
  rcases runsOut_bind h with hrun | ⟨_, _, hpure⟩
  · exact (hn ts₁ (by omega) hrun).bind [] (fun _ hrest => hrest)
      fun body rest _ => ⟨.whileLoop cond body, rfl⟩
  · exact absurd hpure not_runsOut_ok

/-- A block can end where its last statement can go on or is complete. -/
theorem readBlock_of_stmt
    (hs : Continues Closing (Token.texts ts) fun us => readStmt (ts ++ us)) :
    Continues (fun _ => True) (Token.texts ts) fun us => do
      let (s, ts₁) ← readStmt (ts ++ us)
      let (body, ts₂) ← readBlock ts₁
      return (s :: body, ts₂) := by
  refine hs.bind [.written "\x7d"] (fun _ _ => closing_cons (by simp)) fun s rest _ => ⟨[s], ?_⟩
  dsimp only [List.singleton_append]
  rw [readBlock_end (t := .written "\x7d") rfl]
  rfl

theorem readBlock_continues (hn : StmtContinues n) {ts : List Token} (hts : ts.length < n)
    (h : RunsOut (readBlock ts)) :
    Continues (fun _ => True) (Token.texts ts) fun us => readBlock (ts ++ us) := by
  cases ts with
  | nil => exact .inl ⟨[.written "\x7d"], fun rest _ => ⟨_, readBlock_end rfl⟩⟩
  | cons t ts =>
    by_cases ht : t.text = "\x7d"
    · rw [readBlock_end ht] at h
      exact absurd h not_runsOut_ok
    rw [readBlock_cons ht] at h
    have heq (us : List Token) : readBlock (t :: (ts ++ us)) = _ := readBlock_cons ht
    simp only [List.cons_append, heq]
    rcases runsOut_bind h with hrun | ⟨⟨s, ts₁⟩, hs, h⟩
    · exact readBlock_of_stmt (hn (t :: ts) hts hrun)
    have hlength := length_lt_of_plain hs
    cases ts₁ with
    | nil =>
      exact readBlock_of_stmt (.inl (completable_of_ok hs fun us => readStmt_extends us (t :: ts)))
    | cons u ts₁ =>
      refine .after (texts_of_readStmt hs)
        (fun us => (readStmt_extends us (t :: ts)).eq_ok hs (.inl (List.cons_ne_nil _ _))) ?_
      dsimp only
      rcases runsOut_bind h with hrun | ⟨_, _, hpure⟩
      · exact (readBlock_continues hn (by omega) hrun).bind [] (fun _ hrest => hrest)
          fun body rest _ => ⟨s :: body, rfl⟩
      · exact absurd hpure not_runsOut_ok
termination_by ts.length

theorem readStmt_continues_step (hn : StmtContinues n) (hts : ts.length ≤ n)
    (h : RunsOut (readStmt ts)) :
    Continues Closing (Token.texts ts) fun us => readStmt (ts ++ us) := by
  cases ts with
  | nil => exact .inl ⟨[.written "1", .written ";"], fun rest _ => ⟨_, readStmt_one rest⟩⟩
  | cons t ts =>
    rw [List.length_cons] at hts
    cases ho : Opening.ofText? t.text with
    | none =>
      have heq (us : List Token) : readStmt (t :: ts ++ us) =
          (readTerminated ";" (t :: ts ++ us)).map fun p => (.expr p.1, p.2) :=
        readStmt_expr (by simpa using ho)
      rw [readStmt_expr (by simpa using ho)] at h
      simp only [heq]
      exact ((readTerminated_continues (by simp) (runsOut_map h)).map _).mono fun _ _ => trivial
    | some o =>
      refine Continues.cons t.text ?_
      cases o with
      | block =>
        rw [readStmt_block ho] at h
        simp only [List.cons_append, readStmt_block ho]
        exact ((readBlock_continues hn (by omega) (runsOut_map h)).map _).mono fun _ _ => trivial
      | ret =>
        rw [readStmt_ret ho] at h
        simp only [List.cons_append, readStmt_ret ho]
        exact ((readTerminated_continues (by simp) (runsOut_map h)).map _).mono fun _ _ => trivial
      | branch => exact readStmt_branch_continues hn ho (by omega) h
      | forLoop => exact readStmt_forLoop_continues hn ho (by omega) h
      | whileLoop => exact readStmt_whileLoop_continues hn ho (by omega) h

end Step

theorem stmtContinues (n : Nat) : StmtContinues n := by
  induction n with
  | zero =>
    intro ts hts
    exact absurd hts (Nat.not_lt_zero _)
  | succ n ih =>
    intro ts hts h
    exact readStmt_continues_step ih (Nat.le_of_lt_succ hts) h

theorem readStmt_continues (h : RunsOut (readStmt ts)) :
    Continues Closing (Token.texts ts) fun us => readStmt (ts ++ us) :=
  stmtContinues _ ts (Nat.lt_succ_self _) h

end Statements

section Functions

variable {t : Token} {ts rest : List Token}

theorem readIdentifier_written (rest : List Token) :
    readIdentifier (.written "a" :: rest) = .ok (.written "a", rest) :=
  readIdentifier_cons_of_isWord (by decide)

theorem readParameterList_end (h : readIdentifier ts = .ok (t, .written ")" :: rest)) :
    readParameterList ts = .ok ([t.text], rest) := by
  rw [readParameterList_eq, h]
  dsimp only [bind, Except.bind]
  rw [readSymbol_written]
  rfl

theorem readParameterList_continues (ts : List Token) (h : RunsOut (readParameterList ts)) :
    ListContinues (Token.texts ts) fun us => readParameterList (ts ++ us) := by
  rw [readParameterList_eq] at h
  rcases runsOut_bind h with hrun | ⟨⟨param, ts₁⟩, hparam, hrun⟩
  · obtain rfl := eq_nil_of_readIdentifier hrun
    refine .inl ⟨0, [.written "a", .written ")"], rfl, fun rest => ⟨["a"], ?_, rfl⟩⟩
    exact readParameterList_end (readIdentifier_written _)
  have hextends (us : List Token) := (readIdentifier_extends us ts).eq_ok hparam trivial
  obtain ⟨rfl, hname⟩ := of_readIdentifier hparam
  cases ts₁ with
  | nil =>
    refine .inl ⟨0, [.written ")"], ?_, fun rest => ⟨[param.text], ?_, rfl⟩⟩
    · exact ownCommas_other hname.not_bracket
    · exact readParameterList_end (hextends _)
  | cons u ts₂ =>
    dsimp only at hrun
    split_ifs at hrun with hcomma
    · refine (readParameterList_continues ts₂ (runsOut_map hrun)).cons param.text
        (.singleton hname.not_bracket) hcomma fun us => ?_
      rw [readParameterList_eq, hextends us]
      exact if_pos hcomma
    · exact absurd (eq_nil_of_readSymbol (runsOut_map hrun)) (List.cons_ne_nil _ _)
termination_by ts.length
decreasing_by
  subst_vars
  simp only [List.length_cons]
  omega

theorem readParameters_continues (h : RunsOut (readParameters ts)) :
    ListContinues (Token.texts ts) fun us => readParameters (ts ++ us) := by
  cases ts with
  | nil =>
    refine .inl ⟨0, [.written "a", .written ")"], rfl, fun rest => ⟨["a"], ?_, rfl⟩⟩
    show readParameters (.written "a" :: .written ")" :: rest) = _
    rw [readParameters_cons (by simp)]
    exact readParameterList_end (readIdentifier_written _)
  | cons t ts =>
    by_cases ht : t.text = ")"
    · rw [readParameters_nil ht] at h
      exact absurd h not_runsOut_ok
    · have heq (us : List Token) :
          readParameters (t :: ts ++ us) = readParameterList (t :: ts ++ us) :=
        readParameters_cons (by simpa using ht)
      rw [readParameters_cons (by simpa using ht)] at h
      simp only [heq]
      exact readParameterList_continues (t :: ts) h

/-- A function from its parameters on. -/
theorem readFunction_cons {u : Token} (ht : Token.isWord t.text) (hu : u.text = "(")
    (ts : List Token) :
    readFunction (t :: u :: ts) = readParameters ts >>= fun p =>
      if maxArity < p.1.length then throw (.tooManyParameters t)
      else readSymbol "\x7b" p.2 >>= fun q =>
        readBlock q.2 >>= fun r => pure (⟨t.text, p.1, r.1⟩, r.2) := by
  rw [readFunction_eq, readIdentifier_cons_of_isWord ht]
  dsimp only [bind, Except.bind]
  rw [readSymbol_cons_of_eq hu]
  dsimp only
  cases readParameters ts with
  | error e => rfl
  | ok p =>
    dsimp only
    split_ifs <;> rfl

theorem readBody_empty (name : String) (params : List String) (rest : List Token) :
    (readSymbol "\x7b" (.written "\x7b" :: .written "\x7d" :: rest) >>= fun q =>
      readBlock q.2 >>= fun r => pure (Function.mk name params r.1, r.2)) =
      .ok (⟨name, params, []⟩, rest) := by
  rw [readSymbol_written]
  dsimp only [bind, Except.bind]
  rw [readBlock_end (t := .written "\x7d") rfl]
  rfl

theorem readFunction_empty (ht : Token.isWord t.text) (rest : List Token) :
    readFunction (t :: .written "(" :: .written ")" :: .written "\x7b" :: .written "\x7d" :: rest) =
      .ok (⟨t.text, [], []⟩, rest) := by
  rw [readFunction_cons ht rfl, readParameters_nil (t := .written ")") rfl]
  exact readBody_empty t.text [] rest

theorem readFunction_continues (h : RunsOut (readFunction ts)) :
    Continues (fun _ => True) (Token.texts ts) fun us => readFunction (ts ++ us) := by
  have hrun := h
  rw [readFunction_eq] at hrun
  rcases runsOut_bind hrun with hend | ⟨⟨t, ts₁⟩, hname, hcall⟩
  · obtain rfl := eq_nil_of_readIdentifier hend
    exact .inl ⟨[.written "a", .written "(", .written ")", .written "\x7b", .written "\x7d"],
      fun rest _ => ⟨_, readFunction_empty (by decide) rest⟩⟩
  obtain ⟨rfl, hidentifier⟩ := of_readIdentifier hname
  have hword := isIdentifier_iff.mp hidentifier
  rcases runsOut_bind hcall with hend | ⟨⟨⟨⟩, ts₂⟩, hopen, -⟩
  · obtain rfl := eq_nil_of_readSymbol hend
    exact .inl ⟨[.written "(", .written ")", .written "\x7b", .written "\x7d"],
      fun rest _ => ⟨_, readFunction_empty hword rest⟩⟩
  obtain ⟨u, rfl, hu⟩ := of_readSymbol hopen
  rw [readFunction_cons hword hu] at h
  simp only [List.cons_append, readFunction_cons hword hu, Token.texts_cons, hu]
  rcases runsOut_bind h with hrun | ⟨⟨params, ts₃⟩, hparams, hrun⟩
  · refine (readParameters_continues hrun).limited hidentifier
      (show (GrammarError.tooManyParameters t).IsOverfull from trivial)
      [.written "\x7b", .written "\x7d"]
      (fun params rest hlength => ⟨⟨t.text, params, []⟩, ?_⟩) fun params rest hlength => ?_
    · dsimp only [List.cons_append, List.nil_append]
      rw [if_neg (Nat.not_lt.mpr hlength)]
      exact readBody_empty t.text params rest
    · exact if_pos (Nat.lt_of_not_le hlength)
  refine .cons t.text (.cons "(" ?_)
  refine .after (texts_of_readParameters hparams)
    (fun us => (readParameters_extends us ts₂).eq_ok hparams trivial) ?_
  dsimp only at hrun ⊢
  split_ifs at hrun with harity
  · obtain ⟨e, herror, he⟩ := hrun
    cases herror
    cases he
  simp only [if_neg harity]
  rcases runsOut_bind hrun with hrun | ⟨⟨⟨⟩, ts₄⟩, hbrace, hrun⟩
  · obtain rfl := eq_nil_of_readSymbol hrun
    exact .inl ⟨[.written "\x7b", .written "\x7d"],
      fun rest _ => ⟨_, readBody_empty t.text params rest⟩⟩
  refine .after (texts_of_readSymbol hbrace)
    (fun us => (readSymbol_extends us "\x7b" ts₃).eq_ok hbrace trivial) ?_
  dsimp only
  rcases runsOut_bind hrun with hrun | ⟨_, _, hpure⟩
  · exact (readBlock_continues (stmtContinues _) (Nat.lt_succ_self _) hrun).bind []
      (fun _ hrest => hrest) fun body rest _ => ⟨⟨t.text, params, body⟩, rfl⟩
  · exact absurd hpure not_runsOut_ok

end Functions

section Programs

variable {ts : List Token}

/-- Constructs one after the other can go on with the last of them. -/
theorem many_continues {α : Type} {step : (ts : List Token) → Step α ts}
    (hextends : ∀ us ts, ExtendsOpen us (step ts).plain (step (ts ++ us)).plain)
    (htexts : ∀ {ts a rest}, (step ts).plain = .ok (a, rest) →
      ∃ used, Token.texts ts = used ++ Token.texts rest)
    (hstep : ∀ {ts}, RunsOut (step ts).plain →
      Continues Closing (Token.texts ts) fun us => (step (ts ++ us)).plain)
    (ts : List Token) (h : RunsOut (Step.many step ts)) :
    (∃ us xs, Step.many step (ts ++ us) = .ok xs) ∨
      LeavesOverfullList (Token.texts ts) ∧ Overfills fun us => Step.many step (ts ++ us) := by
  cases ts with
  | nil =>
    rw [many_nil] at h
    exact absurd h not_runsOut_ok
  | cons t ts =>
    have heq (us : List Token) := many_cons step t (ts ++ us)
    simp only [← List.cons_append] at heq
    rw [many_cons] at h
    rcases runsOut_bind h with hrun | ⟨⟨x, rest⟩, hok, hrun⟩
    · rcases hstep hrun with ⟨us, hus⟩ | ⟨hlist, us, e, he, herror⟩
      · obtain ⟨x, hx⟩ := hus [] closing_nil
        dsimp only at hx
        rw [List.append_nil] at hx
        refine .inl ⟨us, [x], ?_⟩
        rw [heq, hx]
        dsimp only [bind, Except.bind]
        rw [many_nil]
        rfl
      · refine .inr ⟨hlist, us, e, he, ?_⟩
        dsimp only at herror ⊢
        rw [heq, herror]
        rfl
    have hlength := length_lt_of_plain hok
    have hmany : RunsOut (Step.many step rest) := by
      rcases runsOut_bind hrun with hmany | ⟨_, _, hpure⟩
      · exact hmany
      · exact absurd hpure not_runsOut_ok
    have hrest : rest ≠ [] := by
      rintro rfl
      rw [many_nil] at hmany
      exact absurd hmany not_runsOut_ok
    have hfirst (us : List Token) := (hextends us (t :: ts)).eq_ok hok (.inl hrest)
    obtain ⟨used, hused⟩ := htexts hok
    rcases many_continues hextends htexts hstep rest hmany with
      ⟨us, xs, hxs⟩ | ⟨hlist, us, e, he, herror⟩
    · refine .inl ⟨us, x :: xs, ?_⟩
      rw [heq, hfirst]
      dsimp only [bind, Except.bind]
      rw [hxs]
      rfl
    · refine .inr ⟨hused ▸ hlist.append_left used, us, e, he, ?_⟩
      dsimp only at herror ⊢
      rw [heq, hfirst]
      dsimp only [bind, Except.bind]
      rw [herror]
termination_by ts.length

theorem parse_continues {dialect : Dialect} (h : RunsOut (parse dialect ts)) :
    (∃ us p, parse dialect (ts ++ us) = .ok p) ∨
      LeavesOverfullList (Token.texts ts) ∧ Overfills fun us => parse dialect (ts ++ us) := by
  cases dialect with
  | expression =>
    rw [parse_expression] at h
    simp only [parse_expression]
    rcases runsOut_bind h with hrun | ⟨⟨e, rest⟩, -, hrun⟩
    · rcases readExpr_continues .assignment ts hrun with ⟨us, hus⟩ | ⟨hlist, us, e, he, herror⟩
      · obtain ⟨e, he⟩ := hus [] closing_nil
        dsimp only at he
        rw [List.append_nil] at he
        exact .inl ⟨us, [Function.main [.ret e]], by rw [he]; rfl⟩
      · dsimp only at herror
        exact .inr ⟨hlist, us, e, he, by dsimp only; rw [herror]; rfl⟩
    · cases rest with
      | nil => exact absurd hrun not_runsOut_ok
      | cons t rest =>
        obtain ⟨_, ⟨⟩, he⟩ := hrun
        cases he
  | statements =>
    rcases runsOut_bind h with hrun | ⟨_, _, hpure⟩
    · rcases many_continues readStmt_extends texts_of_readStmt readStmt_continues ts hrun with
        ⟨us, body, hbody⟩ | ⟨hlist, us, e, he, herror⟩
      · exact .inl ⟨us, [Function.main body], by simp only [parse, hbody]; rfl⟩
      · exact .inr ⟨hlist, us, e, he, by simp only [parse] at herror ⊢; rw [herror]; rfl⟩
    · exact absurd hpure not_runsOut_ok
  | functions =>
    exact many_continues (fun us ts => (readFunction_extends us ts).open_of_past)
      texts_of_readFunction (fun h => (readFunction_continues h).mono fun _ _ => trivial) ts h

end Programs

section Errors

variable {source : String} {dialect : Dialect} {tokens : List Token}

/-- The message begins with the words for a list that has too many elements. -/
def CompileError.SaysTooMany (e : CompileError) : Prop :=
  "too many arguments in call to ".toList <+: e.message.toList ∨
    "too many parameters in ".toList <+: e.message.toList

theorem saysTooMany_of_isOverfull {place : Excerpt} {cause : GrammarError} (h : cause.IsOverfull) :
    (CompileError.grammatical place cause).SaysTooMany := by
  unfold CompileError.SaysTooMany
  dsimp only [CompileError.message]
  cases cause with
  | tooManyArguments callee =>
    left
    dsimp only [GrammarError.message]
    rw [String.append_assoc, String.append_assoc, String.append_assoc, String.toList_append]
    exact List.prefix_append _ _
  | tooManyParameters function =>
    right
    dsimp only [GrammarError.message]
    rw [String.append_assoc, String.append_assoc, String.append_assoc, String.toList_append]
    exact List.prefix_append _ _
  | _ => exact h.elim

/-- Tokens that were only too few can be completed to a program, unless they leave a list open that
has six commas. Then no tokens after them give a program, and some of them give an error about the
number of elements. -/
theorem parseTokens_completable {e : CompileError}
    (h : parseTokens source dialect tokens = .error e) (hend : e.SaysEndOfInput) :
    (¬ LeavesOverfullList (Token.texts tokens) →
      ∃ us p, parseTokens source dialect (tokens ++ us) = .ok p) ∧
    (LeavesOverfullList (Token.texts tokens) →
      (∀ us p, parseTokens source dialect (tokens ++ us) ≠ .ok p) ∧
      ∃ us e', parseTokens source dialect (tokens ++ us) = .error e' ∧ e'.SaysTooMany) := by
  obtain ⟨cause, hparse, rfl⟩ := mapError_eq_error_iff.mp h
  rw [saysEndOfInput_grammatical_iff] at hend
  have hnever (us : List Token) (p : Program)
      (hp : parseTokens source dialect (tokens ++ us) = .ok p) :
      ¬ LeavesOverfullList (Token.texts tokens) := by
    have hderives := derives_of_parse (mapError_eq_ok_iff.mp hp)
    rw [Token.texts_append] at hderives
    exact hderives.not_leavesOverfullList
  rcases parse_continues ⟨cause, hparse, hend⟩ with
    ⟨us, p, hp⟩ | ⟨hlist, us, cause', hcause, herror⟩
  · have hdone : parseTokens source dialect (tokens ++ us) = .ok p := mapError_eq_ok_iff.mpr hp
    exact ⟨fun _ => ⟨us, p, hdone⟩, fun hlist => absurd hlist (hnever us p hdone)⟩
  · refine ⟨fun hnot => absurd hlist hnot, fun _ => ⟨fun us p hp => hnever us p hp hlist, us, ?_⟩⟩
    exact ⟨_, mapError_eq_error_iff.mpr ⟨cause', herror, rfl⟩, saysTooMany_of_isOverfull hcause⟩

/-- The condition breaks off in the last argument of a call in which two others are open. -/
def brokenOff : String :=
  "f(a) \x7b\n  if (g(a, h(1, 2), 3, 4, 5, 6, (a + k("

theorem brokenOff_overfull : ∃ tokens e, tokenize brokenOff = .ok tokens ∧
    parseTokens brokenOff .functions tokens = .error e ∧ e.SaysEndOfInput ∧
    (∀ us p, parseTokens brokenOff .functions (tokens ++ us) ≠ .ok p) ∧
    ∃ us e', parseTokens brokenOff .functions (tokens ++ us) = .error e' ∧ e'.SaysTooMany := by
  obtain ⟨tokens, place, what, htokens, htexts, he⟩ : ∃ tokens place what,
      tokenize brokenOff = .ok tokens ∧
      Token.texts tokens = ["f", "(", "a", ")", "\x7b", "if", "("] ++
        "g" :: "(" :: ["a", ",", "h", "(", "1", ",", "2", ")", ",", "3", ",", "4", ",", "5", ",",
          "6", ",", "(", "a", "+", "k", "("] ∧
      parseTokens brokenOff .functions tokens =
        .error (.grammatical place (.expected what none)) := ⟨_, _, _, by cbv, by cbv, by cbv⟩
  have hend : (CompileError.grammatical place (.expected what none)).SaysEndOfInput := by
    rw [saysEndOfInput_grammatical_iff]
    rfl
  have hlist : LeavesOverfullList (Token.texts tokens) :=
    ⟨_, _, _, 6, htexts, isIdentifier_iff.mpr (by decide), by decide, le_rfl⟩
  exact ⟨tokens, _, htokens, he, hend, (parseTokens_completable he hend).2 hlist⟩

end Errors

end MiniC
