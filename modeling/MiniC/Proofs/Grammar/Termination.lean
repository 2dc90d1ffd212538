import MiniC.Proofs.Grammar.Procedures

/-! Reading ends.

The procedures of a run serve one another, by induction on the tokens that remain and on the rank,
and so no check that a run makes stalls it. -/
namespace MiniC

open Reading
open TokenStream (Leads)

namespace Procedure

/-- Whatever a procedure is run on, it reads what the grammar says. -/
theorem run_yields (p : Procedure) (s : TokenStream) {owed : Nat} (howed : p.owed ≤ owed) :
    Yields owed 1 (p.read s.tokens) p.run s := by
  have hrun : p.run s =
      p.body (fun q s' => if _ : p.MayCall s q s' then q.run s' else .error .stalled s') s := by
    rw [run]
  refine Performs.congr (body_yields (fun q s' owed hmay howed => ?_) howed) hrun
  exact (run_yields q s' howed).congr (dif_pos hmay)
termination_by (s.tokens.length, p.rank)
decreasing_by
  rcases hmay with h | ⟨h, hrank⟩
  · exact .left _ _ h
  · rw [h]
    exact .right _ hrank

/-- What comes of running a procedure on a stream. If it has a value, some tokens at the front were
taken, the others are left as they were, and the last one taken is remembered. -/
inductive Advances (p : Procedure) (s : TokenStream) : Prop where
  | value (a : p.Value) (s' : TokenStream) (used : List Token) : p.run s = .ok a s' →
      p.read s.tokens = .ok (a, s'.tokens) → used ≠ [] → s.tokens = used ++ s'.tokens →
      s'.last = used.getLast? → Advances p s
  | refused (e : GrammarError) (s' : TokenStream) : p.run s = .error (.refused e) s' →
      p.read s.tokens = .error e → Advances p s

theorem advances (p : Procedure) (s : TokenStream) : p.Advances s := by
  cases run_yields p s le_rfl with
  | refused e s' hrun hread => exact .refused e s' hrun hread
  | value a s' hrun hread hleads =>
    obtain ⟨used, htokens, hlast⟩ := hleads.taken
    have hused : used ≠ [] := by
      rintro rfl
      have hlength := hleads.length_le
      rw [htokens] at hlength
      exact absurd hlength (Nat.not_succ_le_self _)
    rw [List.getLast?_eq_some_getLast hused] at hlast
    exact .value a s' used hrun hread hused htokens
      (hlast.trans (List.getLast?_eq_some_getLast hused).symm)

end Procedure

section Programs

variable {α β : Type} {tokens : List Token} {x : Except GrammarError α} {m : Reading α}
  {s s' : TokenStream}

/-- Some of the tokens were taken, and no loop has begun more turns than tokens were taken. -/
structure TokenStream.Reached (tokens : List Token) (s : TokenStream) : Prop where
  taken : (TokenStream.ofTokens tokens).Took s
  turns : ∀ loop, s.turns loop + s.tokens.length ≤ tokens.length

/-- A reading on a stream of these tokens ends as `x` does. If it has a value, no token remains. An
error about the end of the tokens comes where the last of them was taken. No loop begins more turns
than there are tokens. -/
inductive EndsAs (tokens : List Token) (x : Except GrammarError α) (m : Reading α)
    (s : TokenStream) : Prop where
  | value (a : α) (s' : TokenStream) : m s = .ok a s' → x = .ok a → s'.tokens = [] →
      s'.last = tokens.getLast? → (∀ loop, s'.turns loop ≤ tokens.length) → EndsAs tokens x m s
  | refused (e : GrammarError) (s' : TokenStream) : m s = .error (.refused e) s' → x = .error e →
      (e.culprit = none → s'.tokens = [] ∧ s'.last = tokens.getLast?) →
      (∀ loop, s'.turns loop ≤ tokens.length) → EndsAs tokens x m s

theorem EndsAs.congr {m' : Reading α} (h : EndsAs tokens x m' s') (hm : m s = m' s') :
    EndsAs tokens x m s := by
  cases h with
  | value a s'' hrun hx hs'' hlast hturns => exact .value a s'' (hm.trans hrun) hx hs'' hlast hturns
  | refused e s'' hrun hx hend hturns => exact .refused e s'' (hm.trans hrun) hx hend hturns

theorem EndsAs.map (h : EndsAs tokens x m s) (g : α → β) :
    EndsAs tokens (x >>= fun a => pure (g a)) (m >>= fun a => pure (g a)) s := by
  cases h with
  | value a s' hrun hx hs' hlast hturns =>
    exact .value (g a) s' (bind_of_ok hrun) (by rw [hx]; rfl) hs' hlast hturns
  | refused e s' hrun hx hend hturns =>
    exact .refused e s' (bind_of_error hrun) (by rw [hx]; rfl) hend hturns

theorem atEnd_eq (s : TokenStream) : atEnd s = .ok s.tokens.isEmpty s :=
  rfl

theorem tokensRemain_nil (hs : s.tokens = []) : tokensRemain s = .ok none s := by
  rw [tokensRemain, bind_of_ok (atEnd_eq s), hs]
  rfl

theorem tokensRemain_cons {t : Token} {ts : List Token} (hs : s.tokens = t :: ts) :
    tokensRemain s = .ok (some ()) s := by
  rw [tokensRemain, bind_of_ok (atEnd_eq s), hs]
  rfl

/-- What comes after a whole turn of a loop is paid for. -/
theorem TokenStream.Reached.advance {name : Loop} (h : s.Reached tokens)
    (hleads : Leads 0 1 (s.counting name) s') : s'.Reached tokens := by
  refine ⟨h.taken.trans hleads.taken, fun loop => ?_⟩
  have hturns := h.turns loop
  have hpaid := hleads.paid loop
  have hcount := s.turns_counting_le name loop
  rw [TokenStream.tokens_counting] at hpaid
  omega

/-- A turn of an outer loop that is not finished has its own count and no other. -/
theorem TokenStream.Reached.turns_le {name : Loop} (h : s.Reached tokens) (hname : name.IsOuter)
    (hs : s.tokens ≠ []) (hleads : Leads 0 0 (s.counting name) s') (loop : Loop) :
    s'.turns loop ≤ tokens.length := by
  have hturns := h.turns loop
  by_cases heq : loop = name
  · have hpos := List.length_pos_iff.mpr hs
    rw [heq, hleads.outer name hname, TokenStream.turns_counting_self]
    rw [heq] at hturns
    omega
  · have hpaid := hleads.paid loop
    rw [TokenStream.turns_counting_of_ne s heq, TokenStream.tokens_counting] at hpaid
    omega

theorem many_of_error {step : (ts : List Token) → Step α ts} {t : Token} {ts : List Token}
    {e : GrammarError} (h : Step.plain (step (t :: ts)) = .error e) :
    Step.many step (t :: ts) = .error e := by
  rw [many_cons, h]
  rfl

theorem many_map_append {step : (ts : List Token) → Step α ts} {t : Token} {ts rest : List Token}
    {a : α} (h : Step.plain (step (t :: ts)) = .ok (a, rest)) (items : List α) :
    (Step.many step (t :: ts)).map (items ++ ·) =
      (Step.many step rest).map (items ++ [a] ++ ·) := by
  rw [many_cons, h]
  simp only [Bind.bind, Except.bind]
  cases Step.many step rest with
  | error e => rfl
  | ok xs => simp [Except.map, Pure.pure, Except.pure]

/-- A loop over constructs reads them up to the end of the tokens. -/
theorem loop_ends {name : Loop} {p : Procedure} {step : (ts : List Token) → Step p.Value ts}
    (hname : name.IsOuter) (howed : p.owed = 0)
    (hstep : ∀ ts, Step.plain (step ts) = p.read ts) (items : List p.Value) (s : TokenStream)
    (hs : s.Reached tokens) :
    EndsAs tokens ((Step.many step s.tokens).map (items ++ ·))
      (loop name tokensRemain (fun _ items => return items ++ [← p.run]) items) s := by
  cases hts : s.tokens with
  | nil =>
    refine .value items s (loop_of_none (tokensRemain_nil hts)) ?_ hts (hs.taken.last_eq hts)
      fun loop => ?_
    · rw [many_nil]
      simp [Except.map]
    · exact (Nat.le_add_right _ _).trans (hs.turns loop)
  | cons t ts =>
    have hbegins := tokensRemain_cons hts
    cases Procedure.run_yields p (s.counting name) howed.le with
    | refused e s' hrun hread hleads hend =>
      rw [TokenStream.tokens_counting, hts, ← hstep] at hread
      refine .refused e s' (loop_of_error hbegins (bind_of_error hrun)) ?_ (fun hnone => ?_)
        (hs.turns_le hname (by simp [hts]) hleads)
      · rw [many_of_error hread]
        rfl
      · exact ⟨hend hnone, (hs.taken.trans hleads.taken).last_eq (hend hnone)⟩
    | value a s' hrun hread hleads =>
      have hlt : s'.tokens.length < s.tokens.length := hleads.length_le
      have hturn : (do return items ++ [← p.run] : Reading (List p.Value)) (s.counting name) =
          .ok (items ++ [a]) s' := bind_of_ok hrun
      rw [TokenStream.tokens_counting, hts, ← hstep] at hread
      rw [many_map_append hread]
      exact (loop_ends hname howed hstep (items ++ [a]) s' (hs.advance hleads)).congr
        (loop_of_turn hbegins hturn hlt)
termination_by s.tokens.length

theorem many_ends {name : Loop} (p : Procedure) (step : (ts : List Token) → Step p.Value ts)
    (hname : name.IsOuter) (howed : p.owed = 0)
    (hstep : ∀ ts, Step.plain (step ts) = p.read ts) (tokens : List Token) :
    EndsAs tokens (Step.many step tokens) (many name p.run) (.ofTokens tokens) := by
  have hloop := loop_ends hname howed hstep [] (.ofTokens tokens)
    ⟨.refl _, fun _ => (Nat.zero_add _).le⟩
  have hnone : (Step.many step tokens).map ([] ++ ·) = Step.many step tokens := by
    cases Step.many step tokens <;> rfl
  rw [← hnone]
  exact hloop

theorem finish_nil {a : α} (hs : s.tokens = []) : finish a s = .ok a s := by
  rw [finish, get_bind, hs]
  rfl

theorem finish_cons {a : α} {t : Token} {ts : List Token} (hs : s.tokens = t :: ts) :
    finish a s = .error (.refused (.leftover t)) s := by
  rw [finish, get_bind, hs]
  rfl

theorem EndsAs.finish (h : EndsAs tokens x m s) : EndsAs tokens x (m >>= Reading.finish) s := by
  cases h with
  | value a s' hrun hx hs' hlast hturns =>
    exact .value a s' ((bind_of_ok hrun).trans (finish_nil hs')) hx hs' hlast hturns
  | refused e s' hrun hx hend hturns =>
    exact .refused e s' (bind_of_error hrun) hx hend hturns

theorem expression_ends (tokens : List Token) :
    EndsAs tokens (parse .expression tokens) (program .expression) (.ofTokens tokens) := by
  rw [parse_expression]
  cases Procedure.run_yields .expression (.ofTokens tokens) le_rfl with
  | refused e s' hrun hread hleads hend =>
    have hread : readExpr .assignment tokens = .error e := hread
    refine .refused e s' (bind_of_error (bind_of_error hrun)) (by rw [hread]; rfl) (fun hnone => ?_)
      fun loop => ?_
    · exact ⟨hend hnone, hleads.taken.last_eq (hend hnone)⟩
    · exact hleads.turns_le loop
  | value e s' hrun hread hleads =>
    have hread : readExpr .assignment tokens = .ok (e, s'.tokens) := hread
    have hturns := fun loop => hleads.turns_le loop
    have hdefinitions : definitions .expression (.ofTokens tokens) = .ok [.main [.ret e]] s' :=
      bind_of_ok hrun
    rw [hread]
    cases hs' : s'.tokens with
    | nil =>
      exact .value _ s' ((bind_of_ok hdefinitions).trans (finish_nil hs')) rfl hs'
        (hleads.taken.last_eq hs') hturns
    | cons t ts =>
      exact .refused _ s' ((bind_of_ok hdefinitions).trans (finish_cons hs')) rfl nofun hturns

/-- Every procedure takes tokens from the front of any stream and reads what the grammar says, and
a program is read to its end, or to an error, in no more turns of any loop than there are tokens.
Nothing is stalled: a call before a token was taken goes to a tighter procedure, and a turn of a
loop leaves fewer tokens. -/
theorem reading_never_stalls :
    (∀ (p : Procedure) (s : TokenStream), p.Advances s) ∧
      ∀ (dialect : Dialect) (tokens : List Token),
        EndsAs tokens (parse dialect tokens) (program dialect) (.ofTokens tokens) := by
  refine ⟨Procedure.advances, fun dialect tokens => ?_⟩
  cases dialect with
  | expression => exact expression_ends tokens
  | statements =>
    have hbody := many_ends .statement Step.statement (.inr rfl) rfl (fun _ => rfl) tokens
    exact (hbody.map fun body => [Function.main body]).finish
  | functions =>
    exact (many_ends .function Step.function (.inl rfl) rfl (fun _ => rfl) tokens).finish

/-- The block is broken off, and the turn that finds no token is counted. -/
example :
    (match program .functions (.ofTokens
        (["main", "(", ")", "\x7b", "1", "+", "2", ";"].map Token.written)) with
      | .ok _ _ => []
      | .error _ s => [s.turns .functions, s.turns .block, s.turns (.operators .additive)]) =
    [1, 2, 1] := by cbv

end Programs

end MiniC
