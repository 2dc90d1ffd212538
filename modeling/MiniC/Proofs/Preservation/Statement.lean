import MiniC.Proofs.Preservation.Expression

/-! The code of a statement ends where its evaluation does. -/
namespace MiniC

variable {p : Program} {listing code : List Line} {fuel depth : Nat} {frame : Frame}
  {base : Int64} {low need pc next target : Nat} {env env' : Env} {v : Int64} {m m₁ : Machine}
  {e : Expr} {flow : Flow} {c : Config}

/-- What a statement does after some code is what it does after both. -/
theorem Ends.of_settled (h : Ends frame base low next m₁ flow c)
    (hs : Settled frame base low env' m m₁) (hr : Ready frame base low need env m) :
    Ends frame base low next m flow c := by
  have hbelow := hr.below
  have habove := hr.above
  cases flow with
  | next env₂ =>
    obtain ⟨hpc, hsettled⟩ := h
    exact ⟨hpc, hs.trans hsettled⟩
  | returned w =>
    obtain ⟨hpc, hleaves⟩ := h
    have hword : ∀ a, address base ≤ a → a + 8 ≤ 2 ^ 64 → m₁.word a = m.word a := by
      intro a ha hlt
      exact hs.keeps.word_eq hlt fun i hi => .inr ⟨by omega, .inr (by omega)⟩
    refine ⟨?_, hleaves.rax, hleaves.rsp, ?_, (hs.keeps.mono ?_).trans hleaves.keeps⟩
    · rw [hpc, hword _ (by omega) (by omega)]
    · rw [hleaves.rbp, hword _ le_rfl (by omega)]
    · intro a ha
      unfold Kept
      omega

theorem Ends.of_reaches (h : ∃ c, Reaches listing ⟨pc, m₁⟩ c ∧ Ends frame base low next m₁ flow c)
    {start : Config} (hreach : Reaches listing start ⟨pc, m₁⟩)
    (hs : Settled frame base low env' m m₁) (hr : Ready frame base low need env m) :
    ∃ c, Reaches listing start c ∧ Ends frame base low next m flow c := by
  obtain ⟨c, hc, hends⟩ := h
  exact ⟨c, hreach.trans hc, hends.of_settled hs hr⟩

/-- Lines that change nothing may follow a statement. -/
theorem Ends.go_on {next' : Nat} {start : Config}
    (h : ∃ c, Reaches listing start c ∧ Ends frame base low next m flow c)
    (hgo : ∀ m', Reaches listing ⟨next, m'⟩ ⟨next', m'⟩) :
    ∃ c, Reaches listing start c ∧ Ends frame base low next' m flow c := by
  obtain ⟨⟨pc', m'⟩, hc, hends⟩ := h
  cases flow with
  | next env' =>
    obtain ⟨hpc, hs⟩ := hends
    subst hpc
    exact ⟨⟨next', m'⟩, hc.trans (hgo m'), rfl, hs⟩
  | returned w => exact ⟨⟨pc', m'⟩, hc, hends⟩

theorem reaches_evaluateCode (hp : ExprPreserved p listing fuel)
    (heval : e.eval p fuel depth env = some (v, env')) (hcode : evaluateCode frame e = .ok code)
    (hl : LinesAt listing pc code)
    (hr : Ready frame base low need env m) (hn : 8 * e.stackWords + depth * p.stackBytes ≤ need) :
    ∃ m', Reaches listing ⟨pc, m⟩ ⟨pc + code.length, m'⟩ ∧
      Settled frame base low env' m m' ∧ m'.regs .rax = v := by
  obtain ⟨value, hvalue, rfl⟩ := evaluateCode_eq_ok hcode
  obtain ⟨m₁, hreach, hpush⟩ := hp heval hvalue hl.left (hr.mono hn)
  obtain ⟨hpop, hrax⟩ := hpush.pop (r := .rax) (by decide) (by decide)
  have hlpop := hl.right
  rw [List.length_map] at hlpop
  have hreach' : Reaches listing ⟨pc + value.length, m₁⟩ ⟨_, m₁.pop .rax⟩ :=
    reaches_of_exec hlpop rfl
  refine ⟨m₁.pop .rax, ?_, hpop, hrax⟩
  simpa [Nat.add_assoc] using hreach.trans hreach'

/-- A condition that is zero leads to a label, and another to the next line. -/
theorem reaches_conditionCode {l : Label} (hp : ExprPreserved p listing fuel)
    (heval : e.eval p fuel depth env = some (v, env')) (hcode : conditionCode frame e l = .ok code)
    (hl : LinesAt listing pc code) (ht : lineNumber? listing (.label l) = some target)
    (hr : Ready frame base low need env m) (hn : 8 * e.stackWords + depth * p.stackBytes ≤ need) :
    ∃ m', Reaches listing ⟨pc, m⟩ ⟨if v = 0 then target else pc + code.length, m'⟩ ∧
      Settled frame base low env' m m' := by
  obtain ⟨value, hvalue, rfl⟩ := conditionCode_eq_ok hcode
  obtain ⟨m₁, hreach, hsettled, hrax⟩ := reaches_evaluateCode hp heval hvalue hl.left hr hn
  have hexec : (Instr.cmpZero .rax).exec m₁ = some { m₁ with compared := some (v, 0) } := by
    rw [Instr.exec, hrax]
  have hcompare := reaches_of_exec hl.right hexec
  refine ⟨{ m₁ with compared := some (v, 0) }, ?_, hsettled.of_regs rfl rfl rfl⟩
  by_cases hv : v = 0
  · rw [if_pos hv]
    exact (hreach.trans hcompare).trans (reaches_je_eq hl.right.tail rfl hv ht)
  · rw [if_neg hv]
    have hall := (hreach.trans hcompare).trans (reaches_je_ne hl.right.tail rfl hv)
    simpa [Nat.add_assoc] using hall

theorem reaches_epilogue (hl : LinesAt listing pc epilogue)
    (hs : Settled frame base low env' m m₁) (hr : Ready frame base low need env m)
    (hrax : m₁.regs .rax = v) :
    ∃ c, Reaches listing ⟨pc, m₁⟩ c ∧ Ends frame base low next m (.returned v) c := by
  have habove := hr.above
  have hbase : (m₁.set .rsp base).top = address base := by
    unfold Machine.top
    rw [Machine.regs_set_self]
  let m₂ := (m₁.set .rsp base).pop .rbp
  have hexec : m₁.execAll [.mov .rsp .rbp, .pop .rbp] = some m₂ := by
    simp only [Machine.execAll, Instr.exec, Option.bind_some, hs.holds.rbp, m₂]
  have hpops : Reaches listing ⟨pc, m₁⟩ ⟨pc + 2, m₂⟩ := reaches_of_execAll hl.left hexec
  have hrsp : m₂.regs .rsp = base + .ofNat 8 := by
    rw [Machine.regs_pop_rsp _ (by decide), Machine.regs_set_self]
  have htop : m₂.top = address base + 8 := by
    unfold Machine.top
    rw [hrsp]
    exact address_add (by omega)
  have hrbp : m₂.regs .rbp = m₁.word (address base) := by
    rw [Machine.regs_pop_self, hbase]
    rfl
  have hret := hpops.trans (reaches_ret hl.tail.tail)
  refine Ends.of_reaches ⟨_, hret, ?_⟩ (.refl _ _) hs hr
  refine ⟨?_, ?_, ?_, ?_, ?_⟩
  · rw [htop]
    rfl
  · rw [Machine.regs_set_of_ne _ _ (by decide), Machine.regs_pop_of_ne _ (by decide) (by decide),
      Machine.regs_set_of_ne _ _ (by decide), hrax]
  · rw [Machine.regs_set_self, hrsp, Int64.add_assoc]
    rfl
  · rw [Machine.regs_set_of_ne _ _ (by decide), hrbp]
  · exact .refl _ _

theorem length_loopLines (first last : Label) (test inner after : List Line) :
    (loopLines first last test inner after).length =
      1 + test.length + inner.length + after.length + 2 := by
  simp [loopLines]
  omega

theorem reaches_stepCode {step : Option Expr} (hp : ExprPreserved p listing fuel)
    (heval : Stmt.evalStep p fuel depth env step = some env')
    (hcode : stepCode frame step = .ok code) (hl : LinesAt listing pc code)
    (hr : Ready frame base low need env m)
    (hn : ∀ e ∈ step, 8 * e.stackWords + depth * p.stackBytes ≤ need) :
    ∃ m', Reaches listing ⟨pc, m⟩ ⟨pc + code.length, m'⟩ ∧ Settled frame base low env' m m' := by
  cases step with
  | none =>
    obtain rfl := Except.ok.inj hcode
    obtain rfl := Option.some.inj heval
    exact ⟨m, .refl _ _, hr.settled⟩
  | some e =>
    obtain ⟨⟨w, env₁⟩, he, rfl⟩ := Option.map_eq_some_iff.mp heval
    obtain ⟨m₁, hreach, hsettled, -⟩ := reaches_evaluateCode hp he hcode hl hr (hn e rfl)
    exact ⟨m₁, hreach, hsettled⟩

theorem loopPreserved_succ (hp : Preserved p listing fuel) (hlisting : (labelsOf listing).Nodup) :
    LoopPreserved p listing (fuel + 1) := by
  intro depth words frame base low pc before env cond body step flow first last test inner after m
    heval htest hinner hafter hl hcond hbody hstep hr
  have hlines := length_loopLines first last test inner after
  have hltest := hl.tail.left
  have hlinner := hl.tail.right.left
  have hlafter := hl.tail.right.right.left
  have hljmp := hl.tail.right.right.right
  have hbegin := lineNumber?_label hlisting hl
  have hend := lineNumber?_label hlisting hljmp.tail
  obtain ⟨w, mid, hw, hflow⟩ := evalLoop_eq_some heval
  obtain ⟨m₁, hreach, hs⟩ := reaches_conditionCode hp.expr hw htest hltest hend hr (by omega)
  have hreach₁ := (reaches_label hl).trans hreach
  have hr₁ := hs.ready hr
  rcases hflow with ⟨hzero, rfl⟩ | ⟨hne, ends, hends, hflow⟩
  · rw [if_pos hzero] at hreach₁
    refine ⟨_, hreach₁.trans (reaches_label hljmp.tail), ?_, hs⟩
    rw [hlines]
    ring
  · rw [if_neg hne] at hreach₁
    have hbodyends := hp.stmt hends hinner hlinner (hr₁.mono (by omega))
    rcases hflow with ⟨v, rfl, rfl⟩ | ⟨env₁, env₂, rfl, hafter', hloop⟩
    · exact Ends.of_reaches hbodyends hreach₁ hs hr
    · obtain ⟨⟨pc₂, m₂⟩, hreach₂, hpc₂, hs₂⟩ := hbodyends
      subst hpc₂
      have hr₂ := hs₂.ready hr₁
      obtain ⟨m₃, hreach₃, hs₃⟩ := reaches_stepCode hp.expr hafter' hafter hlafter hr₂ fun e he =>
        Nat.add_le_add_right (Nat.mul_le_mul_left 8 (hstep e he)) _
      have hback := hreach₃.trans (reaches_jmp hljmp hbegin)
      have hall := hp.loop hloop htest hinner hafter hl hcond hbody hstep (hs₃.ready hr₂)
      exact Ends.of_reaches hall ((hreach₁.trans hreach₂).trans hback)
        ((hs.trans hs₂).trans hs₃) hr

theorem stmtPreserved_succ (hp : Preserved p listing fuel) (hlisting : (labelsOf listing).Nodup) :
    StmtPreserved p listing (fuel + 1) := by
  intro depth frame base low pc before env s flow code m heval hcode hl hr
  cases s with
  | expr e =>
    obtain ⟨w, env', he, rfl⟩ := eval_expr heval
    rw [Stmt.stackWords] at hr
    obtain ⟨m₁, hreach, hs, -⟩ := reaches_evaluateCode hp.expr he (code_expr hcode) hl hr le_rfl
    exact ⟨_, hreach, rfl, hs⟩
  | ret e =>
    obtain ⟨w, env', he, rfl⟩ := eval_ret heval
    obtain ⟨value, hvalue, rfl⟩ := code_ret hcode
    rw [Stmt.stackWords] at hr
    obtain ⟨m₁, hreach, hs, hrax⟩ := reaches_evaluateCode hp.expr he hvalue hl.left hr le_rfl
    obtain ⟨c, hreach', hends⟩ := reaches_epilogue hl.right hs hr hrax
    exact ⟨c, hreach.trans hreach', hends⟩
  | ifThen cond body =>
    obtain ⟨w, mid, hw, hflow⟩ := eval_ifThen heval
    obtain ⟨test, inner, htest, hinner, hlines⟩ := code_ifThen hcode
    have hnext : pc + code.length = pc + test.length + inner.length + 1 := by
      simp [hlines, Nat.add_assoc]
    rw [Stmt.stackWords] at hr
    rw [hlines] at hl
    rw [hnext]
    have hlend := hl.right.right
    have hend := lineNumber?_label hlisting hlend
    obtain ⟨m₁, hreach, hs⟩ := reaches_conditionCode hp.expr hw htest hl.left hend hr (by omega)
    rcases hflow with ⟨hzero, rfl⟩ | ⟨hne, hbody⟩
    · rw [if_pos hzero] at hreach
      exact ⟨_, hreach.trans (reaches_label hlend), rfl, hs⟩
    · rw [if_neg hne] at hreach
      have hends := hp.stmt hbody hinner hl.right.left ((hs.ready hr).mono (by omega))
      exact Ends.go_on (Ends.of_reaches hends hreach hs hr) fun _ => reaches_label hlend
  | ifElse cond body otherwise =>
    obtain ⟨w, mid, hw, hflow⟩ := eval_ifElse heval
    obtain ⟨test, inner, other, htest, hinner, hother, hlines⟩ := code_ifElse hcode
    have hnext : pc + code.length =
        pc + test.length + inner.length + 1 + 1 + other.length + 1 := by
      simp [hlines]
      ring
    rw [Stmt.stackWords] at hr
    rw [hlines] at hl
    rw [hnext]
    have hljmp := hl.right.right
    have hlother := hljmp.tail.tail
    have helse := lineNumber?_label hlisting hljmp.tail
    have hend := lineNumber?_label hlisting hlother.right
    obtain ⟨m₁, hreach, hs⟩ := reaches_conditionCode hp.expr hw htest hl.left helse hr (by omega)
    have hr₁ := hs.ready hr
    rcases hflow with ⟨hzero, hbody⟩ | ⟨hne, hbody⟩
    · rw [if_pos hzero] at hreach
      have hends := hp.stmt hbody hother hlother.left (hr₁.mono (by omega))
      exact Ends.go_on
        (Ends.of_reaches hends (hreach.trans (reaches_label hljmp.tail)) hs hr)
        fun _ => reaches_label hlother.right
    · rw [if_neg hne] at hreach
      have hends := hp.stmt hbody hinner hl.right.left (hr₁.mono (by omega))
      exact Ends.go_on (Ends.of_reaches hends hreach hs hr)
        fun _ => (reaches_jmp hljmp hend).trans (reaches_label hlother.right)
  | whileLoop cond body =>
    obtain ⟨test, inner, htest, hinner, rfl⟩ := code_whileLoop hcode
    rw [Stmt.stackWords] at hr
    exact hp.loop (eval_whileLoop heval) htest hinner rfl hl (le_max_left _ _) (le_max_right _ _)
      (by simp) hr
  | forLoop init cond step body =>
    obtain ⟨w, mid, hw, hloop⟩ := eval_forLoop heval
    obtain ⟨start, test, inner, after, hstart, htest, hinner, hafter, rfl⟩ := code_forLoop hcode
    rw [Stmt.stackWords] at hr
    obtain ⟨m₁, hreach, hs, -⟩ := reaches_evaluateCode hp.expr hw hstart hl.left hr (by omega)
    have hends := hp.loop hloop htest hinner hafter hl.right (by omega) (by omega)
      (by simp) (hs.ready hr)
    rw [List.length_append, ← Nat.add_assoc]
    exact Ends.of_reaches hends hreach hs hr
  | block body =>
    rw [Stmt.stackWords] at hr
    exact hp.all (eval_block heval) (code_block hcode) hl hr

theorem allPreserved_succ (hp : Preserved p listing fuel) : AllPreserved p listing (fuel + 1) := by
  intro depth frame base low pc before env ss flow code m heval hcode hl hr
  cases ss with
  | nil =>
    obtain rfl := evalAll_nil heval
    rw [codeOfAll_nil hcode]
    exact ⟨_, .refl _ _, rfl, hr.settled⟩
  | cons s ss =>
    obtain ⟨first, rest, hfirst, hrest, rfl⟩ := codeOfAll_cons hcode
    rw [Stmt.stackWordsOfAll] at hr
    rcases evalAll_cons heval with ⟨v, hv, rfl⟩ | ⟨mid, hmid, hall⟩
    · obtain ⟨c, hreach, hends⟩ := hp.stmt hv hfirst hl.left (hr.mono (by omega))
      exact ⟨c, hreach, hends⟩
    · obtain ⟨⟨pc', m₁⟩, hreach, hpc', hs⟩ := hp.stmt hmid hfirst hl.left (hr.mono (by omega))
      subst hpc'
      have hends := hp.all hall hrest hl.right ((hs.ready hr).mono (by omega))
      rw [List.length_append, ← Nat.add_assoc]
      exact Ends.of_reaches hends hreach hs hr

end MiniC
