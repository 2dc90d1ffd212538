import MiniC.Proofs.Preservation.Statement

/-! The code of a program returns what the program evaluates to. -/
namespace MiniC

variable {p : Program} {listing code : List Line} {fuel : Nat} {frame : Frame} {base : Int64}
  {low need pc : Nat} {env : Env} {m : Machine}

/-- The frame is reserved below the saved frame pointer. -/
theorem reaches_prologue (hl : LinesAt listing pc (prologue frame))
    (hbase : base = m.regs .rsp - .ofNat 8) :
    ∃ m', Reaches listing ⟨pc, m⟩ ⟨pc + (prologue frame).length, m'⟩ ∧
      m'.mem = (m.push (m.regs .rbp)).mem ∧ m'.regs .rbp = base ∧
      m'.regs .rsp = base - .ofNat frame.byteSize ∧
      ∀ r ∈ argumentRegisters, m'.regs r = m.regs r := by
  let m₁ := (m.push (m.regs .rbp)).set .rbp base
  have hrsp : m₁.regs .rsp = base := by
    rw [Machine.regs_set_of_ne _ _ (by decide), Machine.regs_push_rsp, hbase]
  have hexec : m.execAll [.push .rbp, .mov .rbp .rsp] = some m₁ := by
    simp only [Machine.execAll, Instr.exec, Option.bind_some, Machine.regs_push_rsp, m₁, hbase]
  have hregs : ∀ r ∈ argumentRegisters, m₁.regs r = m.regs r := by
    intro r hr
    obtain ⟨hrsp, hrbp⟩ := argumentRegisters_ne hr
    rw [Machine.regs_set_of_ne _ _ hrbp, m.regs_push_of_ne _ hrsp]
  unfold prologue at hl ⊢
  have hreach : Reaches listing ⟨pc, m⟩ ⟨pc + 2, m₁⟩ := reaches_of_execAll hl.left hexec
  by_cases hsize : 0 < frame.byteSize
  · rw [if_pos hsize] at hl ⊢
    have hexec' : (Instr.subBytes .rsp frame.byteSize).exec m₁ =
        some (m₁.compute .rsp (base - .ofNat frame.byteSize)) := by
      rw [Instr.exec, hrsp]
    refine ⟨_, hreach.trans (reaches_of_exec hl.right hexec'), rfl, ?_,
      m₁.regs_compute_self _ _, ?_⟩
    · rw [m₁.regs_compute_of_ne _ (by decide)]
      exact Machine.regs_set_self _ _ _
    · intro r hr
      rw [m₁.regs_compute_of_ne _ (argumentRegisters_ne hr).1, hregs r hr]
  · rw [if_neg hsize]
    refine ⟨m₁, hreach, rfl, Machine.regs_set_self _ _ _, ?_, hregs⟩
    rw [hrsp, Nat.eq_zero_of_not_pos hsize]
    exact (Int64.sub_zero _).symm

/-- Spilling binds parameters, in order, to what their registers hold. -/
theorem reaches_spillCode {bindings : List (String × Reg)}
    (hcode : spillCode frame bindings = .ok code) (hl : LinesAt listing pc code)
    (hr : Ready frame base low need env m) :
    ∃ m', Reaches listing ⟨pc, m⟩ ⟨pc + code.length, m'⟩ ∧
      Settled frame base low (env.bind (bindings.map fun b => (b.1, m.regs b.2))) m m' := by
  induction bindings generalizing env m pc code with
  | nil =>
    rw [spillCode_nil hcode]
    exact ⟨m, .refl _ _, hr.settled⟩
  | cons b rest ih =>
    obtain ⟨param, reg⟩ := b
    obtain ⟨offset, later, ho, hlater, rfl⟩ := spillCode_cons hcode
    have hassign := hr.settled.assign hr ho (m.regs reg)
    have hexec : (Instr.spill offset reg).exec m =
        some (m.store (address base - offset) (m.regs reg)) := by
      simp only [Instr.exec, hr.holds.rbp, address_slot hr ho]
    obtain ⟨m', hreach, hs⟩ := ih hlater hl.tail (hassign.ready hr)
    refine ⟨m', ?_, hassign.trans hs⟩
    have hstep := (reaches_of_exec hl hexec).trans hreach
    rwa [Nat.add_right_comm, Nat.add_assoc] at hstep

theorem zip_argumentRegisters {params : List String} {args : List Int64}
    (hlength : params.length = args.length)
    (hargs : (argumentRegisters.take args.length).map m.regs = args) :
    (params.zip argumentRegisters).map (fun b => (b.1, m.regs b.2)) = params.zip args := by
  have htake : params.zip argumentRegisters =
      params.zip (argumentRegisters.take args.length) := by
    have hall : (params.zip argumentRegisters).take params.length = params.zip argumentRegisters :=
      List.take_of_length_le (by simp)
    rw [← hall]
    unfold List.zip
    rw [List.take_zipWith, List.take_length, hlength]
  rw [htake]
  nth_rewrite 2 [← hargs]
  rw [List.zip_map_right]
  rfl

theorem callPreserved_succ (hp : Preserved p listing fuel) (hlisting : Listing p listing) :
    CallPreserved p listing (fuel + 1) := by
  intro depth low callee args v m heval hargs hroom htop
  obtain ⟨inner, f, rfl, hfind, hlength, hbody⟩ := evalCall_eq_some heval
  have hmem := List.mem_of_find?_eq_some hfind
  obtain rfl : f.name = callee := by simpa using List.find?_some hfind
  obtain ⟨before, code, pc, hcode, hl⟩ := hlisting.function f hmem
  obtain ⟨-, spills, body, hspills, hbodycode, rfl⟩ := code_function hcode
  have hbytes := Program.stackBytes_of_mem hmem
  have hmul : (inner + 1) * p.stackBytes = inner * p.stackBytes + p.stackBytes := Nat.succ_mul _ _
  unfold Function.stackBytes at hbytes
  obtain ⟨base, hbase⟩ : ∃ base, base = m.regs .rsp - .ofNat 8 := ⟨_, rfl⟩
  have haddress : address base = m.top - 8 := by
    rw [hbase]
    exact address_sub (by unfold Machine.top at hroom; omega)
  have hpush : ∀ region : Nat → Prop, (∀ a, region a → a + 8 < m.top ∨ m.top ≤ a) →
      Memory.Keeps region m.mem (m.push (m.regs .rbp)).mem :=
    fun region hregion => Machine.keeps_push _ (by omega) hregion
  obtain ⟨m₁, hreach₁, hmem₁, hrbp, hrsp, hregs⟩ := reaches_prologue hl.tail.left hbase
  have htop₁ : m₁.top = address base - f.frame.byteSize := by
    unfold Machine.top
    rw [hrsp]
    exact address_sub (by omega)
  have hready : Ready f.frame base low (8 * Stmt.stackWordsOfAll f.body + inner * p.stackBytes)
      Env.empty m₁ :=
    ⟨f.consistent_frame, ⟨hrbp, fun name w hw => by cases hw⟩, by omega, by omega, by omega⟩
  obtain ⟨m₂, hreach₂, hs⟩ := reaches_spillCode hspills hl.tail.right.left hready
  rw [zip_argumentRegisters hlength (map_regs_congr hargs hregs)] at hs
  obtain ⟨⟨pc', m'⟩, hreach₃, hends⟩ :=
    hp.all hbody hbodycode hl.tail.right.right.left (hs.ready hready)
  obtain ⟨hpc, hleaves⟩ := hends.of_settled hs hready
  have hreturn : m₁.word (address base + 8) = m.word m.top := by
    rw [show address base + 8 = m.top by omega]
    have hkeeps := hpush (fun a => m.top ≤ a) fun a ha => .inr ha
    rw [← hmem₁] at hkeeps
    exact hkeeps.word_eq htop fun i _ => Nat.le_add_right _ _
  have hsaved : m₁.word (address base) = m.regs .rbp := by
    rw [Machine.word_congr hmem₁, hbase, ← m.regs_push_rsp (m.regs .rbp)]
    exact m.word_push_top _
  rw [hreturn] at hpc
  subst hpc
  refine ⟨pc, lineNumber?_entry hlisting.entries hl, m',
    ((((reaches_entry hl).trans hreach₁).trans hreach₂).trans hreach₃), ?_⟩
  refine ⟨hleaves.rax, ?_, hleaves.rbp.trans hsaved, ?_⟩
  · have hsixteen : Int64.ofNat 16 = .ofNat 8 + .ofNat 8 := rfl
    rw [hleaves.rsp, hbase, hsixteen, ← Int64.add_assoc, Int64.sub_add_cancel]
  · have hkeeps := hpush (fun a => a < low ∨ m.top ≤ a) (by omega)
    rw [← hmem₁] at hkeeps
    exact hkeeps.trans (hleaves.keeps.mono (by omega))

theorem preserved_zero : Preserved p listing 0 := by
  constructor
  · intro _ _ _ _ _ _ _ _ _ _ _ _ h
    cases h
  · intro _ _ _ _ _ _ _ _ _ _ _ _ h
    cases h
  · intro _ _ _ _ _ _ h
    cases h
  · intro _ _ _ _ _ _ _ _ _ _ _ h
    cases h
  · intro _ _ _ _ _ _ _ _ _ _ _ h
    cases h
  · intro _ _ _ _ _ _ _ _ _ _ _ _ _ _ _ _ _ _ h
    cases h

/-- The code of a program preserves all evaluations. -/
theorem preserved (hlisting : Listing p listing) (fuel : Nat) : Preserved p listing fuel := by
  induction fuel with
  | zero => exact preserved_zero
  | succ fuel ih =>
    exact ⟨exprPreserved_succ ih hlisting.fits, argumentsPreserved_succ ih,
      callPreserved_succ ih hlisting, stmtPreserved_succ ih hlisting.labels,
      allPreserved_succ ih, loopPreserved_succ ih hlisting.labels⟩

theorem LinesAt.append_left {part : List Line} (h : LinesAt code pc part) (first : List Line) :
    LinesAt (first ++ code) (first.length + pc) part := by
  obtain ⟨before, after, rfl, rfl⟩ := h
  exact ⟨first ++ before, after, by simp, by simp⟩

theorem linesAt_of_mem {before : ConstructCounts} (h : Program.codeAfter before p = .ok code)
    {f : Function} (hf : f ∈ p) :
    ∃ before' lines pc, f.code before' = .ok lines ∧ LinesAt code pc lines := by
  induction p generalizing before code with
  | nil => cases hf
  | cons g fs ih =>
    obtain ⟨first, rest, hfirst, hrest, rfl⟩ := codeAfter_cons h
    rcases List.mem_cons.mp hf with rfl | hf
    · exact ⟨before, first, 0, hfirst, [], rest, rfl, rfl⟩
    · obtain ⟨before', lines, pc, hlines, hat⟩ := ih hrest hf
      exact ⟨before', lines, _, hlines, hat.append_left first⟩

theorem listing_of_code (h : p.code = .ok code) (hn : p.counts.Numbered)
    (hnames : (p.map Function.name).Nodup) (hfits : code.length < 2 ^ 64) : Listing p code := by
  refine ⟨labelsOf_nodup h hn, ?_, hfits, fun f hf => linesAt_of_mem h hf⟩
  rw [entriesOf_codeAfter h]
  exact hnames

/-- A function of a program that is called with arguments in registers returns to its caller with
the value that the program evaluates to. It pops the return address, restores the frame pointer
and changes no memory but the stack below. -/
theorem code_preserves_evalCall (hcode : p.code = .ok code) (hn : p.counts.Numbered)
    (hnames : (p.map Function.name).Nodup) (hfits : code.length < 2 ^ 64) {depth : Nat}
    {callee : String} {args : List Int64} {v : Int64}
    (heval : p.evalCall fuel depth callee args = some v)
    (hargs : (argumentRegisters.take args.length).map m.regs = args)
    (hroom : depth * p.stackBytes ≤ m.top) (htop : m.top + 8 ≤ 2 ^ 64) :
    ∃ start m', lineNumber? code (.entry callee) = some start ∧
      Reaches code ⟨start, m⟩ ⟨address (m.word m.top), m'⟩ ∧
      m'.regs .rax = v ∧ m'.regs .rsp = m.regs .rsp + .ofNat 8 ∧ m'.regs .rbp = m.regs .rbp ∧
      ∀ a : UInt64, a.toNat < m.top - depth * p.stackBytes ∨ m.top ≤ a.toNat →
        m'.mem a = m.mem a := by
  have hpreserved := preserved (listing_of_code hcode hn hnames hfits) fuel
  have hlow : m.top - depth * p.stackBytes + depth * p.stackBytes ≤ m.top := by omega
  obtain ⟨start, hstart, m', hreach, hreturns⟩ := hpreserved.call heval hargs hlow htop
  exact ⟨start, m', hstart, hreach, hreturns.rax, hreturns.rsp, hreturns.rbp, hreturns.keeps⟩

/-- A recursive function. -/
def factorial : Program :=
  [⟨"factorial", ["n"],
    [.ifThen (.binary .le (.var "n") (.num 1)) (.ret (.num 1)),
      .ret (.binary .mul (.var "n") (.call "factorial" [.binary .sub (.var "n") (.num 1)]))]⟩]

/-- A machine that has just called a function with the argument 3. -/
def calling : Machine where
  regs
    | .rdi => 3
    | .rsp => 0x10000
    | _ => 0
  compared := none
  mem _ := 0

theorem factorial_returns : ∃ code start m', factorial.code = .ok code ∧
    lineNumber? code (.entry "factorial") = some start ∧
    Reaches code ⟨start, calling⟩ ⟨address (calling.word calling.top), m'⟩ ∧
    m'.regs .rax = 6 := by
  have hlength : factorial.code.toOption.map List.length = some 60 := by decide +kernel
  have hn : factorial.counts.Numbered := by
    intro k
    cases k <;> decide +kernel
  have heval : factorial.evalCall 24 3 "factorial" [3] = some 6 := by decide +kernel
  have hroom : 3 * factorial.stackBytes ≤ calling.top := by decide +kernel
  cases hcode : factorial.code with
  | error e =>
    rw [hcode] at hlength
    cases hlength
  | ok code =>
    rw [hcode] at hlength
    have hfits : code.length < 2 ^ 64 := by
      rw [Option.some.inj hlength]
      decide
    obtain ⟨start, m', hstart, hreach, hrax, -⟩ := code_preserves_evalCall hcode hn (by decide)
      hfits heval (m := calling) rfl hroom (by decide +kernel)
    exact ⟨code, start, m', rfl, hstart, hreach, hrax⟩

end MiniC
