import MiniC.Proofs.Grammar.Continuation
import MiniC.Proofs.Grammar.TokenStream

/-! Reading makes progress.

A token that is taken pays for one turn of each loop. What a procedure does to the stream is stated
with this account: on success at least one token is left over, so that the procedures that are
called later, and the next turn of a loop, find fewer tokens. -/
namespace MiniC

open Reading

/-- The loops over the constructs of a program, which no procedure has. -/
def Loop.IsOuter (loop : Loop) : Prop :=
  loop = .functions ∨ loop = .statements

namespace TokenStream

/-- Tokens were taken from the front of the first stream, the last of which is remembered, and the
others are left. -/
def Took (s s' : TokenStream) : Prop :=
  ∃ used, s.tokens = used ++ s'.tokens ∧ s'.last = used.getLast?.or s.last

theorem Took.refl (s : TokenStream) : s.Took s :=
  ⟨[], rfl, rfl⟩

theorem Took.trans {s s₁ s₂ : TokenStream} (h : s.Took s₁) (h' : s₁.Took s₂) : s.Took s₂ := by
  obtain ⟨used, htokens, hlast⟩ := h
  obtain ⟨used', htokens', hlast'⟩ := h'
  refine ⟨used ++ used', ?_, ?_⟩
  · rw [htokens, htokens', List.append_assoc]
  · rw [hlast', hlast, List.getLast?_append, Option.or_assoc]

/-- Where all tokens were taken, it was the last of them that was taken last. -/
theorem Took.last_eq {tokens : List Token} {s : TokenStream} (h : (ofTokens tokens).Took s)
    (hs : s.tokens = []) : s.last = tokens.getLast? := by
  obtain ⟨used, htokens, hlast⟩ := h
  rw [hs, List.append_nil] at htokens
  rw [hlast, ← htokens]
  exact Option.or_none

/-- From one stream to a later one: some tokens were taken, and they pay for the turns that were
begun, up to `owed` turns and with `saved` tokens left over. -/
structure Leads (owed saved : Nat) (s s' : TokenStream) : Prop where
  taken : s.Took s'
  added : ∀ loop, s.turns loop ≤ s'.turns loop
  paid : ∀ loop, s'.turns loop + s'.tokens.length + saved ≤
    s.turns loop + s.tokens.length + owed
  outer : ∀ loop, loop.IsOuter → s'.turns loop = s.turns loop

namespace Leads

variable {owed saved owed' saved' : Nat} {s s₁ s₂ : TokenStream} {t : Token} {ts : List Token}

theorem refl (s : TokenStream) : Leads 0 0 s s :=
  ⟨Took.refl s, fun _ => le_rfl, fun _ => le_rfl, fun _ _ => rfl⟩

/-- What was saved can pay for what is owed. -/
theorem mono (h : Leads owed saved s s₁) (hle : owed + saved' ≤ owed' + saved) :
    Leads owed' saved' s s₁ := by
  refine ⟨h.taken, h.added, fun loop => ?_, h.outer⟩
  have hpaid := h.paid loop
  omega

theorem trans (h : Leads owed saved s s₁) (h' : Leads owed' saved' s₁ s₂) :
    Leads (owed + owed') (saved + saved') s s₂ := by
  refine ⟨h.taken.trans h'.taken, fun loop => (h.added loop).trans (h'.added loop),
    fun loop => ?_, fun loop hloop => ?_⟩
  · have hpaid := h.paid loop
    have hpaid' := h'.paid loop
    omega
  · rw [h'.outer loop hloop, h.outer loop hloop]

theorem length_le (h : Leads 0 saved s s₁) : s₁.tokens.length + saved ≤ s.tokens.length := by
  have hadded := h.added .block
  have hpaid := h.paid .block
  omega

theorem turns_le {tokens : List Token} (h : Leads 0 saved (ofTokens tokens) s) (loop : Loop) :
    s.turns loop ≤ tokens.length := by
  have hpaid : s.turns loop + s.tokens.length + saved ≤ 0 + tokens.length + 0 := h.paid loop
  omega

theorem taking (h : s.tokens = t :: ts) : Leads 0 1 s (s.taking t ts) := by
  refine ⟨⟨[t], h, rfl⟩, fun _ => le_rfl, fun loop => ?_, fun _ _ => rfl⟩
  rw [h]
  exact le_rfl

/-- A turn of an inner loop is owed. -/
theorem counting {loop : Loop} (h : ¬ loop.IsOuter) (s : TokenStream) :
    Leads 1 0 s (s.counting loop) := by
  refine ⟨Took.refl s, turns_counting_ge s loop, fun other => ?_, fun other hother => ?_⟩
  · have hle := turns_counting_le s loop other
    rw [tokens_counting]
    omega
  · refine turns_counting_of_ne s ?_
    rintro rfl
    exact h hother

end Leads

end TokenStream

open TokenStream (Leads)

variable {α β γ σ : Type}

theorem bind_of_ok {m : Reading α} {f : α → Reading γ} {s s' : TokenStream} {a : α}
    (h : m s = .ok a s') : (m >>= f) s = f a s' := by
  show EStateM.bind m f s = f a s'
  rw [EStateM.bind, h]

theorem bind_of_error {m : Reading α} {f : α → Reading γ} {s s' : TokenStream} {halt : Halt}
    (h : m s = .error halt s') : (m >>= f) s = .error halt s' := by
  show EStateM.bind m f s = .error halt s'
  rw [EStateM.bind, h]

theorem get_bind (f : TokenStream → Reading α) (s : TokenStream) : (get >>= f) s = f s s :=
  rfl

theorem modify_bind (g : TokenStream → TokenStream) (f : PUnit → Reading α) (s : TokenStream) :
    (modify g >>= f) s = f ⟨⟩ (g s) :=
  rfl

/-- The reading `m` does its part of the result `x` on the stream `s`: it has a value, and `x` is
what comes of `k` from there, or it refuses the tokens as `x` does. It is never stalled. An error
about the end of the tokens comes where none remains. -/
inductive Performs (owed saved : Nat) (x : Except GrammarError (β × List Token))
    (m : Reading α) (s : TokenStream) (k : α → List Token → Except GrammarError (β × List Token)) :
    Prop where
  | value (a : α) (s' : TokenStream) : m s = .ok a s' → x = k a s'.tokens →
      Leads 0 saved s s' → Performs owed saved x m s k
  | refused (e : GrammarError) (s' : TokenStream) : m s = .error (.refused e) s' → x = .error e →
      Leads owed 0 s s' → (e.culprit = none → s'.tokens = []) → Performs owed saved x m s k

/-- The reading does all of `x`. -/
abbrev Yields (owed saved : Nat) (x : Except GrammarError (α × List Token)) (m : Reading α)
    (s : TokenStream) : Prop :=
  Performs owed saved x m s fun a rest => .ok (a, rest)

variable {owed saved owed' saved' : Nat} {x : Except GrammarError (β × List Token)}
  {m : Reading α} {s s' : TokenStream} {k : α → List Token → Except GrammarError (β × List Token)}

namespace Performs

theorem congr {m' : Reading α} (h : Performs owed saved x m' s k) (hm : m s = m' s) :
    Performs owed saved x m s k := by
  cases h with
  | value a s' hrun hx hleads => exact .value a s' (hm.trans hrun) hx hleads
  | refused e s' hrun hx hleads hend => exact .refused e s' (hm.trans hrun) hx hleads hend

theorem mono (h : Performs owed saved x m s k) (howed : owed ≤ owed') (hsaved : saved' ≤ saved) :
    Performs owed' saved' x m s k := by
  cases h with
  | value a s' hrun hx hleads => exact .value a s' hrun hx (hleads.mono (by omega))
  | refused e s' hrun hx hleads hend => exact .refused e s' hrun hx (hleads.mono (by omega)) hend

theorem unsaved (h : Performs owed saved x m s k) : Performs owed 0 x m s k :=
  h.mono le_rfl (Nat.zero_le saved)

theorem pure (a : α) (hx : x = k a s.tokens) : Performs owed 0 x (Pure.pure a) s k :=
  .value a s rfl hx (Leads.refl s)

theorem throw {e : GrammarError} (hx : x = .error e) (hend : e.culprit = none → s.tokens = []) :
    Performs owed saved x (MonadExcept.throw (Halt.refused e)) s k :=
  .refused e s rfl hx ((Leads.refl s).mono (Nat.zero_le _)) hend

theorem refuse {what : Expected} (hx : x = .error (.expected what s.tokens.head?)) :
    Performs owed saved x (Reading.refuse what) s k := by
  refine .refused (.expected what s.tokens.head?) s rfl hx
    ((Leads.refl s).mono (Nat.zero_le _)) fun hhead => ?_
  exact List.head?_eq_none_iff.mp hhead

/-- A reading that does all of its part is followed by what comes next. -/
theorem andThen {y : Except GrammarError (α × List Token)}
    {f : α × List Token → Except GrammarError (β × List Token)} (h : Yields owed saved y m s) :
    Performs owed saved (y >>= f) m s fun a rest => f (a, rest) := by
  cases h with
  | value a s' hrun hy hleads => exact .value a s' hrun (by rw [hy]; rfl) hleads
  | refused e s' hrun hy hleads hend => exact .refused e s' hrun (by rw [hy]; rfl) hleads hend

/-- What was saved on the way to a later stream pays for what is done from there. -/
theorem later {m' : Reading α} {all : Nat} (hm : m s = m' s') (hleads : Leads 0 saved s s')
    (h : Performs (owed + saved) (all - saved) x m' s' k) : Performs owed all x m s k := by
  cases h with
  | value a s'' hrun hx hleads' =>
    exact .value a s'' (hm.trans hrun) hx ((hleads.trans hleads').mono (by omega))
  | refused e s'' hrun hx hleads' hend =>
    exact .refused e s'' (hm.trans hrun) hx ((hleads.trans hleads').mono (by omega)) hend

theorem step {a : α} {f : α → Reading γ} {all : Nat}
    {k' : γ → List Token → Except GrammarError (β × List Token)} (hrun : m s = .ok a s')
    (hleads : Leads 0 saved s s') (h : Performs (owed + saved) (all - saved) x (f a) s' k') :
    Performs owed all x (m >>= f) s k' :=
  later (bind_of_ok hrun) hleads h

theorem bind {f : α → Reading γ} {all : Nat}
    {k' : γ → List Token → Except GrammarError (β × List Token)} (h : Performs owed saved x m s k)
    (hf : ∀ a s', Leads 0 saved s s' →
      Performs (owed + saved) (all - saved) (k a s'.tokens) (f a) s' k') :
    Performs owed all x (m >>= f) s k' := by
  cases h with
  | value a s' hrun hx hleads =>
    rw [hx]
    exact step hrun hleads (hf a s' hleads)
  | refused e s' hrun hx hleads hend =>
    exact .refused e s' (bind_of_error hrun) hx hleads hend

end Performs

section Yields

variable {y : Except GrammarError (α × List Token)}

/-- What a reading does is followed by what comes next. -/
theorem Yields.bind {f : α → Reading γ} {all : Nat}
    {g : α × List Token → Except GrammarError (β × List Token)}
    {k' : γ → List Token → Except GrammarError (β × List Token)} (h : Yields owed saved y m s)
    (hf : ∀ a s', Leads 0 saved s s' →
      Performs (owed + saved) (all - saved) (g (a, s'.tokens)) (f a) s' k') :
    Performs owed all (y >>= g) (m >>= f) s k' :=
  h.andThen.bind hf

/-- Only the value is used further. -/
theorem Yields.map (h : Yields owed saved y m s) (g : α → γ) :
    Yields owed saved (y.map fun p => (g p.1, p.2)) (m >>= fun a => Pure.pure (g a)) s := by
  have hmap : (y.map fun p => (g p.1, p.2)) = y >>= fun p => .ok (g p.1, p.2) := by
    cases y <;> rfl
  rw [hmap]
  refine h.bind fun a s' _ => ?_
  rw [Nat.sub_self]
  exact .pure (g a) rfl

end Yields

section Primitives

variable {t : Token} {ts : List Token} {text : String} {f : Option α → Reading γ}
  {x : Except GrammarError (β × List Token)}
  {k : γ → List Token → Except GrammarError (β × List Token)}

theorem take?_of_some {meaning : Token → Option α} {a : α} (hs : s.tokens = t :: ts)
    (ha : meaning t = some a) : take? meaning s = .ok (some a) (s.taking t ts) := by
  rw [take?, get_bind, hs]
  simp only [ha]
  rfl

theorem take?_of_none {meaning : Token → Option α} (h : ∀ t ∈ s.tokens.head?, meaning t = none) :
    take? meaning s = .ok none s := by
  rw [take?, get_bind]
  cases hs : s.tokens with
  | nil => rfl
  | cons t ts =>
    simp only [h t (by simp [hs])]
    rfl

theorem means_or_not (meaning : Token → Option α) (ts : List Token) :
    (∃ t us a, ts = t :: us ∧ meaning t = some a) ∨ ∀ t ∈ ts.head?, meaning t = none := by
  cases ts with
  | nil => exact .inr (by simp)
  | cons t us =>
    cases ha : meaning t with
    | none => exact .inr (by simpa using ha)
    | some a => exact .inl ⟨t, us, a, rfl, ha⟩

/-- The first token is taken, and pays for what follows, or nothing is. -/
theorem performs_take? {meaning : Token → Option α}
    (hsome : ∀ t ts a, s.tokens = t :: ts → meaning t = some a →
      Performs (owed + 1) (saved - 1) x (f (some a)) (s.taking t ts) k)
    (hnone : (∀ t ∈ s.tokens.head?, meaning t = none) → Performs owed saved x (f none) s k) :
    Performs owed saved x (take? meaning >>= f) s k := by
  rcases means_or_not meaning s.tokens with ⟨t, ts, a, hs, ha⟩ | h
  · exact .step (take?_of_some hs ha) (.taking hs) (hsome t ts a hs ha)
  · exact .step (take?_of_none h) (Leads.refl s) (hnone h)

theorem accept?_of_eq (hs : s.tokens = t :: ts) (ht : t.text = text) :
    accept? text s = .ok (some ()) (s.taking t ts) :=
  take?_of_some hs (if_pos ht)

theorem accept?_of_ne (h : ∀ t ∈ s.tokens.head?, t.text ≠ text) : accept? text s = .ok none s :=
  take?_of_none fun t ht => if_neg (h t ht)

theorem performs_accept? {f : Option Unit → Reading γ}
    (hsome : ∀ t ts, s.tokens = t :: ts → t.text = text →
      Performs (owed + 1) (saved - 1) x (f (some ())) (s.taking t ts) k)
    (hnone : (∀ t ∈ s.tokens.head?, t.text ≠ text) → Performs owed saved x (f none) s k) :
    Performs owed saved x (accept? text >>= f) s k := by
  rcases begins_or_not text s.tokens with ⟨t, ts, hs, ht⟩ | h
  · exact .step (accept?_of_eq hs ht) (.taking hs) (hsome t ts hs ht)
  · exact .step (accept?_of_ne h) (Leads.refl s) (hnone h)

theorem performs_word? {f : Option Token → Reading γ}
    (hsome : ∀ t ts, s.tokens = t :: ts → Token.isWord t.text →
      Performs (owed + 1) (saved - 1) x (f (some t)) (s.taking t ts) k)
    (hnone : (∀ t ∈ s.tokens.head?, Token.isWord t.text = false) →
      Performs owed saved x (f none) s k) :
    Performs owed saved x (word? >>= f) s k := by
  refine performs_take? (fun t ts a hs ha => ?_) fun h => hnone fun t ht => ?_
  · by_cases hword : Token.isWord t.text
    · obtain rfl : t = a := by simpa [hword] using ha
      exact hsome t ts hs hword
    · simp [hword] at ha
  · simpa using h t ht

theorem performs_atEnd {f : Bool → Reading γ}
    (hend : s.tokens = [] → Performs owed saved x (f true) s k)
    (hgo : s.tokens ≠ [] → Performs owed saved x (f false) s k) :
    Performs owed saved x (atEnd >>= f) s k := by
  have hrun : atEnd s = .ok s.tokens.isEmpty s := rfl
  cases hs : s.tokens with
  | nil => exact .step (by rw [hrun, hs]; rfl) (Leads.refl s) (hend hs)
  | cons t ts => exact .step (by rw [hrun, hs]; rfl) (Leads.refl s) (hgo (by simp [hs]))

theorem blockGoesOn_of_eq (hs : s.tokens = t :: ts) (ht : t.text = "\x7d") :
    Procedure.blockGoesOn s = .ok none (s.taking t ts) :=
  bind_of_ok (accept?_of_eq hs ht)

theorem blockGoesOn_of_ne (h : ∀ t ∈ s.tokens.head?, t.text ≠ "\x7d") :
    Procedure.blockGoesOn s = .ok (some ()) s :=
  bind_of_ok (accept?_of_ne h)

theorem symbol_yields (text : String) (owed : Nat) (s : TokenStream) :
    Yields owed 1 (readSymbol text s.tokens) (symbol text) s := by
  refine performs_accept? (fun t ts hs ht => ?_) fun h => .refuse ?_
  · exact .pure () (by rw [hs, readSymbol_cons_of_eq ht]; rfl)
  · cases hs : s.tokens with
    | nil => rfl
    | cons t ts => exact readSymbol_cons_of_ne (h t (by simp [hs]))

theorem identifier_yields (owed : Nat) (s : TokenStream) :
    Yields owed 1 (readIdentifier s.tokens) identifier s := by
  refine performs_word? (fun t ts hs ht => ?_) fun h => .refuse (readIdentifier_of_not_isWord h)
  exact .pure t (by rw [hs, readIdentifier_cons_of_isWord ht]; rfl)

theorem number_of_readNumber {v : Int64} (h : readNumber s.tokens = .ok (v, ts))
    (hs : s.tokens = t :: ts) : number s = .ok v (s.taking t ts) := by
  have htake : take? some s = .ok (some t) (s.taking t ts) := take?_of_some hs rfl
  rw [number, get_bind]
  simp only [h]
  rw [bind_of_ok htake]
  rfl

theorem number_yields (owed : Nat) (s : TokenStream) :
    Yields owed 1 (readNumber s.tokens) number s := by
  cases h : readNumber s.tokens with
  | ok p =>
    obtain ⟨v, rest⟩ := p
    obtain ⟨t, _, hs, -⟩ := of_readNumber h
    exact .value v (s.taking t rest) (number_of_readNumber h hs) rfl (.taking hs)
  | error e =>
    refine Performs.congr (.throw rfl fun he => eq_nil_of_readNumber ⟨e, h, he⟩) ?_
    rw [number, get_bind]
    simp only [h]

end Primitives

section Loops

variable {name : Loop} {begins : Reading (Option γ)} {turn : γ → σ → Reading σ}

theorem loop_unrolled (z : σ) (s : TokenStream) :
    loop name begins turn z s =
      (do
        match ← begins with
        | none => return z
        | some c =>
          modify (.counting name)
          let z' ← turn c z
          fewerThan s fun s' _ => loop name begins turn z' s' : Reading σ) s :=
  loop.eq_1 name begins turn z s

theorem loop_of_none {z : σ} (hbegins : begins s = .ok none s') :
    loop name begins turn z s = .ok z s' := by
  rw [loop_unrolled, bind_of_ok hbegins]
  rfl

theorem loop_of_turn {c : γ} {z z' : σ} {s₁ s₂ : TokenStream}
    (hbegins : begins s = .ok (some c) s₁) (hturn : turn c z (s₁.counting name) = .ok z' s₂)
    (hlt : s₂.tokens.length < s.tokens.length) :
    loop name begins turn z s = loop name begins turn z' s₂ := by
  rw [loop_unrolled, bind_of_ok hbegins]
  dsimp only
  rw [modify_bind, bind_of_ok hturn]
  exact dif_pos hlt

theorem loop_of_error {c : γ} {z : σ} {halt : Halt} {s₁ s₂ : TokenStream}
    (hbegins : begins s = .ok (some c) s₁)
    (hturn : turn c z (s₁.counting name) = .error halt s₂) :
    loop name begins turn z s = .error halt s₂ := by
  rw [loop_unrolled, bind_of_ok hbegins]
  dsimp only
  rw [modify_bind, bind_of_error hturn]

/-- What a loop does in one turn on the way to what `part` says: it ends, or it begins a turn that
something pays for, and leaves the rest to the turns after it. -/
inductive Turns (name : Loop) (begins : Reading (Option γ)) (turn : γ → σ → Reading σ)
    (owed saved : Nat) (part : σ → List Token → Except GrammarError (β × List Token))
    (k : σ → List Token → Except GrammarError (β × List Token)) (z : σ) (s : TokenStream) :
    Prop where
  | stop (s' : TokenStream) : begins s = .ok none s' → Leads 0 saved s s' →
      part z s.tokens = k z s'.tokens → Turns name begins turn owed saved part k z s
  | go (c : γ) (s' : TokenStream) (paid rest : Nat) : begins s = .ok (some c) s' →
      Leads 0 paid s s' → owed + paid = rest + 1 →
      Performs rest 1 (part z s.tokens) (turn c z) (s'.counting name) part →
      Turns name begins turn owed saved part k z s

variable {part k : σ → List Token → Except GrammarError (β × List Token)}

/-- A loop does its part if every turn does, whatever was read before. -/
theorem performs_loop (hname : ¬ name.IsOuter) (n : Nat)
    (hturns : ∀ z s, s.tokens.length ≤ n → Turns name begins turn owed saved part k z s) (z : σ)
    (s : TokenStream) (hs : s.tokens.length ≤ n) :
    Performs owed saved (part z s.tokens) (loop name begins turn z) s k := by
  induction n using Nat.strong_induction_on generalizing z s with
  | h n ih =>
  cases hturns z s hs with
  | stop s' hbegins hleads hpart => exact .value z s' (loop_of_none hbegins) hpart hleads
  | go c s' paid rest hbegins hleads hpaid hturn =>
    have hcount := hleads.trans (.counting hname s')
    -- The count is owed after `begins`. A whole turn pays for it with the token that it saves.
    cases hturn with
    | refused e s'' hrun hpart hleads' hend =>
      exact .refused e s'' (loop_of_error hbegins hrun) hpart
        ((hcount.trans hleads').mono (by omega)) hend
    | value z' s'' hrun hpart hleads' =>
      have hall : Leads 0 paid s s'' := (hcount.trans hleads').mono (by omega)
      have hlt : s''.tokens.length < s.tokens.length := by
        have hle := hleads.length_le
        have hle' := hleads'.length_le
        rw [TokenStream.tokens_counting] at hle'
        omega
      have hrest := ih s''.tokens.length (hlt.trans_le hs)
        (fun z s hle => hturns z s (hle.trans (hlt.trans_le hs).le)) z' s'' le_rfl
      rw [hpart]
      exact .later (loop_of_turn hbegins hrun hlt) hall (hrest.mono (by omega) (by omega))

end Loops

section Lists

variable {name : Loop} {item : Reading α} {t : Token} {ts : List Token}
  {readItem : List Token → Except GrammarError (α × List Token)}
  {readItems readAll : List Token → Except GrammarError (List α × List Token)}

/-- What comes after some items of a list: more of them, or the closing bracket. -/
def readMore (readItems : List Token → Except GrammarError (List α × List Token))
    (items : List α) : List Token → Except GrammarError (List α × List Token)
  | [] => .error (.expected (.symbol ")") none)
  | t :: ts =>
    if t.text = "," then (readItems ts).map fun p => (items ++ p.1, p.2)
    else (readSymbol ")" (t :: ts)).map fun p => (items, p.2)

theorem readMore_of_comma {items : List α} (h : t.text = ",") :
    readMore readItems items (t :: ts) = (readItems ts).map fun p => (items ++ p.1, p.2) :=
  if_pos h

theorem readMore_of_stop {items : List α} (h : ∀ t ∈ ts.head?, t.text ≠ ",") :
    readMore readItems items ts = (readSymbol ")" ts).map fun p => (items, p.2) := by
  cases ts with
  | nil => rfl
  | cons t ts => exact if_neg (h t (by simp))

theorem readMore_append (front items : List α) (ts : List Token) :
    (readMore readItems items ts).map (fun p => (front ++ p.1, p.2)) =
      readMore readItems (front ++ items) ts := by
  cases ts with
  | nil => rfl
  | cons t ts =>
    by_cases ht : t.text = ","
    · rw [readMore_of_comma ht, readMore_of_comma ht]
      cases readItems ts <;> simp [Except.map]
    · rw [readMore_of_stop (by simpa using ht), readMore_of_stop (by simpa using ht)]
      cases readSymbol ")" (t :: ts) <;> rfl

theorem readMore_cons {items : List α}
    (hitems : ∀ ts, readItems ts = readItem ts >>= fun p => readMore readItems [p.1] p.2)
    (h : t.text = ",") :
    readMore readItems items (t :: ts) =
      readItem ts >>= fun p => readMore readItems (items ++ [p.1]) p.2 := by
  rw [readMore_of_comma h, hitems]
  cases readItem ts with
  | error e => rfl
  | ok p => exact readMore_append items [p.1] p.2

/-- The items are read one after the other with a comma before each but the first. -/
theorem listed_yields (readItem : List Token → Except GrammarError (α × List Token))
    (hname : ¬ name.IsOuter)
    (hnil : ∀ t ts, t.text = ")" → readAll (t :: ts) = .ok ([], ts))
    (hall : ∀ ts, (∀ t ∈ ts.head?, t.text ≠ ")") → readAll ts = readItems ts)
    (hitems : ∀ ts, readItems ts = readItem ts >>= fun p => readMore readItems [p.1] p.2)
    (hitem : ∀ s' owed, s'.tokens.length ≤ s.tokens.length →
      Yields owed 1 (readItem s'.tokens) item s') :
    Yields owed 1 (readAll s.tokens) (listed name item) s := by
  have hturns : ∀ items s', s'.tokens.length ≤ s.tokens.length →
      Turns name (accept? ",") (fun _ items => return items ++ [← item]) (owed + 1) 0
        (readMore readItems) (fun items ts => (readSymbol ")" ts).map fun p => (items, p.2))
        items s' := by
    intro items s' hs'
    rcases begins_or_not "," s'.tokens with ⟨t, ts, hs, ht⟩ | hne
    · refine .go () (s'.taking t ts) 1 (owed + 1) (accept?_of_eq hs ht) (.taking hs) rfl ?_
      have hlt : ts.length ≤ s.tokens.length := by
        rw [hs] at hs'
        exact (Nat.le_succ _).trans hs'
      have hnext : Yields (owed + 1) 1 (readItem ts) item ((s'.taking t ts).counting name) :=
        hitem ((s'.taking t ts).counting name) _ hlt
      rw [hs, readMore_cons hitems ht]
      exact hnext.bind fun a s'' _ => .pure (items ++ [a]) rfl
    · exact .stop s' (accept?_of_ne hne) (Leads.refl s') (readMore_of_stop hne)
  refine performs_accept? (fun t ts hs ht => ?_) fun hne => ?_
  · exact .pure [] (by rw [hs, hnil t ts ht]; rfl)
  · rw [hall _ hne, hitems]
    refine (hitem s owed le_rfl).bind fun first s₁ hs₁ => ?_
    have hmore := performs_loop hname s.tokens.length hturns [first] s₁
      ((Nat.le_succ _).trans hs₁.length_le)
    refine hmore.bind fun items s₂ _ => ?_
    exact ((symbol_yields ")" _ s₂).map fun _ => items).unsaved

end Lists

end MiniC
