import MiniC.Proofs.Grammar.Extension
import MiniC.Proofs.Grammar.Nesting

/-! Tokens that came to an end too early.

A reading that asks for more tokens can be given them: either such that it succeeds, or, if a list
was left open that has too many elements by then, such that it fails for this reason. The proofs
follow the recursion of the reading functions and put together the missing tokens of a construct
from those of the part that is not finished. -/
namespace MiniC

/-- A token with a given text. -/
def Token.written (text : String) : Token :=
  ⟨.word, text, 0, 0⟩

@[simp] theorem Token.text_written (text : String) : (Token.written text).text = text :=
  rfl

/-- The error is that a list has too many elements. -/
def GrammarError.IsOverfull : GrammarError → Prop
  | tooManyArguments _ | tooManyParameters _ => True
  | _ => False

section Outcomes

variable {α β : Type} {x : Except GrammarError α} {f : α → Except GrammarError β}

/-- A reading ended as there were no more tokens. -/
def RunsOut (x : Except GrammarError α) : Prop :=
  ∃ e, x = .error e ∧ e.culprit = none

theorem not_runsOut_ok {a : α} : ¬ RunsOut (.ok a : Except GrammarError α) := by
  rintro ⟨e, h, -⟩
  cases h

theorem runsOut_bind (h : RunsOut (x >>= f)) : RunsOut x ∨ ∃ a, x = .ok a ∧ RunsOut (f a) := by
  obtain ⟨e, h, he⟩ := h
  rcases bind_eq_error_iff.mp h with hx | ⟨a, hx, hf⟩
  · exact .inl ⟨e, hx, he⟩
  · exact .inr ⟨a, hx, e, hf, he⟩

theorem runsOut_map {g : α → β} (h : RunsOut (x.map g)) : RunsOut x := by
  cases x with
  | ok a => exact absurd h not_runsOut_ok
  | error e =>
    obtain ⟨_, ⟨⟩, he⟩ := h
    exact ⟨e, rfl, he⟩

end Outcomes

/-- With some tokens more there is a value, and what follows them is left, if it is as required. -/
def Completable {α : Type} (required : List Token → Prop)
    (run : List Token → Except GrammarError (α × List Token)) : Prop :=
  ∃ us, ∀ rest, required rest → ∃ a, run (us ++ rest) = .ok (a, rest)

/-- With some tokens more a list has too many elements. -/
def Overfills {α : Type} (run : List Token → Except GrammarError α) : Prop :=
  ∃ us e, e.IsOverfull ∧ run us = .error e

/-- How a reading can go on that ran out of tokens. The texts are those of the tokens so far, and
`run` is the reading as it depends on the tokens after them. -/
def Continues {α : Type} (required : List Token → Prop) (texts : List String)
    (run : List Token → Except GrammarError (α × List Token)) : Prop :=
  Completable required run ∨ LeavesOverfullList texts ∧ Overfills run

/-- How a list can go on of which the texts are those of its elements so far. It has one element
more than commas. -/
def ListContinues {α : Type} (texts : List String)
    (run : List Token → Except GrammarError (List α × List Token)) : Prop :=
  (∃ n us, ownCommas 0 texts = some n ∧
    ∀ rest, ∃ xs, run (us ++ rest) = .ok (xs, rest) ∧ xs.length = n + 1) ∨
  LeavesOverfullList texts ∧ Overfills run

/-- A reading that is finished but for the token after it can go on with a closing one. -/
theorem completable_of_ok {α : Type} {x : Except GrammarError (α × List Token)} {a : α}
    {run : List Token → Except GrammarError (α × List Token)} (hx : x = .ok (a, []))
    (hrun : ∀ us, ExtendsOpen us x (run us)) : Completable Closing run :=
  ⟨[], fun rest hrest => ⟨a, (hrun rest).eq_ok hx (.inr hrest)⟩⟩

namespace Continues

variable {α β : Type} {required required' : List Token → Prop} {texts : List String}
  {run run' : List Token → Except GrammarError (α × List Token)}
  {k : α × List Token → Except GrammarError (β × List Token)}

theorem mono (h : Continues required texts run) (hr : ∀ rest, required' rest → required rest) :
    Continues required' texts run := by
  rcases h with ⟨us, hus⟩ | h
  · exact .inl ⟨us, fun rest hrest => hus rest (hr rest hrest)⟩
  · exact .inr h

theorem map (h : Continues required texts run) (g : α → β) :
    Continues required texts fun us => (run us).map fun p => (g p.1, p.2) := by
  rcases h with ⟨us, hus⟩ | ⟨hlist, us, e, he, herror⟩
  · refine .inl ⟨us, fun rest hrest => ?_⟩
    obtain ⟨a, ha⟩ := hus rest hrest
    exact ⟨g a, by simp only [ha]; rfl⟩
  · exact .inr ⟨hlist, us, e, he, by simp only [herror]; rfl⟩

theorem append_left (h : Continues required texts run) (used : List String) :
    Continues required (used ++ texts) run := by
  rcases h with h | ⟨hlist, h⟩
  · exact .inl h
  · exact .inr ⟨hlist.append_left used, h⟩

theorem cons (text : String) (h : Continues required texts run) :
    Continues required (text :: texts) run :=
  h.append_left [text]

/-- A first part can go on, and then the tokens `vs` are all that the second part needs. -/
theorem bind (h : Continues required texts run) (vs : List Token)
    (hvs : ∀ rest, required' rest → required (vs ++ rest))
    (hk : ∀ a rest, required' rest → ∃ b, k (a, vs ++ rest) = .ok (b, rest)) :
    Continues required' texts fun us => run us >>= k := by
  rcases h with ⟨us, hus⟩ | ⟨hlist, us, e, he, herror⟩
  · refine .inl ⟨us ++ vs, fun rest hrest => ?_⟩
    obtain ⟨a, ha⟩ := hus (vs ++ rest) (hvs rest hrest)
    obtain ⟨b, hb⟩ := hk a rest hrest
    refine ⟨b, ?_⟩
    simp only [List.append_assoc, ha]
    exact hb
  · exact .inr ⟨hlist, us, e, he, by simp only [herror]; rfl⟩

/-- A first part is finished, and the second can go on. -/
theorem after {ts rest : List Token} {a : α}
    (htexts : ∃ used, Token.texts ts = used ++ Token.texts rest)
    (hrun : ∀ us, run us = .ok (a, rest ++ us))
    (h : Continues required (Token.texts rest) fun us => k (a, rest ++ us)) :
    Continues required (Token.texts ts) fun us => run us >>= k := by
  obtain ⟨used, htexts⟩ := htexts
  have heq : (fun us => run us >>= k) = fun us => k (a, rest ++ us) := by
    funext us
    rw [hrun us]
    rfl
  rw [heq, htexts]
  exact h.append_left used

end Continues

section Symbols

variable {text : String} {ts : List Token}

theorem eq_nil_of_readSymbol (h : RunsOut (readSymbol text ts)) : ts = [] := by
  cases ts with
  | nil => rfl
  | cons t ts =>
    obtain ⟨e, h, he⟩ := h
    by_cases ht : t.text = text
    · rw [readSymbol_cons_of_eq ht] at h
      cases h
    · rw [readSymbol_cons_of_ne ht] at h
      cases h
      cases he

theorem eq_nil_of_readIdentifier (h : RunsOut (readIdentifier ts)) : ts = [] := by
  cases ts with
  | nil => rfl
  | cons t ts =>
    obtain ⟨e, h, he⟩ := h
    by_cases ht : Token.isWord t.text
    · rw [readIdentifier_cons_of_isWord ht] at h
      cases h
    · rw [readIdentifier_of_not_isWord (by simpa using ht)] at h
      cases h
      cases he

theorem eq_nil_of_readNumber (h : RunsOut (readNumber ts)) : ts = [] := by
  cases ts with
  | nil => rfl
  | cons t ts =>
    obtain ⟨e, h, he⟩ := h
    simp only [readNumber, Step.number] at h
    split_ifs at h
    all_goals cases h
    all_goals cases he

theorem readSymbol_written (text : String) (rest : List Token) :
    readSymbol text (.written text :: rest) = .ok ((), rest) :=
  readSymbol_cons_of_eq rfl

theorem closing_written (h : text ∈ [")", ";"]) (rest : List Token) :
    Closing (.written text :: rest) := by
  refine closing_cons ?_
  simp only [List.mem_cons, List.not_mem_nil, or_false] at h
  rcases h with rfl | rfl <;> simp

theorem readOperators_of_closing (l : Level) (lhs : Expr) {rest : List Token} (h : Closing rest) :
    readOperators l lhs rest = .ok (lhs, rest) :=
  readOperators_of_stop (fun u hu => h.binOp? l hu) fun _ u hu => h.ne (by simp) hu

/-- A number is an expression of every level. -/
theorem readExpr_one (l : Level) {rest : List Token} (h : Closing rest) :
    readExpr l (.written "1" :: rest) = .ok (.num 1, rest) := by
  by_cases hl : l = .primary
  · subst hl
    rw [readExpr_number (by simp) (by simp; rfl)]
    rfl
  · have hrank := Level.rank_tighter_lt hl
    have hnone : ∀ t ∈ (Token.written "1" :: rest).head?, l.unOp? t.text = none := by
      cases l <;> simp <;> rfl
    rw [readExpr_of_tighter hl hnone, readExpr_one l.tighter h]
    exact readOperators_of_closing l _ h
termination_by l.rank

end Symbols

theorem IsNested.ownCommas_append {texts : List String} (h : IsNested texts) (more : List String) :
    ownCommas 0 (texts ++ more) = ownCommas 0 more :=
  MiniC.ownCommas_append (h [])

section Lists

variable {α β : Type} {texts : List String} {name : String}
  {run : List Token → Except GrammarError (List α × List Token)}
  {k : List α × List Token → Except GrammarError (β × List Token)}

/-- A list that can go on is completed if it has few elements, and refused if it has too many. -/
theorem ListContinues.limited (h : ListContinues texts run) (hname : IsIdentifier name)
    {refusal : GrammarError} (hrefusal : refusal.IsOverfull) (vs : List Token)
    (hfew : ∀ xs rest, xs.length ≤ maxArity → ∃ b, k (xs, vs ++ rest) = .ok (b, rest))
    (hmany : ∀ xs rest, ¬ xs.length ≤ maxArity → k (xs, rest) = .error refusal) :
    Continues (fun _ => True) (name :: "(" :: texts) fun us => run us >>= k := by
  rcases h with ⟨n, us, hn, hus⟩ | ⟨hlist, us, e, he, herror⟩
  · by_cases hlength : n + 1 ≤ maxArity
    · refine .inl ⟨us ++ vs, fun rest _ => ?_⟩
      obtain ⟨xs, hxs, hcount⟩ := hus (vs ++ rest)
      obtain ⟨b, hb⟩ := hfew xs rest (by omega)
      refine ⟨b, ?_⟩
      simp only [List.append_assoc, hxs]
      exact hb
    · have hsix : 6 ≤ n := Nat.le_of_lt_succ (Nat.lt_of_not_le hlength)
      obtain ⟨xs, hxs, hcount⟩ := hus []
      refine .inr ⟨⟨[], name, texts, n, rfl, hname, hn, hsix⟩, us ++ [], refusal, hrefusal, ?_⟩
      simp only [hxs]
      exact hmany xs [] (by omega)
  · exact .inr ⟨hlist.append_left [name, "("], us, e, he, by simp only [herror]; rfl⟩

/-- An element and a comma before the rest of the list. -/
theorem ListContinues.cons {used : List String} {t : Token} {ts : List Token} (a : α)
    {run' : List Token → Except GrammarError (List α × List Token)}
    (h : ListContinues (Token.texts ts) run) (hused : IsNested used) (ht : t.text = ",")
    (hrun : ∀ us, run' us = (run us).map fun p => (a :: p.1, p.2)) :
    ListContinues (used ++ Token.texts (t :: ts)) run' := by
  rcases h with ⟨n, us, hn, hus⟩ | ⟨hlist, us, e, he, herror⟩
  · refine .inl ⟨n + 1, us, ?_, fun rest => ?_⟩
    · rw [hused.ownCommas_append, Token.texts_cons, ht, ownCommas_comma, hn]
      rfl
    · obtain ⟨xs, hxs, hcount⟩ := hus rest
      refine ⟨a :: xs, ?_, by rw [List.length_cons, hcount]⟩
      rw [hrun, hxs]
      rfl
  · have hwhole := hlist.append_left (used ++ [t.text])
    rw [List.append_assoc] at hwhole
    exact .inr ⟨hwhole, us, e, he, by rw [hrun, herror]; rfl⟩

end Lists

section Expressions

variable {ts us : List Token} {e : Expr}

theorem texts_of_readExpr {l : Level} {rest : List Token} (h : readExpr l ts = .ok (e, rest)) :
    ∃ used, Token.texts ts = used ++ Token.texts rest := by
  obtain ⟨used, htexts, -⟩ := derives_of_readExpr h
  exact ⟨used, htexts⟩

/-- The beginning of an expression has no commas but in brackets of its own. -/
theorem ownCommas_of_readExpr {l : Level} (h : readExpr l (ts ++ us) = .ok (e, [])) :
    ownCommas 0 (Token.texts ts) = some 0 := by
  obtain ⟨used, htexts, hderives⟩ := derives_of_readExpr h
  have hnested := hderives.isNested []
  rw [Token.texts_nil, List.append_nil, Token.texts_append] at htexts
  rw [← htexts] at hnested
  obtain ⟨counts, hcounts, -⟩ := exists_commaCounts_of_append hnested
  have hcommas : ownCommas 0 (Token.texts ts ++ []) = ownCommas counts.length [] :=
    MiniC.ownCommas_append hcounts
  rwa [List.append_nil, ownCommas] at hcommas

theorem readExpr_eq_readTerminated {t : Token} (ht : t.text = "(") (ts : List Token) :
    readExpr .primary (t :: ts) = readTerminated ")" ts := by
  rw [readExpr_bracket ht, readTerminated_eq]

/-- A missing symbol can be given, if the expression before it can go on or is complete. -/
theorem readTerminated_continues_of {stop : String} (hstop : stop ∈ [")", ";"])
    (hexpr : RunsOut (readExpr .assignment ts) →
      Continues Closing (Token.texts ts) fun us => readExpr .assignment (ts ++ us))
    (h : RunsOut (readTerminated stop ts)) :
    Continues (fun _ => True) (Token.texts ts) fun us => readTerminated stop (ts ++ us) := by
  have hread : Continues Closing (Token.texts ts) fun us => readExpr .assignment (ts ++ us) := by
    rw [readTerminated_eq] at h
    rcases runsOut_bind h with hrun | ⟨⟨e, rest⟩, hok, hrun⟩
    · exact hexpr hrun
    · rcases runsOut_bind hrun with hsymbol | ⟨_, _, hpure⟩
      · obtain rfl := eq_nil_of_readSymbol hsymbol
        exact .inl (completable_of_ok hok fun us => readExpr_extends us .assignment ts)
      · exact absurd hpure not_runsOut_ok
  simp only [readTerminated_eq]
  refine hread.bind [.written stop] (fun rest _ => closing_written hstop rest)
    fun e rest _ => ⟨e, ?_⟩
  dsimp only [List.singleton_append]
  rw [readSymbol_written]
  rfl

theorem readArgumentList_end {rest : List Token}
    (h : readExpr .assignment ts = .ok (e, .written ")" :: rest)) :
    readArgumentList ts = .ok ([e], rest) := by
  rw [readArgumentList_eq, h]
  dsimp only [bind, Except.bind]
  rw [readSymbol_written]
  rfl

/-- Where the first argument can go on or is complete, the list can end after it. -/
theorem readArgumentList_of_completable
    (h : Completable Closing fun us => readExpr .assignment (ts ++ us)) :
    ListContinues (Token.texts ts) fun us => readArgumentList (ts ++ us) := by
  obtain ⟨us, hus⟩ := h
  dsimp only at hus
  obtain ⟨arg, harg⟩ := hus [] closing_nil
  rw [List.append_nil] at harg
  refine .inl ⟨0, us ++ [.written ")"], ownCommas_of_readExpr harg, fun rest => ?_⟩
  obtain ⟨arg, harg⟩ := hus (.written ")" :: rest) (closing_written (by simp) rest)
  refine ⟨[arg], ?_, rfl⟩
  dsimp only
  rw [List.append_assoc, List.singleton_append]
  exact readArgumentList_end harg

mutual

theorem readExpr_continues (l : Level) (ts : List Token) (h : RunsOut (readExpr l ts)) :
    Continues Closing (Token.texts ts) fun us => readExpr l (ts ++ us) := by
  by_cases hl : l = .primary
  · subst hl
    exact readPrimary_continues ts h
  · have hrank := Level.rank_tighter_lt hl
    cases ts with
    | nil => exact .inl ⟨[.written "1"], fun rest hrest => ⟨_, readExpr_one l hrest⟩⟩
    | cons t ts =>
      cases hop : l.unOp? t.text with
      | none =>
        have heq (us : List Token) : readExpr l (t :: ts ++ us) =
            readExpr l.tighter (t :: ts ++ us) >>= fun p => readOperators l p.1 p.2 :=
          readExpr_of_tighter hl (by simpa using hop)
        rw [readExpr_of_tighter hl (by simpa using hop)] at h
        simp only [heq]
        rcases runsOut_bind h with hrun | ⟨⟨lhs, rest⟩, hok, hrun⟩
        · exact (readExpr_continues l.tighter (t :: ts) hrun).bind [] (fun _ hrest => hrest)
            fun lhs rest hrest => ⟨lhs, readOperators_of_closing l lhs hrest⟩
        · have hlength : rest.length < ts.length + 1 := length_lt_of_plain hok
          have hne : rest ≠ [] := by
            rintro rfl
            exact absurd (readOperators_nil l lhs ▸ hrun) not_runsOut_ok
          exact .after (texts_of_readExpr hok)
            (fun us => (readExpr_extends us l.tighter (t :: ts)).eq_ok hok (.inl hne))
            (readOperators_continues l lhs rest hrun)
      | some op =>
        rw [readExpr_of_unOp hop] at h
        simp only [List.cons_append, readExpr_of_unOp hop]
        exact ((readExpr_continues l ts (runsOut_map h)).map _).cons t.text
termination_by 16 * ts.length + l.rank + 1
decreasing_by
  all_goals
    subst_vars
    simp only [List.length_cons] at *
    omega

theorem readOperators_continues (l : Level) (lhs : Expr) (ts : List Token)
    (h : RunsOut (readOperators l lhs ts)) :
    Continues Closing (Token.texts ts) fun us => readOperators l lhs (ts ++ us) := by
  cases ts with
  | nil => exact absurd (readOperators_nil l lhs ▸ h) not_runsOut_ok
  | cons t ts =>
    have hrank := Level.rank_le l
    have hrank' := Level.rank_le l.tighter
    cases hop : l.binOp? t.text with
    | some op =>
      rw [readOperators_of_binOp hop] at h
      simp only [List.cons_append, readOperators_of_binOp hop]
      refine Continues.cons t.text ?_
      rcases runsOut_bind h with hrun | ⟨⟨rhs, rest⟩, hok, hrun⟩
      · exact (readExpr_continues l.tighter ts hrun).bind [] (fun _ hrest => hrest)
          fun rhs rest hrest => ⟨_, readOperators_of_closing l _ hrest⟩
      · have hlength := length_lt_of_plain hok
        have hne : rest ≠ [] := by
          rintro rfl
          exact absurd (readOperators_nil l _ ▸ hrun) not_runsOut_ok
        exact .after (texts_of_readExpr hok)
          (fun us => (readExpr_extends us l.tighter ts).eq_ok hok (.inl hne))
          (readOperators_continues l (.binary op lhs rhs) rest hrun)
    | none =>
      by_cases hsign : l = .assignment ∧ t.text = "="
      · obtain ⟨rfl, ht⟩ := hsign
        rw [readOperators_of_assign ht] at h
        simp only [List.cons_append, readOperators_of_assign ht]
        exact ((readExpr_continues .assignment ts (runsOut_map h)).map _).cons t.text
      · rw [readOperators_of_stop (by simpa using hop) (by simpa using hsign)] at h
        exact absurd h not_runsOut_ok
termination_by 16 * ts.length
decreasing_by
  all_goals
    have hrank := Level.rank_le .assignment
    subst_vars
    simp only [List.length_cons] at *
    omega

theorem readPrimary_continues (ts : List Token) (h : RunsOut (readExpr .primary ts)) :
    Continues Closing (Token.texts ts) fun us => readExpr .primary (ts ++ us) := by
  have hrank := Level.rank_le .assignment
  cases ts with
  | nil => exact .inl ⟨[.written "1"], fun rest hrest => ⟨_, readExpr_one _ hrest⟩⟩
  | cons t ts =>
    by_cases hb : t.text = "("
    · rw [readExpr_eq_readTerminated hb] at h
      simp only [List.cons_append, readExpr_eq_readTerminated hb]
      have hinner := readTerminated_continues_of (by simp) (readExpr_continues .assignment ts) h
      exact (hinner.mono fun _ _ => trivial).cons t.text
    · by_cases hw : Token.isWord t.text
      · rcases begins_or_not "(" ts with ⟨u, us, rfl, hu⟩ | hne
        · rw [readExpr_call hw hu] at h
          simp only [List.cons_append, readExpr_call hw hu, Token.texts_cons, hu]
          have hargs : RunsOut (readArguments us) := by
            rcases runsOut_bind h with hrun | ⟨⟨args, rest⟩, -, e, herror, he⟩
            · exact hrun
            · dsimp only at herror
              split_ifs at herror
              · cases herror
              · cases herror
                cases he
          refine Continues.mono ?_ fun _ _ => trivial
          refine (readArguments_continues us hargs).limited (isIdentifier_iff.mpr hw)
            (show (GrammarError.tooManyArguments t).IsOverfull from trivial) []
            (fun args rest hlength => ?_) fun args rest hlength => ?_
          · exact ⟨.call t.text args, if_pos hlength⟩
          · exact if_neg hlength
        · rw [readExpr_var hw hne] at h
          exact absurd h not_runsOut_ok
      · rw [readExpr_number (by simpa using hb) (by simpa using hw)] at h
        exact absurd (eq_nil_of_readNumber (runsOut_map h)) (List.cons_ne_nil _ _)
termination_by 16 * ts.length
decreasing_by
  all_goals
    have hrank := Level.rank_le .assignment
    subst_vars
    simp only [List.length_cons]
    omega

theorem readArguments_continues (ts : List Token) (h : RunsOut (readArguments ts)) :
    ListContinues (Token.texts ts) fun us => readArguments (ts ++ us) := by
  cases ts with
  | nil =>
    refine .inl ⟨0, [.written "1", .written ")"], rfl, fun rest => ⟨[.num 1], ?_, rfl⟩⟩
    show readArguments (.written "1" :: .written ")" :: rest) = _
    rw [readArguments_cons (by simp)]
    exact readArgumentList_end (readExpr_one .assignment (closing_written (by simp) rest))
  | cons t ts =>
    by_cases ht : t.text = ")"
    · rw [readArguments_nil ht] at h
      exact absurd h not_runsOut_ok
    · have heq (us : List Token) :
          readArguments (t :: ts ++ us) = readArgumentList (t :: ts ++ us) :=
        readArguments_cons (by simpa using ht)
      rw [readArguments_cons (by simpa using ht)] at h
      simp only [heq]
      exact readArgumentList_continues (t :: ts) h
termination_by 16 * ts.length + 10

theorem readArgumentList_continues (ts : List Token) (h : RunsOut (readArgumentList ts)) :
    ListContinues (Token.texts ts) fun us => readArgumentList (ts ++ us) := by
  have hrank := Level.rank_le .assignment
  rw [readArgumentList_eq] at h
  rcases runsOut_bind h with hrun | ⟨⟨arg, rest⟩, hok, hrun⟩
  · rcases readExpr_continues .assignment ts hrun with hcomplete | ⟨hlist, us, e, he, herror⟩
    · exact readArgumentList_of_completable hcomplete
    · refine .inr ⟨hlist, us, e, he, ?_⟩
      dsimp only at herror ⊢
      rw [readArgumentList_eq, herror]
      rfl
  · have hlength : rest.length < ts.length := length_lt_of_plain hok
    have hextends (us : List Token) := readExpr_extends us .assignment ts
    cases rest with
    | nil => exact readArgumentList_of_completable (completable_of_ok hok hextends)
    | cons t ts₂ =>
      dsimp only at hrun
      split_ifs at hrun with hcomma
      · obtain ⟨used, htexts, hderives⟩ := derives_of_readExpr hok
        rw [htexts]
        refine (readArgumentList_continues ts₂ (runsOut_map hrun)).cons arg hderives.isNested hcomma
          fun us => ?_
        rw [readArgumentList_eq, (hextends us).eq_ok hok (.inl (List.cons_ne_nil _ _))]
        exact if_pos hcomma
      · exact absurd (eq_nil_of_readSymbol (runsOut_map hrun)) (List.cons_ne_nil _ _)
termination_by 16 * ts.length + 9
decreasing_by
  all_goals
    have hrank := Level.rank_le .assignment
    subst_vars
    simp only [List.length_cons] at *
    omega

end

end Expressions

end MiniC
