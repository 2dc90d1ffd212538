import MiniC.Compile
import MiniC.Proofs.Except
import MiniC.Proofs.Token.Lexeme

/-! The tokens of a source are the only way to cut its lines into longest lexemes and blanks.

What the scan of a line keeps is stated about the characters before the place of the scan and those
from there on. That no other tokens cut the lines is shown without the scan: where two ways to cut
them differ first, both have a longest lexeme at the same place. -/
namespace MiniC
namespace Token

/-- A token ends before another begins, on an earlier line or on the same one. -/
def Before (t u : Token) : Prop :=
  t.line < u.line ∨ t.line = u.line ∧ t.pos < u.pos ∧ t.stop ≤ u.pos

/-- What a line has between the two offsets of a token is its text, and the longest lexeme
there. -/
def StandsIn (t : Token) (line : List Char) : Prop :=
  ∃ before after, line = before ++ (t.text.toList ++ after) ∧ byteLength before = t.pos ∧
    Longest t.kind t.text after

/-- A byte offset lies within a token. -/
def Covers (t : Token) (offset : Nat) : Prop :=
  t.pos ≤ offset ∧ offset < t.stop

/-- Tokens that cut lines up: they come in the order of their places, each is the longest lexeme
that stands in its line at its place, and all other characters are blanks. -/
structure CutsUp (lines : List (List Char)) (tokens : List Token) : Prop where
  ordered : tokens.IsChain Before
  placed : ∀ t ∈ tokens, ∃ line, lines[t.line]? = some line ∧ t.StandsIn line
  covered : ∀ i line, lines[i]? = some line → ∀ before c after, line = before ++ c :: after →
    isBlank c ∨ ∃ t ∈ tokens, t.line = i ∧ t.Covers (byteLength before)

/-- A text that consists of the texts of tokens, and of blanks and line feeds between them. -/
inductive Woven : List Token → List Char → Prop where
  | nil : Woven [] []
  | blank {c ts cs} : isBlank c ∨ c = '\n' → Woven ts cs → Woven ts (c :: cs)
  | token {t ts cs} : Woven ts cs → Woven (t :: ts) (t.text.toList ++ cs)

section Places

variable {t u v : Token} {line : List Char}

theorem Before.trans (h : t.Before u) (h' : u.Before v) : t.Before v := by
  unfold Before at *
  omega

instance : Trans Before Before Before :=
  ⟨Before.trans⟩

theorem Before.asymm (h : t.Before u) : ¬ u.Before t := by
  unfold Before at *
  omega

theorem Before.irrefl (t : Token) : ¬ t.Before t :=
  fun h => h.asymm h

theorem stop_eq (t : Token) : t.stop = t.pos + byteLength t.text.toList := by
  rw [stop, ← utf8ByteSize_ofList, String.ofList_toList]

theorem byteLength_pos {cs : List Char} (h : cs ≠ []) : 0 < byteLength cs := by
  obtain ⟨c, cs, rfl⟩ := List.exists_cons_of_ne_nil h
  exact Nat.add_pos_left c.utf8Size_pos _

theorem StandsIn.pos_lt_stop (h : t.StandsIn line) : t.pos < t.stop := by
  obtain ⟨-, after, -, -, hlongest⟩ := h
  have hpos := byteLength_pos hlongest.isLexeme.chars.1
  rw [stop_eq]
  omega

theorem eq_of_byteLength_eq {before before' rest rest' : List Char}
    (h : before ++ rest = before' ++ rest') (hlength : byteLength before = byteLength before') :
    before = before' ∧ rest = rest' := by
  rcases List.append_eq_append_iff.mp h with ⟨mid, rfl, rfl⟩ | ⟨mid, rfl, rfl⟩
  all_goals
    have hmid : mid = [] := by
      by_contra hne
      have hpos := byteLength_pos hne
      rw [byteLength_append] at hlength
      omega
    simp [hmid]

/-- Only one token can stand at a place. -/
theorem StandsIn.unique (ht : t.StandsIn line) (hu : u.StandsIn line) (hline : t.line = u.line)
    (hpos : t.pos = u.pos) : t = u := by
  obtain ⟨before, after, rfl, hbefore, hlongest⟩ := ht
  obtain ⟨before', after', hsame, hbefore', hlongest'⟩ := hu
  obtain ⟨-, hrest⟩ := eq_of_byteLength_eq hsame (by omega)
  obtain ⟨c, tail, htext⟩ := List.exists_cons_of_ne_nil hlongest.isLexeme.chars.1
  obtain ⟨c', tail', htext'⟩ := List.exists_cons_of_ne_nil hlongest'.isLexeme.chars.1
  rw [htext, htext', List.cons_append, List.cons_append] at hrest
  obtain ⟨rfl, htails⟩ := List.cons.inj hrest
  have hlist : t.text = String.ofList (c :: tail) := by rw [← htext, String.ofList_toList]
  have hlist' : u.text = String.ofList (c :: tail') := by rw [← htext', String.ofList_toList]
  rw [hlist] at hlongest
  rw [hlist'] at hlongest'
  have hboth := lexeme?_of_longest hlongest
  rw [htails, lexeme?_of_longest hlongest'] at hboth
  obtain ⟨hkind, rfl⟩ := Prod.mk.inj (Option.some.inj hboth)
  cases t
  cases u
  simp_all

end Places

section Scan

variable {line : Nat} {done cs : List Char} {tokens : List Token} {c : Char}

/-- What the tokens of the rest `cs` of a line are, where `done` stands before it. -/
structure CutsRest (line : Nat) (done cs : List Char) (tokens : List Token) : Prop where
  ordered : tokens.Pairwise Before
  placed : ∀ t ∈ tokens, t.line = line ∧ byteLength done ≤ t.pos ∧ t.StandsIn (done ++ cs)
  covered : ∀ mid d after, cs = mid ++ d :: after →
    isBlank d ∨ ∃ t ∈ tokens, t.Covers (byteLength (done ++ mid))

theorem CutsRest.nil : CutsRest line done [] [] :=
  ⟨.nil, by simp, by simp⟩

theorem CutsRest.blank (hc : isBlank c) (h : CutsRest line (done ++ [c]) cs tokens) :
    CutsRest line done (c :: cs) tokens := by
  refine ⟨h.ordered, fun t ht => ?_, fun mid d after hcs => ?_⟩
  · obtain ⟨hline, hpos, hstands⟩ := h.placed t ht
    rw [byteLength_append] at hpos
    rw [List.append_assoc] at hstands
    exact ⟨hline, by omega, hstands⟩
  · cases mid with
    | nil =>
      obtain ⟨rfl, -⟩ := List.cons.inj hcs
      exact .inl hc
    | cons m mid =>
      obtain ⟨rfl, htail⟩ := List.cons.inj hcs
      simpa using h.covered mid d after htail

theorem CutsRest.token {kind : TokenKind} {tail : List Char}
    (hlexeme : lexeme? c cs = some (kind, tail))
    (h : CutsRest line (done ++ c :: tail) (cs.drop tail.length) tokens) :
    CutsRest line done (c :: cs)
      (⟨kind, String.ofList (c :: tail), line, byteLength done⟩ :: tokens) := by
  let token : Token := ⟨kind, String.ofList (c :: tail), line, byteLength done⟩
  obtain ⟨after, rfl, hlongest⟩ := lexeme?_eq_some_iff.mp hlexeme
  rw [List.drop_left] at h
  have hstands : token.StandsIn (done ++ c :: (tail ++ after)) :=
    ⟨done, after, by simp [token], rfl, hlongest⟩
  have hstop : token.stop = byteLength (done ++ c :: tail) := by
    simp [stop_eq, token]
  have hlt : byteLength done < token.stop := hstands.pos_lt_stop
  refine ⟨List.pairwise_cons.mpr ⟨fun u hu => ?_, h.ordered⟩, ?_, fun mid d rest hcs => ?_⟩
  · obtain ⟨hline, hpos, -⟩ := h.placed u hu
    rw [← hstop] at hpos
    exact .inr ⟨hline.symm, lt_of_lt_of_le hlt hpos, hpos⟩
  · refine List.forall_mem_cons.mpr ⟨⟨rfl, le_rfl, hstands⟩, fun u hu => ?_⟩
    obtain ⟨hline, hpos, hplace⟩ := h.placed u hu
    rw [List.append_assoc, List.cons_append] at hplace
    exact ⟨hline, by omega, hplace⟩
  · -- the character is one of the token, or it comes after the token
    rw [← List.cons_append] at hcs
    rcases List.append_eq_append_iff.mp hcs with ⟨more, rfl, hafter⟩ | ⟨more, htail, hrest⟩
    · rcases h.covered more d rest hafter with hblank | ⟨u, hu, hcovers⟩
      · exact .inl hblank
      · refine .inr ⟨u, List.mem_cons_of_mem _ hu, ?_⟩
        rwa [List.append_assoc] at hcovers
    · cases more with
      | nil =>
        rcases h.covered [] d rest hrest.symm with hblank | ⟨u, hu, hcovers⟩
        · exact .inl hblank
        · rw [List.append_nil] at htail hcovers
          rw [← htail]
          exact .inr ⟨u, List.mem_cons_of_mem _ hu, hcovers⟩
      | cons m more =>
        have hless : byteLength (done ++ mid) < byteLength (done ++ c :: tail) := by
          have hpos := m.utf8Size_pos
          simp only [htail, byteLength_append, byteLength_cons]
          omega
        refine .inr ⟨token, List.mem_cons_self, ?_, by rwa [hstop]⟩
        rw [byteLength_append]
        exact Nat.le_add_right _ _

theorem cutsRest_of_scanLine {pos : Nat} (hpos : byteLength done = pos)
    (h : scanLine line pos cs = .ok tokens) : CutsRest line done cs tokens := by
  fun_induction scanLine line pos cs generalizing done tokens with
  | case1 =>
    cases h
    exact .nil
  | case2 pos c cs hblank ih =>
    exact .blank hblank (ih (by simp [hpos]) h)
  | case3 => cases h
  | case4 pos c cs hblank kind tail hlexeme token =>
    rename_i ih
    obtain ⟨rest, hrest, heq⟩ := bind_eq_ok_iff.mp h
    cases heq
    subst hpos
    refine .token hlexeme (ih ?_ hrest)
    simp [stop_eq, token]

theorem woven_of_scanLine {pos : Nat} (h : scanLine line pos cs = .ok tokens) :
    Woven tokens cs := by
  fun_induction scanLine line pos cs generalizing tokens with
  | case1 =>
    cases h
    exact .nil
  | case2 pos c cs hblank ih => exact .blank (.inl hblank) (ih h)
  | case3 => cases h
  | case4 pos c cs hblank kind tail hlexeme token =>
    rename_i ih
    obtain ⟨rest, hrest, heq⟩ := bind_eq_ok_iff.mp h
    cases heq
    obtain ⟨after, rfl, -⟩ := lexeme?_eq_some_iff.mp hlexeme
    rw [List.drop_left] at ih hrest
    have hwoven := Woven.token (t := ⟨kind, String.ofList (c :: tail), line, pos⟩) (ih hrest)
    rwa [String.toList_ofList] at hwoven

end Scan

section Lines

variable {lines : List (List Char)} {tokens : List Token}

/-- What the tokens of the lines from index `i` on are. -/
structure CutsFrom (lines : List (List Char)) (i : Nat) (tokens : List Token) : Prop where
  ordered : tokens.Pairwise Before
  placed : ∀ t ∈ tokens, i ≤ t.line ∧ ∃ line, lines[t.line]? = some line ∧ t.StandsIn line
  covered : ∀ j line, i ≤ j → lines[j]? = some line → ∀ before c after,
    line = before ++ c :: after →
      isBlank c ∨ ∃ t ∈ tokens, t.line = j ∧ t.Covers (byteLength before)

theorem CutsFrom.cons {i : Nat} {line : List Char} {first others : List Token}
    (hline : lines[i]? = some line) (hfirst : CutsRest i [] line first)
    (hothers : CutsFrom lines (i + 1) others) : CutsFrom lines i (first ++ others) := by
  refine ⟨List.pairwise_append.mpr ⟨hfirst.ordered, hothers.ordered, fun t ht u hu => ?_⟩, ?_, ?_⟩
  · obtain ⟨htline, -⟩ := hfirst.placed t ht
    obtain ⟨huline, -⟩ := hothers.placed u hu
    exact .inl (by omega)
  · refine List.forall_mem_append.mpr ⟨fun t ht => ?_, fun u hu => ?_⟩
    · obtain ⟨rfl, -, hstands⟩ := hfirst.placed t ht
      exact ⟨le_rfl, line, hline, hstands⟩
    · obtain ⟨huline, hplace⟩ := hothers.placed u hu
      exact ⟨by omega, hplace⟩
  · intro j line' hj hline' before c after hsplit
    by_cases hi : j = i
    · subst hi
      obtain rfl := Option.some.inj (hline.symm.trans hline')
      rcases hfirst.covered before c after hsplit with hblank | ⟨t, ht, hcovers⟩
      · exact .inl hblank
      · exact .inr ⟨t, List.mem_append_left _ ht, (hfirst.placed t ht).1, hcovers⟩
    · rcases hothers.covered j line' (by omega) hline' before c after hsplit with
        hblank | ⟨t, ht, hcovers⟩
      · exact .inl hblank
      · exact .inr ⟨t, List.mem_append_right _ ht, hcovers⟩

theorem cutsFrom_of_scanLines {i : Nat} (h : scanLines i (lines.drop i) = .ok tokens) :
    CutsFrom lines i tokens := by
  generalize hrest : lines.drop i = rest at h
  induction rest generalizing i tokens with
  | nil =>
    cases h
    refine ⟨.nil, by simp, fun j line hj hline => ?_⟩
    have hlength := List.drop_eq_nil_iff.mp hrest
    rw [List.getElem?_eq_none (by omega)] at hline
    cases hline
  | cons line rest ih =>
    rw [scanLines] at h
    obtain ⟨first, hfirst, h⟩ := bind_eq_ok_iff.mp h
    obtain ⟨others, hothers, heq⟩ := bind_eq_ok_iff.mp h
    cases heq
    have hline : lines[i]? = some line := by
      rw [← List.head?_drop, hrest, List.head?_cons]
    have hnext : lines.drop (i + 1) = rest := by
      rw [← List.tail_drop, hrest, List.tail_cons]
    exact .cons hline (cutsRest_of_scanLine rfl hfirst) (ih hnext hothers)

theorem Woven.append {ts us : List Token} {cs ds : List Char} (h : Woven ts cs)
    (h' : Woven us ds) : Woven (ts ++ us) (cs ++ ds) := by
  induction h with
  | nil => exact h'
  | blank hc _ ih => exact .blank hc ih
  | token _ ih =>
    rw [List.append_assoc]
    exact .token ih

theorem woven_of_scanLines {i : Nat} (h : scanLines i lines = .ok tokens) :
    Woven tokens (['\n'].intercalate lines) := by
  induction lines generalizing i tokens with
  | nil =>
    cases h
    exact .nil
  | cons line rest ih =>
    rw [scanLines] at h
    obtain ⟨first, hfirst, h⟩ := bind_eq_ok_iff.mp h
    obtain ⟨others, hothers, heq⟩ := bind_eq_ok_iff.mp h
    cases heq
    have hline := woven_of_scanLine hfirst
    cases rest with
    | nil =>
      cases hothers
      simpa using hline
    | cons line' rest =>
      rw [List.intercalate_cons_cons, List.append_assoc]
      exact hline.append (.blank (.inr rfl) (ih hothers))

theorem CutsUp.pairwise (h : CutsUp lines tokens) : tokens.Pairwise Before :=
  List.isChain_iff_pairwise.mp h.ordered

theorem CutsUp.before_or_before (h : CutsUp lines tokens) {t u : Token} (ht : t ∈ tokens)
    (hu : u ∈ tokens) (hne : t ≠ u) : t.Before u ∨ u.Before t := by
  have : Std.Symm fun t u : Token => t.Before u ∨ u.Before t := ⟨fun _ _ => Or.symm⟩
  have hpairwise : tokens.Pairwise fun t u => t.Before u ∨ u.Before t := h.pairwise.imp Or.inl
  exact hpairwise.forall ht hu hne

/-- Two ways to cut up the same lines have the same tokens, from left to right in each line: what
covers the first character of a token cannot begin before it. -/
theorem CutsUp.mem_of_mem {tokens others : List Token} (h : CutsUp lines tokens)
    (h' : CutsUp lines others) {t : Token} (ht : t ∈ tokens) : t ∈ others := by
  obtain ⟨line, hline, hstands⟩ := h.placed t ht
  obtain ⟨before, after, hsplit, hbefore, hlongest⟩ := id hstands
  obtain ⟨hne, hblanks⟩ := hlongest.isLexeme.chars
  obtain ⟨c, tail, htext⟩ := List.exists_cons_of_ne_nil hne
  have hblank : ¬ isBlank c := by simp [(hblanks c (by simp [htext])).1]
  rw [htext, List.cons_append] at hsplit
  rcases h'.covered t.line line hline before c _ hsplit with hc | ⟨u, hu, huline, hupos, hustop⟩
  · exact absurd hc hblank
  rw [hbefore] at hupos hustop
  rcases Nat.lt_or_eq_of_le hupos with hlt | heq
  · have hmem : u ∈ tokens := CutsUp.mem_of_mem h' h hu
    have hne : u ≠ t := by
      rintro rfl
      exact lt_irrefl _ hlt
    have hbefore := h.before_or_before hmem ht hne
    unfold Before at hbefore
    omega
  · obtain ⟨line', hline', hustands⟩ := h'.placed u hu
    rw [huline, hline] at hline'
    obtain rfl := Option.some.inj hline'
    obtain rfl := hstands.unique hustands huline.symm heq.symm
    exact hu
termination_by t.pos

theorem CutsUp.unique {others : List Token} (h : CutsUp lines tokens)
    (h' : CutsUp lines others) : others = tokens := by
  have : Std.Irrefl Before := ⟨Before.irrefl⟩
  have : Std.Antisymm Before := ⟨fun _ _ htu hut => absurd hut htu.asymm⟩
  exact h'.pairwise.eq_of_mem_iff h.pairwise fun _ => ⟨h'.mem_of_mem h, h.mem_of_mem h'⟩

theorem CutsFrom.cutsUp (h : CutsFrom lines 0 tokens) : CutsUp lines tokens :=
  ⟨List.isChain_iff_pairwise.mpr h.ordered, fun t ht => (h.placed t ht).2,
    fun j line hline => h.covered j line (Nat.zero_le j) hline⟩

end Lines

end Token

/-- The tokens of a source cut its lines up into longest lexemes and blanks, no other tokens do, and
the source is their texts with blanks and line feeds between them. -/
theorem tokenize_cutsUp {source : String} {tokens : List Token}
    (h : tokenize source = .ok tokens) :
    Token.CutsUp (Source.lineChars source.toList) tokens ∧
    (∀ others, Token.CutsUp (Source.lineChars source.toList) others → others = tokens) ∧
    Token.Woven tokens source.toList := by
  have hscan := mapError_eq_ok_iff.mp h
  have hcuts := (Token.cutsFrom_of_scanLines (i := 0) hscan).cutsUp
  have hwoven := Token.woven_of_scanLines hscan
  rw [Source.intercalate_lineChars] at hwoven
  exact ⟨hcuts, fun others => hcuts.unique, hwoven⟩

/-- `a==b`, `12ab` and `<==` are cut where the longest lexemes end, on both lines. -/
theorem adjacent_cutsUp :
    ∃ tokens, tokenize "a==b!=12ab\n\t<== x1" = .ok tokens ∧ tokens.length = 9 ∧
      Token.CutsUp (Source.lineChars "a==b!=12ab\n\t<== x1".toList) tokens ∧
      (∀ others, Token.CutsUp (Source.lineChars "a==b!=12ab\n\t<== x1".toList) others →
        others = tokens) ∧
      Token.Woven tokens "a==b!=12ab\n\t<== x1".toList := by
  have h : ∃ tokens, tokenize "a==b!=12ab\n\t<== x1" = .ok tokens ∧ tokens.length = 9 :=
    ⟨_, by cbv, by cbv⟩
  obtain ⟨tokens, htokens, hlength⟩ := h
  exact ⟨tokens, htokens, hlength, tokenize_cutsUp htokens⟩

end MiniC
