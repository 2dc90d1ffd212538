import MiniC.Proofs.Grammar.Completeness
import MiniC.Proofs.Grammar.Soundness

/-! Round brackets and the commas in them.

Commas stand in lists only, of parameters or of arguments, and no list has more than five. The texts
of a program therefore leave no list open that has a sixth comma of its own, wherever they are cut
off. -/
namespace MiniC

/-- The number of commas that stand directly in a bracket, if the texts after the bracket leave it
open. Further brackets within it are open, as many as `depth`. -/
def ownCommas : Nat → List String → Option Nat
  | _, [] => some 0
  | depth, text :: texts =>
    if text = "(" then ownCommas (depth + 1) texts
    else if text = ")" then
      match depth with
      | 0 => none
      | depth + 1 => ownCommas depth texts
    else if text = "," ∧ depth = 0 then (ownCommas depth texts).map (· + 1)
    else ownCommas depth texts

/-- The texts leave a list open, after the name of a function or a callee, that already has at least
six commas of its own. -/
def LeavesOverfullList (texts : List String) : Prop :=
  ∃ before name inside n, texts = before ++ name :: "(" :: inside ∧ IsIdentifier name ∧
    ownCommas 0 inside = some n ∧ 6 ≤ n

theorem LeavesOverfullList.append_left {texts : List String} (h : LeavesOverfullList texts)
    (used : List String) : LeavesOverfullList (used ++ texts) := by
  obtain ⟨before, name, inside, n, rfl, hname, hcommas, hn⟩ := h
  exact ⟨used ++ before, name, inside, n, by simp, hname, hcommas, hn⟩

/-- What a text does to the numbers of commas that stand directly in the open brackets, of which the
innermost comes first. Nothing may close a bracket that is not open, no comma may stand outside of
brackets, and none may be the sixth in its bracket. -/
def countsAfter (counts : List Nat) (text : String) : Option (List Nat) :=
  if text = "(" then some (0 :: counts)
  else if text = ")" then counts.tail?
  else if text = "," then
    match counts with
    | [] => none
    | n :: outer => if n < 5 then some ((n + 1) :: outer) else none
  else some counts

/-- The numbers of commas in the open brackets after some texts. -/
def commaCounts (counts : List Nat) (texts : List String) : Option (List Nat) :=
  texts.foldlM countsAfter counts

section Counts

variable {counts counts' : List Nat} {text : String} {texts more : List String} {n depth : Nat}

theorem countsAfter_other (h : text ∉ ["(", ")", ","]) : countsAfter counts text = some counts := by
  simp only [List.mem_cons, List.not_mem_nil, or_false, not_or] at h
  simp [countsAfter, h]

theorem countsAfter_comma (h : n < 5) :
    countsAfter (n :: counts) "," = some ((n + 1) :: counts) := by
  simp [countsAfter, h]

/-- A text opens a bracket, closes one, is a comma in one, or has no part in the counts. -/
theorem countsAfter_eq_some (h : countsAfter counts text = some counts') :
    (text = "(" ∧ counts' = 0 :: counts) ∨ (text = ")" ∧ ∃ n, counts = n :: counts') ∨
    (text = "," ∧ ∃ n outer, n < 5 ∧ counts = n :: outer ∧ counts' = (n + 1) :: outer) ∨
    (text ∉ ["(", ")", ","] ∧ counts' = counts) := by
  unfold countsAfter at h
  split_ifs at h with hopen hclose hcomma
  · exact .inl ⟨hopen, (Option.some.inj h).symm⟩
  · cases counts with
    | nil => cases h
    | cons n counts => exact .inr (.inl ⟨hclose, n, by rw [Option.some.inj h]⟩)
  · cases counts with
    | nil => cases h
    | cons n outer =>
      dsimp only at h
      split_ifs at h with hn
      exact .inr (.inr (.inl ⟨hcomma, n, outer, hn, rfl, (Option.some.inj h).symm⟩))
  · exact .inr (.inr (.inr ⟨by simp [hopen, hclose, hcomma], (Option.some.inj h).symm⟩))

@[simp] theorem commaCounts_nil : commaCounts counts [] = some counts :=
  rfl

theorem commaCounts_cons :
    commaCounts counts (text :: texts) =
      (countsAfter counts text).bind fun counts' => commaCounts counts' texts :=
  List.foldlM_cons

theorem commaCounts_append :
    commaCounts counts (texts ++ more) =
      (commaCounts counts texts).bind fun counts' => commaCounts counts' more :=
  List.foldlM_append

/-- Before the texts end the counts are known as well. -/
theorem exists_commaCounts_of_append (h : commaCounts counts (texts ++ more) = some counts') :
    ∃ counts₁, commaCounts counts texts = some counts₁ ∧
      commaCounts counts₁ more = some counts' := by
  rw [commaCounts_append] at h
  exact Option.bind_eq_some_iff.mp h

@[simp] theorem ownCommas_open : ownCommas depth ("(" :: texts) = ownCommas (depth + 1) texts := by
  simp [ownCommas]

@[simp] theorem ownCommas_close : ownCommas (depth + 1) (")" :: texts) = ownCommas depth texts := by
  simp [ownCommas]

@[simp] theorem ownCommas_closed : ownCommas 0 (")" :: texts) = none := by
  simp [ownCommas]

@[simp] theorem ownCommas_comma :
    ownCommas 0 ("," :: texts) = (ownCommas 0 texts).map (· + 1) := by
  simp [ownCommas]

@[simp] theorem ownCommas_comma_inside :
    ownCommas (depth + 1) ("," :: texts) = ownCommas (depth + 1) texts := by
  simp [ownCommas]

theorem ownCommas_other (h : text ∉ ["(", ")", ","]) :
    ownCommas depth (text :: texts) = ownCommas depth texts := by
  simp only [List.mem_cons, List.not_mem_nil, or_false, not_or] at h
  simp [ownCommas, h]

/-- Texts with known counts close no bracket around them and have no comma in it. -/
theorem ownCommas_append (h : commaCounts counts texts = some counts') :
    ownCommas counts.length (texts ++ more) = ownCommas counts'.length more := by
  induction texts generalizing counts with
  | nil =>
    cases h
    rfl
  | cons text texts ih =>
    rw [commaCounts_cons] at h
    obtain ⟨counts₁, hfirst, hrest⟩ := Option.bind_eq_some_iff.mp h
    rw [← ih hrest, List.cons_append]
    obtain ⟨rfl, rfl⟩ | ⟨rfl, n, rfl⟩ | ⟨rfl, n, outer, -, rfl, rfl⟩ | ⟨hother, rfl⟩ :=
      countsAfter_eq_some hfirst
    · exact ownCommas_open
    · exact ownCommas_close
    · exact ownCommas_comma_inside
    · exact ownCommas_other hother

/-- Where the counts are known, no bracket has more than five commas. -/
theorem ownCommas_le (inner : List Nat) {outer : List Nat} {m : Nat}
    (h : commaCounts (inner ++ n :: outer) texts = some counts')
    (hm : ownCommas inner.length texts = some m) (hn : n ≤ 5) : n + m ≤ 5 := by
  induction texts generalizing inner n m with
  | nil =>
    rw [ownCommas] at hm
    cases hm
    exact hn
  | cons text texts ih =>
    rw [commaCounts_cons] at h
    obtain ⟨counts₁, hfirst, hrest⟩ := Option.bind_eq_some_iff.mp h
    obtain ⟨rfl, rfl⟩ | ⟨rfl, k, hcounts⟩ | ⟨rfl, k, outer', hk, hcounts, rfl⟩ | ⟨hother, rfl⟩ :=
      countsAfter_eq_some hfirst
    · rw [ownCommas_open] at hm
      exact ih (0 :: inner) hrest hm hn
    · cases inner with
      | nil =>
        rw [List.length_nil, ownCommas_closed] at hm
        cases hm
      | cons k' inner =>
        obtain ⟨-, rfl⟩ := List.cons.inj hcounts
        exact ih inner hrest hm hn
    · cases inner with
      | nil =>
        cases hcounts
        rw [List.length_nil, ownCommas_comma] at hm
        obtain ⟨m', hm', rfl⟩ := Option.map_eq_some_iff.mp hm
        have hle := ih [] hrest hm' hk
        omega
      | cons k' inner =>
        obtain ⟨-, rfl⟩ := List.cons.inj hcounts
        exact ih ((k + 1) :: inner) hrest hm hn
    · rw [ownCommas_other hother] at hm
      exact ih inner hrest hm hn

theorem IsIdentifier.not_bracket (h : IsIdentifier text) : text ∉ ["(", ")", ","] := by
  intro hmem
  rw [isIdentifier_iff] at h
  simp only [List.mem_cons, List.not_mem_nil, or_false] at hmem
  rcases hmem with rfl | rfl | rfl <;> exact absurd h (by decide)

theorem IsNumeral.not_bracket (h : IsNumeral text n) : text ∉ ["(", ")", ","] := by
  obtain ⟨-, hdigits, -⟩ := h
  intro hmem
  simp only [List.mem_cons, List.not_mem_nil, or_false] at hmem
  rcases hmem with rfl | rfl | rfl <;> simp at hdigits

/-- Texts after which the counts are known leave no list open that has six commas. -/
theorem not_leavesOverfullList (h : commaCounts counts texts = some counts') :
    ¬ LeavesOverfullList texts := by
  rintro ⟨before, name, inside, n, rfl, hname, hcommas, hn⟩
  obtain ⟨counts₁, -, hlist⟩ := exists_commaCounts_of_append h
  rw [commaCounts_cons, countsAfter_other hname.not_bracket] at hlist
  have hle := ownCommas_le [] (n := 0) hlist hcommas (Nat.zero_le 5)
  omega

end Counts

/-- The texts close every bracket that they open, and have commas in brackets only. -/
def IsNested (texts : List String) : Prop :=
  ∀ counts, commaCounts counts texts = some counts

namespace IsNested

variable {text : String} {texts more : List String}

theorem nil : IsNested [] :=
  fun _ => commaCounts_nil

theorem append (h : IsNested texts) (h' : IsNested more) : IsNested (texts ++ more) := by
  intro counts
  rw [commaCounts_append, h counts]
  exact h' counts

theorem cons (h : text ∉ ["(", ")", ","]) (h' : IsNested texts) : IsNested (text :: texts) := by
  intro counts
  rw [commaCounts_cons, countsAfter_other h]
  exact h' counts

theorem singleton (h : text ∉ ["(", ")", ","]) : IsNested [text] :=
  nil.cons h

/-- What stands in a bracket may have commas of its own, five at most. -/
theorem brackets_of_commaCounts {n : Nat}
    (h : ∀ counts, commaCounts (0 :: counts) texts = some (n :: counts)) (h' : IsNested more) :
    IsNested ("(" :: (texts ++ ")" :: more)) := by
  intro counts
  show commaCounts (0 :: counts) (texts ++ ")" :: more) = _
  rw [commaCounts_append, h]
  exact h' counts

theorem brackets (h : IsNested texts) (h' : IsNested more) :
    IsNested ("(" :: (texts ++ ")" :: more)) :=
  brackets_of_commaCounts (fun counts => h (0 :: counts)) h'

/-- The commas between the parts of a list are counted. -/
theorem commaCounts_intercalate {parts : List (List String)}
    (hparts : ∀ part ∈ parts, IsNested part) {n : Nat} (hn : n + parts.length ≤ 6) (counts : List Nat) :
    commaCounts (n :: counts) (List.intercalate [","] parts) =
      some ((n + (parts.length - 1)) :: counts) := by
  induction parts generalizing n with
  | nil => rfl
  | cons part parts ih =>
    obtain ⟨hpart, hrest⟩ := List.forall_mem_cons.mp hparts
    cases parts with
    | nil => simpa using hpart (n :: counts)
    | cons part' parts =>
      have hsum : n + (parts.length + 2) ≤ 6 := hn
      have hmore := ih hrest (n := n + 1) (by simp only [List.length_cons]; omega)
      rw [List.intercalate_cons_cons, List.append_assoc, commaCounts_append, hpart]
      show (commaCounts (n :: counts) ("," :: _)) = _
      rw [commaCounts_cons, countsAfter_comma (by omega)]
      refine hmore.trans ?_
      simp only [List.length_cons]
      congr 2
      omega

/-- A list in brackets, with no more elements than are allowed. -/
theorem list {parts : List (List String)} (hparts : ∀ part ∈ parts, IsNested part)
    (hlength : parts.length ≤ 6) (h : IsNested more) :
    IsNested ("(" :: (List.intercalate [","] parts ++ ")" :: more)) :=
  brackets_of_commaCounts (commaCounts_intercalate hparts (by omega)) h

end IsNested

theorem Expr.Derives.isNested {l : Level} {texts : List String} {e : Expr}
    (h : Expr.Derives l texts e) : IsNested texts := by
  induction h with
  | next _ _ ih => exact ih
  | binary ho _ _ _ iha ihb => exact iha.append (ihb.cons (by cases ho <;> decide))
  | assign _ _ iha ihb => exact iha.append (ihb.cons (by decide))
  | unary ho _ ih => exact ih.cons (by cases ho <;> decide)
  | brackets _ ih => exact ih.brackets .nil
  | var hname => exact .singleton hname.not_bracket
  | num hnumeral _ => exact .singleton hnumeral.not_bracket
  | call hname hlength _ ih =>
    refine .cons hname.not_bracket (.list ?_ ?_ .nil)
    · exact List.forall_mem_map.mpr ih
    · rwa [List.length_map]

theorem Expr.DerivesClause.isNested {texts : List String} {e : Expr}
    (h : Expr.DerivesClause texts e) : IsNested texts := by
  cases h with
  | empty => exact .nil
  | expression h => exact h.isNested

mutual

theorem Stmt.Derives.isNested {following : Option String} {texts : List String} (s : Stmt)
    (h : Stmt.Derives following texts s) : IsNested texts := by
  cases h with
  | block hbody =>
    exact .cons (by decide) ((Stmt.DerivesAll.isNested _ hbody).append (.singleton (by decide)))
  | ret he => exact .cons (by decide) (he.isNested.append (.singleton (by decide)))
  | ifThen hc hs _ =>
    exact .cons (by decide) (hc.isNested.brackets (Stmt.Derives.isNested _ hs))
  | ifElse hc hs ht =>
    have helse : IsNested ("else" :: _) := .cons (by decide) (Stmt.Derives.isNested _ ht)
    exact .cons (by decide) (hc.isNested.brackets ((Stmt.Derives.isNested _ hs).append helse))
  | @forLoop _ as cs bs ts _ _ _ _ ha hc hb hs =>
    have hclauses : IsNested (as ++ ";" :: (cs ++ ";" :: bs)) :=
      ha.isNested.append (.cons (by decide) (hc.isNested.append (.cons (by decide) hb.isNested)))
    have hloop := hclauses.brackets (Stmt.Derives.isNested _ hs)
    refine .cons (by decide) ?_
    simpa using hloop
  | whileLoop hc hs =>
    exact .cons (by decide) (hc.isNested.brackets (Stmt.Derives.isNested _ hs))
  | expression he _ => exact he.isNested.append (.singleton (by decide))

theorem Stmt.DerivesAll.isNested {following : Option String} {texts : List String} (ss : List Stmt)
    (h : Stmt.DerivesAll following texts ss) : IsNested texts := by
  cases h with
  | nil => exact .nil
  | cons hs hss =>
    exact (Stmt.Derives.isNested _ hs).append (Stmt.DerivesAll.isNested _ hss)

end

theorem intercalate_singletons (texts : List String) :
    List.intercalate [","] (texts.map fun text => [text]) = texts.intersperse "," := by
  induction texts with
  | nil => rfl
  | cons text texts ih =>
    cases texts with
    | nil => rfl
    | cons text' texts =>
      rw [List.intersperse_cons_cons, ← ih]
      exact List.intercalate_cons_cons

theorem Function.Derives.isNested {texts : List String} {f : Function}
    (h : Function.Derives texts f) : IsNested texts := by
  cases h with
  | @mk name params ts body hname hparams hlength hbody =>
    have hblock : IsNested ("\x7b" :: (ts ++ ["\x7d"])) :=
      .cons (by decide) ((Stmt.DerivesAll.isNested _ hbody).append (.singleton (by decide)))
    have hparts : ∀ part ∈ params.map fun param => [param], IsNested part :=
      List.forall_mem_map.mpr fun param hmem => .singleton (hparams param hmem).not_bracket
    have hlist := IsNested.list hparts (by rwa [List.length_map]) hblock
    rw [intercalate_singletons] at hlist
    exact .cons hname.not_bracket hlist

theorem Function.DerivesAll.isNested {texts : List String} {fs : List Function}
    (h : Function.DerivesAll texts fs) : IsNested texts := by
  induction h with
  | nil => exact .nil
  | cons hf _ ih => exact hf.isNested.append ih

theorem Program.Derives.isNested {dialect : Dialect} {texts : List String} {p : Program}
    (h : Program.Derives dialect texts p) : IsNested texts := by
  cases h with
  | expression h => exact h.isNested
  | statements h => exact Stmt.DerivesAll.isNested _ h
  | functions h => exact h.isNested

/-- A list that has too many commas already is not completed by any text. -/
theorem Program.Derives.not_leavesOverfullList {dialect : Dialect} {texts more : List String}
    {p : Program} (h : Program.Derives dialect (texts ++ more) p) : ¬ LeavesOverfullList texts := by
  obtain ⟨counts, hcounts, -⟩ := exists_commaCounts_of_append (h.isNested [])
  exact MiniC.not_leavesOverfullList hcounts

end MiniC
