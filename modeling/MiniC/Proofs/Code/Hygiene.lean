import MiniC.Compile
import MiniC.Proofs.Code.Numbering
import MiniC.Proofs.Grammar.Admission
import MiniC.Proofs.Grammar.Completeness
import MiniC.Proofs.Stack.Discipline

/-! The labels of a whole listing: their names, the jumps to them, and their numbers. -/
namespace MiniC

section Names

/-- The name that a line defines, of a function or of a label. -/
def Line.definedName? : Line → Option String
  | entry function => some function
  | label l => some l.name
  | instr _ => none

/-- The names that lines define, in order. -/
def definedNames (code : List Line) : List String :=
  code.filterMap Line.definedName?

theorem stem_injective : Function.Injective LabelPlace.stem := by
  intro a b h
  cases a <;> cases b <;> first | rfl | exact absurd h (by decide)

/-- The digits of a label's name are those of its number. -/
theorem filter_name (l : Label) :
    l.name.toList.filter Char.isDigit = l.number.toNat.repr.toList ∧
      l.name.toList.filter (fun c => !c.isDigit) = l.place.stem.toList := by
  have hall : l.place.stem.toList.all fun c => !c.isDigit := by
    cases l.place <;> decide
  have hstem : ∀ c ∈ l.place.stem.toList, c.isDigit = false := by
    simpa using hall
  have hdigits : ∀ c ∈ l.number.toNat.repr.toList, c.isDigit = true :=
    (isNumeral_repr l.number.toNat).2.1
  have hname : l.name.toList = l.place.stem.toList ++ l.number.toNat.repr.toList :=
    String.toList_append
  rw [hname, List.filter_append, List.filter_append]
  constructor
  · rw [List.filter_eq_nil_iff.mpr fun c hc => by simp [hstem c hc],
      List.filter_eq_self.mpr hdigits, List.nil_append]
  · rw [List.filter_eq_self.mpr fun c hc => by simp [hstem c hc],
      List.filter_eq_nil_iff.mpr fun c hc => by simp [hdigits c hc], List.append_nil]

theorem name_injective : Function.Injective Label.name := by
  intro a b h
  obtain ⟨hdigits, hstem⟩ := filter_name a
  rw [h] at hdigits hstem
  obtain ⟨hdigits', hstem'⟩ := filter_name b
  have hrepr : a.number.toNat.repr = b.number.toNat.repr :=
    String.toList_inj.mp (hdigits.symm.trans hdigits')
  have hnumber : a.number = b.number := by
    have ha := (isNumeral_repr a.number.toNat).2.2
    rw [hrepr, ← (isNumeral_repr b.number.toNat).2.2] at ha
    exact UInt32.toNat_inj.mp ha
  have hplace := stem_injective (String.toList_inj.mp (hstem.symm.trans hstem'))
  obtain ⟨place, number⟩ := a
  exact congrArg₂ Label.mk hplace hnumber

/-- Identifiers do not begin like the name of a label. -/
theorem name_ne_of_isWord {f : String} (hf : Token.isWord f) (l : Label) : f ≠ l.name := by
  rintro rfl
  have hname : ∃ rest, l.name.toList = '.' :: rest := by
    have hstem : ∃ rest, l.place.stem.toList = '.' :: rest := by
      cases l.place <;> exact ⟨_, rfl⟩
    obtain ⟨rest, hrest⟩ := hstem
    exact ⟨_, by rw [Label.name, String.toList_append, hrest]; rfl⟩
  obtain ⟨rest, hrest⟩ := hname
  simp [Token.isWord, hrest] at hf
  exact absurd hf.1 (by decide)

theorem perm_definedNames (code : List Line) :
    (definedNames code).Perm (entriesOf code ++ (labelsOf code).map Label.name) := by
  induction code with
  | nil => exact .nil
  | cons line code ih =>
    cases line with
    | entry f => exact ih.cons f
    | label l => exact (ih.cons l.name).trans List.perm_middle.symm
    | instr i => exact ih

theorem nodup_definedNames {code : List Line} (hentries : (entriesOf code).Nodup)
    (hwords : ∀ f ∈ entriesOf code, Token.isWord f) (hlabels : (labelsOf code).Nodup) :
    (definedNames code).Nodup := by
  rw [(perm_definedNames code).nodup_iff]
  refine List.nodup_append.mpr ⟨hentries, hlabels.map name_injective, fun f hf name hname => ?_⟩
  obtain ⟨l, -, rfl⟩ := List.mem_map.mp hname
  exact name_ne_of_isWord (hwords f hf) l

end Names

/-- A visit of one of the lines `own`, which begin at line number `first`. -/
def Visit.Inside (first : Nat) (own : List Line) (v : Visit) : Prop :=
  first ≤ v.line ∧ v.line < first + own.length

namespace Enclosed

variable {frame : Frame} {code own : List Line} {first : Nat} {v w : Visit}

/-- The next line of a path through a function is again one of the function. -/
theorem stays_step (h : Enclosed frame code first own) (hv : v.Inside first own)
    (hstep : Follows code v w) : w.Inside first own := by
  obtain ⟨hlow, hhigh⟩ := hv
  have hlt : v.line - first < own.length := by omega
  obtain ⟨a, line, b, hown, hlength⟩ : ∃ a line b, own = a ++ line :: b ∧
      a.length = v.line - first :=
    ⟨own.take (v.line - first), own[v.line - first], own.drop (v.line - first + 1), by simp,
      by simp; omega⟩
  have hhere := h.getElem? hown
  rw [hlength, Nat.add_sub_of_le hlow] at hhere
  cases hstep with
  | @next n r line' hcode hfalls =>
    obtain rfl : line = line' := Option.some.inj (hhere.symm.trans hcode)
    have hb : b ≠ [] := by
      rintro rfl
      obtain ⟨init, hlast⟩ := h.last
      obtain ⟨-, hret⟩ := List.append_inj' (hown.symm.trans hlast) rfl
      obtain rfl := List.singleton_inj.mp hret
      cases hfalls
    have hpos := List.length_pos_of_ne_nil hb
    have htotal : own.length = a.length + b.length + 1 := by simp [hown]; omega
    simp only [Visit.Inside] at *
    omega
  | @jump n m r line' l hcode htarget hlabel =>
    obtain rfl : line = line' := Option.some.inj (hhere.symm.trans hcode)
    obtain ⟨a', b', hown', hm⟩ := h.jump (by simp [hown]) htarget hlabel
    have htotal : own.length = a'.length + b'.length + 1 := by simp [hown']; omega
    simp only [Visit.Inside] at *
    omega

theorem stays (h : Enclosed frame code first own) (hv : v.Inside first own)
    (hpath : Relation.ReflTransGen (Follows code) v w) : w.Inside first own := by
  induction hpath with
  | refl => exact hv
  | tail _ hstep ih => exact h.stays_step ih hstep

/-- A jump of a function goes to a label of the function. -/
theorem label_mem (h : Enclosed frame code first own) {l : Label} (hl : l ∈ targetsOf own) :
    .label l ∈ own := by
  obtain ⟨line, hmem, hlabel⟩ := List.mem_filterMap.mp (h.closed hl)
  cases line with
  | label l' =>
    obtain rfl := Option.some.inj hlabel
    exact hmem
  | entry f => cases hlabel
  | instr i => cases hlabel

end Enclosed

/-- The labels of the listing of a program are in order. -/
structure LabelHygiene (p : Program) (code : List Line) : Prop where
  /-- No name is defined twice. -/
  distinct : (definedNames code).Nodup
  /-- Jumps of a function lead to its own labels, and paths leave its lines by returns only. Calls
  come back. -/
  enclosed : ∀ fs f gs, p = fs ++ f :: gs → ∃ earlier own later, code = earlier ++ own ++ later ∧
    Program.code fs = .ok earlier ∧ f.code (Program.counts fs) = .ok own ∧
    (∀ l ∈ targetsOf own, (definedNames code).count l.name = 1 ∧ .label l ∈ own) ∧
    ∀ v w, Relation.ReflTransGen (Follows code) v w → v.Inside earlier.length own →
      w.Inside earlier.length own
  /-- The labels of a construct, of which the last one ends its code, carry the number of constructs
  of its kind that begin before it. -/
  numbered : ∀ xs f s ys k n, p.constructs = xs ++ (f, s) :: ys → s.construct? = some k →
    n = countOf k (xs.map Prod.snd) → n < 2 ^ 32 ∧ ∃ here lines pc,
      s.code f.frame here = .ok lines ∧ LinesAt code pc lines ∧
      (∀ place, place.construct = k → .label ⟨place, .ofNat n⟩ ∈ lines) ∧
      ∃ init place, place.construct = k ∧ lines = init ++ [.label ⟨place, .ofNat n⟩]

theorem numbered_constructs {p : Program} {code : List Line} {xs ys : List (Function × Stmt)}
    {f : Function} {s : Stmt} {k : Construct} (hcode : p.code = .ok code) (hn : p.counts.Numbered)
    (hxs : p.constructs = xs ++ (f, s) :: ys) (hk : s.construct? = some k) :
    countOf k (xs.map Prod.snd) < 2 ^ 32 ∧ ∃ here lines pc, s.code f.frame here = .ok lines ∧
      LinesAt code pc lines ∧ here.of k = countOf k (xs.map Prod.snd) := by
  have htotal := hn k
  rw [Program.counts_of, hxs] at htotal
  simp [hk] at htotal
  obtain ⟨here, lines, pc, hs, hl, hhere⟩ := located_codeAfter hcode hxs
  exact ⟨by omega, here, lines, pc, hs, hl, by rw [hhere]; simp⟩

/-- Labels are in order in the listing of every program from the parser. -/
theorem labelHygiene {source : String} {dialect : Dialect} {tokens : List Token} {p : Program}
    {code : List Line} (hparse : parseTokens source dialect tokens = .ok p)
    (hnames : (p.map Function.name).Nodup) (hn : p.counts.Numbered)
    (hcode : assemble p = .ok code) : LabelHygiene p code := by
  have hcode : p.code = .ok code := mapError_eq_ok_iff.mp hcode
  have hadmissible := (derives_of_parse (mapError_eq_ok_iff.mp hparse)).isAdmissible
  have hentries := entriesOf_codeAfter hcode
  have hwords : ∀ f ∈ entriesOf code, Token.isWord f := by
    rw [hentries]
    refine List.forall_mem_map.mpr fun f hf => ?_
    have h := hadmissible f hf
    simp only [Function.isAdmissible, Bool.and_eq_true] at h
    exact h.1.1.1
  have hdistinct := nodup_definedNames (hentries ▸ hnames) hwords (labelsOf_nodup hcode hn)
  refine ⟨hdistinct, ?_, ?_⟩
  · rintro fs f gs rfl
    obtain ⟨earlier, own, later, rfl, hearlier, hown, henclosed⟩ := exists_enclosed hcode hn
    refine ⟨earlier, own, later, rfl, hearlier, hown, fun l hl => ?_, fun v w hpath hv =>
      henclosed.stays hv hpath⟩
    have hmem := henclosed.label_mem hl
    have hdefined : l.name ∈ definedNames (earlier ++ own ++ later) :=
      List.mem_filterMap.mpr ⟨.label l, by simp [hmem], rfl⟩
    exact ⟨List.count_eq_one_of_mem hdistinct hdefined, hmem⟩
  · rintro xs f s ys k n hxs hk rfl
    obtain ⟨hlt, here, lines, pc, hs, hl, hhere⟩ := numbered_constructs hcode hn hxs hk
    obtain ⟨hall, init, place, hplace, hlast⟩ := labels_of_construct hs hk
    have hlabel : ∀ place : LabelPlace, place.construct = k →
        here.label place = ⟨place, .ofNat (countOf k (xs.map Prod.snd))⟩ := by
      rintro place rfl
      rw [ConstructCounts.label, hhere]
    refine ⟨hlt, here, lines, pc, hs, hl, fun place hp => ?_, init, place, hplace, ?_⟩
    · rw [← hlabel place hp]
      exact hall place hp
    · rw [← hlabel place hplace]
      exact hlast

/-- A function with constructs inside one another. -/
def alternate : Function where
  name := "alternate"
  params := ["n"]
  body := [
    .forLoop (.assign (.var "i") (.num 0)) (.binary .lt (.var "i") (.var "n"))
      (.assign (.var "i") (.binary .add (.var "i") (.num 1)))
      (.ifElse (.var "i") (.whileLoop (.var "n") (.expr (.assign (.var "n") (.num 0))))
        (.ret (.var "i")))]

/-- Each of two functions has a loop of the same kind. -/
theorem labelHygiene_alternate : ∃ tokens code,
    parseTokens "" .functions tokens = .ok [descend, alternate] ∧
    assemble [descend, alternate] = .ok code ∧ LabelHygiene [descend, alternate] code := by
  let p : Program := [descend, alternate]
  have hderives : Program.Derives .functions p.texts p := Program.derives_texts (by decide)
  obtain ⟨tokens, htokens⟩ := exists_parse_of_derives hderives
  have hparse : parseTokens "" .functions tokens = .ok p := mapError_eq_ok_iff.mpr htokens
  have hn : p.counts.Numbered := by
    intro k
    cases k <;> decide
  obtain ⟨code, hcode⟩ : ∃ code, assemble p = .ok code := ⟨_, rfl⟩
  exact ⟨tokens, code, hparse, hcode, labelHygiene hparse (by decide) hn hcode⟩

end MiniC
