import Mathlib

/-! Lists that stand at the front of a longer list and can be told from one another there. -/
namespace MiniC

variable {α β : Type} {r r' : List β}

/-- The list is empty or begins in a certain way. -/
def Opens (start : β → Prop) (r : List β) : Prop :=
  ∀ b ∈ r.head?, start b

theorem opens_nil {start : β → Prop} : Opens start [] := by
  simp [Opens]

@[simp] theorem opens_cons {start : β → Prop} {b : β} : Opens start (b :: r) ↔ start b := by
  simp [Opens]

theorem Opens.mono {start start' : β → Prop} (h : Opens start r) (hle : ∀ b, start b → start' b) :
    Opens start' r :=
  fun b hb => hle b (h b hb)

/-- What `a` is written as cannot be taken for what another element is written as, nor for the
beginning of it, when nothing but what `ends` allows comes next. -/
def Reads (write : α → List β) (ok : α → Prop) (ends : β → Prop) (a : α) : Prop :=
  ∀ a' r r', ok a' → Opens ends r → Opens ends r' → write a ++ r = write a' ++ r' →
    a = a' ∧ r = r'

/-- Elements of one class end where one of another class comes. -/
theorem append_inj_of_boundary {good : β → Bool} {a a' : List β} (ha : ∀ b ∈ a, good b)
    (ha' : ∀ b ∈ a', good b) (hr : Opens (fun b => good b = false) r)
    (hr' : Opens (fun b => good b = false) r') (h : a ++ r = a' ++ r') : a = a' ∧ r = r' := by
  have hnil {l : List β} (hl : Opens (fun b => good b = false) l) : l.takeWhile good = [] := by
    cases l with
    | nil => rfl
    | cons b more => exact List.takeWhile_cons_of_neg (by simpa using opens_cons.mp hl)
  have htake := congrArg (List.takeWhile good) h
  rw [List.takeWhile_append_of_pos ha, List.takeWhile_append_of_pos ha', hnil hr, hnil hr',
    List.append_nil, List.append_nil] at htake
  subst htake
  exact ⟨rfl, List.append_cancel_left h⟩

section Lists

variable {write : α → List β} {ok : α → Prop} {ends : β → Prop}

theorem Reads.cons {a : α} (h : Reads write ok ends a) (b : β) :
    Reads (fun a => b :: write a) ok ends a :=
  fun a' r r' hok hr hr' heq => h a' r r' hok hr hr' (List.cons.inj heq).2

/-- What elements are written as one after the other, up to something that none of them begins
with. -/
theorem flatMap_reads (starts : β → Prop) {as as' : List α}
    (has : ∀ a ∈ as, Reads write ok ends a) (has' : ∀ a ∈ as', ok a)
    (hstarts : ∀ a, ∃ b more, write a = b :: more ∧ starts b) (hends : ∀ b, starts b → ends b)
    (hr : Opens (fun b => ends b ∧ ¬ starts b) r) (hr' : Opens (fun b => ends b ∧ ¬ starts b) r')
    (h : as.flatMap write ++ r = as'.flatMap write ++ r') : as = as' ∧ r = r' := by
  -- What follows an element is the next one or the end, and either may follow.
  have hopens {l : List β} (bs : List α) (hl : Opens (fun b => ends b ∧ ¬ starts b) l) :
      Opens ends (bs.flatMap write ++ l) := by
    cases bs with
    | nil => exact hl.mono fun b hb => hb.1
    | cons a bs =>
      obtain ⟨b, more, hb, hstart⟩ := hstarts a
      rw [List.flatMap_cons, hb]
      exact opens_cons.mpr (hends b hstart)
  have hdiffer {l : List β} {a : α} {more : List β}
      (hl : Opens (fun b => ends b ∧ ¬ starts b) l) : l ≠ write a ++ more := by
    rintro rfl
    obtain ⟨b, rest, hb, hstart⟩ := hstarts a
    rw [hb] at hl
    exact (opens_cons.mp hl).2 hstart
  induction as generalizing as' with
  | nil =>
    cases as' with
    | nil => exact ⟨rfl, h⟩
    | cons a' as' =>
      rw [List.flatMap_cons, List.append_assoc] at h
      exact absurd h (hdiffer hr)
  | cons a as ih =>
    cases as' with
    | nil =>
      rw [List.flatMap_cons, List.append_assoc] at h
      exact absurd h.symm (hdiffer hr')
    | cons a' as' =>
      obtain ⟨ha, hlater⟩ := List.forall_mem_cons.mp has
      obtain ⟨ha', hlater'⟩ := List.forall_mem_cons.mp has'
      rw [List.flatMap_cons, List.flatMap_cons, List.append_assoc, List.append_assoc] at h
      obtain ⟨rfl, hrest⟩ := ha a' _ _ ha' (hopens as hr) (hopens as' hr') h
      obtain ⟨rfl, rfl⟩ := ih hlater hlater' hrest
      exact ⟨rfl, rfl⟩

theorem intercalate_cons_eq_flatMap (separator : List β) (a : α) (as : List α) :
    separator.intercalate ((a :: as).map write) =
      write a ++ as.flatMap fun a => separator ++ write a := by
  induction as generalizing a with
  | nil => simp
  | cons a' as ih =>
    rw [List.map_cons, List.map_cons, List.intercalate_cons_cons, ← List.map_cons, ih,
      List.flatMap_cons, List.append_assoc, List.append_assoc]

theorem mem_of_mem_intercalate {separator : List β} {as : List α} {b : β}
    (h : b ∈ separator.intercalate (as.map write)) : b ∈ separator ∨ ∃ a ∈ as, b ∈ write a := by
  cases as with
  | nil => cases h
  | cons a as =>
    rw [intercalate_cons_eq_flatMap, List.mem_append, List.mem_flatMap] at h
    rcases h with h | ⟨a', ha', h⟩
    · exact .inr ⟨a, List.mem_cons_self, h⟩
    · exact (List.mem_append.mp h).imp_right fun h => ⟨a', List.mem_cons_of_mem a ha', h⟩

end Lists

/-- Texts with commas between them, up to a closing bracket. -/
theorem separated_reads {write : α → List Char} {ok : α → Prop} {ends : Char → Prop}
    {as as' : List α} {r r' : List Char} (has : ∀ a ∈ as, Reads write ok ends a)
    (hok : ∀ a ∈ as, ok a) (hok' : ∀ a ∈ as', ok a)
    (hstarts : ∀ a, ok a → ∃ c more, write a = c :: more ∧ c ≠ ')') (hcomma : ends ',')
    (hclose : ends ')')
    (h : [',', ' '].intercalate (as.map write) ++ ')' :: r =
      [',', ' '].intercalate (as'.map write) ++ ')' :: r') : as = as' ∧ r = r' := by
  have hdiffer {a : α} {bs : List α} {l l' : List Char} (ha : ok a) :
      ')' :: l ≠ [',', ' '].intercalate ((a :: bs).map write) ++ l' := by
    obtain ⟨c, more, hc, hne⟩ := hstarts a ha
    rw [intercalate_cons_eq_flatMap, hc]
    intro heq
    exact hne (List.cons.inj heq).1.symm
  have hopens (bs : List α) (l : List Char) :
      Opens ends ((bs.flatMap fun a => [',', ' '] ++ write a) ++ ')' :: l) := by
    cases bs with
    | nil => exact opens_cons.mpr hclose
    | cons a bs => exact opens_cons.mpr hcomma
  cases as with
  | nil =>
    cases as' with
    | nil => exact ⟨rfl, (List.cons.inj h).2⟩
    | cons a' as' => exact absurd h (hdiffer (hok' a' List.mem_cons_self))
  | cons a as =>
    cases as' with
    | nil => exact absurd h.symm (hdiffer (hok a List.mem_cons_self))
    | cons a' as' =>
      obtain ⟨ha, has⟩ := List.forall_mem_cons.mp has
      obtain ⟨ha', has'⟩ := List.forall_mem_cons.mp hok'
      rw [intercalate_cons_eq_flatMap, intercalate_cons_eq_flatMap, List.append_assoc,
        List.append_assoc] at h
      obtain ⟨rfl, hrest⟩ := ha a' _ _ ha' (hopens as r) (hopens as' r') h
      have hitems : ∀ a ∈ as, Reads (fun a => [',', ' '] ++ write a) ok ends a :=
        fun a ha => ((has a ha).cons ' ').cons ','
      obtain ⟨rfl, hclosing⟩ := flatMap_reads (· = ',') hitems has'
        (fun a => ⟨',', _, rfl, rfl⟩) (by rintro _ rfl; exact hcomma)
        (opens_cons.mpr ⟨hclose, by decide⟩) (opens_cons.mpr ⟨hclose, by decide⟩) hrest
      exact ⟨rfl, (List.cons.inj hclosing).2⟩

end MiniC
