import Mathlib
import MiniC.Excerpt

/-! What an excerpt shows: its line ends without carriage returns, and its caret stands under the
character that begins at an offset. -/
namespace MiniC

/-- A line as it is shown, without the carriage returns at its end. -/
def ShownAs (line shown : List Char) : Prop :=
  (∃ n, line = shown ++ List.replicate n '\r') ∧ shown.getLast? ≠ some '\r'

theorem shownAs_trimReturns (line : List Char) : ShownAs line (trimReturns line) := by
  constructor
  · have hreturns : ∀ c ∈ line.reverse.takeWhile (· = '\r'), c = '\r' := fun c hc => by
      simpa using List.mem_takeWhile_imp hc
    refine ⟨(line.reverse.takeWhile (· = '\r')).length, ?_⟩
    calc line =
        (line.reverse.takeWhile (· = '\r') ++ line.reverse.dropWhile (· = '\r')).reverse := by
          rw [List.takeWhile_append_dropWhile, List.reverse_reverse]
      _ = trimReturns line ++ (line.reverse.takeWhile (· = '\r')).reverse := by
          rw [List.reverse_append, trimReturns]
      _ = _ := by
          rw [List.eq_replicate_of_mem hreturns, List.reverse_replicate, List.length_replicate]
  · intro hlast
    have hhead := List.head?_dropWhile_not (· = '\r') line.reverse
    rw [trimReturns, List.getLast?_reverse] at hlast
    simp [hlast] at hhead

theorem shownAs_ofOffset (line : List Char) (pos : Nat) :
    ShownAs line (Excerpt.ofOffset (String.ofList line) pos).line.toList := by
  rw [Excerpt.ofOffset, String.toList_ofList, String.toList_ofList]
  exact shownAs_trimReturns line

theorem trimReturns_append {before : List Char} (after : List Char)
    (h : before.getLast? ≠ some '\r') :
    trimReturns (before ++ after) = before ++ trimReturns after := by
  rcases List.eq_nil_or_concat' before with rfl | ⟨initial, c, rfl⟩
  · rfl
  · have hc : c ≠ '\r' := by simpa using h
    have hstop : (initial ++ [c]).reverse.dropWhile (· = '\r') = (initial ++ [c]).reverse := by
      simp [hc]
    rw [trimReturns, trimReturns, List.reverse_append, List.dropWhile_append, hstop]
    split
    · next hempty => simp [List.isEmpty_iff.mp hempty]
    · simp

theorem columnAt_byteLength (before after : List Char) :
    columnAt (byteLength before) (before ++ after) = before.length := by
  have hzero : columnAt 0 after = 0 := by
    cases after with
    | nil => rfl
    | cons c cs => exact columnAt_zero_cons c cs
  simpa [hzero] using columnAt_append before after 0

/-- The excerpt of a line at a character boundary, where the carriage returns at the end of the line
come later. -/
theorem ofOffset_byteLength (before mid after : List Char)
    (h : (before ++ mid).getLast? ≠ some '\r') :
    Excerpt.ofOffset (String.ofList (before ++ (mid ++ after))) (byteLength before) =
      ⟨String.ofList (before ++ (mid ++ trimReturns after)), before.length⟩ := by
  have htrim := trimReturns_append after h
  rw [List.append_assoc, List.append_assoc] at htrim
  rw [Excerpt.ofOffset, String.toList_ofList, htrim, columnAt_byteLength]

theorem Source.line_of_getElem? {source : String} {i : Nat} {line : List Char}
    (h : (Source.lineChars source.toList)[i]? = some line) :
    Source.line source i = String.ofList line := by
  simp [Source.line, Source.lines, h]

end MiniC
