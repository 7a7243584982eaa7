import Mathlib.Data.List.TakeWhile
import TwoLane.Text.Blank

/-! # Trimmed texts

Trimming takes blanks away at both ends and nothing else: blanks put around a text do not show in its trimmed form,
and the characters that are not blank are all kept. So a text that stands within another one has the same trimmed
form as soon as the two have equally many such characters.
-/

namespace TwoLane.Text

variable {s front back : List Char}

/-- How many characters of a text are not blank. -/
def inked (s : List Char) : Nat :=
  s.countP (fun c => !isBlank c)

@[simp] theorem inked_append (s t : List Char) : inked (s ++ t) = inked s + inked t :=
  List.countP_append

/-- A text without such characters is blank throughout. -/
theorem inked_eq_zero : inked s = 0 ↔ ∀ c ∈ s, isBlank c = true := by
  simp [inked, List.countP_eq_zero]

theorem exists_trimmed (s : List Char) :
    ∃ front back, s = front ++ (trim s ++ back) ∧ inked front = 0 ∧ inked back = 0 := by
  have blank : ∀ t : List Char, inked (t.takeWhile isBlank) = 0 := by
    intro t
    exact inked_eq_zero.mpr (fun c member => List.mem_takeWhile_imp member)
  refine ⟨s.takeWhile isBlank, ((trimStart s).reverse.takeWhile isBlank).reverse, ?_, blank s, ?_⟩
  · rw [trim, trimEnd, ← List.reverse_append, List.takeWhile_append_dropWhile, List.reverse_reverse, trimStart,
      List.takeWhile_append_dropWhile]
  · rw [inked, List.countP_reverse]
    exact blank _

theorem trimEnd_append (blank : inked back = 0) : trimEnd (s ++ back) = trimEnd s := by
  rw [trimEnd, trimEnd, List.reverse_append, List.dropWhile_append_of_pos]
  intro c member
  exact inked_eq_zero.mp blank c (List.mem_reverse.mp member)

theorem trim_around (blankFront : inked front = 0) (blankBack : inked back = 0) :
    trim (front ++ (s ++ back)) = trim s := by
  have started : trimStart (front ++ (s ++ back)) = trimStart (s ++ back) :=
    List.dropWhile_append_of_pos (inked_eq_zero.mp blankFront)
  rw [trim, started, trimStart, List.dropWhile_append]
  split
  · next empty =>
      have gone : back.dropWhile isBlank = [] := List.dropWhile_eq_nil_iff.mpr (inked_eq_zero.mp blankBack)
      rw [gone, trim, trimStart, List.isEmpty_iff.mp empty]
  · exact trimEnd_append blankBack

@[simp] theorem trim_trim (s : List Char) : trim (trim s) = trim s := by
  obtain ⟨front, back, parts, blankFront, blankBack⟩ := exists_trimmed s
  calc trim (trim s) = trim (front ++ (trim s ++ back)) := (trim_around blankFront blankBack).symm
    _ = trim s := by rw [← parts]

@[simp] theorem inked_trim (s : List Char) : inked (trim s) = inked s := by
  obtain ⟨front, back, parts, blankFront, blankBack⟩ := exists_trimmed s
  have whole := congrArg inked parts
  rw [inked_append, inked_append, blankFront, blankBack] at whole
  omega

end TwoLane.Text
