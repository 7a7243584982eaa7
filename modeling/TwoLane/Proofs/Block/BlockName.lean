import Mathlib.Data.List.Basic
import TwoLane.Block.Inlining

/-! # Names of blocks

A block is asked for by a name that is glued together: a word for what the block begins with, and a mark for
the open calls. Words without the separator of marks can be told from the mark behind them, and a mark gives
back the lines of its calls.
-/

namespace TwoLane

/-- What a block is asked for as. -/
inductive Spot where
  /-- The line of a label. -/
  | label (name : String)
  /-- The first line of a called circuit. -/
  | entry (circuit : String)
  /-- What follows the call on a line. -/
  | afterCall (line : Nat)
  /-- What follows the conditional jump on a line. -/
  | afterJump (line : Nat)
  deriving Repr, DecidableEq

namespace Spot

/-- What the name of a block starts with. -/
def word : Spot → String
  | .label name => name
  | .entry circuit => circuit
  | .afterCall line => "return." ++ toString line
  | .afterJump line => "after." ++ toString line

/-- What the name of a block ends in, given the lines of the open calls, the innermost one first. -/
def markOf : List Nat → String
  | [] => ""
  | line :: outer => markOf outer ++ "@" ++ toString line

def blockName (spot : Spot) (calls : List Nat) : String :=
  spot.word ++ markOf calls

end Spot

namespace BlockName

open Spot

/-- A word that cannot be confused with the mark behind it. -/
def Unmarked (word : String) : Prop :=
  '@' ∉ word.toList

theorem toString_injective {a b : Nat} (h : toString a = toString b) : a = b := by
  have digits : Nat.toDigits 10 a = Nat.toDigits 10 b := by
    simpa only [Nat.toString_eq_ofList_toDigits, String.ofList_inj] using h
  rw [← Nat.ofDigitChars_ten_toDigits (n := a), digits, Nat.ofDigitChars_ten_toDigits]

theorem unmarked_toString (n : Nat) : Unmarked (toString n) := by
  intro member
  rw [Nat.toString_eq_ofList_toDigits, String.toList_ofList] at member
  have digit := Nat.isDigit_of_mem_toDigits (by decide) (by decide) member
  exact absurd digit (by decide)

theorem unmarked_append {a b : String} (ha : Unmarked a) (hb : Unmarked b) :
    Unmarked (a ++ b) := by
  simp only [Unmarked, String.toList_append, List.mem_append, not_or]
  exact ⟨ha, hb⟩

theorem markOf_cons (line : Nat) (outer : List Nat) :
    (markOf (line :: outer)).toList = (markOf outer).toList ++ '@' :: (toString line).toList := by
  simp [markOf]

theorem markOf_start (line : Nat) (outer : List Nat) :
    ∃ rest, (markOf (line :: outer)).toList = '@' :: rest := by
  induction outer generalizing line with
  | nil => exact ⟨_, by rw [markOf_cons]; rfl⟩
  | cons next outer ih =>
      obtain ⟨rest, start⟩ := ih next
      exact ⟨rest ++ '@' :: (toString line).toList, by rw [markOf_cons, start]; rfl⟩

theorem cut_first {s : Char} {x y x' y' : List Char} (hx : s ∉ x) (hx' : s ∉ x')
    (h : x ++ s :: y = x' ++ s :: y') : x = x' ∧ y = y' := by
  induction x generalizing x' with
  | nil =>
      cases x' with
      | nil => exact ⟨rfl, (List.cons.inj h).2⟩
      | cons c rest => exact absurd (List.cons.inj h).1 (fun same => hx' (by simp [same]))
  | cons c rest ih =>
      cases x' with
      | nil => exact absurd (List.cons.inj h).1 (fun same => hx (by simp [← same]))
      | cons c' rest' =>
          obtain ⟨same, further⟩ := List.cons.inj h
          simp only [List.mem_cons, not_or] at hx hx'
          obtain ⟨hrest, hy⟩ := ih hx.2 hx'.2 further
          exact ⟨by rw [same, hrest], hy⟩

theorem cut_last {s : Char} {x y x' y' : List Char} (hy : s ∉ y) (hy' : s ∉ y')
    (h : x ++ s :: y = x' ++ s :: y') : x = x' ∧ y = y' := by
  have turned : y.reverse ++ s :: x.reverse = y'.reverse ++ s :: x'.reverse := by
    simpa using congrArg List.reverse h
  obtain ⟨back, front⟩ := cut_first (by simpa using hy) (by simpa using hy') turned
  exact ⟨List.reverse_inj.mp front, List.reverse_inj.mp back⟩

theorem markOf_ne_nil (line : Nat) (outer : List Nat) : markOf (line :: outer) ≠ "" := by
  intro empty
  obtain ⟨rest, start⟩ := markOf_start line outer
  rw [empty] at start
  cases start

theorem markOf_injective {a b : List Nat} (h : markOf a = markOf b) : a = b := by
  induction a generalizing b with
  | nil =>
      cases b with
      | nil => rfl
      | cons line outer => exact absurd h.symm (markOf_ne_nil line outer)
  | cons line outer ih =>
      cases b with
      | nil => exact absurd h (markOf_ne_nil line outer)
      | cons line' outer' =>
          have chars := congrArg String.toList h
          rw [markOf_cons, markOf_cons] at chars
          obtain ⟨front, back⟩ :=
            cut_last (unmarked_toString line) (unmarked_toString line') chars
          rw [toString_injective (String.toList_inj.mp back), ih (String.toList_inj.mp front)]

/-- Behind an unmarked word nothing is lost: the name gives back the word and the calls. -/
theorem append_markOf_injective {w w' : String} {a b : List Nat} (hw : Unmarked w)
    (hw' : Unmarked w') (h : w ++ markOf a = w' ++ markOf b) : w = w' ∧ a = b := by
  have chars := congrArg String.toList h
  simp only [String.toList_append] at chars
  cases a with
  | nil =>
      cases b with
      | nil => exact ⟨by simpa [markOf] using h, rfl⟩
      | cons line outer =>
          obtain ⟨rest, start⟩ := markOf_start line outer
          rw [start] at chars
          exact absurd (chars ▸ by simp : '@' ∈ w.toList ++ (markOf []).toList)
            (by simpa [markOf, Unmarked] using hw)
  | cons line outer =>
      obtain ⟨rest, start⟩ := markOf_start line outer
      rw [start] at chars
      cases b with
      | nil =>
          exact absurd (chars ▸ by simp : '@' ∈ w'.toList ++ (markOf []).toList)
            (by simpa [markOf, Unmarked] using hw')
      | cons line' outer' =>
          obtain ⟨rest', start'⟩ := markOf_start line' outer'
          rw [start'] at chars
          obtain ⟨words, rests⟩ := cut_first hw hw' chars
          refine ⟨String.toList_inj.mp words, markOf_injective (String.toList_inj.mp ?_)⟩
          rw [start, start', rests]

end BlockName

end TwoLane
