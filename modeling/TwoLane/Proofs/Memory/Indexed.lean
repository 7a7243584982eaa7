import Mathlib.Data.List.TakeWhile
import TwoLane.Instruction.Operation
import TwoLane.Optimize.Evaluation

/-! # Indexed memory

A region is a row of cells. An element stands for its cell; a whole region stands for its first cell where it is
read or written as a value, and for the row where a load or a store picks a cell by an index.
-/

namespace TwoLane.Indexed

/-- What the cells hold. -/
abbrev Cells := String → Number

/-- The cell of a reference that is read or written as a value. -/
def cell (name : String) : String :=
  if Memory.isElement name then name else name ++ "[0]"

/-- The cell of a region at an index that is written as the given text. An element has no other cell. -/
def slot (region index : String) : String :=
  if Memory.isElement region then region else region ++ "[" ++ index ++ "]"

/-- Whether a cell is among those that a load or a store of a region can pick. -/
def InRow (region cell : String) : Prop :=
  if Memory.isElement region then cell = region else Memory.region cell = Memory.region region

def read (cells : Cells) : Operand → Option Number
  | .address name => some (cells (cell name))
  | .literal value => some value
  | .expression _ _ => none

theorem takeWhile_plain {chars : List Char} (plain : ∀ c ∈ chars, c ≠ '[') (further : List Char) :
    (chars ++ '[' :: further).takeWhile (fun c => c ≠ '[') = chars := by
  induction chars with
  | nil => simp
  | cons c rest ih =>
      have here : c ≠ '[' := plain c List.mem_cons_self
      rw [List.cons_append, List.takeWhile_cons, if_pos (by simpa using here),
        ih (fun c member => plain c (List.mem_cons_of_mem _ member))]

theorem no_bracket {name : String} (whole : Memory.isElement name = false) :
    ∀ c ∈ name.toList, c ≠ '[' := by
  intro c member same
  subst same
  have element : Memory.isElement name = true := List.contains_iff_mem.mpr member
  rw [whole] at element
  cases element

theorem region_append {name : String} (whole : Memory.isElement name = false) (further : String) :
    Memory.region (name ++ ("[" ++ further)) = name := by
  have stop : ("[" ++ further).toList = '[' :: further.toList := by simp
  rw [Memory.region, String.toList_append, stop, takeWhile_plain (no_bracket whole),
    String.ofList_toList]

theorem region_of_whole {name : String} (whole : Memory.isElement name = false) :
    Memory.region name = name := by
  have plain : ∀ c ∈ name.toList, decide (c ≠ '[') = true :=
    fun c member => decide_eq_true (no_bracket whole c member)
  rw [Memory.region, List.takeWhile_eq_self_iff.mpr plain, String.ofList_toList]

theorem isElement_region (name : String) : Memory.isElement (Memory.region name) = false := by
  rw [Memory.isElement, Memory.region, String.toList_ofList, ← Bool.not_eq_true, List.contains_iff_mem]
  intro member
  simpa using List.mem_takeWhile_imp member

theorem mayOverlap_region {a b : String} (overlaps : Memory.mayOverlap a b = true) :
    Memory.mayOverlap a (Memory.region b) = true := by
  have same : Memory.region a = Memory.region b := by
    simp only [Memory.mayOverlap, Bool.or_eq_true, Bool.and_eq_true, beq_iff_eq] at overlaps
    rcases overlaps with rfl | ⟨same, _⟩
    · rfl
    · exact same
  rw [Memory.mayOverlap, region_of_whole (isElement_region b), isElement_region, same]
  simp

theorem region_cell (name : String) : Memory.region (cell name) = Memory.region name := by
  unfold cell
  split
  · rfl
  · next whole =>
      have whole : Memory.isElement name = false := by simpa using whole
      rw [region_of_whole whole]
      exact region_append whole "0]"

theorem inRow_slot (region index : String) : InRow region (slot region index) := by
  unfold InRow slot
  split
  · rfl
  · next whole =>
      have whole : Memory.isElement region = false := by simpa using whole
      rw [String.append_assoc, String.append_assoc, region_append whole, region_of_whole whole]

theorem inRow_cell (name : String) : InRow name (cell name) := by
  unfold InRow
  split
  · next element => simp [cell, element]
  · exact region_cell name

theorem not_inRow_of_apart {a b : String} (apart : Memory.mayOverlap a b = false) :
    ¬ InRow b (cell a) := by
  simp only [Memory.mayOverlap, Bool.or_eq_false_iff, beq_eq_false_iff_ne, ne_eq,
    Bool.and_eq_false_iff, Bool.not_eq_false'] at apart
  intro shared
  unfold InRow at shared
  split at shared
  · next element =>
      by_cases other : Memory.isElement a = true
      · rw [cell, if_pos other] at shared
        exact apart.1 shared
      · have regions := congrArg Memory.region shared
        rw [region_cell] at regions
        simp_all
  · next whole =>
      rw [region_cell] at shared
      simp_all

theorem cell_ne_of_apart {a b : String} (apart : Memory.mayOverlap a b = false) :
    cell a ≠ cell b := by
  intro same
  exact not_inRow_of_apart apart (same ▸ inRow_cell b)

theorem mayOverlap_of_inRow {a b shared : String} (ha : InRow a shared) (hb : InRow b shared) :
    Memory.mayOverlap a b = true := by
  unfold InRow at ha hb
  simp only [Memory.mayOverlap, Bool.or_eq_true, Bool.and_eq_true, beq_iff_eq, Bool.not_eq_true']
  split at ha <;> split at hb
  · exact .inl (ha.symm.trans hb)
  · next whole => exact .inr ⟨ha ▸ hb, .inr (by simpa using whole)⟩
  · next whole _ => exact .inr ⟨hb ▸ ha.symm, .inl (by simpa using whole)⟩
  · next whole _ => exact .inr ⟨ha.symm.trans hb, .inl (by simpa using whole)⟩

theorem mayOverlap_trans {a b c : String} (whole : Memory.isElement a = false) (first : Memory.mayOverlap a b = true)
    (second : Memory.mayOverlap b c = true) : Memory.mayOverlap a c = true := by
  simp only [Memory.mayOverlap, Bool.or_eq_true, beq_iff_eq, Bool.and_eq_true, whole, Bool.not_false, true_or,
    and_true] at first second ⊢
  rcases first with rfl | region
  · exact second.imp_right And.left
  · rcases second with rfl | ⟨region', _⟩
    · exact .inr region
    · exact .inr (region.trans region')

theorem eq_cell_of_inRow {name shared : String} (element : Memory.isElement name = true)
    (shares : InRow name shared) : shared = cell name := by
  rw [InRow, if_pos element] at shares
  rw [cell, if_pos element, shares]

end TwoLane.Indexed
