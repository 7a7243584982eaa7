import TwoLane.Number

/-! # Classical memory

A memory reference names a whole region, as `ro`, or one of its elements, as `ro[3]`. Two references
may overlap when they are the same or when one of them stands for the whole region of the other.
-/

namespace TwoLane

namespace Memory

/-- The region of a reference: all that stands before the first bracket. -/
def region (reference : String) : String :=
  String.ofList (reference.toList.takeWhile (fun c => c ≠ '['))

/-- Whether a reference names an element and not a whole region. -/
def isElement (reference : String) : Bool :=
  reference.toList.contains '['

/-- Whether two references may name the same storage. -/
def mayOverlap (a b : String) : Bool :=
  a == b || (region a == region b && (!isElement a || !isElement b))

@[simp] theorem mayOverlap_self (a : String) : mayOverlap a a = true := by
  simp [mayOverlap]

theorem mayOverlap_comm (a b : String) : mayOverlap a b = mayOverlap b a := by
  rw [Bool.eq_iff_iff]
  simp only [mayOverlap, Bool.or_eq_true, Bool.and_eq_true, beq_iff_eq]
  constructor <;> rintro (h | ⟨h, h'⟩)
  · exact Or.inl h.symm
  · exact Or.inr ⟨h.symm, h'.symm⟩
  · exact Or.inl h.symm
  · exact Or.inr ⟨h.symm, h'.symm⟩

end Memory

/-- How an instruction touches a memory reference. -/
inductive MemoryUse where
  /-- It writes the reference. -/
  | assignment
  /-- It only reads the reference. -/
  | usage
  deriving Repr, DecidableEq, Inhabited

def MemoryUse.name : MemoryUse → String
  | .assignment => "Assignment"
  | .usage => "Usage"

/-- A memory reference that an operation names, and how it touches it. -/
structure MemoryAccess where
  name : String
  use : MemoryUse
  deriving Repr, DecidableEq

end TwoLane
