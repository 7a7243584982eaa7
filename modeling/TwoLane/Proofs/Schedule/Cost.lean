import TwoLane.Optimize.Cost

/-! # Wall time

How long instructions take depends on those in front of them only by the loads of the lanes since the last hybrid
instruction. Load that is on both lanes is time that passes in any case, so what starts with some load takes at most
as much longer as the busier lane holds, and what other work leaves out cannot take longer.
-/

namespace TwoLane

variable {quantum classical quantum' classical' : Nat} {rest : List Category}

/-- The loads of the lanes behind the last hybrid one of some instructions, given the loads in front. -/
def lanesBehind : (quantum classical : Nat) → List Category → Nat × Nat
  | quantum, classical, [] => (quantum, classical)
  | quantum, classical, category :: rest =>
      if category.isHybrid then lanesBehind 0 0 rest
      else if category.onQuantumLane then lanesBehind (quantum + 1) classical rest
      else lanesBehind quantum (classical + 1) rest

/-- What comes behind some instructions starts with the loads that these leave. -/
theorem exists_passed (quantum classical : Nat) (front : List Category) : ∃ passed, ∀ rest,
    wallTimeFrom quantum classical (front ++ rest) = passed +
      wallTimeFrom (lanesBehind quantum classical front).1 (lanesBehind quantum classical front).2 rest := by
  induction front generalizing quantum classical with
  | nil => exact ⟨0, fun rest => (Nat.zero_add _).symm⟩
  | cons category front ih =>
      simp only [List.cons_append, wallTimeFrom, lanesBehind]
      split
      · obtain ⟨passed, same⟩ := ih 0 0
        exact ⟨max quantum classical + 1 + passed, fun rest => by rw [same, Nat.add_assoc _ passed]⟩
      · split <;> exact ih _ _

theorem lanesBehind_hybrid (front : List Category) {category : Category} (hybrid : category.isHybrid = true) :
    lanesBehind quantum classical (front ++ [category]) = (0, 0) := by
  induction front generalizing quantum classical with
  | nil => simp [lanesBehind, hybrid]
  | cons first front ih =>
      simp only [List.cons_append, lanesBehind]
      split
      · exact ih
      · split <;> exact ih

theorem wallTimeFrom_mono (more : quantum ≤ quantum') (more' : classical ≤ classical') (rest : List Category) :
    wallTimeFrom quantum classical rest ≤ wallTimeFrom quantum' classical' rest := by
  induction rest generalizing quantum classical quantum' classical' with
  | nil =>
      simp only [wallTimeFrom]
      omega
  | cons category rest ih =>
      simp only [wallTimeFrom]
      split
      · omega
      · split
        · exact ih (Nat.add_le_add_right more 1) more'
        · exact ih more (Nat.add_le_add_right more' 1)

/-- Load on both lanes passes in any case. -/
theorem wallTimeFrom_add (quantum classical both : Nat) (rest : List Category) :
    wallTimeFrom (quantum + both) (classical + both) rest = wallTimeFrom quantum classical rest + both := by
  induction rest generalizing quantum classical with
  | nil =>
      simp only [wallTimeFrom]
      omega
  | cons category rest ih =>
      simp only [wallTimeFrom]
      split
      · omega
      · split
        · rw [Nat.add_right_comm, ih]
        · rw [Nat.add_right_comm classical, ih]

theorem wallTimeFrom_le (quantum classical : Nat) (rest : List Category) :
    wallTimeFrom quantum classical rest ≤ max quantum classical + wallTimeFrom 0 0 rest := by
  have both := wallTimeFrom_add 0 0 (max quantum classical) rest
  have most := wallTimeFrom_mono (Nat.le_max_left quantum classical) (Nat.le_max_right quantum classical) rest
  rw [Nat.zero_add] at both
  omega

/-- What starts with a hybrid instruction, or is nothing, waits for the busier lane. -/
theorem wallTimeFrom_of_meeting {work : List Category} (meets : ∀ category ∈ work.head?, category.isHybrid = true)
    (quantum classical : Nat) :
    wallTimeFrom quantum classical work = max quantum classical + wallTimeFrom 0 0 work := by
  cases work with
  | nil => rfl
  | cons category rest =>
      have hybrid := meets category rfl
      simp only [wallTimeFrom, if_pos hybrid]
      omega

/-- Leaving out instructions that are not hybrid does not take longer. -/
theorem wallTimeFrom_filter_le {α : Type} (category : α → Category) (keeps : α → Bool) {elements : List α}
    (plain : ∀ a ∈ elements, keeps a = false → (category a).isHybrid = false) (rest : List Category) :
    wallTimeFrom quantum classical ((elements.filter keeps).map category ++ rest) ≤
      wallTimeFrom quantum classical (elements.map category ++ rest) := by
  induction elements generalizing quantum classical with
  | nil => exact Nat.le_refl _
  | cons first elements ih =>
      have later := fun a member => plain a (List.mem_cons_of_mem first member)
      rw [List.filter_cons]
      split
      · simp only [List.map_cons, List.cons_append, wallTimeFrom]
        split
        · exact Nat.add_le_add_left (ih later) _
        · split <;> exact ih later
      · next dropped =>
        have free := plain first List.mem_cons_self (by simpa using dropped)
        refine Nat.le_trans (ih later) ?_
        simp only [List.map_cons, List.cons_append, wallTimeFrom, free, Bool.false_eq_true, if_false]
        split
        · exact wallTimeFrom_mono (Nat.le_succ _) (Nat.le_refl _) _
        · exact wallTimeFrom_mono (Nat.le_refl _) (Nat.le_succ _) _

end TwoLane
