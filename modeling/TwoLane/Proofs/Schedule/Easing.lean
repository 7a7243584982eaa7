import TwoLane.Proofs.Schedule.Cost

/-! # Lighter work

Work gets lighter where instructions go and where a hybrid one falls back to one of the lanes that it joined. Neither
costs more: two segments that run into each other take no longer than one after the other. A list of control instructions
alone keeps one of them, but then there was something to keep before as well.
-/

namespace TwoLane

/-- Whether an instruction may change from one category to another: a hybrid one may fall back to a single lane. -/
inductive Category.Lightens : Category → Category → Prop
  | same (category : Category) : Lightens category category
  | quantum {category : Category} : category.isHybrid = true → Lightens category .quantum
  | classical {category : Category} : category.isHybrid = true → Lightens category .classical

/-- Whether work is what some other work becomes if instructions go or get lighter. -/
inductive Lighter : List Category → List Category → Prop
  | nil : Lighter [] []
  | drop {after before : List Category} (category : Category) :
      Lighter after before → Lighter after (category :: before)
  | keep {after before : List Category} {category category' : Category} :
      category.Lightens category' → Lighter after before → Lighter (category' :: after) (category :: before)

/-- Whether no figure of a cost is larger than that of another one. -/
structure Metrics.AtMost (a b : Metrics) : Prop where
  instructions : a.instructions ≤ b.instructions
  quantumInstructions : a.quantumInstructions ≤ b.quantumInstructions
  wallTime : a.wallTime ≤ b.wallTime

namespace Category.Lightens

variable {category category' last : Category}

theorem trans (first : category.Lightens category') (second : category'.Lightens last) : category.Lightens last := by
  cases second with
  | same => exact first
  | quantum hybrid =>
      cases first with
      | same => exact .quantum hybrid
      | quantum => cases hybrid
      | classical => cases hybrid
  | classical hybrid =>
      cases first with
      | same => exact .classical hybrid
      | quantum => cases hybrid
      | classical => cases hybrid

theorem onQuantumLane (lightens : category.Lightens category') (onLane : category'.onQuantumLane = true) :
    category.onQuantumLane = true := by
  cases lightens with
  | same => exact onLane
  | quantum hybrid => simp [Category.onQuantumLane, hybrid]
  | classical => cases onLane

theorem control_iff (lightens : category.Lightens category') : category' = .control ↔ category = .control := by
  cases lightens with
  | same => rfl
  | quantum hybrid => cases category <;> simp_all [isHybrid]
  | classical hybrid => cases category <;> simp_all [isHybrid]

end Category.Lightens

/-! ## Wall time -/

theorem wallTimeFrom_pos {quantum classical : Nat} {work : List Category}
    (some : 0 < quantum ∨ 0 < classical ∨ work ≠ []) : 0 < wallTimeFrom quantum classical work := by
  induction work generalizing quantum classical with
  | nil =>
      simp only [wallTimeFrom]
      simp at some
      omega
  | cons category work ih =>
      simp only [wallTimeFrom]
      split
      · omega
      · split
        · exact ih (.inl (Nat.succ_pos _))
        · exact ih (.inr (.inl (Nat.succ_pos _)))

namespace Lighter

variable {after before : List Category}

theorem length_le (lighter : Lighter after before) : after.length ≤ before.length := by
  induction lighter with
  | nil => simp
  | drop _ _ ih => simp; omega
  | keep _ _ ih => simpa using ih

theorem countP_le (lighter : Lighter after before) :
    after.countP Category.onQuantumLane ≤ before.countP Category.onQuantumLane := by
  induction lighter with
  | nil => simp
  | drop category _ ih =>
      rw [List.countP_cons]
      omega
  | @keep _ _ category category' lightens _ ih =>
      have lane := lightens.onQuantumLane
      simp only [List.countP_cons]
      split
      · next onLane =>
          simp only [lane onLane, if_true]
          omega
      · omega

/-- Lighter work does not take longer, with whatever load it starts. -/
theorem wallTimeFrom_le (lighter : Lighter after before) (quantum classical : Nat) :
    wallTimeFrom quantum classical after ≤ wallTimeFrom quantum classical before := by
  induction lighter generalizing quantum classical with
  | nil => exact Nat.le_refl _
  | @drop after _ category _ ih =>
      have whole := TwoLane.wallTimeFrom_le quantum classical after
      have fresh := ih 0 0
      simp only [wallTimeFrom]
      split
      · omega
      · split
        · exact Nat.le_trans (wallTimeFrom_mono (Nat.le_succ _) (Nat.le_refl _) _) (ih _ _)
        · exact Nat.le_trans (wallTimeFrom_mono (Nat.le_refl _) (Nat.le_succ _) _) (ih _ _)
  | @keep after _ _ _ lightens _ ih =>
      have fresh := ih 0 0
      cases lightens with
      | same =>
          simp only [wallTimeFrom]
          split
          · omega
          · split <;> apply ih
      -- without the meeting the segment goes on with one more instruction on one lane
      | quantum hybrid =>
          have whole := TwoLane.wallTimeFrom_le (quantum + 1) classical after
          simp only [wallTimeFrom, if_pos hybrid]
          change wallTimeFrom (quantum + 1) classical after ≤ _
          omega
      | classical hybrid =>
          have whole := TwoLane.wallTimeFrom_le quantum (classical + 1) after
          simp only [wallTimeFrom, if_pos hybrid]
          change wallTimeFrom quantum (classical + 1) after ≤ _
          omega

theorem filter_control (lighter : Lighter after before) :
    Lighter (after.filter (· != .control)) (before.filter (· != .control)) := by
  induction lighter with
  | nil => exact .nil
  | drop category _ ih =>
      rw [List.filter_cons]
      split
      · exact .drop category ih
      · exact ih
  | @keep _ _ category category' lightens _ ih =>
      have control := lightens.control_iff
      by_cases isControl : category = .control
      · simpa [isControl, control.mpr isControl] using ih
      · simpa [isControl, control] using .keep lightens ih

theorem all_control (lighter : Lighter after before) (control : ∀ category ∈ before, category = .control) :
    ∀ category ∈ after, category = .control := by
  induction lighter with
  | nil => exact control
  | drop category _ ih => exact ih (fun other member => control other (List.mem_cons_of_mem _ member))
  | keep lightens _ ih =>
      intro other member
      rcases List.mem_cons.mp member with rfl | member
      · exact lightens.control_iff.mpr (control _ List.mem_cons_self)
      · exact ih (fun other member => control other (List.mem_cons_of_mem _ member)) other member

end Lighter

/-! ## Cost without control instructions -/

/-- What is left of work when control instructions go, the last one excepted where there are no others. -/
def withoutControl (work : List Category) : List Category :=
  if work.all (· == .control) then work.getLast?.toList else work.filter (· != .control)

def Metrics.ofWork (work : List Category) : Metrics where
  instructions := work.length
  quantumInstructions := work.countP Category.onQuantumLane
  wallTime := wallTimeFrom 0 0 work

theorem withoutControl_ne_nil {work : List Category} (some : work ≠ []) : withoutControl work ≠ [] := by
  rw [withoutControl]
  split
  · simpa using some
  · next other =>
      simpa using other

theorem Lighter.cost_atMost {after before : List Category} (lighter : Lighter after before) :
    (Metrics.ofWork (withoutControl after)).AtMost (Metrics.ofWork (withoutControl before)) := by
  by_cases control : ∀ category ∈ after, category = .control
  · -- all that is left is a single control instruction, and the work before has one instruction at least
    have left : withoutControl after = after.getLast?.toList := by rw [withoutControl, if_pos (by simpa using control)]
    cases last : after.getLast? with
    | none => constructor <;> simp [left, last, Metrics.ofWork, wallTimeFrom]
    | some category =>
        have isControl := control category (List.mem_of_getLast? last)
        have some : before ≠ [] := by
          rintro rfl
          cases lighter
          cases last
        have more := withoutControl_ne_nil some
        have time : 0 < wallTimeFrom 0 0 (withoutControl before) := wallTimeFrom_pos (.inr (.inr more))
        have length := List.length_pos_iff.mpr more
        constructor <;> simp [left, last, isControl, Metrics.ofWork, wallTimeFrom, Category.isHybrid,
          Category.onQuantumLane] <;> omega
  · have further : ¬ ∀ category ∈ before, category = .control := fun all => control (lighter.all_control all)
    have rest := lighter.filter_control
    rw [withoutControl, if_neg (by simpa using control), withoutControl, if_neg (by simpa using further)]
    exact ⟨rest.length_le, rest.countP_le, rest.wallTimeFrom_le 0 0⟩

/-- The cost of both parts together is no larger where that of each part is not. -/
theorem Metrics.AtMost.add {a b c d : Metrics} (first : a.AtMost b) (second : c.AtMost d) :
    (a.add c).AtMost (b.add d) :=
  ⟨Nat.add_le_add first.instructions second.instructions,
    Nat.add_le_add first.quantumInstructions second.quantumInstructions, Nat.add_le_add first.wallTime second.wallTime⟩

end TwoLane
