import TwoLane.Proofs.Schedule.Priority
import TwoLane.Proofs.Schedule.Runs
import TwoLane.Proofs.Schedule.Slowdown

/-! # How one-sided the schedules are

The one-sided schedules choose by rank among what is ready, and do not look at what is needed later. When work of the last
rank is needed, all of it that stood further in front goes first, needed or not. So within a run the work that nothing
on the other side needs is put off behind that side exactly if none of it stood in front of work that is needed.
-/

namespace TwoLane.Schedule

variable {list : InstructionList} {run order emitted new later done : List Nat} {id other c d a : Nat}
  {moved anchor : Category → Bool}

/-! ## Deferred work -/

/-- Whether no instruction of some kinds in a run needs an instruction. -/
def Free (list : InstructionList) (run : List Nat) (anchor : Category → Bool) (id : Nat) : Prop :=
  ∀ a ∈ run, anchor (categoryOf list a) = true → id ∉ list.dependencies a

instance (list : InstructionList) (run : List Nat) (anchor : Category → Bool) (id : Nat) :
    Decidable (Free list run anchor id) :=
  inferInstanceAs (Decidable (∀ a ∈ run, _ → _))

/-- Whether an order puts off all instructions of some kinds that those of other kinds do not need: in a run none of them
    stands before one of the other kinds. -/
def Deferred (list : InstructionList) (order run : List Nat) (moved anchor : Category → Bool) : Prop :=
  ∀ c ∈ run, moved (categoryOf list c) = true → Free list run anchor c →
    ∀ a ∈ run, anchor (categoryOf list a) = true → ¬ order.idxOf c < order.idxOf a

instance (list : InstructionList) (order run : List Nat) (moved anchor : Category → Bool) :
    Decidable (Deferred list order run moved anchor) :=
  inferInstanceAs (Decidable (∀ c ∈ run, _ → _ → ∀ a ∈ run, _ → _))

/-- Whether of the instructions of some kinds in a run, but for those that are done first, each that one of other kinds
    needs stands in front of each that none of these needs. -/
def NeededInFront (list : InstructionList) (run : List Nat) (moved anchor : Category → Bool) (done : List Nat) : Prop :=
  ∀ c ∈ run, moved (categoryOf list c) = true → Free list run anchor c →
    ∀ d ∈ run, moved (categoryOf list d) = true → d ∉ done →
      ∀ a ∈ run, anchor (categoryOf list a) = true → d ∈ list.dependencies a → list.order.idxOf d < list.order.idxOf c

instance (list : InstructionList) (run : List Nat) (moved anchor : Category → Bool) (done : List Nat) :
    Decidable (NeededInFront list run moved anchor done) :=
  inferInstanceAs (Decidable (∀ c ∈ run, _ → _ → ∀ d ∈ run, _ → _ → ∀ a ∈ run, _ → _ → _))

/-- Whether one instruction comes before another one exactly because that one needs work that stood behind the first. -/
def HeldUp (list : InstructionList) (order run : List Nat) (moved : Category → Bool) (done : List Nat) (c a : Nat) : Prop :=
  order.idxOf c < order.idxOf a ↔ ∃ d ∈ run, moved (categoryOf list d) = true ∧ d ∉ done ∧ d ∈ list.dependencies a ∧
    list.order.idxOf c ≤ list.order.idxOf d

theorem deferred_iff (pairs : ∀ c ∈ run, moved (categoryOf list c) = true → Free list run anchor c →
      ∀ a ∈ run, anchor (categoryOf list a) = true → HeldUp list order run moved done c a) :
    Deferred list order run moved anchor ↔ NeededInFront list run moved anchor done := by
  constructor
  · intro deferred c inside own free d inside' own' waits a there anchors needed
    by_contra behind
    refine deferred c inside own free a there anchors ((pairs c inside own free a there anchors).mpr ?_)
    exact ⟨d, inside', own', waits, needed, not_lt.mp behind⟩
  · intro inFront c inside own free a there anchors before
    obtain ⟨d, inside', own', waits, needed, stood⟩ := (pairs c inside own free a there anchors).mp before
    exact absurd (inFront c inside own free d inside' own' waits a there anchors needed) (not_lt.mpr stood)

/-! ## Ranks in a run -/

theorem quantumFirst_le (category : Category) : quantumFirst category ≤ 2 := by
  cases category <;> decide

theorem quantumLast_le (category : Category) : quantumLast category ≤ 2 := by
  cases category <;> decide

theorem quantumFirst_eq_two {category : Category} (plain : category.isControl = false) :
    quantumFirst category = 2 ↔ category = .classical := by
  cases category <;> revert plain <;> decide

theorem quantumLast_eq_two {category : Category} (plain : category.isControl = false) :
    quantumLast category = 2 ↔ category = .quantum := by
  cases category <;> revert plain <;> decide

theorem quantumFirst_lt {category : Category} (lane : category.onQuantumLane = true) : quantumFirst category < 2 := by
  cases category <;> revert lane <;> decide

theorem quantumLast_lt {category : Category} (hybrid : category.isHybrid = true) : quantumLast category < 2 := by
  cases category <;> revert hybrid <;> decide

theorem IsRun.subset (isRun : IsRun list run) : run ⊆ list.order := by
  obtain ⟨front, back, split, -⟩ := isRun.longest
  rw [split]
  exact fun id member => List.mem_append_right _ (List.mem_append_left _ member)

theorem IsRun.isControl (valid : Valid list) (isRun : IsRun list run) (member : id ∈ run) :
    (categoryOf list id).isControl = false :=
  (isControl_categoryOf valid (isRun.subset member)).trans (isRun.plain id member)

theorem Follows.drainable (follows : Follows list (.run run) emitted) : Drainable list run emitted :=
  ⟨follows.sublist, follows.closed⟩

theorem Follows.drainable_needs (follows : Follows list (.run run) emitted) (hybrid : Nat) :
    Drainable list (run.filter (fun id => (list.dependencies hybrid).contains id)) emitted := by
  refine ⟨List.filter_sublist.trans follows.sublist, fun id member other predecessor => ?_⟩
  obtain ⟨own, needed⟩ := List.mem_filter.mp member
  refine (follows.closed id own other predecessor).imp_right (fun there => List.mem_filter.mpr ⟨there, ?_⟩)
  rw [List.contains_iff_mem] at needed ⊢
  exact (InstructionList.dependencies_closed list hybrid).2 id needed predecessor

/-! ## Early quantum work -/

/-- In a run with quantum work early, classical work comes before other work exactly if that waits for classical work
    behind it. -/
theorem heldUp_early (valid : Valid list) (isRun : IsRun list run) (inside : c ∈ run)
    (classical : categoryOf list c = .classical) (there : a ∈ run) (lane : (categoryOf list a).onQuantumLane = true) :
    HeldUp list ((pieces list).foldl (emitEarly list) []) run (fun category => category == .classical) [] c a := by
  obtain ⟨emitted, new, later, block⟩ := isRun.exists_block valid (fun _ _ _ follows => emits_early valid follows)
  obtain ⟨new', made, drained⟩ := drained_drain valid block.follows.drainable quantumFirst
  obtain rfl : new' = new := List.append_cancel_left (made.symm.trans block.made)
  have last : quantumFirst (categoryOf list c) = 2 := by rw [classical]; rfl
  have iff := drained.comes_before_iff valid block.follows.drainable block.follows.emission
    (block.perm.mem_iff.mp inside) (block.perm.mem_iff.mp there) (fun x _ => last ▸ quantumFirst_le _)
    (last ▸ quantumFirst_lt lane)
  rw [HeldUp, block.idxOf_eq inside, block.idxOf_eq there, Nat.add_lt_add_iff_left, iff]
  refine exists_congr (fun d => ?_)
  rw [← block.perm.mem_iff, last]
  refine and_congr_right (fun own => ?_)
  rw [quantumFirst_eq_two (isRun.isControl valid own), beq_iff_eq]
  simp only [List.not_mem_nil, not_false_eq_true, true_and]
  exact and_left_comm

/-! ## Late quantum work -/

/-- What the first hybrid instruction of a run needs. -/
def firstNeeds (list : InstructionList) (run : List Nat) : List Nat :=
  match run.find? (isHybrid list) with
  | some first => list.dependencies first
  | none => []

theorem mem_emitFirstHybrid (valid : Valid list) (follows : Follows list (.run run) emitted) (inside : id ∈ run)
    (waits : id ∉ emitted) : id ∈ emitFirstHybrid list emitted run ↔
      id ∈ firstNeeds list run ∨ run.find? (isHybrid list) = some id := by
  rw [emitFirstHybrid, firstNeeds]
  cases found : run.find? (isHybrid list) with
  | none => simp [waits]
  | some first =>
      obtain ⟨new, made, drained⟩ := drained_drain valid (follows.drainable_needs first) classicalFirst
      dsimp only
      rw [mem_emit, made, List.mem_append, drained.mem_iff, List.mem_filter, List.contains_iff_mem]
      simp [inside, waits, eq_comm]

theorem dependencies_subset_firstNeeds
    (early : id ∈ firstNeeds list run ∨ run.find? (isHybrid list) = some id) :
    list.dependencies id ⊆ firstNeeds list run := by
  unfold firstNeeds at early ⊢
  split at early
  · next first found =>
      rcases early with needed | same
      · exact InstructionList.dependencies_trans needed
      · cases found.symm.trans same
        exact List.Subset.refl _
  · next none =>
      rcases early with member | same
      · cases member
      · cases none.symm.trans same

theorem free_not_mem_firstNeeds (free : Free list run Category.isHybrid id) : id ∉ firstNeeds list run := by
  unfold firstNeeds
  split
  · next first found =>
      have meets := List.find?_some found
      exact free first (List.mem_of_find?_eq_some found) meets
  · exact List.not_mem_nil

theorem drained_emitLate (valid : Valid list) (follows : Follows list (.run run) emitted) :
    ∃ first rest, emitFirstHybrid list emitted run = emitted ++ first ∧ Emission list (emitted ++ first) ∧
      emitLate list emitted (.run run) = emitted ++ (first ++ rest) ∧
        Drained list quantumLast run (emitted ++ first) rest := by
  obtain ⟨emission, first, begun, -⟩ := emitFirstHybrid_spec valid follows
  rw [begun] at emission
  obtain ⟨rest, made, drained⟩ := drained_drain valid (follows.drainable.append first) quantumLast
  exact ⟨first, rest, begun, emission, by rw [emitLate, begun, made, List.append_assoc], drained⟩

/-- In a run with quantum work late, quantum work that the first hybrid instruction does not need comes before a hybrid
    instruction exactly if that one waits for quantum work behind it, which the first one does not need either. -/
theorem heldUp_late (valid : Valid list) (isRun : IsRun list run) (inside : c ∈ run)
    (quantum : categoryOf list c = .quantum) (free : Free list run Category.isHybrid c) (there : a ∈ run)
    (hybrid : (categoryOf list a).isHybrid = true) :
    HeldUp list ((pieces list).foldl (emitLate list) []) run (fun category => category == .quantum)
      (firstNeeds list run) c a := by
  obtain ⟨emitted, new, later, block⟩ := isRun.exists_block valid (fun _ _ _ follows => emits_late valid follows)
  obtain ⟨first, rest, begun, emission, made, byRank⟩ := drained_emitLate valid block.follows
  obtain rfl : first ++ rest = new := List.append_cancel_left (made.symm.trans block.made)
  have early := fun {id} (inside : id ∈ run) => begun ▸
    mem_emitFirstHybrid valid block.follows inside (block.absent inside)
  have waits : ∀ {x}, x ∈ run → categoryOf list x = .quantum → (x ∈ rest ↔ x ∉ firstNeeds list run) := by
    intro x own quantum
    have plain : run.find? (isHybrid list) ≠ some x := by
      intro found
      have meets := List.find?_some found
      rw [isHybrid, quantum] at meets
      cases meets
    rw [byRank.mem_iff, early own, not_or, and_iff_right own, and_iff_left plain]
  have behind := (waits inside quantum).mpr (free_not_mem_firstNeeds free)
  have notFirst : c ∉ first := fun member =>
    (byRank.mem_iff.mp behind).2 (List.mem_append_right _ member)
  have last : quantumLast (categoryOf list c) = 2 := by rw [quantum]; rfl
  rw [HeldUp, block.idxOf_eq inside, block.idxOf_eq there, Nat.add_lt_add_iff_left,
    List.idxOf_append_of_notMem notFirst]
  by_cases ahead : a ∈ first
  · -- the hybrid instruction is emitted with the first one, and all it needs is out by then
    have all := dependencies_subset_firstNeeds ((early there).mp (List.mem_append_right _ ahead))
    have place := List.idxOf_lt_length_of_mem ahead
    rw [List.idxOf_append_of_mem ahead]
    refine iff_of_false (by omega) ?_
    rintro ⟨d, -, -, notNeeded, needed, -⟩
    exact notNeeded (all needed)
  · have member : a ∈ rest := (List.mem_append.mp (block.perm.mem_iff.mp there)).resolve_left ahead
    rw [List.idxOf_append_of_notMem ahead, Nat.add_lt_add_iff_left,
      byRank.comes_before_iff valid (block.follows.drainable.append first) emission behind member
        (fun x _ => last ▸ quantumLast_le _) (last ▸ quantumLast_lt hybrid), last]
    constructor
    · rintro ⟨d, own, needed, rank, stood⟩
      have ownRun := (byRank.mem_iff.mp own).1
      have quantum' := (quantumLast_eq_two (isRun.isControl valid ownRun)).mp rank
      exact ⟨d, ownRun, by rw [quantum']; rfl, (waits ownRun quantum').mp own, needed, stood⟩
    · rintro ⟨d, own, quantum', notNeeded, needed, stood⟩
      rw [beq_iff_eq] at quantum'
      exact ⟨d, (waits own quantum').mpr notNeeded, needed, by rw [quantum']; rfl, stood⟩

/-! ## New lists -/

/-- How one-sided the one-sided schedules of a list of new instructions are. In a run of the order with quantum work early
    no classical work that nothing on the quantum lane needs stands before work on that lane, exactly if none of it stood
    in front of classical work that is needed there. In a run of the order with quantum work late no quantum work that no
    hybrid instruction needs stands before a hybrid instruction, exactly if none of it stood in front of quantum work that
    a hybrid instruction needs and the first one does not. -/
theorem one_sided_as_far {nodes : List Instruction} (new : ∀ node ∈ nodes, node.IsNew) (block : Nat) (title : String)
    {run : List Nat} (isRun : IsRun (InstructionList.ofNodes block title nodes) run) :
    let list := InstructionList.ofNodes block title nodes
    (Deferred list (carriedOut list (earlyQuantum list)) run (fun category => category == .classical)
        Category.onQuantumLane ↔
      NeededInFront list run (fun category => category == .classical) Category.onQuantumLane []) ∧
    (Deferred list (carriedOut list (lateQuantum list)) run (fun category => category == .quantum) Category.isHybrid ↔
      NeededInFront list run (fun category => category == .quantum) Category.isHybrid (firstNeeds list run)) := by
  intro list
  have valid : Valid list := valid_of_ordered (Execution.ordered_ofNodes new)
  refine ⟨?_, ?_⟩
  · have perm := (arranges_foldl valid (fun _ _ _ follows => emits_early valid follows)).perm
    rw [earlyQuantum, carriedOut_orNothing perm]
    exact deferred_iff (fun c inside classical _ a there lane =>
      heldUp_early valid isRun inside (beq_iff_eq.mp classical) there lane)
  · have perm := (arranges_foldl valid (fun _ _ _ follows => emits_late valid follows)).perm
    rw [lateQuantum, carriedOut_orNothing perm]
    exact deferred_iff (fun c inside quantum free a there hybrid =>
      heldUp_late valid isRun inside (beq_iff_eq.mp quantum) free there hybrid)

/-- New instructions, one on each line. -/
def fresh (operations : List (Category × Operation)) : List Instruction :=
  operations.zipIdx.map (fun entry => .ofOperation entry.2 entry.1.1 entry.1.2)

theorem isNew_fresh (operations : List (Category × Operation)) : ∀ node ∈ fresh operations, node.IsNew := by
  intro node member
  obtain ⟨entry, -, rfl⟩ := List.mem_map.mp member
  exact Instruction.isNew_ofOperation _ _ _

/-- The store of a constant. -/
def move (target : String) : Category × Operation :=
  (.classical, .classical "MOVE" [.address target, .literal (.ofReal 1)])

/-- A rotation by a memory reference. -/
def rotate (angle qubit : String) : Category × Operation :=
  (.classicalToQuantum, .gate "RX" [.address angle] [qubit])

/-- A measurement whose outcome is stored. -/
def measure (qubit target : String) : Category × Operation :=
  (.quantumToClassical, .measure qubit (some target))

def turn (qubit : String) : Category × Operation :=
  (.quantum, .gate "H" [] [qubit])

/-- Work that nothing needs, behind all that is needed. -/
def tidy : List Instruction :=
  fresh [move "b", rotate "b" "0", move "a", measure "0" "r", turn "1"]

/-- A store that nothing needs in front of one that a rotation needs, and a gate that nothing needs in front of one that a
    measurement needs. -/
def idle : List Instruction :=
  fresh [move "a", move "b", rotate "b" "0", turn "1", turn "2", measure "2" "r"]

theorem isRun_range {nodes : List Instruction} (filled : nodes ≠ [])
    (plain : ∀ id ∈ List.range nodes.length, steers (InstructionList.ofNodes 0 "start" nodes) id = false) :
    IsRun (InstructionList.ofNodes 0 "start" nodes) (List.range nodes.length) :=
  ⟨by simpa using filled, plain, [], [], by simp [InstructionList.order_ofNodes], by simp, by simp⟩

/-- Where all that is needed stands in front, both schedules put the rest off. -/
theorem tidy_is_one_sided :
    let list := InstructionList.ofNodes 0 "start" tidy
    Deferred list (carriedOut list (earlyQuantum list)) [0, 1, 2, 3, 4] (fun category => category == .classical)
        Category.onQuantumLane ∧
      Deferred list (carriedOut list (lateQuantum list)) [0, 1, 2, 3, 4] (fun category => category == .quantum)
        Category.isHybrid := by
  intro list
  have isRun : IsRun list [0, 1, 2, 3, 4] := isRun_range (by decide) (by decide +kernel)
  obtain ⟨early, late⟩ := one_sided_as_far (isNew_fresh _) 0 "start" isRun
  exact ⟨early.mpr (by decide +kernel), late.mpr (by decide +kernel)⟩

/-- Neither schedule puts off all work that the other side does not need. -/
theorem work_may_stay_in_front :
    (¬ ∀ {nodes : List Instruction}, (∀ node ∈ nodes, node.IsNew) → ∀ (block : Nat) (title : String) {run : List Nat},
      let list := InstructionList.ofNodes block title nodes
      IsRun list run → Deferred list (carriedOut list (earlyQuantum list)) run
        (fun category => category == .classical) Category.onQuantumLane) ∧
    ¬ ∀ {nodes : List Instruction}, (∀ node ∈ nodes, node.IsNew) → ∀ (block : Nat) (title : String) {run : List Nat},
      let list := InstructionList.ofNodes block title nodes
      IsRun list run → Deferred list (carriedOut list (lateQuantum list)) run
        (fun category => category == .quantum) Category.isHybrid := by
  have isRun : IsRun (InstructionList.ofNodes 0 "start" idle) [0, 1, 2, 3, 4, 5] :=
    isRun_range (by decide) (by decide +kernel)
  refine ⟨fun early => ?_, fun late => ?_⟩
  · exact absurd (early (isNew_fresh _) 0 "start" isRun) (by decide +kernel)
  · exact absurd (late (isNew_fresh _) 0 "start" isRun) (by decide +kernel)

end TwoLane.Schedule
