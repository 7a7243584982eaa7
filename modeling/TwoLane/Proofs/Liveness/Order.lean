import TwoLane.Optimize.Liveness
import TwoLane.Proofs.Sorted

/-! # Liveness is monotone

The more is live behind an instruction the more is live in front of it. An instruction that is dead writes nothing
that is live and touches no live qubit, so passing it over or counting it as live never loses a name.
-/

namespace TwoLane

namespace LiveSet

/-- What is live in the first set is live in the second one. -/
structure Within (a b : LiveSet) : Prop where
  memory : a.memory ⊆ b.memory
  qubits : a.qubits ⊆ b.qubits

theorem Within.refl (a : LiveSet) : Within a a :=
  ⟨List.Subset.refl _, List.Subset.refl _⟩

theorem Within.trans {a b c : LiveSet} (hab : Within a b) (hbc : Within b c) : Within a c :=
  ⟨List.Subset.trans hab.memory hbc.memory, List.Subset.trans hab.qubits hbc.qubits⟩

theorem empty_within (a : LiveSet) : Within empty a :=
  ⟨List.nil_subset _, List.nil_subset _⟩

/-- Both parts of a set are kept as strictly increasing lists. -/
structure Increasing (a : LiveSet) : Prop where
  memory : Sorted.Increasing a.memory
  qubits : Sorted.Increasing a.qubits

theorem increasing_empty : Increasing empty :=
  ⟨Sorted.increasing_nil, Sorted.increasing_nil⟩

theorem Increasing.union {a b : LiveSet} (h : Increasing a) : Increasing (a.union b) :=
  ⟨Sorted.increasing_union h.memory, Sorted.increasing_union h.qubits⟩

theorem within_union_left (a b : LiveSet) : Within a (a.union b) :=
  ⟨fun _ member => Sorted.mem_union.mpr (.inl member),
    fun _ member => Sorted.mem_union.mpr (.inl member)⟩

theorem within_union_right (a b : LiveSet) : Within b (a.union b) :=
  ⟨fun _ member => Sorted.mem_union.mpr (.inr member),
    fun _ member => Sorted.mem_union.mpr (.inr member)⟩

theorem union_mono {a a' b b' : LiveSet} (ha : Within a a') (hb : Within b b') :
    Within (a.union b) (a'.union b') where
  memory := by
    intro name member
    exact Sorted.mem_union.mpr ((Sorted.mem_union.mp member).imp (@ha.memory name) (@hb.memory name))
  qubits := by
    intro name member
    exact Sorted.mem_union.mpr ((Sorted.mem_union.mp member).imp (@ha.qubits name) (@hb.qubits name))

end LiveSet

namespace Liveness

/-- Whether an instruction has a written occurrence for each name that its operation writes. -/
def Assigns (node : Instruction) : Prop :=
  ∀ name ∈ namesOf .assignment node.operation, ∃ o ∈ node.memory, o.name = name ∧ o.isAssignment = true

variable {readout : List String} {node : Instruction} {live live' : LiveSet}

theorem isUsed_mono (within : live.Within live') {name : String}
    (used : isUsed live readout name = true) : isUsed live' readout name = true := by
  simp only [isUsed, Bool.or_eq_true, List.any_eq_true] at used ⊢
  exact used.imp_left (fun ⟨l, member, overlap⟩ => ⟨l, within.memory member, overlap⟩)

theorem memoryDead_anti (within : live.Within live') {o : MemoryOccurrence}
    (dead : memoryDead live' readout o = true) : memoryDead live readout o = true := by
  simp only [memoryDead, Bool.and_eq_true, Bool.not_eq_true'] at dead ⊢
  refine ⟨dead.1, ?_⟩
  cases used : isUsed live readout o.name with
  | false => rfl
  | true =>
      rw [isUsed_mono within used] at dead
      cases dead.2

theorem qubitDead_anti (within : live.Within live') {o : QubitOccurrence}
    (dead : qubitDead live' node o = true) : qubitDead live node o = true := by
  unfold qubitDead at dead ⊢
  split
  · next several =>
      rw [if_pos several] at dead
      simp only [entanglesLive, Bool.not_eq_true', List.any_eq_false, Bool.and_eq_true, not_and,
        List.contains_iff_mem] at dead ⊢
      intro other member use there
      exact dead other member use (within.qubits there)
  · next single =>
      rw [if_neg single] at dead
      simp only [Bool.not_eq_true', ← Bool.not_eq_true, List.contains_iff_mem] at dead ⊢
      exact fun there => dead (within.qubits there)

theorem isDead_anti (within : live.Within live') (dead : isDead live' readout node = true) :
    isDead live readout node = true := by
  simp only [isDead, Bool.and_eq_true, List.all_eq_true, Bool.or_eq_true] at dead ⊢
  obtain ⟨⟨kind, qubits⟩, memory⟩ := dead
  refine ⟨⟨kind, ?_⟩, fun o member => (memory o member).imp_right (memoryDead_anti within)⟩
  split
  · next global =>
      rw [if_pos global, List.isEmpty_iff] at qubits
      rw [List.isEmpty_iff]
      exact List.subset_nil.mp (qubits ▸ within.qubits)
  · next other =>
      rw [if_neg other, List.all_eq_true] at qubits
      rw [List.all_eq_true]
      exact fun o member => qubitDead_anti within (qubits o member)

theorem apart_of_isDead (dead : isDead live readout node = true) (assigns : Assigns node)
    {written : String} (member : written ∈ namesOf .assignment node.operation) :
    (∀ name ∈ live.memory, Memory.mayOverlap name written = false) ∧
      ∀ name ∈ readout, Memory.mayOverlap name written = false := by
  obtain ⟨o, there, rfl, writes⟩ := assigns written member
  simp only [isDead, Bool.and_eq_true, List.all_eq_true] at dead
  have unused := dead.2 o there
  simpa [writes, memoryDead, isUsed] using unused

theorem qubit_of_isDead (dead : isDead live readout node = true)
    (plain : node.operation.isGlobalReset = false) {o : QubitOccurrence} (member : o ∈ node.qubits) :
    o.name ∉ live.qubits := by
  simp only [isDead, Bool.and_eq_true, plain, Bool.false_eq_true, if_false, List.all_eq_true] at dead
  have unused := dead.1.2 o member
  unfold qubitDead at unused
  split at unused
  · next several =>
      simp only [entanglesLive, Bool.not_eq_true', List.any_eq_false, Bool.and_eq_true, not_and,
        List.contains_iff_mem] at unused
      exact unused o member several
  · simpa using unused

theorem no_qubits_of_isDead (dead : isDead live readout node = true)
    (global : node.operation.isGlobalReset = true) : live.qubits = [] := by
  simp only [isDead, Bool.and_eq_true, global, if_true, List.isEmpty_iff] at dead
  exact dead.1.2

/-! ## What is live in front of an instruction -/

theorem before_of_dead (dead : isDead live readout node = true) : before readout node live = live :=
  if_pos dead

theorem before_of_alive (alive : isDead live readout node = false) :
    before readout node live = ⟨memoryBefore node live.memory, qubitsBefore node live.qubits⟩ :=
  if_neg (by simp [alive])

def touched (node : Instruction) : List String :=
  node.qubits.map QubitOccurrence.name

def readThrough (node : Instruction) : List String :=
  (node.memory.filter (fun o => !o.isAssignment || node.operation.readsTarget)).map
    MemoryOccurrence.name

theorem mem_memoryBefore {names : List String} {name : String} :
    name ∈ memoryBefore node names ↔
      (name ∈ names ∧ (node.operation.readsTarget = false →
        name ∉ namesOf .assignment node.operation)) ∨
      name ∈ namesOf .usage node.operation ∨ name ∈ readThrough node := by
  simp only [memoryBefore, Sorted.mem_union, readThrough, or_assoc]
  cases node.operation.readsTarget with
  | true => simp
  | false => simp [Sorted.mem_foldl_erase]

theorem mem_qubitsBefore {names : List String} {name : String} :
    name ∈ qubitsBefore node names ↔
      if node.operation.isReset then
        node.operation.isGlobalReset = false ∧ name ∈ names ∧ name ∉ touched node
      else (node.operation.isGlobalReset = false ∧ name ∈ names) ∨ name ∈ touched node := by
  simp only [qubitsBefore, touched]
  split
  · cases node.operation.isGlobalReset with
    | true => simp [Sorted.mem_foldl_erase]
    | false => simp [Sorted.mem_foldl_erase]
  · cases node.operation.isGlobalReset with
    | true => simp
    | false => simp

theorem increasing_before (increasing : live.Increasing) : (before readout node live).Increasing := by
  unfold before
  split
  · exact increasing
  · refine ⟨?_, ?_⟩
    · unfold memoryBefore
      dsimp only
      refine Sorted.increasing_union (Sorted.increasing_union ?_)
      split
      · exact increasing.memory
      · exact Sorted.increasing_foldl_erase increasing.memory _
    · unfold qubitsBefore
      dsimp only
      have survivors : Sorted.Increasing
          (if node.operation.isGlobalReset = true then [] else live.qubits) := by
        split
        · exact Sorted.increasing_nil
        · exact increasing.qubits
      split
      · exact Sorted.increasing_foldl_erase survivors _
      · exact Sorted.increasing_union survivors

theorem within_before_of_isDead (within : live.Within live') (assigns : Assigns node)
    (dead : isDead live readout node = true) :
    live.Within ⟨memoryBefore node live'.memory, qubitsBefore node live'.qubits⟩ where
  memory := by
    intro name member
    refine mem_memoryBefore.mpr (.inl ⟨within.memory member, ?_⟩)
    intro _ written
    have apart := (apart_of_isDead dead assigns written).1 name member
    rw [Memory.mayOverlap_self] at apart
    cases apart
  qubits := by
    intro name member
    have plain : node.operation.isGlobalReset = false := by
      cases global : node.operation.isGlobalReset with
      | false => rfl
      | true =>
          rw [no_qubits_of_isDead dead global] at member
          cases member
    rw [mem_qubitsBefore]
    split
    · refine ⟨plain, within.qubits member, ?_⟩
      intro there
      obtain ⟨o, oIn, same⟩ := List.mem_map.mp there
      exact qubit_of_isDead dead plain oIn (same ▸ member)
    · exact .inl ⟨plain, within.qubits member⟩

theorem before_mono (within : live.Within live') (assigns : Assigns node) :
    (before readout node live).Within (before readout node live') := by
  unfold before
  cases dead' : isDead live' readout node with
  | true =>
      rw [if_pos (isDead_anti within dead'), if_pos rfl]
      exact within
  | false =>
      rw [if_neg Bool.false_ne_true]
      cases dead : isDead live readout node with
      | true => exact within_before_of_isDead within assigns dead
      | false =>
          refine ⟨?_, ?_⟩
          · intro name member
            refine mem_memoryBefore.mpr ((mem_memoryBefore.mp member).imp_left ?_)
            exact fun ⟨there, kept⟩ => ⟨within.memory there, kept⟩
          · intro name member
            have there := mem_qubitsBefore.mp member
            rw [mem_qubitsBefore]
            split
            · next reset =>
                rw [if_pos reset] at there
                exact ⟨there.1, within.qubits there.2.1, there.2.2⟩
            · next other =>
                rw [if_neg other] at there
                exact there.imp_left (fun ⟨plain, live⟩ => ⟨plain, within.qubits live⟩)

/-! ## What is live in front of a list -/

theorem foldr_before_mono {running : List Instruction} (assigns : ∀ node ∈ running, Assigns node)
    (within : live.Within live') :
    (running.foldr (before readout) live).Within (running.foldr (before readout) live') := by
  induction running with
  | nil => exact within
  | cons node rest ih =>
      exact before_mono (ih (fun n member => assigns n (List.mem_cons_of_mem _ member)))
        (assigns node List.mem_cons_self)

theorem increasing_foldr_before {running : List Instruction} (increasing : live.Increasing) :
    (running.foldr (before readout) live).Increasing := by
  induction running with
  | nil => exact increasing
  | cons node rest ih => exact increasing_before ih

end Liveness

end TwoLane
