import TwoLane.Proofs.Schedule.Pieces
import TwoLane.Schedule.OneSided

/-! # One-sided schedules keep to the chains

What a hybrid instruction needs holds with each instruction the predecessors of that one, so it can be emitted first.
-/

namespace TwoLane.Schedule

variable {list : InstructionList} {emitted ids : List Nat} {piece : Piece}

theorem emits_early (valid : Valid list) (follows : Follows list piece emitted) :
    Emits list piece emitted (emitEarly list emitted piece) := by
  cases piece with
  | fixed id => exact follows.emits_fixed valid
  | run ids => exact follows.emits_drain valid follows.emission (.refl _ _) _

theorem emitFirstHybrid_spec (valid : Valid list) (follows : Follows list (.run ids) emitted) :
    Emission list (emitFirstHybrid list emitted ids) ∧ Extends ids emitted (emitFirstHybrid list emitted ids) := by
  unfold emitFirstHybrid
  split
  · next first found =>
      have member := List.mem_of_find?_eq_some found
      obtain ⟨begins, closed⟩ := InstructionList.dependencies_closed list first
      have pooled : ∀ other ∈ list.dependencies first, other ∈ ids →
          other ∈ ids.filter (fun id => (list.dependencies first).contains id) :=
        fun other needed own => List.mem_filter.mpr ⟨own, List.contains_iff_mem.mpr needed⟩
      obtain ⟨emission, extends', all, _⟩ := follows.drain valid follows.emission (.refl _ _) List.filter_sublist
        (by
          intro id pool other predecessor own
          have needed : id ∈ list.dependencies first := List.contains_iff_mem.mp (List.mem_filter.mp pool).2
          exact .inr (pooled other (closed id needed predecessor) own)) classicalFirst
      exact follows.emit emission extends' member
        (fun other predecessor own => all (pooled other (begins predecessor) own))
  · exact ⟨follows.emission, .refl _ _⟩

theorem emits_late (valid : Valid list) (follows : Follows list piece emitted) :
    Emits list piece emitted (emitLate list emitted piece) := by
  cases piece with
  | fixed id => exact follows.emits_fixed valid
  | run ids =>
      obtain ⟨emission, extends'⟩ := emitFirstHybrid_spec valid follows
      exact follows.emits_drain valid emission extends' _

theorem earlyQuantum_arranges (valid : Valid list) :
    earlyQuantum list = [] ∨ (Arranges list (earlyQuantum list) ∧ earlyQuantum list ≠ list.order) :=
  arranges_orNothing (arranges_foldl valid (fun _ _ _ follows => emits_early valid follows))

/-- Putting quantum work off keeps to the chains. -/
theorem lateQuantum_arranges (valid : Valid list) :
    lateQuantum list = [] ∨ (Arranges list (lateQuantum list) ∧ lateQuantum list ≠ list.order) :=
  arranges_orNothing (arranges_foldl valid (fun _ _ _ follows => emits_late valid follows))

end TwoLane.Schedule
