import TwoLane.Optimize.Workspace
import TwoLane.Proofs.Schedule.Maps
import TwoLane.Proofs.Schedule.OneSided

/-! # Schedules keep results

A new order that keeps to the chains is accepted, and each instruction finds and leaves in it what it did before. So it
changes no result, and all that is known stays true.
-/

namespace TwoLane.Execution

open HybridMap (SameStanding)
open Schedule (Reorders)

variable {σ : Type} {device : Device σ} {visit : Nat} {list after : InstructionList} {order : List Nat}
  {node : Instruction}

/-- What is known about an instruction holds in all states that are the same in its resources. -/
theorem HoldsAt.of_same {before behind before' behind' : State σ} (holds : HoldsAt device node before behind)
    (sameBefore : ∀ resource ∈ node.resources, Same before before' resource)
    (sameBehind : ∀ resource ∈ node.resources, Same behind behind' resource) :
    HoldsAt device node before' behind' where
  memory := by
    intro o member value known
    have own : Resource.memory o.name ∈ node.resources := List.mem_append_left _ (List.mem_map.mpr ⟨o, member, rfl⟩)
    exact Eq.trans (sameBehind _ own).symm (holds.memory o member value known)
  named := holds.named
  after := by
    intro o member known isKnown
    have own : Resource.qubit o.name ∈ node.resources := List.mem_append_right _ (List.mem_map.mpr ⟨o, member, rfl⟩)
    exact Eq.trans (sameBehind _ own).symm (holds.after o member known isKnown)
  before := by
    intro plain o member known isKnown
    have own : Resource.qubit o.name ∈ node.resources := List.mem_append_right _ (List.mem_map.mpr ⟨o, member, rfl⟩)
    exact Eq.trans (sameBefore _ own).symm (holds.before plain o member known isKnown)

theorem keeps_reorders (regular : Regular list) (reorders : Reorders list order) (isEntry : Bool) :
    Keeps isEntry list { list with order := order } where
  regular := regular.of_roles reorders.ordered (.refl list) (fun _ => reorders.perm.mem_iff.mpr)
  roles := .refl list
  successors := rfl
  guarded := fun guarded => guarded.of_links (fun _ => rfl) (fun _ => reorders.perm.mem_iff.mpr)
  same := by
    intro σ device visit state _ told
    have ordered := regular.ordered
    refine ⟨?_, ordered.runList_of_perm reorders.perm reorders.ordered, ?_⟩
    · refine ordered.decisions_of_perm reorders.perm reorders.ordered (fun id running plain => ?_) reorders.steers
      obtain ⟨node, found⟩ := ordered.chained.exists_node running
      have notControl : node.category.isControl = false := by
        simpa [Schedule.steers, found] using plain
      rw [decision?, found, Option.bind_some, Option.map_eq_none_iff, ← Option.not_isSome_iff_eq_none]
      intro decides
      rw [regular.steered id running node found decides] at notControl
      cases notControl
    · intro id running node found
      have runs := reorders.perm.mem_iff.mpr running
      exact (told id runs node found).of_same
        (ordered.same_views reorders.perm reorders.ordered runs found)
        (ordered.same_after reorders.perm reorders.ordered runs found)

theorem reorder_eq_ok (perm : list.order.Perm order) : list.reorder order = .ok { list with order := order } := by
  have none : InstructionList.strays list.order order = [] := by
    have noStray : ∀ id, id ∉ InstructionList.strays list.order order := by
      intro id member
      rw [InstructionList.strays, Sorted.mem_ofList, List.mem_append, List.mem_filter, List.mem_filter] at member
      rcases member with ⟨old, absent⟩ | ⟨new, absent⟩
      · simp [perm.mem_iff.mp old] at absent
      · simp [perm.mem_iff.mpr new] at absent
    exact List.eq_nil_iff_forall_not_mem.mpr noStray
  rw [InstructionList.reorder, none]
  simp [perm.length_eq]

/-- Whether a list stays, or runs in a new order that keeps to its chains. -/
def Rescheduled (list after : InstructionList) : Prop :=
  after = list ∨ ∃ order, Reorders list order ∧ after = { list with order := order }

theorem Rescheduled.keeps (rescheduled : Rescheduled list after) (regular : Regular list) (isEntry : Bool) :
    Keeps isEntry list after := by
  rcases rescheduled with rfl | ⟨order, reorders, rfl⟩
  · exact .refl _ regular
  · exact keeps_reorders regular reorders isEntry

theorem Rescheduled.sameStanding (rescheduled : Rescheduled list after) : SameStanding list after := by
  rcases rescheduled with rfl | ⟨order, reorders, rfl⟩
  · exact .refl _
  · exact ⟨fun id => reorders.perm.mem_iff.symm, rfl⟩

theorem installOrder_eq_ok (index : Nat) (accepted : order = [] ∨ Reorders list order) :
    ∃ installed, Workspace.installOrder index list order = .ok installed ∧ Rescheduled list installed.1 := by
  rw [Workspace.installOrder]
  split
  · exact ⟨_, rfl, .inl rfl⟩
  · next full =>
    have reorders := accepted.resolve_left (fun none => full (by rw [none]; rfl))
    rw [reorder_eq_ok reorders.perm]
    exact ⟨_, rfl, .inr ⟨order, reorders, rfl⟩⟩

theorem reorderFrom_eq_ok {schedule : Nat → InstructionList → Except OptimizeError (List Nat)} (index : Nat)
    {lists : List InstructionList} (scheduled : ∀ {i list}, lists[i]? = some list →
      ∃ order, schedule (index + i) list = .ok order ∧ (order = [] ∨ Reorders list order)) :
    ∃ lists' changes, Workspace.reorderFrom schedule index lists = (lists', .ok changes) ∧
      List.Forall₂ Rescheduled lists lists' := by
  induction lists generalizing index with
  | nil => exact ⟨[], [], rfl, .nil⟩
  | cons list rest ih =>
      obtain ⟨order, given, accepted⟩ := scheduled (i := 0) List.getElem?_cons_zero
      obtain ⟨installed, isInstalled, rescheduled⟩ := installOrder_eq_ok index accepted
      obtain ⟨rest', changes, further, all⟩ := ih (index + 1) (fun {i list} found => by
        have later := scheduled (i := i + 1) (List.getElem?_cons_succ.trans found)
        rwa [Nat.add_assoc, Nat.add_comm 1 i])
      rw [Nat.add_zero] at given
      have both : schedule index list >>= Workspace.installOrder index list = .ok installed := by
        rw [given]
        exact isInstalled
      rw [Workspace.reorderFrom, both, further]
      exact ⟨_, _, rfl, .cons rescheduled all⟩

end TwoLane.Execution
