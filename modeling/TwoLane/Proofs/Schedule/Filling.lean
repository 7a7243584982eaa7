import TwoLane.Proofs.Schedule.Leading

/-! # Filling the lighter lane

What is emitted in front of a hybrid instruction of a run is all that it needs, and work for the lighter lane that is
pulled in besides, never more than one unit beyond the other lane. Where work meets that of the other lane only by
way of hybrid instructions, what stood in front of the hybrid instruction is pulled in first.
-/

namespace TwoLane.Schedule

variable {list : InstructionList} {map : HybridMap} {emitted assumed pool ids needs : List Nat} {id hybrid : Nat}
  {quantum : Bool} {bound : Nat}

/-! ## Draining -/

theorem nodup_emit (distinct : emitted.Nodup) (id : Nat) : (emit emitted id).Nodup := by
  unfold emit
  split
  · exact distinct
  · next absent =>
    rw [List.contains_iff_mem] at absent
    rw [← List.concat_eq_append]
    exact distinct.concat absent

theorem emitReady_extends (list : InstructionList) (distinct : emitted.Nodup) (priority : Category → Nat) (pool : List Nat) (bound : Nat) :
    Extends pool emitted (emitReady list priority pool bound emitted) ∧
      (emitReady list priority pool bound emitted).Nodup := by
  induction bound generalizing emitted with
  | zero => exact ⟨.refl _ _, distinct⟩
  | succ bound ih =>
      rw [emitReady]
      split
      · next id chosen =>
        have own := List.contains_iff_mem.mp (List.mem_filter.mp (firstLeast_mem chosen)).2
        obtain ⟨extends', distinct'⟩ := ih (nodup_emit distinct id)
        exact ⟨(extends_emit own).trans extends', distinct'⟩
      · exact ⟨.refl _ _, distinct⟩

theorem foldl_emit_extends (distinct : emitted.Nodup) (pool : List Nat) :
    Extends pool emitted (pool.foldl emit emitted) ∧ (pool.foldl emit emitted).Nodup ∧
      pool ⊆ pool.foldl emit emitted := by
  induction pool generalizing emitted with
  | nil => exact ⟨.refl _ _, distinct, List.nil_subset _⟩
  | cons id rest ih =>
      obtain ⟨extends', distinct', all⟩ := ih (nodup_emit distinct id)
      refine ⟨(extends_emit List.mem_cons_self).trans (extends'.mono (List.subset_cons_self _ _)), distinct', ?_⟩
      exact List.cons_subset.mpr ⟨extends'.subset (mem_emit.mpr (.inr rfl)), all⟩

theorem drain_perm (list : InstructionList) (distinct : emitted.Nodup) (once : pool.Nodup) (waits : ∀ id ∈ pool, id ∉ emitted)
    (priority : Category → Nat) : ∃ new, drain list priority pool emitted = emitted ++ new ∧ pool.Perm new := by
  obtain ⟨first, distinct'⟩ := emitReady_extends list distinct priority pool pool.length
  obtain ⟨second, distinct'', all⟩ := foldl_emit_extends distinct' pool
  obtain ⟨new, same, own⟩ := first.trans second
  refine ⟨new, same, ?_⟩
  rw [same] at distinct'' all
  refine (List.perm_ext_iff_of_nodup once (List.nodup_append.mp distinct'').2.1).mpr (fun id => ⟨fun there => ?_, ?_⟩)
  · exact (List.mem_append.mp (all there)).resolve_left (waits id there)
  · exact fun there => own there

theorem nodup_drain (list : InstructionList) (distinct : emitted.Nodup) (priority : Category → Nat) (pool : List Nat) :
    (drain list priority pool emitted).Nodup :=
  (foldl_emit_extends (emitReady_extends list distinct priority pool pool.length).2 pool).2.1

/-! ## Pulling -/

theorem accepts_of_executable {scheduled : List Nat} {accepts : Category → Bool}
    (member : id ∈ list.executable scheduled accepts) : accepts (categoryOf list id) = true := by
  obtain ⟨_, conditions⟩ := List.mem_filter.mp member
  simp only [Bool.and_eq_true] at conditions
  rw [categoryOf]
  cases found : list.get? id with
  | none => simp [found] at conditions
  | some node => simpa [found] using conditions.1.2

theorem mem_pull (member : id ∈ pull list quantum ids bound assumed) :
    id ∈ ids ∧ id ∉ assumed ∧ fillsLane quantum (categoryOf list id) = true := by
  induction bound generalizing assumed with
  | zero => cases member
  | succ bound ih =>
      rw [pull] at member
      split at member
      · next first found =>
        rcases List.mem_cons.mp member with rfl | later
        · have ready := List.mem_of_find?_eq_some found
          exact ⟨List.contains_iff_mem.mp (List.find?_some found), (mem_executable ready).2.1,
            accepts_of_executable ready⟩
        · obtain ⟨own, waits, lane⟩ := ih later
          exact ⟨own, fun old => waits (List.mem_append_left _ old), lane⟩
      · cases member

theorem nodup_pull (list : InstructionList) (quantum : Bool) (ids : List Nat) (bound : Nat) (assumed : List Nat) :
    (pull list quantum ids bound assumed).Nodup := by
  induction bound generalizing assumed with
  | zero => exact List.nodup_nil
  | succ bound ih =>
      rw [pull]
      split
      · next first _ =>
        refine List.nodup_cons.mpr ⟨fun again => ?_, ih _⟩
        exact (mem_pull again).2.1 (List.mem_append_right _ List.mem_cons_self)
      · exact List.nodup_nil

theorem length_pull_le (list : InstructionList) (quantum : Bool) (ids : List Nat) (bound : Nat) (assumed : List Nat) :
    (pull list quantum ids bound assumed).length ≤ bound := by
  induction bound generalizing assumed with
  | zero => exact Nat.le_refl _
  | succ bound ih =>
      rw [pull]
      split
      · exact Nat.succ_le_succ (ih _)
      · exact Nat.zero_le _

/-- Whether an instruction is work for a lane that is not assumed to be done. -/
def waitsFor (list : InstructionList) (quantum : Bool) (assumed : List Nat) (id : Nat) : Bool :=
  !assumed.contains id && fillsLane quantum (categoryOf list id)

theorem mem_executable_of_ready (running : id ∈ list.order) (waits : waitsFor list quantum assumed id = true)
    (ready : list.predecessors id ⊆ assumed) : id ∈ list.executable assumed (fillsLane quantum) := by
  obtain ⟨absent, lane⟩ := Bool.and_eq_true_iff.mp waits
  refine List.mem_filter.mpr ⟨running, ?_⟩
  have all : list.isReady assumed id = true := by
    rw [InstructionList.isReady, List.all_eq_true]
    exact fun other predecessor => List.contains_iff_mem.mpr (ready predecessor)
  rw [absent, all, Bool.true_and, Bool.and_true]
  rw [categoryOf] at lane
  cases found : list.get? id with
  | none =>
      rw [found] at lane
      cases quantum <;> cases lane
  | some node => simpa [found] using lane

theorem pulled_first (distinct : list.order.Nodup) (within : ids.Sublist list.order) {first : Nat} {further : List Nat}
    (waiting : ids.filter (waitsFor list quantum assumed) = first :: further)
    (ready : list.predecessors first ⊆ assumed) :
    (list.executable assumed (fillsLane quantum)).find? (fun id => ids.contains id) = some first := by
  have here : first ∈ ids.filter (waitsFor list quantum assumed) := by
    rw [waiting]
    exact List.mem_cons_self
  obtain ⟨own, waits⟩ := List.mem_filter.mp here
  have there := mem_executable_of_ready (within.subset own) waits ready
  have some : ((list.executable assumed (fillsLane quantum)).find? (fun id => ids.contains id)).isSome = true :=
    List.find?_isSome.mpr ⟨first, there, List.contains_iff_mem.mpr own⟩
  obtain ⟨found, isFound⟩ := Option.isSome_iff_exists.mp some
  obtain ⟨ownFound, before, behind, split, skipped⟩ := List.find?_eq_some_iff_append.mp isFound
  rw [isFound, Option.some_inj]
  by_contra differ
  -- the one that is found runs in front of the first one, but waits behind it
  have late : first ∈ behind := by
    rw [split] at there
    rcases List.mem_append.mp there with early | rest
    · have := skipped first early
      simp [own] at this
    · exact (List.mem_cons.mp rest).resolve_left (fun same => differ same.symm)
  have runs : [found, first].Sublist list.order :=
    (((List.singleton_sublist.mpr late).cons_cons found).trans (List.sublist_append_right before _)).trans
      (split ▸ List.filter_sublist)
  have member : found ∈ list.executable assumed (fillsLane quantum) := List.mem_of_find?_eq_some isFound
  have waitsToo : found ∈ ids.filter (waitsFor list quantum assumed) := by
    refine List.mem_filter.mpr ⟨List.contains_iff_mem.mp ownFound, ?_⟩
    have absent : assumed.contains found = false := by
      simpa using (mem_executable member).2.1
    rw [waitsFor, absent, accepts_of_executable member]
    rfl
  rw [waiting] at waitsToo
  have inside : found ∈ further := (List.mem_cons.mp waitsToo).resolve_left differ
  have turned : [first, found].Sublist list.order :=
    ((List.singleton_sublist.mpr inside).cons_cons first).trans
      (waiting ▸ List.filter_sublist.trans within)
  have := idxOf_lt_of_sublist distinct runs
  have := idxOf_lt_of_sublist distinct turned
  omega

/-- Work at the front of a run that depends on assumed work and work in front of it alone is pulled in order. -/
theorem pull_front (distinct : list.order.Nodup) (within : ids.Sublist list.order) (quantum : Bool) (bound : Nat)
    {front back : List Nat} (waiting : ids.filter (waitsFor list quantum assumed) = front ++ back)
    (ready : ∀ before id after, front = before ++ id :: after → list.predecessors id ⊆ assumed ++ before) :
    front.take bound <+: pull list quantum ids bound assumed := by
  induction bound generalizing assumed front with
  | zero => exact List.nil_prefix
  | succ bound ih =>
      cases front with
      | nil => exact List.nil_prefix
      | cons first front =>
          rw [List.cons_append] at waiting
          have ready' := ready [] first front rfl
          rw [List.append_nil] at ready'
          rw [pull, pulled_first distinct within waiting ready', List.take_succ_cons]
          refine List.cons_prefix_cons.mpr ⟨rfl, ih ?_ (fun before id after split => ?_)⟩
          · have once : first ∉ front ++ back :=
              (List.nodup_cons.mp (waiting ▸ (distinct.sublist within).filter _)).1
            have fewer : ids.filter (waitsFor list quantum (assumed ++ [first])) =
                (ids.filter (waitsFor list quantum assumed)).filter (fun id => id != first) := by
              rw [List.filter_filter]
              refine List.filter_congr (fun id _ => ?_)
              by_cases same : id = first <;> simp [waitsFor, same]
            rw [fewer, waiting, List.filter_cons_of_neg (by simp), List.filter_eq_self]
            intro id member
            simpa using fun same : id = first => once (same ▸ member)
          · have further := ready (first :: before) id after (by rw [split]; rfl)
            rwa [List.append_assoc]

/-! ## Both lanes -/

/-- The load that instructions put on a lane. -/
def load (list : InstructionList) (quantum : Bool) (ids : List Nat) : Nat :=
  ids.countP (fun id => isQuantum list id == quantum)

/-- The time that instructions take side by side. -/
def span (list : InstructionList) (ids : List Nat) : Nat :=
  max (load list true ids) (load list false ids)

/-- The lane that is filled in front of a hybrid instruction: that on which it needs less. -/
def lighter (list : InstructionList) (needs : List Nat) : Bool :=
  decide (load list true needs < load list false needs)

theorem load_both (list : InstructionList) (ids : List Nat) :
    load list true ids + load list false ids = ids.length := by
  rw [load, load, List.length_eq_countP_add_countP (fun id => isQuantum list id == true)]
  congr 2
  funext id
  cases isQuantum list id <;> rfl

theorem span_eq (list : InstructionList) (ids : List Nat) (quantum : Bool) :
    span list ids = max (load list (!quantum) ids) (load list quantum ids) := by
  cases quantum
  · rfl
  · exact max_comm _ _

theorem load_lighter_le (list : InstructionList) (needs : List Nat) :
    load list (lighter list needs) needs ≤ load list (!lighter list needs) needs := by
  unfold lighter
  by_cases less : load list true needs < load list false needs
  · rw [decide_eq_true less]
    exact less.le
  · rw [decide_eq_false less]
    exact not_lt.mp less

theorem span_needs (list : InstructionList) (needs : List Nat) :
    span list needs = load list (!lighter list needs) needs := by
  rw [span_eq list needs (lighter list needs), max_eq_left (load_lighter_le list needs)]

theorem extra_eq (list : InstructionList) (ids emitted needs : List Nat) : extra list ids emitted needs =
    if load list true needs = load list false needs then []
    else pull list (lighter list needs) ids (span list needs + 1 - load list (lighter list needs) needs)
      (emitted ++ needs) := by
  have quantum : needs.countP (isQuantum list) = load list true needs := by simp [load]
  have classical : needs.length - load list true needs = load list false needs := by
    rw [← load_both list needs, Nat.add_sub_cancel_left]
  have least : min (load list true needs) (load list false needs) = load list (lighter list needs) needs := by
    unfold lighter
    by_cases less : load list true needs < load list false needs
    · rw [decide_eq_true less]
      exact min_eq_left less.le
    · rw [decide_eq_false less]
      exact min_eq_right (not_lt.mp less)
  rw [extra, quantum, classical, least]
  rfl

theorem mem_extra (member : id ∈ extra list ids emitted needs) :
    id ∈ ids ∧ id ∉ emitted ++ needs ∧ fillsLane (lighter list needs) (categoryOf list id) = true := by
  rw [extra_eq] at member
  split at member
  · cases member
  · exact mem_pull member

theorem nodup_extra (list : InstructionList) (ids emitted needs : List Nat) : (extra list ids emitted needs).Nodup := by
  rw [extra_eq]
  split
  · exact List.nodup_nil
  · exact nodup_pull _ _ _ _ _

theorem length_extra_le (list : InstructionList) (ids emitted needs : List Nat) :
    load list (lighter list needs) needs + (extra list ids emitted needs).length ≤ span list needs + 1 := by
  have less := load_lighter_le list needs
  rw [← span_needs] at less
  rw [extra_eq]
  split
  · rw [List.length_nil]
    omega
  · have := length_pull_le list (lighter list needs) ids (span list needs + 1 - load list (lighter list needs) needs)
      (emitted ++ needs)
    omega

end TwoLane.Schedule
