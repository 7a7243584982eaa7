import TwoLane.Proofs.Schedule.Turn

/-! # Who comes first in a drained pool

A pool is drained by rank: of the instructions that are ready the first one of the least rank comes next. An instruction
of the last rank therefore waits until nothing else can be done, and then all that stood in front of it is out of the
pool. So one of them comes before an instruction of a lower rank exactly if that one needs an instruction of the last
rank which stood no further in front.
-/

namespace TwoLane.Schedule

variable {list : InstructionList} {priority : Category → Nat} {pool emitted new front back : List Nat} {id other x : Nat}

/-! ## The next instruction -/

/-- Whether an instruction of a pool waits and is ready. -/
structure Ready (list : InstructionList) (pool emitted : List Nat) (id : Nat) : Prop where
  pooled : id ∈ pool
  waits : id ∉ emitted
  ready : list.predecessors id ⊆ emitted

/-- Whether an instruction is the first one of the least rank among those of a pool that are ready. -/
structure Chosen (list : InstructionList) (priority : Category → Nat) (pool emitted : List Nat) (id : Nat) : Prop where
  ready : Ready list pool emitted id
  least : ∀ other, Ready list pool emitted other → priority (categoryOf list id) ≤ priority (categoryOf list other)
  first : ∀ other, Ready list pool emitted other → priority (categoryOf list other) = priority (categoryOf list id) →
    list.order.idxOf id ≤ list.order.idxOf other

theorem firstLeast_le {key : Nat → Nat} {candidates : List Nat} (found : firstLeast key candidates = some id) :
    ∀ other ∈ candidates, key id ≤ key other := by
  induction candidates generalizing id with
  | nil => cases found
  | cons a rest ih =>
      intro other member
      rw [firstLeast] at found
      cases best : firstLeast key rest with
      | none =>
          have empty : rest = [] := by
            cases rest with
            | nil => rfl
            | cons b more =>
                rw [firstLeast] at best
                split at best
                · cases best
                · split at best <;> cases best
          rw [best] at found
          cases found
          rw [empty, List.mem_singleton] at member
          rw [member]
      | some b =>
          rw [best] at found
          dsimp only at found
          have further := ih best
          split at found
          · next below =>
            cases found
            rcases List.mem_cons.mp member with rfl | later
            · exact le_rfl
            · exact below.trans (further other later)
          · next above =>
            cases found
            rcases List.mem_cons.mp member with rfl | later
            · exact (not_le.mp above).le
            · exact further other later

/-- Whether a pool can be drained: its instructions run, and what they wait for is emitted or in the pool. -/
structure Drainable (list : InstructionList) (pool emitted : List Nat) : Prop where
  within : pool.Sublist list.order
  closed : ∀ id ∈ pool, ∀ other ∈ list.predecessors id, other ∈ emitted ∨ other ∈ pool

theorem Drainable.append (drainable : Drainable list pool emitted) (more : List Nat) :
    Drainable list pool (emitted ++ more) :=
  ⟨drainable.within, fun id member other predecessor =>
    (drainable.closed id member other predecessor).imp_left (fun old => List.mem_append_left _ old)⟩

theorem ready_iff (valid : Valid list) (drainable : Drainable list pool emitted) :
    Ready list pool emitted id ↔
      id ∈ (list.executable emitted (fun _ => true)).filter (fun id => pool.contains id) := by
  rw [List.mem_filter, List.contains_iff_mem]
  constructor
  · rintro ⟨pooled, waits, ready⟩
    have running := drainable.within.subset pooled
    have found := List.getElem?_eq_getElem (valid.inside id running)
    have all : list.isReady emitted id = true := by
      rw [InstructionList.isReady, List.all_eq_true]
      exact fun other predecessor => List.contains_iff_mem.mpr (ready predecessor)
    refine ⟨List.mem_filter.mpr ⟨running, ?_⟩, pooled⟩
    simp [InstructionList.get?, found, all, waits]
  · rintro ⟨executable, pooled⟩
    obtain ⟨-, waits, ready⟩ := mem_executable executable
    exact ⟨pooled, waits, ready⟩

theorem chosen_of_next? (valid : Valid list) (drainable : Drainable list pool emitted)
    (next : next? list priority pool emitted = some id) : Chosen list priority pool emitted id := by
  have candidate : ∀ {x}, Ready list pool emitted x → _ := fun ready => (ready_iff valid drainable).mp ready
  have own := firstLeast_mem next
  have ready := (ready_iff valid drainable).mpr own
  refine ⟨ready, fun other ready => firstLeast_le next other (candidate ready), ?_⟩
  intro other ready' same
  by_contra before
  obtain ⟨executable, pooled⟩ := List.mem_filter.mp own
  obtain ⟨executable', pooled'⟩ := List.mem_filter.mp (candidate ready')
  have stands : [other, id].Sublist list.order :=
    sublist_of_idxOf_lt (drainable.within.subset ready.pooled) (not_le.mp before)
  have executes : [other, id].Sublist (list.executable emitted (fun _ => true)) :=
    sublist_filter stands (List.mem_filter.mp executable').2 (List.mem_filter.mp executable).2
  have distinct : ((list.executable emitted (fun _ => true)).filter (fun id => pool.contains id)).Nodup :=
    (nodup_executable valid.emission.distinct).sublist List.filter_sublist
  exact firstLeast_ne distinct (sublist_filter executes pooled' pooled) same.le next

theorem exists_ready (valid : Valid list) (drainable : Drainable list pool emitted) (property : Nat → Prop)
    (inherits : ∀ x ∈ pool, property x → ∀ other ∈ list.predecessors x, other ∉ emitted → property other)
    (pooled : id ∈ pool) (waits : id ∉ emitted) (holds : property id) :
    ∃ first, Ready list pool emitted first ∧ property first := by
  -- whatever an instruction waits for stands further in front, so going back from one to the next comes to an end
  induction place : list.order.idxOf id using Nat.strong_induction_on generalizing id with
  | _ place' ih =>
      by_cases ready : list.predecessors id ⊆ emitted
      · exact ⟨id, ⟨pooled, waits, ready⟩, holds⟩
      · obtain ⟨other, predecessor, waits'⟩ : ∃ other ∈ list.predecessors id, other ∉ emitted := by
          simpa [List.subset_def] using ready
        have before := valid.emission.closed id (drainable.within.subset pooled) other predecessor
        exact ih (list.order.idxOf other) (place ▸ before)
          ((drainable.closed id pooled other predecessor).resolve_left waits') waits'
          (inherits id pooled holds other predecessor waits') rfl

theorem next?_isSome (valid : Valid list) (drainable : Drainable list pool emitted) (priority : Category → Nat)
    (ready : Ready list pool emitted id) : (next? list priority pool emitted).isSome = true := by
  have member := (ready_iff valid drainable).mp ready
  rw [next?]
  cases candidates : (list.executable emitted (fun _ => true)).filter (fun id => pool.contains id) with
  | nil =>
      rw [candidates] at member
      cases member
  | cons a rest =>
      rw [firstLeast]
      split
      · rfl
      · split <;> rfl

/-! ## Draining -/

/-- Whether a pool is drained by rank: the instruction chosen at each step comes next, up to the last one. -/
def Drained (list : InstructionList) (priority : Category → Nat) (pool : List Nat) : (emitted new : List Nat) → Prop
  | emitted, [] => pool ⊆ emitted
  | emitted, id :: rest => Chosen list priority pool emitted id ∧ Drained list priority pool (emitted ++ [id]) rest

theorem length_pending_append (pooled : id ∈ pool) (waits : id ∉ emitted) :
    (pending pool (emitted ++ [id])).length < (pending pool emitted).length := by
  have fewer : pending pool (emitted ++ [id]) = (pending pool emitted).filter (fun x => x != id) := by
    rw [pending, pending, List.filter_filter]
    refine List.filter_congr (fun x _ => ?_)
    by_cases same : x = id <;> simp [same]
  rw [fewer, List.length_filter_lt_length_iff_exists]
  exact ⟨id, mem_pending.mpr ⟨pooled, waits⟩, by simp⟩

theorem drained_emitReady (valid : Valid list) (drainable : Drainable list pool emitted) (priority : Category → Nat)
    (bound : Nat) (enough : (pending pool emitted).length ≤ bound) :
    ∃ new, emitReady list priority pool bound emitted = emitted ++ new ∧ Drained list priority pool emitted new := by
  have all : ∀ {emitted : List Nat}, (∀ id, ¬ Ready list pool emitted id) → Drainable list pool emitted →
      pool ⊆ emitted := by
    intro emitted none drainable id pooled
    by_contra waits
    obtain ⟨first, ready, -⟩ := exists_ready valid drainable (fun _ => True)
      (fun _ _ _ _ _ _ => trivial) pooled waits trivial
    exact none first ready
  induction bound generalizing emitted with
  | zero =>
      have empty : pending pool emitted = [] := List.length_eq_zero_iff.mp (Nat.le_zero.mp enough)
      refine ⟨[], (List.append_nil _).symm, all (fun id ready => ?_) drainable⟩
      have member := mem_pending.mpr ⟨ready.pooled, ready.waits⟩
      rw [empty] at member
      cases member
  | succ bound ih =>
      rw [emitReady]
      cases next : next? list priority pool emitted with
      | none =>
          refine ⟨[], (List.append_nil _).symm, all (fun id ready => ?_) drainable⟩
          have some := next?_isSome valid drainable priority ready
          rw [next] at some
          cases some
      | some id =>
          have chosen := chosen_of_next? valid drainable next
          have absent : ¬ emitted.contains id = true := by
            rw [List.contains_iff_mem]
            exact chosen.ready.waits
          have shorter := length_pending_append chosen.ready.pooled chosen.ready.waits
          dsimp only
          rw [emit, if_neg absent]
          obtain ⟨new, same, drained⟩ := ih (drainable.append [id]) (by omega)
          exact ⟨id :: new, by rw [same, List.append_assoc]; rfl, chosen, drained⟩

theorem foldl_emit_of_subset (all : pool ⊆ emitted) : pool.foldl emit emitted = emitted := by
  induction pool with
  | nil => rfl
  | cons id rest ih =>
      have there : emitted.contains id = true := List.contains_iff_mem.mpr (all List.mem_cons_self)
      rw [List.foldl_cons, emit, if_pos there]
      exact ih (List.subset_of_cons_subset all)

theorem Drained.all (drained : Drained list priority pool emitted new) : pool ⊆ emitted ++ new := by
  induction new generalizing emitted with
  | nil =>
      rw [List.append_nil]
      exact drained
  | cons id rest ih =>
      have further := ih drained.2
      rwa [List.append_assoc] at further

theorem drained_drain (valid : Valid list) (drainable : Drainable list pool emitted) (priority : Category → Nat) :
    ∃ new, drain list priority pool emitted = emitted ++ new ∧ Drained list priority pool emitted new := by
  obtain ⟨new, same, drained⟩ := drained_emitReady valid drainable priority pool.length
    (List.length_filter_le _ _)
  exact ⟨new, by rw [drain, same, foldl_emit_of_subset drained.all], drained⟩

theorem Drained.chosen (drained : Drained list priority pool emitted (front ++ id :: back)) :
    Chosen list priority pool (emitted ++ front) id := by
  induction front generalizing emitted with
  | nil =>
      rw [List.append_nil]
      exact drained.1
  | cons first front ih =>
      have further := ih drained.2
      rwa [List.append_assoc] at further

theorem Drained.mem_iff (drained : Drained list priority pool emitted new) :
    id ∈ new ↔ id ∈ pool ∧ id ∉ emitted := by
  constructor
  · intro member
    obtain ⟨front, back, rfl⟩ := List.append_of_mem member
    have ready := drained.chosen.ready
    exact ⟨ready.pooled, fun old => ready.waits (List.mem_append_left _ old)⟩
  · rintro ⟨pooled, waits⟩
    exact (List.mem_append.mp (drained.all pooled)).resolve_left waits

theorem Drained.nodup (drained : Drained list priority pool emitted new) : new.Nodup := by
  induction new generalizing emitted with
  | nil => exact List.nodup_nil
  | cons id rest ih =>
      obtain ⟨-, later⟩ := drained
      refine List.nodup_cons.mpr ⟨fun again => ?_, ih later⟩
      exact (later.mem_iff.mp again).2 (List.mem_append_right _ List.mem_cons_self)

theorem Drained.perm (drained : Drained list priority pool emitted new) (once : pool.Nodup)
    (waits : ∀ id ∈ pool, id ∉ emitted) : pool.Perm new := by
  refine (List.perm_ext_iff_of_nodup once drained.nodup).mpr (fun id => ?_)
  rw [drained.mem_iff, and_iff_left_of_imp (waits id)]

theorem Drained.emission (drained : Drained list priority pool emitted new) (within : pool ⊆ list.order)
    (emission : Emission list emitted) : Emission list (emitted ++ new) := by
  induction new generalizing emitted with
  | nil =>
      rw [List.append_nil]
      exact emission
  | cons id rest ih =>
      obtain ⟨chosen, later⟩ := drained
      have next := emission.emit (within chosen.ready.pooled) chosen.ready.ready
      rw [emit, if_neg (by simpa using chosen.ready.waits)] at next
      have further := ih later next
      rwa [List.append_assoc] at further

/-! ## The last rank -/

theorem Drained.before_last (valid : Valid list) (drainable : Drainable list pool emitted)
    (drained : Drained list priority pool emitted (front ++ id :: back))
    (last : ∀ x ∈ pool, priority (categoryOf list x) ≤ priority (categoryOf list id)) (pooled : x ∈ pool)
    (stood : list.order.idxOf x ≤ list.order.idxOf id) : x ∈ emitted ++ front ∨ x = id := by
  have chosen := drained.chosen
  by_contra absent
  obtain ⟨waits, differ⟩ := not_or.mp absent
  have within := drainable.within.subset
  obtain ⟨first, ready, before⟩ := exists_ready valid (drainable.append front)
    (fun y => list.order.idxOf y ≤ list.order.idxOf x)
    (fun y member above other predecessor _ =>
      (valid.emission.closed y (within member) other predecessor).le.trans above) pooled waits le_rfl
  have behind := chosen.first first ready
    (le_antisymm (last first ready.pooled) (chosen.least first ready))
  exact differ ((List.idxOf_inj (within pooled)).mp (by omega))

/-- Where an instruction of the last rank comes before another one, that one is, or needs, one of the last rank that stood
    no further in front. -/
theorem Drained.waits_for_last (valid : Valid list) (drainable : Drainable list pool emitted)
    (drained : Drained list priority pool emitted (front ++ id :: back))
    (last : ∀ x ∈ pool, priority (categoryOf list x) ≤ priority (categoryOf list id)) (pooled : other ∈ pool)
    (waits : other ∉ emitted ++ front) : ∃ d, Ready list pool (emitted ++ front) d ∧
      (d = other ∨ d ∈ list.dependencies other) ∧ priority (categoryOf list d) = priority (categoryOf list id) ∧
        list.order.idxOf id ≤ list.order.idxOf d := by
  have chosen := drained.chosen
  obtain ⟨begins, closed⟩ := InstructionList.dependencies_closed list other
  obtain ⟨d, ready, needed⟩ := exists_ready valid (drainable.append front)
    (fun y => y = other ∨ y ∈ list.dependencies other) (by
      rintro y - (rfl | needed) z predecessor -
      · exact .inr (begins predecessor)
      · exact .inr (closed y needed predecessor)) pooled waits (.inl rfl)
  have same := le_antisymm (last d ready.pooled) (chosen.least d ready)
  exact ⟨d, ready, needed, same, chosen.first d ready same⟩

/-- An instruction of the last rank comes before one of a lower rank exactly if that one needs an instruction of the last
    rank which stood no further in front. -/
theorem Drained.comes_before_iff (valid : Valid list) (drainable : Drainable list pool emitted)
    (drained : Drained list priority pool emitted new) (emission : Emission list emitted) (own : id ∈ new)
    (there : other ∈ new) (last : ∀ x ∈ pool, priority (categoryOf list x) ≤ priority (categoryOf list id))
    (lower : priority (categoryOf list other) < priority (categoryOf list id)) :
    new.idxOf id < new.idxOf other ↔ ∃ d ∈ new, d ∈ list.dependencies other ∧
      priority (categoryOf list d) = priority (categoryOf list id) ∧ list.order.idxOf id ≤ list.order.idxOf d := by
  obtain ⟨pooled, waits⟩ := drained.mem_iff.mp own
  obtain ⟨pooled', waits'⟩ := drained.mem_iff.mp there
  constructor
  · intro before
    obtain ⟨front, back, rfl, absent⟩ := List.eq_append_cons_of_mem own
    have notYet : other ∉ emitted ++ front := by
      rw [List.mem_append]
      rintro (old | early)
      · exact waits' old
      · rw [List.idxOf_append_of_notMem absent, List.idxOf_append_of_mem early] at before
        have := List.idxOf_lt_length_of_mem early
        omega
    obtain ⟨d, ready, needed, same, stood⟩ := drained.waits_for_last valid drainable last pooled' notYet
    have depends := needed.resolve_left (fun equal => by
      rw [equal] at same
      omega)
    exact ⟨d, drained.mem_iff.mpr ⟨ready.pooled, fun old => ready.waits (List.mem_append_left _ old)⟩, depends, same,
      stood⟩
  · rintro ⟨d, member, depends, same, stood⟩
    have waits'' := (drained.mem_iff.mp member).2
    have first : new.idxOf id ≤ new.idxOf d := by
      obtain ⟨front, back, rfl, absent⟩ := List.eq_append_cons_of_mem member
      rcases drained.before_last valid drainable (fun x inside => (last x inside).trans same.ge) pooled stood
        with early | equal
      · have early := (List.mem_append.mp early).resolve_left waits
        rw [List.idxOf_append_of_mem early, List.idxOf_append_of_notMem absent]
        have := List.idxOf_lt_length_of_mem early
        omega
      · rw [equal]
    have second := ((drained.emission drainable.within.subset emission).of_dependency
      (List.mem_append_right _ there) depends).2
    rw [List.idxOf_append_of_notMem waits'', List.idxOf_append_of_notMem waits'] at second
    omega

end TwoLane.Schedule
