import TwoLane.Proofs.Chain.Dependencies
import TwoLane.Proofs.Execution.Reordering
import TwoLane.Proofs.Liveness.Judged
import TwoLane.Schedule.Emission

/-! # Emissions keep to the chains

An emission puts each instruction behind its direct predecessors, and so all instructions on a chain come in the order
of their numbers. The instructions that a schedule emits while they are ready, and those that it emits in their old
order, form an emission.
-/

namespace TwoLane.Schedule

open Execution (Ordered)

/-- Whether running instructions are emitted once each, all of them behind their predecessors. -/
structure Emission (list : InstructionList) (emitted : List Nat) : Prop where
  distinct : emitted.Nodup
  running : emitted ⊆ list.order
  closed : ∀ id ∈ emitted, ∀ other ∈ list.predecessors id, emitted.idxOf other < emitted.idxOf id

variable {list : InstructionList} {emitted pool order : List Nat} {id other : Nat} {resource : Resource}

theorem emission_nil (list : InstructionList) : Emission list [] :=
  ⟨List.nodup_nil, List.nil_subset _, fun _ member => absurd member List.not_mem_nil⟩

theorem Emission.mem_of_predecessor (emission : Emission list emitted) (member : id ∈ emitted)
    (predecessor : other ∈ list.predecessors id) : other ∈ emitted := by
  have below := emission.closed id member other predecessor
  have inside := List.idxOf_lt_length_of_mem member
  exact List.idxOf_lt_length_iff.mp (by omega)

/-- An instruction may be emitted once its predecessors are. -/
theorem Emission.emit (emission : Emission list emitted) (running : id ∈ list.order)
    (ready : list.predecessors id ⊆ emitted) : Emission list (emit emitted id) := by
  unfold Schedule.emit
  split
  · exact emission
  · next absent =>
      rw [List.contains_iff_mem] at absent
      refine ⟨?_, ?_, ?_⟩
      · rw [← List.concat_eq_append]
        exact emission.distinct.concat absent
      · intro x member
        rcases List.mem_append.mp member with old | new
        · exact emission.running old
        · rw [List.mem_singleton.mp new]
          exact running
      · intro x member other predecessor
        by_cases old : x ∈ emitted
        · rw [List.idxOf_append_of_mem old,
            List.idxOf_append_of_mem (emission.mem_of_predecessor old predecessor)]
          exact emission.closed x old other predecessor
        · have here : x = id := by simpa [old] using member
          subst here
          have there := ready predecessor
          rw [List.idxOf_append_of_mem there, List.idxOf_append_of_notMem absent]
          have := List.idxOf_lt_length_of_mem there
          omega

theorem mem_emit : other ∈ emit emitted id ↔ other ∈ emitted ∨ other = id := by
  unfold emit
  split
  · next present =>
      rw [List.contains_iff_mem] at present
      constructor
      · exact .inl
      · rintro (old | rfl)
        · exact old
        · exact present
  · simp

/-- Whether a list goes on with elements of a pool. -/
def Extends (pool before after : List Nat) : Prop :=
  ∃ new, after = before ++ new ∧ new ⊆ pool

theorem Extends.refl (pool before : List Nat) : Extends pool before before :=
  ⟨[], (List.append_nil _).symm, List.nil_subset _⟩

theorem Extends.trans {before middle after : List Nat} (first : Extends pool before middle)
    (second : Extends pool middle after) : Extends pool before after := by
  obtain ⟨new, rfl, own⟩ := first
  obtain ⟨more, rfl, own'⟩ := second
  refine ⟨new ++ more, List.append_assoc _ _ _, fun x member => ?_⟩
  exact (List.mem_append.mp member).elim (fun there => own there) (fun there => own' there)

theorem Extends.mono {larger before after : List Nat} (extends' : Extends pool before after)
    (subset : pool ⊆ larger) : Extends larger before after := by
  obtain ⟨new, same, own⟩ := extends'
  exact ⟨new, same, List.Subset.trans own subset⟩

theorem Extends.subset {before after : List Nat} (extends' : Extends pool before after) : before ⊆ after := by
  obtain ⟨new, rfl, _⟩ := extends'
  exact List.subset_append_left _ _

theorem extends_emit (member : id ∈ pool) : Extends pool emitted (emit emitted id) := by
  unfold emit
  split
  · exact .refl _ _
  · exact ⟨[id], rfl, fun x here => List.mem_singleton.mp here ▸ member⟩

/-! ## What comes before -/

theorem predecessor_spec (ordered : Ordered list) (running : id ∈ list.order)
    (predecessor : other ∈ list.predecessors id) : other ∈ list.order ∧ other < id ∧
      ∃ resource, list.holdsAt resource other = true ∧ list.holdsAt resource id = true := by
  obtain ⟨resource, holds, nearest⟩ := ordered.chained.of_mem_predecessors running predecessor
  obtain ⟨lower, there, _⟩ := Nearest.below?_eq_some.mp nearest
  refine ⟨(InstructionList.isHolder_iff.mp there).1, lower, resource, ?_, ?_⟩
  · exact (Bool.and_eq_true_iff.mp there).2
  · exact (Bool.and_eq_true_iff.mp holds).2

theorem predecessor_not_behind (ordered : Ordered list) {rest : List Nat} (sublist : (id :: rest).Sublist list.order)
    (predecessor : other ∈ list.predecessors id) : other ∉ id :: rest := by
  intro behind
  obtain ⟨_, lower, resource, there, here⟩ := predecessor_spec ordered (sublist.subset List.mem_cons_self) predecessor
  rcases List.mem_cons.mp behind with same | later
  · omega
  · have orderly := List.pairwise_cons.mp (ordered.orderly.sublist sublist)
    have above := orderly.1 other later resource here there
    omega

theorem emission_order (ordered : Ordered list) : Emission list list.order where
  distinct := ordered.chained.order
  running := List.Subset.refl _
  closed := by
    intro id member other predecessor
    obtain ⟨there, _⟩ := predecessor_spec ordered member predecessor
    by_contra above
    obtain ⟨front, back, split⟩ := List.append_of_mem member
    have apart : other ∉ id :: back := by
      refine predecessor_not_behind ordered ?_ predecessor
      rw [split]
      exact List.sublist_append_right _ _
    have before : other ∈ front := by
      rw [split] at there
      exact (List.mem_append.mp there).resolve_right apart
    have absent : id ∉ front := by
      have distinct := ordered.chained.order
      rw [split] at distinct
      exact fun twice => (List.nodup_append.mp distinct).2.2 id twice id List.mem_cons_self rfl
    rw [split, List.idxOf_append_of_mem before, List.idxOf_append_of_notMem absent] at above
    have := List.idxOf_lt_length_of_mem before
    omega

theorem Emission.of_dependency (emission : Emission list emitted) (member : id ∈ emitted)
    (needed : other ∈ list.dependencies id) : other ∈ emitted ∧ emitted.idxOf other < emitted.idxOf id := by
  have further : ∀ {node : Nat}, node ∈ emitted → ∀ previous ∈ list.predecessors node,
      previous ∈ emitted ∧ emitted.idxOf previous < emitted.idxOf node :=
    fun there previous predecessor =>
      ⟨emission.mem_of_predecessor there predecessor, emission.closed _ there previous predecessor⟩
  have all : ∀ other ∈ list.dependencies id, other ∈ emitted ∧ emitted.idxOf other < emitted.idxOf id := by
    refine InstructionList.dependencies_induction ?_ (further member)
    rintro node ⟨there, before⟩ previous predecessor
    obtain ⟨there', before'⟩ := further there previous predecessor
    exact ⟨there', lt_trans before' before⟩
  exact all other needed

theorem Emission.idxOf_lt (ordered : Ordered list) (emission : Emission list emitted) (member : id ∈ emitted)
    (holds : list.isHolder resource id = true) (lower : list.isHolder resource other = true) (below : other < id) :
    emitted.idxOf other < emitted.idxOf id :=
  (emission.of_dependency member (ordered.chained.mem_dependencies holds lower below)).2

theorem Emission.ordered (ordered : Ordered list) (emission : Emission list order) (perm : list.order.Perm order) :
    Ordered { list with order := order } := by
  have holders := Execution.isHolder_of_perm perm
  refine ordered.of_perm perm ?_
  rw [List.pairwise_iff_getElem]
  intro i j iInside jInside before resource iHolds jHolds
  have holder : ∀ id ∈ order, list.holdsAt resource id = true → list.isHolder resource id = true :=
    fun id member holds =>
      Bool.and_eq_true_iff.mpr ⟨List.contains_iff_mem.mpr (perm.mem_iff.mpr member), holds⟩
  have iHolder := holder _ (List.getElem_mem iInside) iHolds
  have jHolder := holder _ (List.getElem_mem jInside) jHolds
  by_contra above
  have differ : order[j] ≠ order[i] := by
    intro same
    have := (List.Nodup.getElem_inj_iff emission.distinct).mp same
    omega
  have less := emission.idxOf_lt ordered (List.getElem_mem iInside) iHolder jHolder (by omega)
  rw [emission.distinct.idxOf_getElem, emission.distinct.idxOf_getElem] at less
  omega

/-! ## Lists that run behind their predecessors -/

theorem pairwise_idxOf {order : List Nat} (distinct : order.Nodup) :
    order.Pairwise (fun x y => order.idxOf x < order.idxOf y) := by
  rw [List.pairwise_iff_getElem]
  intro i j iInside jInside before
  rw [distinct.idxOf_getElem, distinct.idxOf_getElem]
  exact before

/-- Whether the instructions of a list have the numbers of their places, and run once each, behind their
    predecessors. -/
structure Valid (list : InstructionList) : Prop where
  numbered : ∀ {id : Nat} {node : Instruction}, list.nodes[id]? = some node → node.id = id
  inside : ∀ id ∈ list.order, id < list.nodes.length
  emission : Emission list list.order

theorem valid_of_ordered (ordered : Ordered list) : Valid list :=
  ⟨ordered.chained.numbered, ordered.chained.inside, emission_order ordered⟩

theorem Valid.not_behind (valid : Valid list) {rest : List Nat} (sublist : (id :: rest).Sublist list.order)
    (predecessor : other ∈ list.predecessors id) : other ∉ id :: rest := by
  intro behind
  have before := valid.emission.closed id (sublist.subset List.mem_cons_self) other predecessor
  rcases List.mem_cons.mp behind with rfl | later
  · omega
  · have := (List.pairwise_cons.mp ((pairwise_idxOf valid.emission.distinct).sublist sublist)).1 other later
    omega

/-! ## Pools -/

theorem firstLeast_mem {key : Nat → Nat} {candidates : List Nat} {a : Nat}
    (found : firstLeast key candidates = some a) : a ∈ candidates := by
  induction candidates with
  | nil => cases found
  | cons b rest ih =>
      rw [firstLeast] at found
      cases best : firstLeast key rest with
      | none =>
          rw [best] at found
          cases found
          exact List.mem_cons_self
      | some c =>
          rw [best] at found
          dsimp only at found
          split at found
          · cases found
            exact List.mem_cons_self
          · cases found
            exact List.mem_cons_of_mem _ (ih best)

theorem mem_executable {scheduled : List Nat} {accepts : Category → Bool}
    (member : id ∈ list.executable scheduled accepts) :
    id ∈ list.order ∧ id ∉ scheduled ∧ list.predecessors id ⊆ scheduled := by
  obtain ⟨running, conditions⟩ := List.mem_filter.mp member
  simp only [Bool.and_eq_true, Bool.not_eq_true', InstructionList.isReady, List.all_eq_true,
    List.contains_iff_mem] at conditions
  refine ⟨running, ?_, conditions.2⟩
  intro there
  rw [List.contains_iff_mem.mpr there] at conditions
  cases conditions.1.1

theorem Emission.emitReady (emission : Emission list emitted) (priority : Category → Nat) (pool : List Nat)
    (bound : Nat) : Emission list (Schedule.emitReady list priority pool bound emitted) ∧
      Extends pool emitted (Schedule.emitReady list priority pool bound emitted) := by
  induction bound generalizing emitted with
  | zero => exact ⟨emission, .refl _ _⟩
  | succ bound ih =>
      rw [Schedule.emitReady]
      cases next : next? list priority pool emitted with
      | none => exact ⟨emission, .refl _ _⟩
      | some id =>
          obtain ⟨ready, own⟩ := List.mem_filter.mp (firstLeast_mem next)
          obtain ⟨running, _, before⟩ := mem_executable ready
          obtain ⟨further, extends'⟩ := ih (emission.emit running before)
          exact ⟨further, (extends_emit (List.contains_iff_mem.mp own)).trans extends'⟩

theorem Emission.foldl_emit (valid : Valid list) (emission : Emission list emitted)
    (sublist : pool.Sublist list.order)
    (closed : ∀ id ∈ pool, ∀ other ∈ list.predecessors id, other ∈ emitted ∨ other ∈ pool) :
    Emission list (pool.foldl Schedule.emit emitted) ∧ Extends pool emitted (pool.foldl Schedule.emit emitted) ∧
      pool ⊆ pool.foldl Schedule.emit emitted := by
  induction pool generalizing emitted with
  | nil => exact ⟨emission, .refl _ _, List.nil_subset _⟩
  | cons id rest ih =>
      have ready : list.predecessors id ⊆ emitted := fun other predecessor =>
        (closed id List.mem_cons_self other predecessor).resolve_right
          (valid.not_behind sublist predecessor)
      have next := emission.emit (sublist.subset List.mem_cons_self) ready
      obtain ⟨further, extends', all⟩ := ih next (List.sublist_of_cons_sublist sublist) (by
        intro x member other predecessor
        rcases closed x (List.mem_cons_of_mem _ member) other predecessor with old | own
        · exact .inl (mem_emit.mpr (.inl old))
        · rcases List.mem_cons.mp own with here | later
          · exact .inl (mem_emit.mpr (.inr here))
          · exact .inr later)
      refine ⟨further, (extends_emit List.mem_cons_self).trans (extends'.mono (List.subset_cons_self _ _)), ?_⟩
      intro x member
      rcases List.mem_cons.mp member with here | later
      · exact extends'.subset (mem_emit.mpr (.inr here))
      · exact all later

theorem Emission.drain (valid : Valid list) (emission : Emission list emitted)
    (sublist : pool.Sublist list.order)
    (closed : ∀ id ∈ pool, ∀ other ∈ list.predecessors id, other ∈ emitted ∨ other ∈ pool)
    (priority : Category → Nat) :
    Emission list (Schedule.drain list priority pool emitted) ∧
      Extends pool emitted (Schedule.drain list priority pool emitted) ∧
      pool ⊆ Schedule.drain list priority pool emitted := by
  obtain ⟨ready, first⟩ := emission.emitReady priority pool pool.length
  obtain ⟨all, second, subset⟩ := ready.foldl_emit valid sublist
    (fun id member other predecessor =>
      (closed id member other predecessor).imp_left (fun old => first.subset old))
  exact ⟨all, first.trans second, subset⟩

end TwoLane.Schedule
