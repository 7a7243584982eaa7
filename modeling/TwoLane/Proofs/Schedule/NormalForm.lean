import TwoLane.Proofs.Schedule.Lanes
import TwoLane.Proofs.Schedule.Priority
import TwoLane.Proofs.Schedule.Runs

/-! # The normal form of balanced schedules

A balanced schedule keeps the hybrid instructions of a run in their order and fills the segments around them. In each
segment classical work comes first: as the earlier hybrid instructions are out, classical work waits for classical work
alone. In front of a hybrid instruction stands what it still needs, and besides only work for the lane on which it needs
less, up to one more than the other lane holds.
-/

namespace TwoLane.Schedule

variable {list : InstructionList} {map : HybridMap} {ids emitted new segment hybrids pool : List Nat} {id hybrid : Nat}

/-! ## Segments -/

/-- Whether instructions are a segment without hybrid ones, the classical ones in front of the quantum ones. -/
structure Segment (list : InstructionList) (segment : List Nat) : Prop where
  plain : ∀ id ∈ segment, isHybrid list id = false
  classicalFirst : segment.Pairwise (fun a b => isQuantum list a = true → isQuantum list b = true)

def neededOf (list : InstructionList) (hybrid : Nat) (segment : List Nat) : List Nat :=
  segment.filter (fun id => (list.dependencies hybrid).contains id)

/-- Whether a segment in front of a hybrid instruction holds what that one still needs, and besides only work for the lane
    on which it needs less, at most one more than the other lane holds. -/
structure Filled (list : InstructionList) (emitted segment : List Nat) (hybrid : Nat) : Prop where
  complete : list.dependencies hybrid ⊆ emitted ++ segment
  lighter : ∀ id ∈ segment, id ∉ list.dependencies hybrid →
    load list (isQuantum list id) (neededOf list hybrid segment) <
      load list (!isQuantum list id) (neededOf list hybrid segment)
  level : ∀ id ∈ segment, id ∉ list.dependencies hybrid →
    load list (isQuantum list id) segment ≤ load list (!isQuantum list id) segment + 1

/-- Whether instructions behind others are the given hybrid ones, in their order, with a filled segment in front of each
    and a last segment behind them. -/
def Segmented (list : InstructionList) : (emitted hybrids new : List Nat) → Prop
  | _, [], new => Segment list new
  | emitted, hybrid :: hybrids, new =>
      ∃ segment rest, new = segment ++ hybrid :: rest ∧ Segment list segment ∧ Filled list emitted segment hybrid ∧
        Segmented list (emitted ++ (segment ++ [hybrid])) hybrids rest

/-! ## Classical work first -/

/-- Where lanes are apart, a pool without hybrid and control instructions is drained classical work first: what waiting
    classical work waits for is classical again, so some of it is ready. -/
theorem Drained.classical_first (valid : Valid list) (apart : LanesApart list)
    (drainable : Drainable list pool emitted)
    (plain : ∀ id ∈ pool, isHybrid list id = false ∧ (categoryOf list id).isControl = false)
    (drained : Drained list classicalFirst pool emitted new) :
    new.Pairwise (fun a b => isQuantum list a = true → isQuantum list b = true) := by
  have lane : ∀ {x}, x ∈ pool → categoryOf list x = .quantum ∨ categoryOf list x = .classical := by
    intro x member
    obtain ⟨notHybrid, notControl⟩ := plain x member
    rw [isHybrid] at notHybrid
    cases category : categoryOf list x <;> simp_all [Category.isHybrid, Category.isControl]
  induction new generalizing emitted with
  | nil => exact .nil
  | cons id rest ih =>
      obtain ⟨chosen, later⟩ := drained
      refine List.pairwise_cons.mpr ⟨fun other member quantum => ?_, ih (drainable.append [id]) later⟩
      obtain ⟨pooled, waits⟩ := later.mem_iff.mp member
      by_contra notQuantum
      have classical : categoryOf list other = .classical :=
        (lane pooled).resolve_left (fun quantum => notQuantum (by simp [isQuantum, quantum]))
      obtain ⟨first, ready, classical'⟩ := exists_ready valid drainable (fun x => categoryOf list x = .classical)
        (fun x inside own before predecessor waits => by
          have there := (drainable.closed x inside before predecessor).resolve_left waits
          have runs := drainable.within.subset inside
          exact (lane there).resolve_left ((apart x runs before predecessor).2 own))
        pooled (fun old => waits (List.mem_append_left _ old)) classical
      have below := chosen.least first ready
      rw [beq_iff_eq.mp quantum, classical'] at below
      exact absurd below (by decide)

/-! ## In front of a hybrid instruction -/

variable {front back : List Nat}

theorem Underway.drainable_pool (valid : Valid list) (holds : map.Holds list)
    (underway : Underway list ids emitted (hybrid :: hybrids)) :
    Drainable list (Schedule.pool list map ids emitted hybrid) emitted := by
  obtain ⟨before, whole, early⟩ := underway.split
  refine ⟨List.filter_sublist.trans underway.within, fun id pooled other predecessor => ?_⟩
  rcases underway.closed id (List.mem_filter.mp pooled).1 other predecessor with old | inside
  · exact .inl old
  · exact closed_pool valid holds underway.within whole early id pooled other predecessor inside

theorem load_lighter_lt (member : id ∈ pulled list map ids emitted hybrid) :
    load list (lighter list (needs list map ids emitted hybrid)) (needs list map ids emitted hybrid) <
      load list (!lighter list (needs list map ids emitted hybrid)) (needs list map ids emitted hybrid) := by
  have pulls : pulled list map ids emitted hybrid = _ := extra_eq list ids emitted (needs list map ids emitted hybrid)
  refine lt_of_le_of_ne (load_lighter_le list _) (fun level => ?_)
  have same : load list true (needs list map ids emitted hybrid) =
      load list false (needs list map ids emitted hybrid) := by
    cases lane : lighter list (needs list map ids emitted hybrid) <;> rw [lane] at level
    · exact level.symm
    · exact level
  rw [pulls, if_pos same] at member
  cases member

theorem Turn.own (turn : Turn list map ids emitted hybrid front back) : hybrid ∈ ids := by
  rw [turn.split]
  exact List.mem_append_right _ List.mem_cons_self

theorem Turn.perm_neededOf (turn : Turn list map ids emitted hybrid front back) (holds : map.Holds list)
    (within : ids ⊆ list.order) (perm : (Schedule.pool list map ids emitted hybrid).Perm new) :
    (neededOf list hybrid new).Perm (needs list map ids emitted hybrid) := by
  have requires := mem_required holds (within turn.own) within emitted
  refine (List.perm_ext_iff_of_nodup ((perm.nodup turn.nodup_pool).filter _) (turn.once.filter _)).mpr (fun id => ?_)
  rw [List.mem_filter, List.contains_iff_mem, ← perm.mem_iff, turn.mem_pool]
  constructor
  · rintro ⟨needed | pulled, depends⟩
    · exact needed
    · obtain ⟨inside, waits, -, plain, -⟩ := mem_pulled pulled
      exact (requires id).mpr ⟨inside, waits, plain, depends⟩
  · intro needed
    exact ⟨.inl needed, ((requires id).mp needed).2.2.2⟩

theorem Underway.filled (valid : Valid list) (holds : map.Holds list)
    (underway : Underway list ids emitted (hybrid :: hybrids)) (emission : Emission list emitted)
    (drained : Drained list classicalFirst (Schedule.pool list map ids emitted hybrid) emitted new) :
    Filled list emitted new hybrid := by
  obtain ⟨front, back, turn⟩ := underway.turn valid holds
  obtain ⟨before, whole, early⟩ := underway.split
  have drainable := underway.drainable_pool valid holds
  have perm := drained.perm turn.nodup_pool (fun id pooled => (turn.plain_pool pooled).1)
  have needed := turn.perm_neededOf holds underway.within.subset perm
  have loads : ∀ quantum, load list quantum new = load list quantum (needs list map ids emitted hybrid) +
      load list quantum (pulled list map ids emitted hybrid) := by
    intro quantum
    rw [← turn.load_pool, load, load, perm.countP_eq]
  have extra : ∀ id ∈ new, id ∉ list.dependencies hybrid → id ∈ pulled list map ids emitted hybrid := by
    intro id member free
    refine (turn.mem_pool.mp (perm.mem_iff.mpr member)).resolve_left (fun required => free ?_)
    have inside := List.mem_filter.mp (needed.mem_iff.mpr required)
    exact List.contains_iff_mem.mp inside.2
  refine ⟨?_, fun id member free => ?_, fun id member free => ?_⟩
  · have emission' := drained.emission drainable.within.subset emission
    refine InstructionList.dependencies_induction
      (fun node there other predecessor => emission'.mem_of_predecessor there predecessor) (fun other predecessor => ?_)
    rcases underway.closed hybrid turn.own other predecessor with old | inside
    · exact List.mem_append_left _ old
    · have depends := (InstructionList.dependencies_closed list hybrid).1 predecessor
      rcases emitted_or_required valid holds underway.within whole early depends inside with old | required
      · exact List.mem_append_left _ old
      · exact drained.all (turn.mem_pool.mpr (.inl required))
  · have pulled := extra id member free
    rw [load, load, needed.countP_eq, needed.countP_eq, (mem_pulled pulled).2.2.2.2]
    exact load_lighter_lt pulled
  · have pulled := extra id member free
    have most : _ + (Schedule.pulled list map ids emitted hybrid).length ≤ _ :=
      length_extra_le list ids emitted (needs list map ids emitted hybrid)
    rw [(mem_pulled pulled).2.2.2.2, loads, loads, load_pulled, load_pulled_other, ← span_needs, Nat.add_zero]
    exact most

/-! ## Whole runs -/

theorem Underway.isControl (valid : Valid list) (underway : Underway list ids emitted hybrids) (member : id ∈ ids) :
    (categoryOf list id).isControl = false :=
  (isControl_categoryOf valid (underway.within.subset member)).trans (underway.plain id member)

theorem Underway.exists_segment (valid : Valid list) (holds : map.Holds list) (apart : LanesApart list)
    (underway : Underway list ids emitted (hybrid :: hybrids)) (emission : Emission list emitted) :
    ∃ segment, emitHybrid list map ids emitted hybrid = emitted ++ (segment ++ [hybrid]) ∧ Segment list segment ∧
      Filled list emitted segment hybrid ∧ Emission list (emitted ++ (segment ++ [hybrid])) := by
  obtain ⟨front, back, turn⟩ := underway.turn valid holds
  have drainable := underway.drainable_pool valid holds
  obtain ⟨segment, made, drained⟩ := drained_drain valid drainable classicalFirst
  have filled := underway.filled valid holds emission drained
  have plain : ∀ {x}, x ∈ segment → isHybrid list x = false :=
    fun member => (turn.plain_pool (drained.mem_iff.mp member).1).2
  have absent : hybrid ∉ emitted ++ segment := by
    rw [List.mem_append]
    rintro (old | there)
    · exact turn.waits old
    · cases turn.meets.symm.trans (plain there)
  have emits : emit (emitted ++ segment) hybrid = emitted ++ (segment ++ [hybrid]) := by
    rw [emit, if_neg (by simpa using absent), List.append_assoc]
  have ready : list.predecessors hybrid ⊆ emitted ++ segment :=
    List.Subset.trans (InstructionList.dependencies_closed list hybrid).1 filled.complete
  have next := (drained.emission drainable.within.subset emission).emit (underway.within.subset turn.own) ready
  refine ⟨segment, by rw [emitHybrid_eq_emit, made, emits], ⟨fun x member => plain member, ?_⟩, filled, emits ▸ next⟩
  exact drained.classical_first valid apart drainable (fun x pooled =>
    ⟨(turn.plain_pool pooled).2, underway.isControl valid (List.mem_filter.mp pooled).1⟩)

theorem Underway.drainable_pending (underway : Underway list ids emitted hybrids) :
    Drainable list (pending ids emitted) emitted := by
  refine ⟨List.filter_sublist.trans underway.within, fun id member other predecessor => ?_⟩
  by_cases old : other ∈ emitted
  · exact .inl old
  · refine .inr (mem_pending.mpr ⟨?_, old⟩)
    exact (underway.closed id (mem_pending.mp member).1 other predecessor).resolve_left old

theorem Underway.exists_last (valid : Valid list) (apart : LanesApart list) (underway : Underway list ids emitted []) :
    ∃ new, drain list classicalFirst (pending ids emitted) emitted = emitted ++ new ∧ Segment list new := by
  have drainable := underway.drainable_pending
  obtain ⟨new, made, drained⟩ := drained_drain valid drainable classicalFirst
  refine ⟨new, made, fun id member => underway.plain_pending (drained.mem_iff.mp member).1, ?_⟩
  exact drained.classical_first valid apart drainable (fun id member =>
    ⟨underway.plain_pending member, underway.isControl valid (mem_pending.mp member).1⟩)

theorem Underway.segmented (valid : Valid list) (holds : map.Holds list) (apart : LanesApart list)
    (underway : Underway list ids emitted hybrids) (emission : Emission list emitted) :
    ∃ new, drain list classicalFirst (pending ids (hybrids.foldl (emitHybrid list map ids) emitted))
        (hybrids.foldl (emitHybrid list map ids) emitted) = emitted ++ new ∧ Segmented list emitted hybrids new := by
  induction hybrids generalizing emitted with
  | nil => exact underway.exists_last valid apart
  | cons hybrid hybrids ih =>
      obtain ⟨segment, made, isSegment, filled, emission'⟩ := underway.exists_segment valid holds apart emission
      have underway' := underway.next valid holds
      rw [made] at underway'
      obtain ⟨rest, whole, segmented⟩ := ih underway' emission'
      refine ⟨segment ++ hybrid :: rest, ?_, segment, rest, rfl, isSegment, filled, segmented⟩
      rw [List.foldl_cons, made, whole]
      simp

end TwoLane.Schedule

namespace TwoLane

variable {state : Workspace} {list : InstructionList}

/-- In a list that edits and steps have made, whose instructions run behind their predecessors and keep to their lanes,
    the balanced schedule for its own hybrid map succeeds and gives each run its normal form: the hybrid instructions in
    their order, in front of each one what it still needs and at most enough work besides to get the lane with less of
    that one ahead of the other, and in each segment classical work in front of quantum work. -/
theorem balanced_is_normal (handled : Handled state) (member : list ∈ state.lists)
    (keeps : list.KeepsChains list.order) (lanes : list.KeepsLanes) :
    ∃ order, Schedule.balanced list (HybridMap.ofList list) = .ok order ∧
      ∀ run, Schedule.IsRun list run → ∃ before new after,
        Schedule.carriedOut list order = before ++ (new ++ after) ∧ run.Perm new ∧
          Schedule.Segmented list before (run.filter (Schedule.isHybrid list)) new := by
  have sturdy := handled.sturdy list member
  have valid := sturdy.valid keeps
  have holds := HybridMap.holds_ofList valid sturdy.linesDiffer
  have apart := lanes.lanesApart sturdy (handled.touchOnce list member)
  have each : ∀ piece ∈ Schedule.pieces list, ∀ emitted, Schedule.Follows list piece emitted →
      Schedule.Emits list piece emitted (Schedule.emitBalanced list (HybridMap.ofList list) emitted piece) :=
    fun _ _ _ follows => Schedule.emits_balanced valid holds follows
  refine ⟨_, Schedule.balanced_eq_ok sturdy.linesDiffer holds, fun run isRun => ?_⟩
  rw [Schedule.carriedOut_orNothing (Schedule.arranges_foldl valid each).perm]
  obtain ⟨before, new, after, block⟩ := isRun.exists_block valid each
  have underway := block.follows.underway isRun.plain (fun id inside => block.absent inside)
  obtain ⟨new', made, segmented⟩ := underway.segmented valid holds apart block.follows.emission
  obtain rfl : new' = new := List.append_cancel_left (made.symm.trans block.made)
  exact ⟨before, new', after, block.whole, block.perm, segmented⟩

theorem measuring_is_normal :
    ∃ list ∈ measuringEdited.lists, Schedule.IsRun list [3, 4, 5, 2] ∧
      ∃ order, Schedule.balanced list (HybridMap.ofList list) = .ok order ∧ ∃ before new after,
        Schedule.carriedOut list order = before ++ (new ++ after) ∧ [3, 4, 5, 2].Perm new ∧
          Schedule.Segmented list before ([3, 4, 5, 2].filter (Schedule.isHybrid list)) new := by
  have lanes : ∀ list ∈ measuringEdited.lists, list.KeepsLanes := by decide +kernel
  have order : ∀ list ∈ measuringEdited.lists, list.order = [0, 1] ++ ([3, 4, 5, 2] ++ []) := by decide +kernel
  have plain : ∀ list ∈ measuringEdited.lists, ∀ id ∈ [3, 4, 5, 2], Schedule.steers list id = false := by decide +kernel
  have label : ∀ list ∈ measuringEdited.lists, Schedule.steers list 1 = true := by decide +kernel
  have inside : 0 < measuringEdited.lists.length := by decide +kernel
  have member := List.getElem_mem inside
  have isRun : Schedule.IsRun measuringEdited.lists[0] [3, 4, 5, 2] :=
    ⟨by simp, plain _ member, [0, 1], [], order _ member, by simpa using label _ member, by simp⟩
  obtain ⟨answer, given, normal⟩ := balanced_is_normal handled_measuring member (keepsChains_measuring _ member)
    (lanes _ member)
  exact ⟨_, member, isRun, answer, given, normal _ isRun⟩

end TwoLane
