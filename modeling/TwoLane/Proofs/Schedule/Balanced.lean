import TwoLane.Proofs.Execution.Passes
import TwoLane.Proofs.Schedule.Pieces
import TwoLane.Schedule.Balanced

/-! # Balanced schedules keep to the chains

A hybrid map holds of a list if its lines are hybrid ones and it gives for each of them lines that the hybrid
instruction there depends on. Then all that runs in front of a hybrid instruction is ready: what is required holds its
predecessors except earlier hybrid instructions, which are emitted, and what is pulled besides follows that.
-/

namespace TwoLane

structure HybridMap.Holds (list : InstructionList) (map : HybridMap) : Prop where
  hybrid : ∀ line ∈ Table.keys map, ∃ id ∈ list.order, ∃ node, list.nodes[id]? = some node ∧ node.line = line ∧
    node.category.isHybrid = true
  depends : ∀ id ∈ list.order, ∀ node, list.nodes[id]? = some node → ∀ lines, Table.get? node.line map = some lines →
    ∀ other ∈ list.order, ∀ there, list.nodes[other]? = some there → there.line ∈ lines →
      other ∈ list.dependencies id

/-- Whether running instructions have different lines. -/
def InstructionList.LinesDiffer (list : InstructionList) : Prop :=
  ∀ {i j a b}, i ∈ list.order → j ∈ list.order → list.nodes[i]? = some a → list.nodes[j]? = some b →
    a.line = b.line → i = j

namespace Schedule

open InstructionList (LinesDiffer)

variable {list : InstructionList} {map : HybridMap} {emitted after ids : List Nat} {id other hybrid : Nat}
  {piece : Piece}

/-! ## Positions -/

/-- What an instruction of a run depends on does not come behind it in the run. -/
theorem dependency_not_behind (valid : Valid list) {rest : List Nat} (sublist : (id :: rest).Sublist list.order)
    (needed : other ∈ list.dependencies id) : other ∉ id :: rest := by
  intro behind
  obtain ⟨_, before⟩ := valid.emission.of_dependency (sublist.subset List.mem_cons_self) needed
  rcases List.mem_cons.mp behind with same | later
  · rw [same] at before
    omega
  · have above := (List.pairwise_cons.mp ((pairwise_idxOf valid.emission.distinct).sublist sublist)).1 other later
    omega

/-! ## Independent work -/

theorem pull_spec (quantum : Bool) (bound : Nat) (assumed : List Nat) :
    ∀ id ∈ pull list quantum ids bound assumed, id ∈ ids ∧
      ∀ other ∈ list.predecessors id, other ∈ assumed ∨ other ∈ pull list quantum ids bound assumed := by
  induction bound generalizing assumed with
  | zero => exact fun id member => absurd member List.not_mem_nil
  | succ bound ih =>
      rw [pull]
      cases found : (list.executable assumed (fillsLane quantum)).find? (fun id => ids.contains id) with
      | none => exact fun id member => absurd member List.not_mem_nil
      | some first =>
          obtain ⟨_, _, ready⟩ := mem_executable (List.mem_of_find?_eq_some found)
          intro id member
          rcases List.mem_cons.mp member with rfl | later
          · exact ⟨List.contains_iff_mem.mp (List.find?_some found), fun other predecessor => .inl (ready predecessor)⟩
          · obtain ⟨own, before⟩ := ih (assumed ++ [first]) id later
            refine ⟨own, fun other predecessor => ?_⟩
            rcases before other predecessor with there | pulled
            · rcases List.mem_append.mp there with old | new
              · exact .inl old
              · exact .inr (List.mem_cons.mpr (.inl (List.mem_singleton.mp new)))
            · exact .inr (List.mem_cons_of_mem _ pulled)

theorem extra_spec (list : InstructionList) (ids emitted required : List Nat) :
    ∀ id ∈ extra list ids emitted required, id ∈ ids ∧ ∀ other ∈ list.predecessors id,
      other ∈ emitted ++ required ∨ other ∈ extra list ids emitted required := by
  unfold extra
  dsimp only
  split
  · exact fun id member => absurd member List.not_mem_nil
  · exact pull_spec _ _ _

/-! ## Required work -/

theorem mem_required (holds : map.Holds list) (running : hybrid ∈ list.order) (inside : ids ⊆ list.order)
    (emitted : List Nat) (id : Nat) :
    id ∈ required list (((list.get? hybrid).bind (fun node => Table.get? node.line map)).getD []) ids emitted hybrid ↔
      id ∈ ids ∧ id ∉ emitted ∧ isHybrid list id = false ∧ id ∈ list.dependencies hybrid := by
  have absent : emitted.contains id = false ↔ id ∉ emitted := by rw [← Bool.not_eq_true, List.contains_iff_mem]
  simp only [required, List.mem_filter, Bool.and_eq_true, Bool.or_eq_true, Bool.not_eq_true', absent,
    List.contains_iff_mem]
  refine and_congr_right (fun own => ?_)
  rw [and_assoc]
  refine and_congr_right (fun _ => and_congr_right (fun _ => ?_))
  refine ⟨?_, .inr⟩
  rintro (mapped | needed)
  · cases there : list.get? id with
    | none => simp [there] at mapped
    | some node =>
        cases here : list.get? hybrid with
        | none => simp [there, here] at mapped
        | some node' =>
            cases lines : Table.get? node'.line map with
            | none => simp [there, here, lines] at mapped
            | some lines' =>
                refine holds.depends hybrid running node' here lines' lines id (inside own) node there ?_
                simpa [there, here, lines] using mapped
  · exact needed

/-- What a hybrid instruction of a run depends on in the run is emitted or required, once the hybrid instructions in front
    of it are emitted. -/
theorem emitted_or_required (valid : Valid list) (holds : map.Holds list) (within : ids.Sublist list.order)
    {front rest : List Nat} (split : ids.filter (isHybrid list) = front ++ hybrid :: rest) (before : front ⊆ after)
    (needed : other ∈ list.dependencies hybrid) (inside : other ∈ ids) : other ∈ after ∨ other ∈
      required list (((list.get? hybrid).bind (fun node => Table.get? node.line map)).getD []) ids after hybrid := by
  have sublist : (hybrid :: rest).Sublist (ids.filter (isHybrid list)) := by
    rw [split]
    exact List.sublist_append_right _ _
  have behind : (hybrid :: rest).Sublist list.order := (sublist.trans List.filter_sublist).trans within
  cases isHybrid' : isHybrid list other with
  | true =>
      have there : other ∈ front ++ hybrid :: rest := by
        rw [← split]
        exact List.mem_filter.mpr ⟨inside, isHybrid'⟩
      exact .inl (before ((List.mem_append.mp there).resolve_right (dependency_not_behind valid behind needed)))
  | false =>
      by_cases old : other ∈ after
      · exact .inl old
      · have running : hybrid ∈ list.order := behind.subset List.mem_cons_self
        exact .inr ((mem_required holds running within.subset after other).mpr ⟨inside, old, isHybrid', needed⟩)

/-! ## Emission -/

/-- What is emitted in front of a hybrid instruction of a run waits only for what is emitted, or is emitted there, once the
    hybrid instructions in front of it are emitted. -/
theorem closed_pool (valid : Valid list) (holds : map.Holds list) (within : ids.Sublist list.order)
    {front rest : List Nat} (split : ids.filter (isHybrid list) = front ++ hybrid :: rest) (before : front ⊆ after) :
    let needs := required list (((list.get? hybrid).bind (fun node => Table.get? node.line map)).getD []) ids after hybrid
    let pool := ids.filter (fun id => needs.contains id || (extra list ids after needs).contains id)
    ∀ id ∈ pool, ∀ other ∈ list.predecessors id, other ∈ ids → other ∈ after ∨ other ∈ pool := by
  intro needs pool id pooled other predecessor inside
  have own : hybrid ∈ ids := by
    have member : hybrid ∈ ids.filter (isHybrid list) := by
      rw [split]
      exact List.mem_append_right _ List.mem_cons_self
    exact (List.mem_filter.mp member).1
  have mem_pool : ∀ {x}, x ∈ pool ↔ x ∈ ids ∧ (x ∈ needs ∨ x ∈ extra list ids after needs) := by
    intro x
    rw [List.mem_filter, Bool.or_eq_true, List.contains_iff_mem, List.contains_iff_mem]
  rcases (mem_pool.mp pooled).2 with required | pulled
  · have needed := ((mem_required holds (within.subset own) within.subset after id).mp required).2.2.2
    have depends := (InstructionList.dependencies_closed list hybrid).2 id needed predecessor
    exact (emitted_or_required valid holds within split before depends inside).imp_right
      (fun new => mem_pool.mpr ⟨inside, .inl new⟩)
  · rcases (extra_spec list ids after needs id pulled).2 other predecessor with assumed | new
    · exact (List.mem_append.mp assumed).imp_right (fun required => mem_pool.mpr ⟨inside, .inl required⟩)
    · exact .inr (mem_pool.mpr ⟨inside, .inr new⟩)

/-- Once the hybrid instructions in front of it are emitted, a hybrid one of a run can be emitted behind what it
    waits for. -/
theorem emitHybrid_spec (valid : Valid list) (holds : map.Holds list)
    (follows : Follows list (.run ids) emitted) (emission : Emission list after) (extends' : Extends ids emitted after)
    {front rest : List Nat} (split : ids.filter (isHybrid list) = front ++ hybrid :: rest) (before : front ⊆ after) :
    Emission list (emitHybrid list map ids after hybrid) ∧ Extends ids emitted (emitHybrid list map ids after hybrid) ∧
      after ⊆ emitHybrid list map ids after hybrid ∧ hybrid ∈ emitHybrid list map ids after hybrid := by
  have member : hybrid ∈ ids.filter (isHybrid list) := by
    rw [split]
    exact List.mem_append_right _ List.mem_cons_self
  have own : hybrid ∈ ids := (List.mem_filter.mp member).1
  have within : ids.Sublist list.order := follows.sublist
  have closed := closed_pool valid holds within split before
  have ready : ∀ other ∈ list.dependencies hybrid, other ∈ ids → other ∈ after ∨ other ∈
      required list (((list.get? hybrid).bind (fun node => Table.get? node.line map)).getD []) ids after hybrid :=
    fun other needed inside => emitted_or_required valid holds within split before needed inside
  unfold emitHybrid
  dsimp only at closed ⊢
  generalize required list (((list.get? hybrid).bind (fun node => Table.get? node.line map)).getD []) ids after
    hybrid = needs at closed ready ⊢
  obtain ⟨drained, extended, all, kept⟩ :=
    follows.drain valid emission extends' List.filter_sublist closed classicalFirst
  obtain ⟨last, reached⟩ := follows.emit drained extended own (by
    intro other predecessor inside
    rcases ready other ((InstructionList.dependencies_closed list hybrid).1 predecessor) inside with old | new
    · exact kept old
    · refine all (List.mem_filter.mpr ⟨inside, ?_⟩)
      rw [List.contains_iff_mem.mpr new, Bool.true_or])
  refine ⟨last, reached, ?_, mem_emit.mpr (.inr rfl)⟩
  exact fun other there => mem_emit.mpr (.inl (kept there))

theorem foldl_emitHybrid_spec (valid : Valid list) (holds : map.Holds list)
    (follows : Follows list (.run ids) emitted) {front rest : List Nat}
    (split : ids.filter (isHybrid list) = front ++ rest) (emission : Emission list after)
    (extends' : Extends ids emitted after) (before : front ⊆ after) :
    Emission list (rest.foldl (emitHybrid list map ids) after) ∧
      Extends ids emitted (rest.foldl (emitHybrid list map ids) after) := by
  induction rest generalizing front after with
  | nil => exact ⟨emission, extends'⟩
  | cons hybrid rest ih =>
      obtain ⟨next, reached, kept, own⟩ := emitHybrid_spec valid holds follows emission extends' split before
      have split' : ids.filter (isHybrid list) = (front ++ [hybrid]) ++ rest := by
        rw [split, List.append_assoc]
        rfl
      refine ih split' next reached ?_
      intro other member
      rcases List.mem_append.mp member with old | new
      · exact kept (before old)
      · rw [List.mem_singleton.mp new]
        exact own

theorem emits_balanced (valid : Valid list) (holds : map.Holds list) (follows : Follows list piece emitted) :
    Emits list piece emitted (emitBalanced list map emitted piece) := by
  cases piece with
  | fixed id => exact follows.emits_fixed valid
  | run ids =>
      obtain ⟨emission, extends'⟩ := foldl_emitHybrid_spec valid holds follows (List.nil_append _).symm follows.emission
        (.refl _ _) (List.nil_subset _)
      rw [emitBalanced]
      generalize (ids.filter (isHybrid list)).foldl (emitHybrid list map ids) emitted = after at emission extends' ⊢
      have rest : ∀ {other}, other ∈ ids → other ∈ after ∨ other ∈ ids.filter (fun id => !after.contains id) := by
        intro other inside
        by_cases old : other ∈ after
        · exact .inl old
        · exact .inr (List.mem_filter.mpr ⟨inside, by simpa using old⟩)
      obtain ⟨last, reached, all, kept⟩ := follows.drain valid emission extends'
        (show (ids.filter (fun id => !after.contains id)).Sublist ids from List.filter_sublist)
        (fun _ _ _ _ inside => rest inside) classicalFirst
      exact ⟨last, reached, fun other inside => (rest inside).elim (fun old => kept old) (fun new => all new)⟩

theorem hasHybridOn_of_holds (lines : LinesDiffer list) (holds : map.Holds list) :
    ∀ line ∈ Table.keys map, hasHybridOn list line = true := by
  intro line key
  obtain ⟨id, running, node, found, same, hybrid⟩ := holds.hybrid line key
  have member : node ∈ list.running := List.mem_filterMap.mpr ⟨id, running, found⟩
  have present : (list.onLine? line).isSome = true := by
    rw [InstructionList.onLine?, List.find?_isSome]
    exact ⟨node, member, by simpa using same⟩
  obtain ⟨first, there⟩ := Option.isSome_iff_exists.mp present
  obtain ⟨other, runs, otherFound⟩ := List.mem_filterMap.mp (List.mem_of_find?_eq_some there)
  have line' : first.line = line := by simpa using List.find?_some there
  have equal := lines runs running otherFound found (line'.trans same.symm)
  subst equal
  cases found.symm.trans otherFound
  rw [hasHybridOn, there]
  exact hybrid

/-- Balancing the lanes never fails. -/
theorem balanced_eq_ok (lines : LinesDiffer list) (holds : map.Holds list) :
    balanced list map = .ok (orNothing list ((pieces list).foldl (emitBalanced list map) [])) := by
  have none : (Table.keys map).find? (fun line => !hasHybridOn list line) = none := by
    rw [List.find?_eq_none]
    intro line key
    simp [hasHybridOn_of_holds lines holds line key]
  rw [balanced, none]

/-- Balancing the lanes never fails, and keeps to the chains. -/
theorem balanced_arranges (valid : Valid list) (lines : LinesDiffer list) (holds : map.Holds list) :
    ∃ order, balanced list map = .ok order ∧ (order = [] ∨ (Arranges list order ∧ order ≠ list.order)) := by
  refine ⟨_, balanced_eq_ok lines holds, ?_⟩
  exact arranges_orNothing (arranges_foldl valid (fun _ _ _ follows => emits_balanced valid holds follows))

end Schedule

end TwoLane
