import TwoLane.Proofs.Schedule.Balanced
import TwoLane.Proofs.Schedule.OneSided

/-! # Work that waits for nothing

Of two classical instructions of a run the first one, if it waits for nothing, is ready no later than the second one and
never ranks behind it. So no schedule emits the second one first, unless it emits it out of turn because a hybrid
instruction of the run needs it.
-/

namespace TwoLane.Schedule

variable {list : InstructionList} {map : HybridMap} {emitted pool ids : List Nat} {a b id hybrid : Nat}
  {priority : Category → Nat}

/-! ## One before the other -/

/-- Whether an element comes behind another one, if it comes at all. -/
def Leads (a b : Nat) (elements : List Nat) : Prop :=
  b ∈ elements → [a, b].Sublist elements

theorem idxOf_lt_of_sublist {elements : List Nat} (distinct : elements.Nodup) (sublist : [a, b].Sublist elements) :
    elements.idxOf a < elements.idxOf b :=
  List.pairwise_iff_forall_sublist.mp (pairwise_idxOf distinct) sublist

theorem mem_front {elements front back : List Nat} (distinct : elements.Nodup) (sublist : [a, b].Sublist elements)
    (split : elements = front ++ b :: back) : a ∈ front := by
  have before := idxOf_lt_of_sublist distinct sublist
  subst split
  by_contra absent
  have apart : b ∉ front := fun twice =>
    (List.nodup_append.mp distinct).2.2 b twice b List.mem_cons_self rfl
  rw [List.idxOf_append_of_notMem absent, List.idxOf_append_of_notMem apart, List.idxOf_cons_self] at before
  omega

theorem sublist_of_idxOf_lt {elements : List Nat} (member : b ∈ elements)
    (before : elements.idxOf a < elements.idxOf b) : [a, b].Sublist elements := by
  obtain ⟨front, back, split, apart⟩ := List.eq_append_cons_of_mem member
  subst split
  rw [List.idxOf_append_of_notMem apart, List.idxOf_cons_self, Nat.add_zero] at before
  have there : a ∈ front := by
    by_contra absent
    rw [List.idxOf_append_of_notMem absent] at before
    omega
  exact (List.singleton_sublist.mpr there).append (List.singleton_sublist.mpr List.mem_cons_self)

theorem sublist_filter {elements : List Nat} {keep : Nat → Bool} (sublist : [a, b].Sublist elements)
    (first : keep a = true) (second : keep b = true) : [a, b].Sublist (elements.filter keep) := by
  have filtered := sublist.filter keep
  rwa [List.filter_cons_of_pos first, List.filter_cons_of_pos second, List.filter_nil] at filtered

theorem leads_emit (leads : Leads a b emitted) (behind : id = b → a ∈ emitted) : Leads a b (emit emitted id) := by
  unfold emit
  split
  · exact leads
  · intro member
    rcases List.mem_append.mp member with old | new
    · exact (leads old).trans (List.sublist_append_left _ _)
    · obtain rfl := List.mem_singleton.mp new
      exact (List.singleton_sublist.mpr (behind rfl)).append (.refl _)

theorem leads_foldl_emit (leads : Leads a b emitted)
    (behind : ∀ front back, pool = front ++ b :: back → a ∈ front ∨ a ∈ emitted) :
    Leads a b (pool.foldl emit emitted) := by
  induction pool generalizing emitted with
  | nil => exact leads
  | cons id rest ih =>
      refine ih (leads_emit leads (fun same => ?_)) (fun front back split => ?_)
      · exact (behind [] rest (by rw [same]; rfl)).resolve_left List.not_mem_nil
      · rcases behind (id :: front) back (by rw [split]; rfl) with there | old
        · rcases List.mem_cons.mp there with rfl | there
          · exact .inr (mem_emit.mpr (.inr rfl))
          · exact .inl there
        · exact .inr (mem_emit.mpr (.inl old))

/-! ## What is ready first -/

/-- Whether an instruction that waits for nothing stands in front of another one, and both are classical. -/
structure Ahead (list : InstructionList) (a b : Nat) : Prop where
  idle : list.predecessors a = []
  classical : categoryOf list a = .classical ∧ categoryOf list b = .classical
  stands : [a, b].Sublist list.order

theorem firstLeast_ne {key : Nat → Nat} {candidates : List Nat} (distinct : candidates.Nodup)
    (sublist : [a, b].Sublist candidates) (le : key a ≤ key b) : firstLeast key candidates ≠ some b := by
  induction candidates with
  | nil => cases sublist
  | cons first rest ih =>
      obtain ⟨absent, distinct⟩ := List.nodup_cons.mp distinct
      rw [firstLeast]
      cases sublist with
      | cons _ sublist =>
          have differ : first ≠ b := fun same =>
            absent (same ▸ sublist.subset (List.mem_cons_of_mem _ List.mem_cons_self))
          have later := ih distinct sublist
          split
          · exact fun same => differ (Option.some.inj same)
          · next best =>
            split
            · exact fun same => differ (Option.some.inj same)
            · exact best ▸ later
      | cons_cons _ sublist =>
          have there : b ∈ rest := sublist.subset List.mem_cons_self
          have differ : a ≠ b := fun same => absent (same ▸ there)
          split
          · exact fun same => differ (Option.some.inj same)
          · next other best =>
            split
            · exact fun same => differ (Option.some.inj same)
            · next less =>
              intro same
              rw [Option.some.inj same] at less
              exact less le

variable {accepts : Category → Bool} {scheduled : List Nat}

theorem nodup_executable (distinct : list.order.Nodup) : (list.executable scheduled accepts).Nodup :=
  distinct.sublist List.filter_sublist

/-- Where the second instruction could be scheduled, so could the first one, and in front of it. -/
theorem Ahead.executable (ahead : Ahead list a b) (open' : a ∉ scheduled)
    (ready : b ∈ list.executable scheduled accepts) : [a, b].Sublist (list.executable scheduled accepts) := by
  obtain ⟨_, conditions⟩ := List.mem_filter.mp ready
  have accepted : ∀ {id}, categoryOf list id = .classical → ∃ node, list.get? id = some node ∧
      node.category = .classical := by
    intro id category
    rw [categoryOf] at category
    cases found : list.get? id with
    | none =>
        rw [found] at category
        cases category
    | some node =>
        rw [found] at category
        exact ⟨node, rfl, category⟩
  obtain ⟨node, found, category⟩ := accepted ahead.classical.1
  obtain ⟨node', found', category'⟩ := accepted ahead.classical.2
  have own : (!scheduled.contains a && ((list.get? a).map (fun node => accepts node.category)).getD false &&
      list.isReady scheduled a) = true := by
    simp only [found', category', Option.map_some, Option.getD_some, Bool.and_eq_true] at conditions
    simp [found, category, conditions.1.2, InstructionList.isReady, ahead.idle, open']
  exact sublist_filter ahead.stands own conditions

theorem Ahead.next?_ne (ahead : Ahead list a b) (distinct : list.order.Nodup) (open' : a ∉ emitted)
    (pooled : b ∈ pool → a ∈ pool) : next? list priority pool emitted ≠ some b := by
  intro chosen
  obtain ⟨ready, own⟩ := List.mem_filter.mp (firstLeast_mem chosen)
  have there := List.contains_iff_mem.mpr (pooled (List.contains_iff_mem.mp own))
  have both := sublist_filter (ahead.executable open' ready) there own
  refine firstLeast_ne ((nodup_executable distinct).sublist List.filter_sublist) both ?_ chosen
  rw [ahead.classical.1, ahead.classical.2]

theorem Ahead.leads_emitReady (ahead : Ahead list a b) (distinct : list.order.Nodup) (leads : Leads a b emitted)
    (pooled : b ∈ pool → a ∈ pool ∨ a ∈ emitted) (bound : Nat) :
    Leads a b (emitReady list priority pool bound emitted) := by
  induction bound generalizing emitted with
  | zero => exact leads
  | succ bound ih =>
      rw [emitReady]
      split
      · next id chosen =>
        refine ih (leads_emit leads (fun same => ?_))
          (fun member => (pooled member).imp_right (fun old => mem_emit.mpr (.inl old)))
        -- the second one is not chosen as long as the first one waits
        by_contra open'
        exact ahead.next?_ne distinct open' (fun member => (pooled member).resolve_right open') (same ▸ chosen)
      · exact leads

theorem subset_emitReady (bound : Nat) : emitted ⊆ emitReady list priority pool bound emitted := by
  induction bound generalizing emitted with
  | zero => exact List.Subset.refl _
  | succ bound ih =>
      rw [emitReady]
      split
      · exact fun x old => ih (mem_emit.mpr (.inl old))
      · exact List.Subset.refl _

theorem Ahead.leads_drain (ahead : Ahead list a b) (distinct : list.order.Nodup) (leads : Leads a b emitted)
    (sublist : pool.Sublist list.order) (pooled : b ∈ pool → a ∈ pool ∨ a ∈ emitted) :
    Leads a b (drain list priority pool emitted) := by
  refine leads_foldl_emit (ahead.leads_emitReady distinct leads pooled _) (fun front back split => ?_)
  subst split
  refine (pooled (List.mem_append_right _ List.mem_cons_self)).imp (fun there => ?_) (fun old => subset_emitReady _ old)
  have first := idxOf_lt_of_sublist distinct ahead.stands
  refine (List.mem_append.mp there).resolve_right (fun behind => ?_)
  rcases List.mem_cons.mp behind with rfl | later
  · exact absurd first (lt_irrefl _)
  · have turned : [b, a].Sublist (front ++ b :: back) :=
      ((List.singleton_sublist.mpr later).cons_cons b).trans (List.sublist_append_right _ _)
    have second := idxOf_lt_of_sublist distinct (turned.trans sublist)
    omega

/-! ## Independent work -/

theorem Ahead.pulled (ahead : Ahead list a b) (distinct : list.order.Nodup) (inside : a ∈ ids) {quantum : Bool}
    {bound : Nat} (member : b ∈ pull list quantum ids bound scheduled) :
    a ∈ scheduled ∨ a ∈ pull list quantum ids bound scheduled := by
  induction bound generalizing scheduled with
  | zero => cases member
  | succ bound ih =>
      rw [pull] at member ⊢
      split at member
      · next first found =>
        rcases List.mem_cons.mp member with rfl | later
        · refine .inl ?_
          by_contra open'
          obtain ⟨own, front, back, split, skipped⟩ := List.find?_eq_some_iff_append.mp found
          have ready := List.mem_of_find?_eq_some found
          have before := mem_front (nodup_executable distinct) (ahead.executable open' ready) split
          have := skipped a before
          simp [inside] at this
        · rcases ih later with old | pulled
          · rcases List.mem_append.mp old with old | new
            · exact .inl old
            · exact .inr (List.mem_cons.mpr (.inl (List.mem_singleton.mp new)))
          · exact .inr (List.mem_cons_of_mem _ pulled)
      · cases member

/-! ## Runs -/

/-- Whether no hybrid instruction of a run needs an instruction. -/
def Spared (list : InstructionList) (ids : List Nat) (b : Nat) : Prop :=
  ∀ hybrid ∈ ids, isHybrid list hybrid = true → b ∉ list.dependencies hybrid

theorem Ahead.not_hybrid (ahead : Ahead list a b) (hybrid : isHybrid list id = true) : id ≠ b := by
  rintro rfl
  rw [isHybrid, ahead.classical.2] at hybrid
  cases hybrid

theorem Ahead.leads_emitFirstHybrid (ahead : Ahead list a b) (distinct : list.order.Nodup)
    (sublist : ids.Sublist list.order) (spared : Spared list ids b) (leads : Leads a b emitted) :
    Leads a b (emitFirstHybrid list emitted ids) := by
  unfold emitFirstHybrid
  split
  · next first found =>
    have hybrid := List.find?_some found
    have unneeded := spared first (List.mem_of_find?_eq_some found) hybrid
    refine leads_emit (ahead.leads_drain distinct leads (List.filter_sublist.trans sublist) (fun member => ?_))
      (fun same => absurd same (ahead.not_hybrid hybrid))
    exact absurd (List.contains_iff_mem.mp (List.mem_filter.mp member).2) unneeded
  · exact leads

theorem Ahead.leads_emitHybrid (ahead : Ahead list a b) (distinct : list.order.Nodup) (holds : map.Holds list)
    (sublist : ids.Sublist list.order) (spared : Spared list ids b) (inside : a ∈ ids) (own : hybrid ∈ ids)
    (isHybrid' : isHybrid list hybrid = true) (leads : Leads a b emitted) :
    Leads a b (emitHybrid list map ids emitted hybrid) := by
  have requires := mem_required holds (sublist.subset own) sublist.subset emitted
  unfold emitHybrid
  dsimp only
  generalize required list (((list.get? hybrid).bind (fun node => Table.get? node.line map)).getD []) ids emitted
    hybrid = needs at requires ⊢
  refine leads_emit (ahead.leads_drain distinct leads (List.filter_sublist.trans sublist) (fun member => ?_))
    (fun same => absurd same (ahead.not_hybrid isHybrid'))
  have pooled : a ∈ needs ∨ a ∈ extra list ids emitted needs → a ∈ ids.filter
      (fun id => needs.contains id || (extra list ids emitted needs).contains id) := by
    intro there
    refine List.mem_filter.mpr ⟨inside, ?_⟩
    rwa [Bool.or_eq_true, List.contains_iff_mem, List.contains_iff_mem]
  obtain ⟨_, there⟩ := List.mem_filter.mp member
  rw [Bool.or_eq_true, List.contains_iff_mem, List.contains_iff_mem] at there
  -- the hybrid instruction does not need the second one, so it can only have been pulled in to fill the lanes
  rcases there with required | pulled
  · exact absurd ((requires b).mp required).2.2.2 (spared hybrid own isHybrid')
  · have first : a ∈ emitted ++ needs ∨ a ∈ extra list ids emitted needs := by
      unfold extra at pulled ⊢
      dsimp only at pulled ⊢
      split at pulled
      · cases pulled
      · next differ =>
        rw [if_neg differ]
        exact ahead.pulled distinct inside pulled
    rcases first with assumed | pulled
    · exact (List.mem_append.mp assumed).elim .inr (fun required => .inl (pooled (.inl required)))
    · exact .inl (pooled (.inr pulled))

theorem Ahead.leads_emitBalanced (ahead : Ahead list a b) (distinct : list.order.Nodup) (holds : map.Holds list)
    (sublist : ids.Sublist list.order) (spared : Spared list ids b) (inside : a ∈ ids) (leads : Leads a b emitted) :
    Leads a b (emitBalanced list map emitted (.run ids)) := by
  have hybrids : ∀ (rest after : List Nat), rest ⊆ ids.filter (isHybrid list) → Leads a b after →
      Leads a b (rest.foldl (emitHybrid list map ids) after) := by
    intro rest
    induction rest with
    | nil => exact fun after _ leads => leads
    | cons hybrid rest ih =>
        intro after subset leads
        obtain ⟨own, isHybrid'⟩ := List.mem_filter.mp (subset List.mem_cons_self)
        exact ih _ (List.subset_of_cons_subset subset)
          (ahead.leads_emitHybrid distinct holds sublist spared inside own isHybrid' leads)
  rw [emitBalanced]
  refine ahead.leads_drain distinct (hybrids _ _ (List.Subset.refl _) leads) (List.filter_sublist.trans sublist) ?_
  intro _
  by_cases old : a ∈ (ids.filter (isHybrid list)).foldl (emitHybrid list map ids) emitted
  · exact .inr old
  · exact .inl (List.mem_filter.mpr ⟨inside, by simpa using old⟩)

/-! ## Whole lists -/

/-- Whether one of two instructions is a control instruction, or one runs between them. -/
def Parted (list : InstructionList) (a b : Nat) : Prop :=
  ∃ id ∈ list.order, steers list id = true ∧
    list.order.idxOf a ≤ list.order.idxOf id ∧ list.order.idxOf id ≤ list.order.idxOf b

instance (list : InstructionList) (a b : Nat) : Decidable (Parted list a b) :=
  inferInstanceAs (Decidable (∃ id ∈ list.order, _))

/-- Whether no hybrid instruction needs an instruction unless a control instruction parts the two. -/
def Unneeded (list : InstructionList) (b : Nat) : Prop :=
  ∀ hybrid ∈ list.order, isHybrid list hybrid = true → b ∈ list.dependencies hybrid → Parted list b hybrid

instance (list : InstructionList) (b : Nat) : Decidable (Unneeded list b) :=
  inferInstanceAs (Decidable (∀ hybrid ∈ list.order, _))

/-- No control instruction parts two instructions of a run. -/
theorem not_parted {front back : List Nat} (distinct : list.order.Nodup) (plain : ∀ id ∈ ids, steers list id = false)
    (split : list.order = front ++ (ids ++ back)) (inside : a ∈ ids) (inside' : b ∈ ids) : ¬ Parted list a b := by
  rintro ⟨id, running, isSteering, above, below⟩
  rw [split] at distinct running above below
  obtain ⟨_, further, apart⟩ := List.nodup_append.mp distinct
  have place : ∀ {x : Nat}, x ∈ ids → (front ++ (ids ++ back)).idxOf x = ids.idxOf x + front.length := by
    intro x member
    have absent : x ∉ front := fun there => apart x there x (List.mem_append_left _ member) rfl
    rw [List.idxOf_append_of_notMem absent, List.idxOf_append_of_mem member, Nat.add_comm]
  rw [place inside] at above
  rw [place inside'] at below
  have inside'' := List.idxOf_lt_length_of_mem inside'
  rcases List.mem_append.mp running with early | rest
  · rw [List.idxOf_append_of_mem early] at above
    have := List.idxOf_lt_length_of_mem early
    omega
  · rcases List.mem_append.mp rest with own | late
    · rw [plain id own] at isSteering
      cases isSteering
    · have absent : id ∉ front := fun there => apart id there id rest rfl
      have absent' : id ∉ ids := fun there => (List.nodup_append.mp further).2.2 id there id late rfl
      rw [List.idxOf_append_of_notMem absent, List.idxOf_append_of_notMem absent'] at below
      omega

/-- What does not turn the two around in a run does not turn them around. -/
theorem Ahead.leads_pieces (ahead : Ahead list a b) (valid : Valid list) (unneeded : Unneeded list b)
    {step : List Nat → Piece → List Nat}
    (each : ∀ piece ∈ pieces list, ∀ emitted, Follows list piece emitted →
      Emits list piece emitted (step emitted piece))
    (runs : ∀ {ids emitted}, ids.Sublist list.order → Spared list ids b → a ∈ ids → Leads a b emitted →
      Leads a b (step emitted (.run ids))) : Leads a b ((pieces list).foldl step []) := by
  have distinct := valid.emission.distinct
  refine (pieces_induction valid each (motive := fun _ emitted => Leads a b emitted)
    (fun member => absurd member List.not_mem_nil) ?_).2.2
  intro piece front back emitted new fits follows split perm permPiece same leads member
  rcases List.mem_append.mp member with old | own
  · exact (leads old).trans (List.sublist_append_left _ _)
  · have ownPiece := permPiece.mem_iff.mpr own
    by_cases early : a ∈ emitted
    · exact (List.singleton_sublist.mpr early).append (List.singleton_sublist.mpr own)
    · -- the first one stands in front of the second one, so it is in the same piece, which is a run
      have inside : a ∈ piece.ids := by
        obtain ⟨first, further, here⟩ := List.append_of_mem ownPiece
        have whole : list.order = (front ++ first) ++ b :: (further ++ back) := by
          rw [split, here]
          simp
        have before := mem_front distinct ahead.stands whole
        rcases List.mem_append.mp before with there | there
        · exact absurd (perm.mem_iff.mp there) early
        · rw [here]
          exact List.mem_append_left _ there
      have differ := idxOf_lt_of_sublist distinct ahead.stands
      cases piece with
      | fixed id =>
          rw [List.mem_singleton.mp inside, List.mem_singleton.mp ownPiece] at differ
          exact absurd differ (lt_irrefl _)
      | run ids =>
          rw [← same] at member ⊢
          refine runs follows.sublist (fun hybrid hybridIn isHybrid' needed => ?_) inside leads member
          exact not_parted distinct fits split ownPiece hybridIn
            (unneeded hybrid (follows.sublist.subset hybridIn) isHybrid' needed)

theorem Ahead.leads_early (ahead : Ahead list a b) (valid : Valid list) (unneeded : Unneeded list b) :
    Leads a b ((pieces list).foldl (emitEarly list) []) :=
  ahead.leads_pieces valid unneeded (fun _ _ _ follows => emits_early valid follows)
    (fun sublist _ inside leads => ahead.leads_drain valid.emission.distinct leads sublist (fun _ => .inl inside))

theorem Ahead.leads_late (ahead : Ahead list a b) (valid : Valid list) (unneeded : Unneeded list b) :
    Leads a b ((pieces list).foldl (emitLate list) []) :=
  have distinct := valid.emission.distinct
  ahead.leads_pieces valid unneeded (fun _ _ _ follows => emits_late valid follows)
    (fun sublist spared inside leads =>
      have first := ahead.leads_emitFirstHybrid distinct sublist spared leads
      ahead.leads_drain distinct first sublist (fun _ => .inl inside))

theorem Ahead.leads_balanced (ahead : Ahead list a b) (valid : Valid list) (holds : map.Holds list)
    (unneeded : Unneeded list b) : Leads a b ((pieces list).foldl (emitBalanced list map) []) :=
  ahead.leads_pieces valid unneeded (fun _ _ _ follows => emits_balanced valid holds follows)
    (fun sublist spared inside leads =>
      ahead.leads_emitBalanced valid.emission.distinct holds sublist spared inside leads)

end TwoLane.Schedule
