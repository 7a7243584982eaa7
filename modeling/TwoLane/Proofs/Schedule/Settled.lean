import TwoLane.Proofs.Execution.Scheduling
import TwoLane.Proofs.Schedule.NormalForm
import TwoLane.Proofs.Schedule.Renewal
import TwoLane.Proofs.Schedule.Sides

/-! # Schedules settle

A schedule that is carried out once does not move anything a second time. Each drained pool comes out again as it went
in, so all that has to be shown is that the pools are the same: what the first hybrid instruction of a run needs, and in
front of each hybrid instruction what that one still needs and what is pulled besides. What was pulled stands in front of
all other work for its lane now, so it is pulled again, and nothing more than before is ready behind it.
-/

namespace TwoLane.Schedule

open InstructionList (LinesDiffer inOrder)

variable {list : InstructionList} {map : HybridMap} {quantum : Bool} {bound id hybrid : Nat}
  {ids run order assumed assumed' emitted new segment front back done rest later hybrids : List Nat}

/-! ## Early quantum work -/

theorem emitEarly_again (valid : Valid list) (valid' : Valid (list.inOrder order)) (follows : Follows list (.run ids) emitted)
    (perm : ids.Perm new) (made : emitEarly list emitted (.run ids) = emitted ++ new)
    (split : order = emitted ++ (new ++ later)) :
    emitEarly (list.inOrder order) emitted (.run new) = emitted ++ new := by
  obtain ⟨new', made', drained⟩ := drained_drain valid follows.drainable quantumFirst
  obtain rfl : new' = new := List.append_cancel_left (made'.symm.trans made)
  have block : new' <:+: order := ⟨emitted, later, by rw [split, List.append_assoc]⟩
  exact drained.drain_inOrder follows.drainable valid' block.sublist (fun _ => perm.mem_iff.symm) block

theorem earlyQuantum_again (valid : Valid list) :
    let order := (pieces list).foldl (emitEarly list) []
    (pieces (list.inOrder order)).foldl (emitEarly (list.inOrder order)) [] = order := by
  have each := fun piece (_ : piece ∈ pieces list) emitted (follows : Follows list piece emitted) =>
    emits_early valid follows
  have arranges := arranges_foldl valid each
  exact foldl_pieces_inOrder valid each (fun _ _ => rfl) (fun follows _ perm made split =>
    emitEarly_again valid (valid.inOrder arranges.emission arranges.perm) follows perm made split)

/-! ## Late quantum work -/

/-- The first hybrid instruction of a run comes behind what it needs of the run. As that stands in front of it, there is
    no hybrid instruction among what it needs. -/
theorem Follows.drained_first (valid : Valid list) (follows : Follows list (.run ids) emitted)
    (waits : ∀ id ∈ ids, id ∉ emitted) (found : ids.find? (isHybrid list) = some hybrid) :
    ∃ needs, emitFirstHybrid list emitted ids = emitted ++ (needs ++ [hybrid]) ∧
      Drained list classicalFirst (ids.filter (fun id => (list.dependencies hybrid).contains id)) emitted needs ∧
        (∀ id ∈ needs, isHybrid list id = false) ∧ hybrid ∉ emitted ++ needs := by
  obtain ⟨needs, made, drained⟩ := drained_drain valid (follows.drainable_needs hybrid) classicalFirst
  obtain ⟨meets, before, behind, rfl, plain⟩ := List.find?_eq_some_iff_append.mp found
  have plainNeeds : ∀ id ∈ needs, isHybrid list id = false := by
    intro id member
    obtain ⟨own, needed⟩ := List.mem_filter.mp (drained.mem_iff.mp member).1
    have apart := dependency_not_behind valid ((List.sublist_append_right before _).trans follows.sublist)
      (List.contains_iff_mem.mp needed)
    simpa using plain id ((List.mem_append.mp own).resolve_right apart)
  have absent : hybrid ∉ emitted ++ needs := by
    rw [List.mem_append]
    rintro (old | there)
    · exact waits hybrid (List.mem_append_right _ List.mem_cons_self) old
    · cases meets.symm.trans (plainNeeds hybrid there)
  refine ⟨needs, ?_, drained, plainNeeds, absent⟩
  rw [emitFirstHybrid, found]
  dsimp only
  rw [made, Schedule.emit, if_neg (by simpa using absent), List.append_assoc]

theorem emitFirstHybrid_again (valid : Valid list) (valid' : Valid (list.inOrder order))
    (follows : Follows list (.run ids) emitted) (waits : ∀ id ∈ ids, id ∉ emitted) (perm : ids.Perm (segment ++ rest))
    (begun : emitFirstHybrid list emitted ids = emitted ++ segment)
    (split : order = emitted ++ (segment ++ (rest ++ later))) :
    emitFirstHybrid (list.inOrder order) emitted (segment ++ rest) = emitted ++ segment := by
  cases found : ids.find? (isHybrid list) with
  | none =>
      have none : (segment ++ rest).find? (isHybrid (list.inOrder order)) = none := by
        rw [List.find?_eq_none] at found ⊢
        exact fun x member => found x (perm.mem_iff.mpr member)
      rw [emitFirstHybrid, found] at begun
      rw [emitFirstHybrid, none]
      exact begun
  | some first =>
      obtain ⟨needs, made, drained, plain, absent⟩ := follows.drained_first valid waits found
      obtain rfl := List.append_cancel_left (made.symm.trans begun)
      have found' : (needs ++ [first] ++ rest).find? (isHybrid (list.inOrder order)) = some first := by
        rw [List.find?_eq_some_iff_append]
        refine ⟨List.find?_some found, needs, rest, List.append_assoc _ _ _, fun x member => ?_⟩
        have notHybrid : isHybrid (list.inOrder order) x = false := plain x member
        rw [notHybrid]
        rfl
      have within : (needs ++ [first] ++ rest).Sublist order := by
        rw [split, ← List.append_assoc (needs ++ [first])]
        exact (List.sublist_append_left _ _).trans (List.sublist_append_right _ _)
      have again : drain (list.inOrder order) classicalFirst ((needs ++ [first] ++ rest).filter
          (fun id => (list.dependencies first).contains id)) emitted = emitted ++ needs := by
        refine drained.drain_inOrder (follows.drainable_needs first) valid' (List.filter_sublist.trans within)
          (fun x => ?_) ⟨emitted, first :: (rest ++ later), by rw [split]; simp⟩
        rw [List.mem_filter, List.mem_filter, perm.mem_iff]
      rw [emitFirstHybrid, found']
      dsimp only
      rw [show (list.inOrder order).dependencies first = list.dependencies first from rfl, again, emit,
        if_neg (by simpa using absent), List.append_assoc]

theorem emitLate_again (valid : Valid list) (valid' : Valid (list.inOrder order)) (follows : Follows list (.run ids) emitted)
    (perm : ids.Perm new) (made : emitLate list emitted (.run ids) = emitted ++ new)
    (split : order = emitted ++ (new ++ later)) :
    emitLate (list.inOrder order) emitted (.run new) = emitted ++ new := by
  obtain ⟨segment, rest, begun, _, made', drained⟩ := drained_emitLate valid follows
  obtain rfl : segment ++ rest = new := List.append_cancel_left (made'.symm.trans made)
  have waits : ∀ id ∈ ids, id ∉ emitted := by
    intro id member old
    have distinct : order.Nodup := valid'.emission.distinct
    rw [split] at distinct
    exact (List.nodup_append.mp distinct).2.2 id old id (List.mem_append_left _ (perm.mem_iff.mp member)) rfl
  rw [List.append_assoc] at split
  have first := emitFirstHybrid_again valid valid' follows waits perm begun split
  have within : (segment ++ rest).Sublist order := by
    rw [split, ← List.append_assoc segment]
    exact (List.sublist_append_left _ _).trans (List.sublist_append_right _ _)
  rw [emitLate, first, ← List.append_assoc]
  refine drained.drain_inOrder (follows.drainable.append segment) valid' within (fun _ => perm.mem_iff.symm)
    ⟨emitted ++ segment, later, ?_⟩
  rw [split]
  simp

/-- Putting quantum work off a second time changes nothing. -/
theorem lateQuantum_again (valid : Valid list) :
    let order := (pieces list).foldl (emitLate list) []
    (pieces (list.inOrder order)).foldl (emitLate (list.inOrder order)) [] = order := by
  have each := fun piece (_ : piece ∈ pieces list) emitted (follows : Follows list piece emitted) =>
    emits_late valid follows
  have arranges := arranges_foldl valid each
  exact foldl_pieces_inOrder valid each (fun _ _ => rfl) (fun follows _ perm made split =>
    emitLate_again valid (valid.inOrder arranges.emission arranges.perm) follows perm made split)

/-! ## Pulling again -/

/-- Work is pulled until enough of it is or none is ready any more. -/
theorem pull_stops (short : (pull list quantum ids bound assumed).length < bound) (own : id ∈ ids) :
    id ∉ list.executable (assumed ++ pull list quantum ids bound assumed) (fillsLane quantum) := by
  induction bound generalizing assumed with
  | zero => cases short
  | succ bound ih =>
      rw [pull] at short ⊢
      cases found : (list.executable assumed (fillsLane quantum)).find? (fun id => ids.contains id) with
      | none =>
          dsimp only
          rw [List.append_nil]
          exact fun ready => List.find?_eq_none.mp found id ready (List.contains_iff_mem.mpr own)
      | some first =>
          rw [found] at short
          have further := ih (Nat.lt_of_succ_lt_succ short)
          rwa [List.append_assoc] at further

/-- Whatever is pulled is ready behind what was pulled before. -/
theorem executable_of_pull (split : pull list quantum ids bound assumed = front ++ id :: back) :
    id ∈ ids ∧ id ∈ list.executable (assumed ++ front) (fillsLane quantum) := by
  induction bound generalizing assumed front with
  | zero => exact absurd split.symm (by simp [pull])
  | succ bound ih =>
      rw [pull] at split
      cases found : (list.executable assumed (fillsLane quantum)).find? (fun id => ids.contains id) with
      | none =>
          rw [found] at split
          exact absurd split.symm (by simp)
      | some first =>
          rw [found] at split
          cases front with
          | nil =>
              cases split
              rw [List.append_nil]
              exact ⟨List.contains_iff_mem.mp (List.find?_some found), List.mem_of_find?_eq_some found⟩
          | cons other front =>
              obtain ⟨rfl, further⟩ := List.cons.inj split
              obtain ⟨own, ready⟩ := ih further
              rw [List.append_assoc] at ready
              exact ⟨own, ready⟩

theorem mem_executable_inOrder (perm : list.order.Perm order) (same : ∀ x, x ∈ assumed' ↔ x ∈ assumed)
    {accepts : Category → Bool} :
    id ∈ (list.inOrder order).executable assumed' accepts ↔ id ∈ list.executable assumed accepts := by
  have contains : ∀ x, assumed'.contains x = assumed.contains x := by
    intro x
    rw [Bool.eq_iff_iff, List.contains_iff_mem, List.contains_iff_mem]
    exact same x
  have ready : (list.inOrder order).isReady assumed' id = list.isReady assumed id := by
    rw [InstructionList.isReady, InstructionList.isReady]
    exact congrArg (List.all _) (funext contains)
  rw [InstructionList.executable, InstructionList.executable, List.mem_filter, List.mem_filter, contains, ready]
  exact and_congr_left (fun _ => perm.mem_iff.symm)

/-- Work that was pulled, and stands in front of all other waiting work of a run now, is pulled again. -/
theorem pull_again (valid : Valid (list.inOrder order)) (perm : list.order.Perm order) (permRun : ids.Perm run)
    (within : run.Sublist order) (same : ∀ x, x ∈ assumed' ↔ x ∈ assumed)
    (waiting : run.filter (waitsFor list quantum assumed) = front ++ back)
    (pulls : (pull list quantum ids bound assumed).Perm front) :
    pull (list.inOrder order) quantum run bound assumed' = front := by
  have waiting' : run.filter (waitsFor (list.inOrder order) quantum assumed') = front ++ back := by
    rw [← waiting]
    refine List.filter_congr (fun x _ => ?_)
    have contains : assumed'.contains x = assumed.contains x := by
      rw [Bool.eq_iff_iff, List.contains_iff_mem, List.contains_iff_mem]
      exact same x
    rw [waitsFor, waitsFor, contains]
    rfl
  have ready : ∀ before x after, front = before ++ x :: after →
      (list.inOrder order).predecessors x ⊆ assumed' ++ before := by
    rintro before x after rfl other predecessor
    have member := pulls.mem_iff.mpr (List.mem_append_right before List.mem_cons_self)
    rcases (pull_spec quantum bound assumed x member).2 other predecessor with old | pulled
    · exact List.mem_append_left _ ((same other).mpr old)
    · have behind : (x :: after).Sublist order := by
        have inside : (before ++ x :: after).Sublist order := by
          refine List.Sublist.trans ?_ ((waiting ▸ List.filter_sublist : (_ ++ back).Sublist run).trans within)
          exact List.sublist_append_left _ _
        exact (List.sublist_append_right _ _).trans inside
      exact List.mem_append_right _
        ((List.mem_append.mp (pulls.mem_iff.mp pulled)).resolve_right (valid.not_behind behind predecessor))
  have enough : front.length ≤ bound := pulls.length_eq ▸ length_pull_le _ _ _ _ _
  have first := pull_front valid.emission.distinct within quantum bound waiting' ready
  rw [List.take_of_length_le enough] at first
  obtain ⟨more, longer⟩ := first
  cases more with
  | nil => rw [← longer, List.append_nil]
  | cons x more =>
      -- anything further would have been ready the first time too
      obtain ⟨own, executable⟩ := executable_of_pull longer.symm
      have most := length_pull_le (list.inOrder order) quantum run bound assumed'
      rw [← longer, List.length_append, List.length_cons, ← pulls.length_eq] at most
      have short : (pull list quantum ids bound assumed).length < bound := by omega
      refine absurd ?_ (pull_stops short (permRun.mem_iff.mpr own))
      refine (mem_executable_inOrder perm (fun y => ?_)).mp executable
      rw [List.mem_append, List.mem_append, same, pulls.mem_iff]

/-! ## Around a hybrid instruction -/

theorem Underway.drained_emitHybrid (valid : Valid list) (holds : map.Holds list)
    (underway : Underway list ids emitted (hybrid :: hybrids)) :
    ∃ segment, emitHybrid list map ids emitted hybrid = emitted ++ (segment ++ [hybrid]) ∧
      Drained list classicalFirst (pool list map ids emitted hybrid) emitted segment ∧
        (∀ id ∈ segment, isHybrid list id = false) ∧ hybrid ∉ emitted ++ segment ∧ isHybrid list hybrid = true := by
  obtain ⟨front, back, turn⟩ := underway.turn valid holds
  obtain ⟨segment, made, drained⟩ := drained_drain valid (underway.drainable_pool valid holds) classicalFirst
  have plain : ∀ id ∈ segment, isHybrid list id = false :=
    fun id member => (turn.plain_pool (drained.mem_iff.mp member).1).2
  have absent : hybrid ∉ emitted ++ segment := by
    rw [List.mem_append]
    rintro (old | there)
    · exact turn.waits old
    · cases turn.meets.symm.trans (plain hybrid there)
  refine ⟨segment, ?_, drained, plain, absent, turn.meets⟩
  rw [emitHybrid_eq_emit, made, emit, if_neg (by simpa using absent), List.append_assoc]

theorem Underway.pulled_again (valid : Valid list) (holds : map.Holds list) (valid' : Valid (list.inOrder order))
    (perm : list.order.Perm order) (permRun : ids.Perm run) (within : run.Sublist order)
    (underway : Underway list ids emitted (hybrid :: hybrids))
    (drained : Drained list classicalFirst (pool list map ids emitted hybrid) emitted segment)
    (whole : run = done ++ (segment ++ hybrid :: rest)) (early : done ⊆ emitted) :
    (pulled list map ids emitted hybrid).Perm (pulled (list.inOrder order) map run emitted hybrid) := by
  obtain ⟨_, _, turn⟩ := underway.turn valid holds
  have needed : (needs list map ids emitted hybrid).Perm (needs (list.inOrder order) map run emitted hybrid) :=
    permRun.filter _
  have loads : ∀ lane, load (list.inOrder order) lane (needs (list.inOrder order) map run emitted hybrid) =
      load list lane (needs list map ids emitted hybrid) := fun lane => (needed.countP_eq _).symm
  have pulls : pulled list map ids emitted hybrid = _ :=
    extra_eq list ids emitted (needs list map ids emitted hybrid)
  have pulls' : pulled (list.inOrder order) map run emitted hybrid = _ :=
    extra_eq (list.inOrder order) run emitted (needs (list.inOrder order) map run emitted hybrid)
  rw [lighter, span, loads, loads, ← lighter, ← span, loads] at pulls'
  split at pulls
  · next level =>
      rw [if_pos level] at pulls'
      rw [pulls, pulls']
  · next apart =>
      rw [if_neg apart] at pulls'
      have onLane : ∀ x ∈ pulled list map ids emitted hybrid, waitsFor list
          (lighter list (needs list map ids emitted hybrid)) (emitted ++ needs list map ids emitted hybrid) x = true := by
        intro x member
        obtain ⟨_, waits, lane⟩ := mem_extra member
        rw [waitsFor, lane]
        simpa using waits
      have filled : (pulled list map ids emitted hybrid).Perm (segment.filter (waitsFor list
          (lighter list (needs list map ids emitted hybrid)) (emitted ++ needs list map ids emitted hybrid))) := by
        refine (List.perm_ext_iff_of_nodup (nodup_extra _ _ _ _) (drained.nodup.filter _)).mpr (fun x => ?_)
        rw [List.mem_filter, drained.mem_iff, turn.mem_pool]
        constructor
        · intro member
          exact ⟨⟨.inr member, (mem_pulled member).2.1⟩, onLane x member⟩
        · rintro ⟨⟨needed | pulled, _⟩, waits⟩
          · simp [waitsFor, needed] at waits
          · exact pulled
      have past : done.filter (waitsFor list (lighter list (needs list map ids emitted hybrid))
          (emitted ++ needs list map ids emitted hybrid)) = [] := by
        rw [List.filter_eq_nil_iff]
        intro x member
        simp [waitsFor, early member]
      have same : ∀ x, x ∈ emitted ++ needs (list.inOrder order) map run emitted hybrid ↔
          x ∈ emitted ++ needs list map ids emitted hybrid := by
        intro x
        rw [List.mem_append, List.mem_append, needed.mem_iff]
      rw [pulls']
      rw [pulls] at filled ⊢
      rw [pull_again valid' perm permRun within same
        (by rw [whole, List.filter_append, past, List.nil_append, List.filter_append]) filled]
      exact filled

theorem Underway.emitHybrid_again (valid : Valid list) (holds : map.Holds list) (valid' : Valid (list.inOrder order))
    (perm : list.order.Perm order) (permRun : ids.Perm run) (within : run.Sublist order)
    (underway : Underway list ids emitted (hybrid :: hybrids))
    (drained : Drained list classicalFirst (pool list map ids emitted hybrid) emitted segment)
    (absent : hybrid ∉ emitted ++ segment) (whole : run = done ++ (segment ++ hybrid :: rest)) (early : done ⊆ emitted)
    (split : order = emitted ++ (segment ++ hybrid :: rest ++ later)) :
    emitHybrid (list.inOrder order) map run emitted hybrid = emitted ++ (segment ++ [hybrid]) := by
  have pulled := underway.pulled_again valid holds valid' perm permRun within drained whole early
  have needed : (needs list map ids emitted hybrid).Perm (needs (list.inOrder order) map run emitted hybrid) :=
    permRun.filter _
  have same : ∀ x, x ∈ pool (list.inOrder order) map run emitted hybrid ↔ x ∈ pool list map ids emitted hybrid := by
    intro x
    simp only [pool, List.mem_filter, Bool.or_eq_true, List.contains_iff_mem, needed.mem_iff, pulled.mem_iff,
      permRun.mem_iff]
  have inside : (pool (list.inOrder order) map run emitted hybrid).Sublist order := List.filter_sublist.trans within
  have again := drained.drain_inOrder (underway.drainable_pool valid holds) valid' inside same
    ⟨emitted, hybrid :: rest ++ later, by rw [split]; simp⟩
  rw [emitHybrid_eq_emit, again, emit, if_neg (by simpa using absent), List.append_assoc]

/-! ## Whole runs -/

def emitRest (list : InstructionList) (map : HybridMap) (ids hybrids emitted : List Nat) : List Nat :=
  let after := hybrids.foldl (emitHybrid list map ids) emitted
  drain list classicalFirst (pending ids after) after

theorem Underway.again (valid : Valid list) (holds : map.Holds list) (underway : Underway list ids emitted hybrids) :
    ∃ new, emitRest list map ids hybrids emitted = emitted ++ new ∧ new.filter (isHybrid list) = hybrids ∧
      ∀ {order run done later : List Nat}, Valid (list.inOrder order) → list.order.Perm order → ids.Perm run →
        run.Sublist order → run = done ++ new → done ⊆ emitted → order = emitted ++ (new ++ later) →
          emitRest (list.inOrder order) map run hybrids emitted = emitted ++ new := by
  induction hybrids generalizing emitted with
  | nil =>
      obtain ⟨new, made, drained⟩ := drained_drain valid underway.drainable_pending classicalFirst
      refine ⟨new, made, ?_, ?_⟩
      · rw [List.filter_eq_nil_iff]
        intro id member
        simp [underway.plain_pending (drained.mem_iff.mp member).1]
      · intro order run done later valid' _ permRun within _ _ split
        refine drained.drain_inOrder underway.drainable_pending valid' (List.filter_sublist.trans within) (fun x => ?_)
          ⟨emitted, later, by rw [split, List.append_assoc]⟩
        change x ∈ pending run emitted ↔ x ∈ pending ids emitted
        rw [mem_pending, mem_pending, permRun.mem_iff]
  | cons hybrid hybrids ih =>
      obtain ⟨segment, made, drained, plain, absent, meets⟩ := underway.drained_emitHybrid valid holds
      have next := underway.next valid holds
      rw [made] at next
      obtain ⟨rest, madeRest, filterRest, again⟩ := ih next
      have placed : ∀ more, emitted ++ (segment ++ [hybrid]) ++ more = emitted ++ (segment ++ hybrid :: more) := by simp
      refine ⟨segment ++ hybrid :: rest, ?_, ?_, ?_⟩
      · rw [← placed, ← madeRest, ← made]
        rfl
      · rw [List.filter_append, List.filter_eq_nil_iff.mpr (fun id member => by simp [plain id member]),
          List.nil_append, List.filter_cons_of_pos meets, filterRest]
      · intro order run done later valid' perm permRun within whole early split
        have turn := underway.emitHybrid_again valid holds valid' perm permRun within drained absent whole early split
        have whole' : run = done ++ (segment ++ [hybrid]) ++ rest := by rw [whole]; simp
        have split' : order = emitted ++ (segment ++ [hybrid]) ++ (rest ++ later) := by rw [split]; simp
        have further := again valid' perm permRun within whole' (List.append_subset.mpr
          ⟨List.Subset.trans early (List.subset_append_left _ _), List.subset_append_right _ _⟩) split'
        rw [← placed, ← further, ← turn]
        rfl

theorem emitBalanced_again (valid : Valid list) (holds : map.Holds list) (valid' : Valid (list.inOrder order))
    (perm : list.order.Perm order) (follows : Follows list (.run ids) emitted) (plain : ∀ id ∈ ids, steers list id = false)
    (permRun : ids.Perm new) (made : emitBalanced list map emitted (.run ids) = emitted ++ new)
    (split : order = emitted ++ (new ++ later)) :
    emitBalanced (list.inOrder order) map emitted (.run new) = emitted ++ new := by
  have waits : ∀ id ∈ ids, id ∉ emitted := by
    intro id member old
    have distinct : order.Nodup := valid'.emission.distinct
    rw [split] at distinct
    exact (List.nodup_append.mp distinct).2.2 id old id (List.mem_append_left _ (permRun.mem_iff.mp member)) rfl
  obtain ⟨new', made', hybrids, again⟩ := (follows.underway plain waits).again valid holds
  obtain rfl : new' = new := List.append_cancel_left (made'.symm.trans made)
  have within : new'.Sublist order := by
    rw [split]
    exact (List.sublist_append_left _ _).trans (List.sublist_append_right _ _)
  have emitted' := again valid' perm permRun within rfl (List.nil_subset _) split
  rw [← hybrids] at emitted'
  exact emitted'

/-- Balancing the lanes a second time changes nothing. -/
theorem balanced_again (valid : Valid list) (holds : map.Holds list) :
    let order := (pieces list).foldl (emitBalanced list map) []
    (pieces (list.inOrder order)).foldl (emitBalanced (list.inOrder order) map) [] = order := by
  have each := fun piece (_ : piece ∈ pieces list) emitted (follows : Follows list piece emitted) =>
    emits_balanced valid holds follows
  have arranges := arranges_foldl valid each
  exact foldl_pieces_inOrder valid each (fun _ _ => rfl) (fun follows plain perm made split =>
    emitBalanced_again valid holds (valid.inOrder arranges.emission arranges.perm) arranges.perm follows plain perm made
      split)

end TwoLane.Schedule

namespace TwoLane

open InstructionList (LinesDiffer)

variable {state : Workspace} {list : InstructionList} {order : List Nat}
  {schedule : InstructionList → Except OptimizeError (List Nat)}

/-- Whether a scheduler succeeds, the order that it gives is accepted, if it gives one, and the scheduler gives none for
    the list that results. -/
def Settles (schedule : InstructionList → Except OptimizeError (List Nat)) (list : InstructionList) : Prop :=
  ∃ order after, schedule list = .ok order ∧ (if order = [] then .ok list else list.reorder order) = .ok after ∧
    schedule after = .ok []

theorem settles_of_again (perm : list.order.Perm order) (given : schedule list = .ok (Schedule.orNothing list order))
    (again : schedule (list.inOrder order) = .ok (Schedule.orNothing (list.inOrder order) order)) :
    Settles schedule list := by
  have nothing : Schedule.orNothing (list.inOrder order) order = [] := if_pos rfl
  rw [nothing] at again
  by_cases same : order = list.order
  · subst same
    have nothing' : Schedule.orNothing list list.order = [] := if_pos rfl
    rw [nothing'] at given
    exact ⟨[], list, given, if_pos rfl, given⟩
  · have filled : order ≠ [] := by
      rintro rfl
      exact same (List.perm_nil.mp perm).symm
    rw [Schedule.orNothing, if_neg same] at given
    refine ⟨order, list.inOrder order, given, ?_, again⟩
    rw [if_neg filled]
    exact Execution.reorder_eq_ok perm

theorem InstructionList.LinesDiffer.inOrder (lines : LinesDiffer list) (perm : list.order.Perm order) :
    LinesDiffer (list.inOrder order) :=
  fun iRuns jRuns => lines (perm.mem_iff.mpr iRuns) (perm.mem_iff.mpr jRuns)

theorem HybridMap.ofList_inOrder (valid : Schedule.Valid list) (lines : LinesDiffer list) (perm : list.order.Perm order) :
    HybridMap.ofList (list.inOrder order) = HybridMap.ofList list :=
  have same : SameStanding list (list.inOrder order) := ⟨fun _ => perm.mem_iff.symm, rfl⟩
  same.ofList_eq valid (perm.nodup valid.emission.distinct) lines

/-- In a list that edits and steps have made, and whose instructions run behind their predecessors, no scheduler changes
    anything right after it has given an order: neither do the one-sided ones, nor does the balanced one, with the hybrid
    map that was found for the list or with the one found again. -/
theorem schedules_settle (handled : Handled state) (member : list ∈ state.lists)
    (keeps : list.KeepsChains list.order) :
    Settles (fun list => .ok (Schedule.earlyQuantum list)) list ∧
    Settles (fun list => .ok (Schedule.lateQuantum list)) list ∧
    Settles (fun list => Schedule.balanced list (HybridMap.ofList list)) list ∧
    Settles (fun other => Schedule.balanced other (HybridMap.ofList list)) list := by
  have sturdy := handled.sturdy list member
  have valid := sturdy.valid keeps
  have lines : LinesDiffer list := sturdy.linesDiffer
  have holds := HybridMap.holds_ofList valid lines
  have given := Schedule.balanced_eq_ok lines holds
  have settled := Schedule.balanced_again valid holds
  have arranges : Schedule.Arranges list ((Schedule.pieces list).foldl
      (Schedule.emitBalanced list (HybridMap.ofList list)) []) :=
    Schedule.arranges_foldl valid (fun _ _ _ follows => Schedule.emits_balanced valid holds follows)
  generalize (Schedule.pieces list).foldl (Schedule.emitBalanced list (HybridMap.ofList list)) [] = order
    at given settled arranges
  have perm := arranges.perm
  have valid' := valid.inOrder arranges.emission perm
  have map := HybridMap.ofList_inOrder valid lines perm
  have holds' := HybridMap.holds_ofList valid' (lines.inOrder perm)
  rw [map] at holds'
  have again := Schedule.balanced_eq_ok (lines.inOrder perm) holds'
  rw [settled] at again
  refine ⟨?_, ?_, settles_of_again perm given (map.symm ▸ again), settles_of_again perm given again⟩
  · have perm := (Schedule.arranges_foldl valid (fun _ _ _ follows => Schedule.emits_early valid follows)).perm
    refine settles_of_again perm rfl ?_
    rw [Schedule.earlyQuantum, Schedule.earlyQuantum_again valid]
  · have perm := (Schedule.arranges_foldl valid (fun _ _ _ follows => Schedule.emits_late valid follows)).perm
    refine settles_of_again perm rfl ?_
    rw [Schedule.lateQuantum, Schedule.lateQuantum_again valid]

theorem measuring_schedules_settle :
    ∃ list ∈ measuringEdited.lists,
      Settles (fun list => .ok (Schedule.earlyQuantum list)) list ∧
      Settles (fun list => .ok (Schedule.lateQuantum list)) list ∧
      Settles (fun list => Schedule.balanced list (HybridMap.ofList list)) list ∧
      Settles (fun other => Schedule.balanced other (HybridMap.ofList list)) list := by
  have inside : 0 < measuringEdited.lists.length := by decide +kernel
  have member := List.getElem_mem inside
  exact ⟨_, member, schedules_settle handled_measuring member (keepsChains_measuring _ member)⟩

end TwoLane
