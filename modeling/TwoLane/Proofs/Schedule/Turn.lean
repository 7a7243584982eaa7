import TwoLane.Proofs.Schedule.Cost
import TwoLane.Proofs.Schedule.Filling

/-! # The turn of a hybrid instruction

When it is its turn, a hybrid instruction is emitted behind what it needs and what is pulled besides, and the rest of
what stood in front of it stays behind. So work changes sides of it, and the two segments around it may take longer than
before, while those further behind only lose work. That has three causes. The lanes may be apart already in front of the
hybrid instruction, which is not looked at. The lane that is filled may get one unit ahead of the other one. And work for
that lane may stay behind because it waits for the other one.
-/

namespace TwoLane.Schedule

variable {list : InstructionList} {map : HybridMap} {emitted after ids : List Nat} {id hybrid : Nat} {quantum : Bool}

/-! ## Charges -/

/-- What a hybrid instruction of a run needs of it. -/
def needs (list : InstructionList) (map : HybridMap) (ids emitted : List Nat) (hybrid : Nat) : List Nat :=
  required list (((list.get? hybrid).bind (fun node => Table.get? node.line map)).getD []) ids emitted hybrid

/-- What is pulled in front of a hybrid instruction of a run besides. -/
def pulled (list : InstructionList) (map : HybridMap) (ids emitted : List Nat) (hybrid : Nat) : List Nat :=
  extra list ids emitted (needs list map ids emitted hybrid)

/-- What is emitted in front of a hybrid instruction of a run when it is its turn. -/
def pool (list : InstructionList) (map : HybridMap) (ids emitted : List Nat) (hybrid : Nat) : List Nat :=
  ids.filter (fun id =>
    (needs list map ids emitted hybrid).contains id || (pulled list map ids emitted hybrid).contains id)

theorem emitHybrid_eq_emit (list : InstructionList) (map : HybridMap) (ids emitted : List Nat) (hybrid : Nat) :
    emitHybrid list map ids emitted hybrid =
      emit (drain list classicalFirst (pool list map ids emitted hybrid) emitted) hybrid :=
  rfl

/-- The instructions that are not emitted. -/
def pending (ids emitted : List Nat) : List Nat :=
  ids.filter (fun id => !emitted.contains id)

theorem mem_pending : id ∈ pending ids emitted ↔ id ∈ ids ∧ id ∉ emitted := by
  simp [pending]

/-- The instructions of a run in front of a hybrid one. -/
def inFront (ids : List Nat) (hybrid : Nat) : List Nat :=
  ids.takeWhile (fun id => id != hybrid)

/-- Work in front of a hybrid instruction that is neither emitted nor needed. -/
def spare (emitted needs front : List Nat) : List Nat :=
  front.filter (fun id => !(emitted ++ needs).contains id)

theorem mem_spare {needs : List Nat} : id ∈ spare emitted needs front ↔ id ∈ front ∧ id ∉ emitted ∧ id ∉ needs := by
  simp [spare]

/-- What stays behind of what stood in front of a hybrid instruction. -/
def left (list : InstructionList) (map : HybridMap) (ids emitted : List Nat) (hybrid : Nat) (front : List Nat) :
    List Nat :=
  (spare emitted (needs list map ids emitted hybrid) front).filter
    (fun id => !(pulled list map ids emitted hybrid).contains id)

/-- The work in front of a hybrid instruction of a run that could fill the lighter lane. -/
def fillers (list : InstructionList) (map : HybridMap) (ids emitted : List Nat) (hybrid : Nat) : List Nat :=
  let needs := needs list map ids emitted hybrid
  (inFront ids hybrid).filter (waitsFor list (lighter list needs) (emitted ++ needs))

/-! ### Segments -/

/-- The time that instructions take side by side, behind what is emitted since the last hybrid one. -/
def spanBehind (list : InstructionList) (emitted ids : List Nat) : Nat :=
  let lanes := lanesBehind 0 0 (emitted.map (categoryOf list))
  max (lanes.1 + load list true ids) (lanes.2 + load list false ids)

/-- The instructions behind a hybrid one, up to the next hybrid one, that are not emitted. -/
def segmentBehind (list : InstructionList) (emitted : List Nat) (hybrid : Nat) : List Nat :=
  pending ((list.order.dropWhile (fun id => id != hybrid)).tail.takeWhile (fun id => !isHybrid list id)) emitted

/-- The time of the two segments around a hybrid instruction before its turn. -/
def timeAround (list : InstructionList) (ids emitted : List Nat) (hybrid : Nat) : Nat :=
  spanBehind list emitted (pending (inFront ids hybrid) emitted) + span list (segmentBehind list emitted hybrid)

/-- The time of the two segments around a hybrid instruction once it has had its turn. -/
def timeSplit (list : InstructionList) (map : HybridMap) (ids emitted : List Nat) (hybrid : Nat) : Nat :=
  let pool := pool list map ids emitted hybrid
  spanBehind list emitted pool +
    span list (left list map ids emitted hybrid (inFront ids hybrid) ++ pending (segmentBehind list emitted hybrid) pool)

/-- By how much the segments around a hybrid instruction get longer at its turn. -/
def stretch (list : InstructionList) (map : HybridMap) (ids emitted : List Nat) (hybrid : Nat) : Nat :=
  timeSplit list map ids emitted hybrid - timeAround list ids emitted hybrid

/-- By how much the segments around a hybrid instruction get shorter at its turn. -/
def relief (list : InstructionList) (map : HybridMap) (ids emitted : List Nat) (hybrid : Nat) : Nat :=
  timeAround list ids emitted hybrid - timeSplit list map ids emitted hybrid

/-! ### Causes -/

/-- How many instructions change sides of a hybrid one at its turn: they are pulled from behind it, or stay behind. -/
def crossing (list : InstructionList) (map : HybridMap) (ids emitted : List Nat) (hybrid : Nat) : Nat :=
  (pool list map ids emitted hybrid).countP (fun id => !(inFront ids hybrid).contains id) +
    (left list map ids emitted hybrid (inFront ids hybrid)).length

/-- How far the lanes are apart behind what is emitted. -/
def gap (list : InstructionList) (emitted : List Nat) : Nat :=
  let lanes := lanesBehind 0 0 (emitted.map (categoryOf list))
  max lanes.1 lanes.2 - min lanes.1 lanes.2

/-- How far the lanes are apart in front of a hybrid instruction, as far as instructions change sides. -/
def imbalance (list : InstructionList) (map : HybridMap) (ids emitted : List Nat) (hybrid : Nat) : Nat :=
  min (gap list emitted) (crossing list map ids emitted hybrid)

/-- One unit, if the lane that is filled in front of a hybrid instruction gets ahead of the other one. -/
def excess (list : InstructionList) (map : HybridMap) (ids emitted : List Nat) (hybrid : Nat) : Nat :=
  let needs := needs list map ids emitted hybrid
  if span list needs < load list (lighter list needs) needs + (pulled list map ids emitted hybrid).length then 1 else 0

/-- By how much a lane gets ahead, as far as instructions change sides. -/
def overfill (list : InstructionList) (map : HybridMap) (ids emitted : List Nat) (hybrid : Nat) : Nat :=
  min (excess list map ids emitted hybrid) (crossing list map ids emitted hybrid)

theorem excess_le_one (list : InstructionList) (map : HybridMap) (ids emitted : List Nat) (hybrid : Nat) :
    excess list map ids emitted hybrid ≤ 1 := by
  rw [excess]
  split <;> omega

/-- The work in front of a hybrid instruction that stays behind while the lane it could fill is not level. -/
def stalled (list : InstructionList) (map : HybridMap) (ids emitted : List Nat) (hybrid : Nat) : Nat :=
  let needs := needs list map ids emitted hybrid
  let fillers := fillers list map ids emitted hybrid
  let pulled := pulled list map ids emitted hybrid
  min (fillers.countP (fun id => !pulled.contains id))
    (span list needs - (load list (lighter list needs) needs + fillers.countP (fun id => pulled.contains id)))

/-! ## One hybrid instruction -/

theorem onQuantumLane_plain (plain : isHybrid list id = false) :
    (categoryOf list id).onQuantumLane = isQuantum list id := by
  unfold isHybrid at plain
  rw [Category.onQuantumLane, plain, Bool.or_false]
  rfl

theorem wallTimeFrom_plain {ids : List Nat} (plain : ∀ id ∈ ids, isHybrid list id = false) (q c : Nat)
    (rest : List Category) : wallTimeFrom q c (ids.map (categoryOf list) ++ rest) =
      wallTimeFrom (q + load list true ids) (c + load list false ids) rest := by
  induction ids generalizing q c with
  | nil => rfl
  | cons id ids ih =>
      have own := plain id List.mem_cons_self
      have lane := onQuantumLane_plain own
      unfold isHybrid at own
      rw [List.map_cons, List.cons_append, wallTimeFrom, own, lane, if_neg Bool.false_ne_true]
      have later := ih (fun a member => plain a (List.mem_cons_of_mem id member))
      cases lane' : isQuantum list id <;> simp [later, load, lane', Nat.add_assoc, Nat.add_comm 1]

theorem load_append (list : InstructionList) (quantum : Bool) (a b : List Nat) :
    load list quantum (a ++ b) = load list quantum a + load list quantum b :=
  List.countP_append

def time (list : InstructionList) (order : List Nat) (rest : List Category) : Nat :=
  wallTimeFrom 0 0 (order.map (categoryOf list) ++ rest)

theorem time_append (list : InstructionList) (front back : List Nat) (rest : List Category) :
    time list (front ++ back) rest = time list front (back.map (categoryOf list) ++ rest) := by
  rw [time, time, List.map_append, List.append_assoc]

theorem spanBehind_perm {a b : List Nat} (perm : a.Perm b) (list : InstructionList) (emitted : List Nat) :
    spanBehind list emitted a = spanBehind list emitted b := by
  simp only [spanBehind, load, perm.countP_eq]

/-- Whether the hybrid instructions of a run are emitted up to some of them. -/
structure Underway (list : InstructionList) (ids emitted hybrids : List Nat) : Prop where
  within : ids.Sublist list.order
  plain : ∀ id ∈ ids, steers list id = false
  distinct : emitted.Nodup
  split : ∃ front, ids.filter (isHybrid list) = front ++ hybrids ∧ front ⊆ emitted
  waits : ∀ id ∈ hybrids, id ∉ emitted
  closed : ∀ id ∈ ids, ∀ other ∈ list.predecessors id, other ∈ emitted ∨ other ∈ ids

/-- The parts of a run around the hybrid instruction whose turn it is. What it needs stands in front of it, and the hybrid
    instructions behind it are still to come. -/
structure Turn (list : InstructionList) (map : HybridMap) (ids emitted : List Nat) (hybrid : Nat)
    (front back : List Nat) : Prop where
  split : ids = front ++ hybrid :: back
  once : ids.Nodup
  distinct : emitted.Nodup
  meets : isHybrid list hybrid = true
  waits : hybrid ∉ emitted
  plain : ∀ id ∈ front, id ∉ emitted → (categoryOf list id).isHybrid = false ∧ (categoryOf list id).isControl = false
  needed : ∀ id ∈ needs list map ids emitted hybrid, id ∈ front ∧ id ∉ emitted
  further : ∀ id ∈ back, isHybrid list id = true → id ∉ emitted

variable {hybrids front back : List Nat}

theorem isControl_categoryOf (valid : Valid list) (running : id ∈ list.order) :
    (categoryOf list id).isControl = steers list id := by
  have inside := valid.inside id running
  rw [categoryOf, steers, InstructionList.get?, List.getElem?_eq_getElem inside]
  rfl

theorem Underway.turn (valid : Valid list) (holds : map.Holds list)
    (underway : Underway list ids emitted (hybrid :: hybrids)) :
    ∃ front back, Turn list map ids emitted hybrid front back := by
  obtain ⟨before, whole, early⟩ := underway.split
  have within := underway.within
  have once : ids.Nodup := valid.emission.distinct.sublist within
  have member : hybrid ∈ ids.filter (isHybrid list) := by
    rw [whole]
    exact List.mem_append_right _ List.mem_cons_self
  obtain ⟨own, meets⟩ := List.mem_filter.mp member
  obtain ⟨front, back, split⟩ := List.append_of_mem own
  -- the hybrid instructions of the front are those whose turn has been
  have absent : hybrid ∉ front ++ back := (List.nodup_cons.mp (List.nodup_middle.mp (split ▸ once))).1
  have parts := whole
  rw [split, List.filter_append, List.filter_cons_of_pos meets] at parts
  obtain ⟨same, _, rest⟩ := (List.append_cons_inj_of_notMem
    (fun there => absent (List.mem_append_left back (List.mem_filter.mp there).1))
    (fun there => absent (List.mem_append_right front (List.mem_filter.mp there).1))).mp parts
  refine ⟨front, back, split, once, underway.distinct, meets, underway.waits hybrid List.mem_cons_self, ?_, ?_,
    fun id there meets' => underway.waits id (List.mem_cons_of_mem _ (rest ▸ List.mem_filter.mpr ⟨there, meets'⟩))⟩
  · intro id there waits
    have inside : id ∈ ids := by
      rw [split]
      exact List.mem_append_left _ there
    refine ⟨?_, ?_⟩
    · by_contra isHybrid'
      refine waits (early (same ▸ List.mem_filter.mpr ⟨there, ?_⟩))
      simpa [isHybrid] using isHybrid'
    · rw [isControl_categoryOf valid (within.subset inside)]
      exact underway.plain id inside
  · intro id needed
    obtain ⟨inside, waits, _, depends⟩ := (mem_required holds (within.subset own) within.subset emitted id).mp needed
    have behind : (hybrid :: back).Sublist list.order := by
      refine List.Sublist.trans ?_ within
      rw [split]
      exact List.sublist_append_right _ _
    rw [split] at inside
    exact ⟨(List.mem_append.mp inside).resolve_right (dependency_not_behind valid behind depends), waits⟩

theorem mem_pulled (member : id ∈ pulled list map ids emitted hybrid) : id ∈ ids ∧ id ∉ emitted ∧
    id ∉ needs list map ids emitted hybrid ∧ isHybrid list id = false ∧
      isQuantum list id = lighter list (needs list map ids emitted hybrid) := by
  obtain ⟨own, waits, lane⟩ := mem_extra member
  simp only [List.mem_append, not_or] at waits
  simp only [fillsLane, Bool.and_eq_true, Bool.not_eq_true', beq_iff_eq] at lane
  exact ⟨own, waits.1, waits.2, lane.1.1, lane.2⟩

theorem load_pulled (list : InstructionList) (map : HybridMap) (ids emitted : List Nat) (hybrid : Nat) :
    load list (lighter list (needs list map ids emitted hybrid)) (pulled list map ids emitted hybrid) =
      (pulled list map ids emitted hybrid).length := by
  rw [load, List.countP_eq_length]
  intro id member
  rw [(mem_pulled member).2.2.2.2, beq_self_eq_true]

theorem load_pulled_other (list : InstructionList) (map : HybridMap) (ids emitted : List Nat) (hybrid : Nat) :
    load list (!lighter list (needs list map ids emitted hybrid)) (pulled list map ids emitted hybrid) = 0 := by
  rw [load, List.countP_eq_zero]
  intro id member
  rw [(mem_pulled member).2.2.2.2]
  simp

theorem load_left_other (list : InstructionList) (map : HybridMap) (ids emitted : List Nat) (hybrid : Nat)
    (front : List Nat) :
    load list (!lighter list (needs list map ids emitted hybrid)) (left list map ids emitted hybrid front) =
      load list (!lighter list (needs list map ids emitted hybrid))
        (spare emitted (needs list map ids emitted hybrid) front) := by
  rw [left, load, load, List.countP_filter]
  refine List.countP_congr (fun id _ => ?_)
  rw [Bool.and_eq_true, and_iff_left_iff_imp]
  intro other
  simp only [Bool.not_eq_true', ← Bool.not_eq_true, List.contains_iff_mem]
  intro member
  rw [(mem_pulled member).2.2.2.2] at other
  simp at other

/-- The arithmetic of one hybrid instruction: the heavier and the lighter lane of what it needs, how much is pulled, and
    how much of the other work in front of it is on the heavier lane, is pulled, and stays behind. -/
theorem level {heavy light pulls other filled stays : Nat} (most : light + pulls ≤ heavy + 1) :
    max heavy (light + pulls) + max other stays ≤ max (heavy + other) (light + (filled + stays)) +
      ((if heavy < light + pulls then 1 else 0) + min stays (heavy - (light + filled))) := by
  split <;> omega

/-- Work behind lanes that are apart takes no longer than both one after the other. -/
theorem max_add_le (q c a b : Nat) : max (q + a) (c + b) ≤ max q c + max a b := by
  omega

/-- Behind lanes that are apart work starts when the lane that is ahead has nothing to do. -/
theorem min_add_le (q c a b : Nat) : min q c + max a b ≤ max (q + a) (c + b) := by
  omega

/-- What stands behind an instruction loses what has gone in the meantime. -/
theorem pending_of_gone (behind emitted gone : List Nat) :
    pending behind (emitted ++ gone) = pending (pending behind emitted) gone := by
  rw [pending, pending, pending, List.filter_filter]
  refine List.filter_congr (fun id _ => ?_)
  by_cases old : id ∈ emitted <;> simp [old]

theorem pending_append (a b emitted : List Nat) : pending (a ++ b) emitted = pending a emitted ++ pending b emitted :=
  List.filter_append _ _

/-- The rest of a segment runs side by side, up to the next hybrid instruction. -/
theorem wallTimeFrom_pending {behind : List Nat} (fresh : ∀ id ∈ behind, isHybrid list id = true → id ∉ emitted)
    (q c : Nat) : wallTimeFrom q c ((pending behind emitted).map (categoryOf list)) =
      max (q + load list true (pending (behind.takeWhile (fun id => !isHybrid list id)) emitted))
        (c + load list false (pending (behind.takeWhile (fun id => !isHybrid list id)) emitted)) +
        wallTimeFrom 0 0 ((pending (behind.dropWhile (fun id => !isHybrid list id)) emitted).map (categoryOf list)) := by
  have plain : ∀ id ∈ pending (behind.takeWhile (fun id => !isHybrid list id)) emitted, isHybrid list id = false := by
    intro id member
    simpa using List.mem_takeWhile_imp (mem_pending.mp member).1
  have meets : ∀ category ∈ ((pending (behind.dropWhile (fun id => !isHybrid list id)) emitted).map
      (categoryOf list)).head?, category.isHybrid = true := by
    have inside := (List.dropWhile_sublist (fun id => !isHybrid list id) (l := behind)).subset
    have first := List.head?_dropWhile_not (fun id => !isHybrid list id) behind
    generalize behind.dropWhile (fun id => !isHybrid list id) = rest at inside first
    cases rest with
    | nil => simp [pending]
    | cons next rest =>
        have hybrid : isHybrid list next = true := by simpa using first
        have waits := fresh next (inside List.mem_cons_self) hybrid
        intro category head
        rw [pending, List.filter_cons_of_pos (by simpa using waits)] at head
        cases head
        exact hybrid
  rw [← wallTimeFrom_of_meeting meets, ← wallTimeFrom_plain plain, ← List.map_append, ← pending_append,
    List.takeWhile_append_dropWhile]

namespace Turn

variable (turn : Turn list map ids emitted hybrid front back)

include turn

theorem nodup_around : (hybrid :: (front ++ back)).Nodup :=
  List.nodup_middle.mp (turn.split ▸ turn.once)

theorem absent : hybrid ∉ front ++ back :=
  (List.nodup_cons.mp turn.nodup_around).1

theorem front_subset : front ⊆ ids := by
  rw [turn.split]
  exact List.subset_append_left _ _

theorem inFront_eq : inFront ids hybrid = front := by
  rw [inFront, turn.split, List.takeWhile_append_of_pos (fun id member => by
    simpa using fun same : id = hybrid => turn.absent (same ▸ List.mem_append_left back member)),
    List.takeWhile_cons_of_neg (by simp),
    List.append_nil]

theorem mem_pool : id ∈ pool list map ids emitted hybrid ↔
    id ∈ needs list map ids emitted hybrid ∨ id ∈ pulled list map ids emitted hybrid := by
  rw [pool, List.mem_filter, Bool.or_eq_true, List.contains_iff_mem, List.contains_iff_mem, and_iff_right_iff_imp]
  rintro (needed | pulled)
  · exact turn.front_subset (turn.needed id needed).1
  · exact (mem_pulled pulled).1

theorem plain_pool (pooled : id ∈ pool list map ids emitted hybrid) : id ∉ emitted ∧ isHybrid list id = false := by
  rcases turn.mem_pool.mp pooled with needed | pulled
  · obtain ⟨there, waits⟩ := turn.needed id needed
    exact ⟨waits, (turn.plain id there waits).1⟩
  · obtain ⟨_, waits, _, plain, _⟩ := mem_pulled pulled
    exact ⟨waits, plain⟩

theorem nodup_pool : (pool list map ids emitted hybrid).Nodup :=
  turn.once.filter _

theorem perm_pool : (needs list map ids emitted hybrid ++ pulled list map ids emitted hybrid).Perm
    (pool list map ids emitted hybrid) := by
  refine (List.perm_ext_iff_of_nodup ?_ turn.nodup_pool).mpr (fun id => ?_)
  · exact List.nodup_append.mpr ⟨turn.once.filter _, nodup_extra _ _ _ _,
      fun id needed other pulled same => (mem_pulled (same ▸ pulled)).2.2.1 needed⟩
  · rw [List.mem_append, turn.mem_pool]

theorem emitHybrid_eq : ∃ new, emitHybrid list map ids emitted hybrid = emitted ++ (new ++ [hybrid]) ∧
    (pool list map ids emitted hybrid).Perm new := by
  obtain ⟨new, drained, perm⟩ := drain_perm list turn.distinct turn.nodup_pool
    (fun id pooled => (turn.plain_pool pooled).1) classicalFirst
  refine ⟨new, ?_, perm⟩
  have absent : hybrid ∉ emitted ++ new := by
    rw [List.mem_append]
    rintro (old | there)
    · exact turn.waits old
    · have plain := (turn.plain_pool (perm.mem_iff.mpr there)).2
      rw [turn.meets] at plain
      cases plain
  rw [emitHybrid_eq_emit, drained, emit, if_neg (by simpa using absent), List.append_assoc]

/-! ### Loads -/

theorem load_pool (quantum : Bool) : load list quantum (pool list map ids emitted hybrid) =
    load list quantum (needs list map ids emitted hybrid) + load list quantum (pulled list map ids emitted hybrid) := by
  rw [← load_append, load, load, turn.perm_pool.countP_eq]

theorem load_front (quantum : Bool) : load list quantum (pending front emitted) =
    load list quantum (needs list map ids emitted hybrid) +
      load list quantum (spare emitted (needs list map ids emitted hybrid) front) := by
  have once : front.Nodup := (List.nodup_cons.mp turn.nodup_around).2.sublist (List.sublist_append_left front back)
  have waiting : (pending front emitted).Nodup := once.filter _
  rw [← load_append, load, load]
  refine List.Perm.countP_eq _ ((List.perm_ext_iff_of_nodup waiting ?_).mpr (fun id => ?_))
  · exact List.nodup_append.mpr ⟨turn.once.filter _, once.filter _,
      fun id needed other spared same => (mem_spare.mp (same ▸ spared)).2.2 needed⟩
  · rw [List.mem_append, mem_spare, mem_pending]
    by_cases needed : id ∈ needs list map ids emitted hybrid
    · simp [needed, turn.needed id needed]
    · simp [needed]

theorem fillers_eq : fillers list map ids emitted hybrid =
    (spare emitted (needs list map ids emitted hybrid) front).filter
      (fun id => isQuantum list id == lighter list (needs list map ids emitted hybrid)) := by
  rw [fillers, turn.inFront_eq, spare, List.filter_filter]
  refine List.filter_congr (fun id there => ?_)
  rw [waitsFor, Bool.and_comm]
  by_cases old : id ∈ emitted
  · simp [old]
  · obtain ⟨notHybrid, notControl⟩ := turn.plain id there old
    rw [fillsLane, notHybrid, notControl]
    rfl

theorem load_spare : load list (lighter list (needs list map ids emitted hybrid))
    (spare emitted (needs list map ids emitted hybrid) front) =
      (fillers list map ids emitted hybrid).countP (fun id => (pulled list map ids emitted hybrid).contains id) +
        (fillers list map ids emitted hybrid).countP (fun id => !(pulled list map ids emitted hybrid).contains id) := by
  rw [load, List.countP_eq_length_filter, ← turn.fillers_eq,
    List.length_eq_countP_add_countP (fun id => (pulled list map ids emitted hybrid).contains id)]
  congr 2
  funext id
  simp

theorem load_left : load list (lighter list (needs list map ids emitted hybrid))
    (left list map ids emitted hybrid front) =
      (fillers list map ids emitted hybrid).countP (fun id => !(pulled list map ids emitted hybrid).contains id) := by
  rw [turn.fillers_eq, load, left, List.countP_filter, List.countP_filter]
  simp only [Bool.and_comm]

/-- What is emitted and what stays behind take no longer one after the other than side by side, but for a lane that gets
    ahead and work that stays behind. -/
theorem span_le : span list (pool list map ids emitted hybrid) + span list (left list map ids emitted hybrid front) ≤
    span list (pending front emitted) + (excess list map ids emitted hybrid + stalled list map ids emitted hybrid) := by
  have most : _ + (pulled list map ids emitted hybrid).length ≤ _ :=
    length_extra_le list ids emitted (needs list map ids emitted hybrid)
  unfold excess stalled
  dsimp only
  rw [span_needs list (needs list map ids emitted hybrid)] at most ⊢
  rw [span_eq _ (pool _ _ _ _ _) (lighter list (needs list map ids emitted hybrid)),
    span_eq _ (left _ _ _ _ _ _) (lighter list (needs list map ids emitted hybrid)),
    span_eq _ (pending _ _) (lighter list (needs list map ids emitted hybrid)),
    turn.load_pool, turn.load_pool, turn.load_front, turn.load_front, load_pulled, load_pulled_other,
    load_left_other, turn.load_left, turn.load_spare, Nat.add_zero]
  exact level most

theorem load_pool_le (quantum : Bool) : load list quantum (pool list map ids emitted hybrid) ≤
    load list quantum (pending front emitted) +
      (pool list map ids emitted hybrid).countP (fun id => !front.contains id) := by
  have inside : ((pool list map ids emitted hybrid).filter (fun id => front.contains id)).Subperm
      (pending front emitted) := by
    refine (turn.nodup_pool.filter _).subperm (fun id member => ?_)
    obtain ⟨pooled, there⟩ := List.mem_filter.mp member
    exact mem_pending.mpr ⟨List.contains_iff_mem.mp there, (turn.plain_pool pooled).1⟩
  have own := inside.countP_le (fun id => isQuantum list id == quantum)
  rw [load, load, List.countP_eq_countP_filter_add _ _ (fun id => front.contains id)]
  refine Nat.add_le_add own (Nat.le_trans List.countP_le_length ?_)
  rw [← List.countP_eq_length_filter]

/-- Work that stays behind takes no longer on its own than in a segment of its own. -/
theorem timeSplit_le : timeSplit list map ids emitted hybrid + spanBehind list emitted (pending front emitted) ≤
    spanBehind list emitted (pool list map ids emitted hybrid) + span list (left list map ids emitted hybrid front) +
      timeAround list ids emitted hybrid := by
  have fewer : ∀ quantum, load list quantum (pending (segmentBehind list emitted hybrid)
      (pool list map ids emitted hybrid)) ≤ load list quantum (segmentBehind list emitted hybrid) :=
    fun quantum => List.filter_sublist.countP_le
  have quantum := fewer true
  have classical := fewer false
  unfold timeSplit timeAround span
  dsimp only
  rw [turn.inFront_eq, load_append, load_append]
  omega

/-- The segments around a hybrid instruction get no longer than by the instructions that change sides. -/
theorem stretch_le_crossing : stretch list map ids emitted hybrid ≤ crossing list map ids emitted hybrid := by
  have split := turn.timeSplit_le
  have stays := load_both list (left list map ids emitted hybrid front)
  have quantum := turn.load_pool_le true
  have classical := turn.load_pool_le false
  unfold stretch crossing
  rw [turn.inFront_eq]
  unfold spanBehind span at split
  dsimp only at split
  omega

/-- They get longer only where the lanes are apart, where one gets ahead, or where work stays behind in vain. -/
theorem stretch_le : stretch list map ids emitted hybrid ≤ imbalance list map ids emitted hybrid +
    (overfill list map ids emitted hybrid + stalled list map ids emitted hybrid) := by
  have moved := turn.stretch_le_crossing
  have split := turn.timeSplit_le
  have spans := turn.span_le
  have small := excess_le_one list map ids emitted hybrid
  unfold imbalance overfill gap
  unfold stretch at moved ⊢
  unfold spanBehind at split
  unfold span at spans split
  dsimp only at split ⊢
  generalize lanesBehind 0 0 (emitted.map (categoryOf list)) = lanes at split ⊢
  generalize crossing list map ids emitted hybrid = changing at moved ⊢
  have ahead := max_add_le lanes.1 lanes.2 (load list true (pool list map ids emitted hybrid))
    (load list false (pool list map ids emitted hybrid))
  have held := min_add_le lanes.1 lanes.2 (load list true (pending front emitted))
    (load list false (pending front emitted))
  omega

/-! ### Time -/

theorem pending_eq : pending ids emitted = pending front emitted ++ hybrid :: pending back emitted := by
  rw [turn.split, pending, List.filter_append, List.filter_cons_of_pos (by simpa using turn.waits)]
  rfl

variable {new : List Nat}

theorem pending_front (perm : (pool list map ids emitted hybrid).Perm new) :
    pending front (emitted ++ (new ++ [hybrid])) = left list map ids emitted hybrid front := by
  rw [pending, left, spare, List.filter_filter]
  refine List.filter_congr (fun id there => ?_)
  have differ : id ≠ hybrid := fun same => turn.absent (same ▸ List.mem_append_left back there)
  have pooled : id ∈ new ↔ id ∈ needs list map ids emitted hybrid ∨ id ∈ pulled list map ids emitted hybrid := by
    rw [← perm.mem_iff, turn.mem_pool]
  by_cases old : id ∈ emitted <;> by_cases needed : id ∈ needs list map ids emitted hybrid <;>
    simp [old, needed, differ, pooled]

theorem plain_left (member : id ∈ left list map ids emitted hybrid front) : isHybrid list id = false := by
  obtain ⟨there, waits, _⟩ := mem_spare.mp (List.mem_filter.mp member).1
  exact (turn.plain id there waits).1

theorem plain_pending_front (member : id ∈ pending front emitted) : isHybrid list id = false :=
  have ⟨there, waits⟩ := mem_pending.mp member
  (turn.plain id there waits).1

/-- A hybrid instruction passes when the busier lane has. -/
theorem wallTimeFrom_meets (q c : Nat) (rest : List Category) :
    wallTimeFrom q c (categoryOf list hybrid :: rest) = max q c + 1 + wallTimeFrom 0 0 rest := by
  have meets := turn.meets
  rw [isHybrid] at meets
  rw [wallTimeFrom, if_pos meets]

theorem exists_time : ∃ passed, ∀ before stays : List Nat, (∀ id ∈ before, isHybrid list id = false) →
    (∀ id ∈ stays, isHybrid list id = false) → ∀ rest,
      time list (emitted ++ (before ++ hybrid :: stays)) rest = passed + (spanBehind list emitted before + 1) +
        wallTimeFrom (load list true stays) (load list false stays) rest := by
  obtain ⟨passed, behind⟩ := exists_passed 0 0 (emitted.map (categoryOf list))
  refine ⟨passed, fun before stays plain plain' rest => ?_⟩
  have split : (emitted ++ (before ++ hybrid :: stays)).map (categoryOf list) ++ rest =
      emitted.map (categoryOf list) ++ (before.map (categoryOf list) ++
        (categoryOf list hybrid :: (stays.map (categoryOf list) ++ rest))) := by simp
  rw [time, split, behind, wallTimeFrom_plain plain, turn.wallTimeFrom_meets, wallTimeFrom_plain plain', Nat.zero_add,
    Nat.zero_add, spanBehind]
  omega

variable {later : List Nat}

theorem absent_behind (late : ∀ id ∈ later, id ∉ emitted ∧ id ∉ ids) : hybrid ∉ back ++ later := by
  intro there
  rcases List.mem_append.mp there with own | own
  · exact turn.absent (List.mem_append_right front own)
  · refine (late hybrid own).2 ?_
    rw [turn.split]
    simp

omit turn in
/-- Of what stands behind a hybrid instruction only what is pulled is gone after its turn. -/
theorem pending_behind (perm : (pool list map ids emitted hybrid).Perm new) {behind : List Nat}
    (absent : hybrid ∉ behind) : pending behind (emitted ++ (new ++ [hybrid])) =
      pending (pending behind emitted) (pool list map ids emitted hybrid) := by
  rw [pending_of_gone]
  refine List.filter_congr (fun id there => ?_)
  have differ : id ≠ hybrid := fun same => absent (same ▸ (mem_pending.mp there).1)
  simp [differ, perm.mem_iff]

theorem wallTimeFrom_pending_pool_le (behind : List Nat) :
    wallTimeFrom 0 0 ((pending behind (pool list map ids emitted hybrid)).map (categoryOf list)) ≤
      wallTimeFrom 0 0 (behind.map (categoryOf list)) := by
  have fewer : wallTimeFrom 0 0 ((pending behind (pool list map ids emitted hybrid)).map (categoryOf list) ++ []) ≤
      wallTimeFrom 0 0 (behind.map (categoryOf list) ++ []) :=
    wallTimeFrom_filter_le _ _ (fun id _ gone =>
      (turn.plain_pool (List.contains_iff_mem.mp (by simpa using gone))).2) []
  rwa [List.append_nil, List.append_nil] at fewer

theorem pending_emitHybrid (perm : (pool list map ids emitted hybrid).Perm new) :
    pending ids (emitted ++ (new ++ [hybrid])) =
      left list map ids emitted hybrid front ++ pending back (emitted ++ (new ++ [hybrid])) := by
  rw [← turn.pending_front perm, turn.split, pending, List.filter_append, List.filter_cons_of_neg (by simp)]
  rfl

/-- What is behind a run is still to come when a hybrid instruction of the run has had its turn. -/
theorem waits_later (perm : (pool list map ids emitted hybrid).Perm new)
    (late : ∀ id ∈ later, id ∉ emitted ∧ id ∉ ids) : ∀ id ∈ later, id ∉ emitted ++ (new ++ [hybrid]) := by
  intro id there
  have notPooled : id ∉ new := fun pooled => (late id there).2 (List.mem_filter.mp (perm.mem_iff.mpr pooled)).1
  have differ : id ≠ hybrid := fun equal => turn.absent_behind late (equal ▸ List.mem_append_right back there)
  simp [(late id there).1, notPooled, differ]

theorem fresh_behind (late : ∀ id ∈ later, id ∉ emitted ∧ id ∉ ids) :
    ∀ id ∈ back ++ later, isHybrid list id = true → id ∉ emitted := by
  intro id there meets
  rcases List.mem_append.mp there with own | behind
  · exact turn.further id own meets
  · exact (late id behind).1

theorem waits_hybrid (perm : (pool list map ids emitted hybrid).Perm new) {behind : List Nat} (absent : hybrid ∉ behind)
    (fresh : ∀ id ∈ behind, isHybrid list id = true → id ∉ emitted) :
    ∀ id ∈ behind, isHybrid list id = true → id ∉ emitted ++ (new ++ [hybrid]) := by
  intro id there meets
  have notPooled : id ∉ new := fun pooled =>
    Bool.false_ne_true ((turn.plain_pool (perm.mem_iff.mpr pooled)).2.symm.trans meets)
  have differ : id ≠ hybrid := fun equal => absent (equal ▸ there)
  simp [fresh id there meets, notPooled, differ]

omit turn in
theorem pending_append_later (waits : ∀ id ∈ later, id ∉ emitted) :
    pending (back ++ later) emitted = pending back emitted ++ later := by
  rw [pending_append]
  congr 1
  exact List.filter_eq_self.mpr (fun id there => by simpa using waits id there)

/-- The time before and after the turn of a hybrid instruction is that of the segments around it, with the same in front
    of them and less behind. -/
theorem exists_times (behind : (list.order.dropWhile (fun id => id != hybrid)).tail = back ++ later)
    (late : ∀ id ∈ later, id ∉ emitted ∧ id ∉ ids) : ∃ passed far,
      time list (emitted ++ pending ids emitted) (later.map (categoryOf list)) = passed +
        timeAround list ids emitted hybrid + wallTimeFrom 0 0 (far.map (categoryOf list)) ∧
      time list (emitHybrid list map ids emitted hybrid ++ pending ids (emitHybrid list map ids emitted hybrid))
          (later.map (categoryOf list)) = passed + timeSplit list map ids emitted hybrid +
        wallTimeFrom 0 0 ((pending far (pool list map ids emitted hybrid)).map (categoryOf list)) := by
  obtain ⟨new, same, perm⟩ := turn.emitHybrid_eq
  obtain ⟨passed, timed⟩ := turn.exists_time
  have segment : segmentBehind list emitted hybrid =
      pending ((back ++ later).takeWhile (fun id => !isHybrid list id)) emitted := by rw [segmentBehind, behind]
  have absent := turn.absent_behind late
  have fresh := turn.fresh_behind late
  -- both orders are what is emitted, some work, the hybrid instruction, what of the front stays and what is behind
  have before := timed (pending front emitted) [] (fun id => turn.plain_pending_front)
    (fun _ member => absurd member List.not_mem_nil) ((pending (back ++ later) emitted).map (categoryOf list))
  have after := timed new (left list map ids emitted hybrid front)
    (fun id there => (turn.plain_pool (perm.mem_iff.mpr there)).2) (fun id => turn.plain_left) ((pending (back ++ later) (emitted ++ (new ++ [hybrid]))).map (categoryOf list))
  rw [wallTimeFrom_pending fresh, ← segment, pending_append_later (fun id there => (late id there).1), List.map_append,
    ← time_append] at before
  rw [wallTimeFrom_pending (turn.waits_hybrid perm absent fresh),
    pending_behind perm (fun there => absent (List.takeWhile_subset _ there)), ← segment,
    pending_behind perm (fun there => absent (List.dropWhile_subset _ there)),
    pending_append_later (turn.waits_later perm late), List.map_append, ← time_append,
    ← spanBehind_perm perm] at after
  refine ⟨passed + 1, pending ((back ++ later).dropWhile (fun id => !isHybrid list id)) emitted, ?_, ?_⟩
  · rw [turn.pending_eq, timeAround, turn.inFront_eq, span]
    simp only [List.append_assoc, List.cons_append, List.nil_append, load, List.countP_nil, Nat.zero_add] at before ⊢
    omega
  · rw [same, turn.pending_emitHybrid perm, timeSplit, turn.inFront_eq, span, load_append, load_append]
    simp only [List.append_assoc, List.cons_append, List.nil_append] at after ⊢
    omega

/-- The turn of a hybrid instruction changes the time of the segments around it. Those further behind only lose what is
    pulled from them. -/
theorem time_le (behind : (list.order.dropWhile (fun id => id != hybrid)).tail = back ++ later)
    (late : ∀ id ∈ later, id ∉ emitted ∧ id ∉ ids) :
    time list (emitHybrid list map ids emitted hybrid ++ pending ids (emitHybrid list map ids emitted hybrid))
        (later.map (categoryOf list)) + relief list map ids emitted hybrid ≤
      time list (emitted ++ pending ids emitted) (later.map (categoryOf list)) +
        stretch list map ids emitted hybrid := by
  obtain ⟨passed, far, before, after⟩ := turn.exists_times behind late
  have fewer := turn.wallTimeFrom_pending_pool_le far
  rw [before, after, relief, stretch]
  omega

end Turn

/-! ## Lanes that are apart -/

/-- Whether work on one lane waits for work on the other one only by way of hybrid or control instructions. -/
def LanesApart (list : InstructionList) : Prop :=
  ∀ id ∈ list.order, ∀ other ∈ list.predecessors id,
    (categoryOf list id = .quantum → categoryOf list other ≠ .classical) ∧
      (categoryOf list id = .classical → categoryOf list other ≠ .quantum)

instance (list : InstructionList) : Decidable (LanesApart list) :=
  inferInstanceAs (Decidable (∀ id ∈ list.order, ∀ other ∈ list.predecessors id, _))

theorem fillsLane_iff {category : Category} :
    fillsLane quantum category = true ↔ category = if quantum then .quantum else .classical := by
  cases quantum <;> cases category <;> decide

theorem fillsLane_of_apart {category other : Category} (lane : fillsLane quantum category = true)
    (apart : (category = .quantum → other ≠ .classical) ∧ (category = .classical → other ≠ .quantum))
    (notHybrid : other.isHybrid = false) (notControl : other.isControl = false) : fillsLane quantum other = true := by
  rw [fillsLane_iff] at lane ⊢
  subst lane
  cases quantum with
  | true =>
      have notClassical := apart.1 rfl
      cases other <;> trivial
  | false =>
      have notQuantum := apart.2 rfl
      cases other <;> trivial

theorem Valid.in_front (valid : Valid list) {other : Nat} (within : (front ++ id :: back).Sublist list.order)
    (predecessor : other ∈ list.predecessors id) (own : other ∈ front ++ id :: back) : other ∈ front :=
  (List.mem_append.mp own).resolve_right
    (valid.not_behind ((List.sublist_append_right _ _).trans within) predecessor)

/-- Where lanes are apart, work in front of a hybrid instruction is ready once what its lane does before it is done. -/
theorem Turn.ready_fillers (valid : Valid list) (underway : Underway list ids emitted (hybrid :: hybrids))
    (turn : Turn list map ids emitted hybrid front back) (apart : LanesApart list) (before : List Nat) (id : Nat)
    (after : List Nat) (split : fillers list map ids emitted hybrid = before ++ id :: after) :
    list.predecessors id ⊆ (emitted ++ needs list map ids emitted hybrid) ++ before := by
  intro other predecessor
  have within := underway.within
  rw [fillers, turn.inFront_eq] at split
  obtain ⟨there, waits⟩ := List.mem_filter.mp (split ▸ List.mem_append_right before List.mem_cons_self)
  rw [List.mem_append]
  by_contra absent
  obtain ⟨unassumed, notBefore⟩ := not_or.mp absent
  have old : other ∉ emitted := fun old => unassumed (List.mem_append_left _ old)
  have own := (underway.closed id (turn.front_subset there) other predecessor).resolve_left old
  have inside : other ∈ front := by
    obtain ⟨first, further, here⟩ := List.append_of_mem there
    have parts : ids = first ++ id :: (further ++ hybrid :: back) := by
      rw [turn.split, here, List.append_assoc]
      rfl
    rw [parts] at own within
    rw [here]
    exact List.mem_append_left _ (valid.in_front within predecessor own)
  obtain ⟨notHybrid, notControl⟩ := turn.plain other inside old
  have lane : fillsLane _ (categoryOf list other) = true :=
    fillsLane_of_apart (Bool.and_eq_true_iff.mp waits).2
      (apart id (within.subset (turn.front_subset there)) other predecessor) notHybrid notControl
  have among : other ∈ before ++ id :: after := by
    rw [← split]
    refine List.mem_filter.mpr ⟨inside, ?_⟩
    rw [waitsFor, lane]
    simpa using unassumed
  refine notBefore (valid.in_front ?_ predecessor among)
  rw [← split]
  refine List.filter_sublist.trans (List.Sublist.trans ?_ within)
  rw [turn.split]
  exact List.sublist_append_left _ _

theorem min_countP_eq_zero {elements taken : List Nat} {bound : Nat} (first : elements.take bound <+: taken) :
    min (elements.countP (fun id => !taken.contains id)) (bound - elements.countP (fun id => taken.contains id)) = 0 := by
  have all : ∀ id ∈ elements.take bound, taken.contains id = true :=
    fun id member => List.contains_iff_mem.mpr (first.subset member)
  rcases Nat.le_total elements.length bound with short | long
  · rw [List.take_of_length_le short] at all
    have none : elements.countP (fun id => !taken.contains id) = 0 :=
      List.countP_eq_zero.mpr (fun id member => by rw [all id member]; exact Bool.false_ne_true)
    rw [none, Nat.zero_min]
  · have enough := (List.take_sublist bound elements).countP_le (p := fun id => taken.contains id)
    rw [List.countP_eq_length.mpr all, List.length_take_of_le long] at enough
    rw [Nat.sub_eq_zero_of_le enough, Nat.min_zero]

/-- Where lanes are apart no work stays behind while its lane is not level. -/
theorem Turn.stalled_eq_zero (valid : Valid list) (underway : Underway list ids emitted (hybrid :: hybrids))
    (turn : Turn list map ids emitted hybrid front back) (apart : LanesApart list) :
    stalled list map ids emitted hybrid = 0 := by
  have ready := turn.ready_fillers valid underway apart
  have waiting : ids.filter (waitsFor list (lighter list (needs list map ids emitted hybrid))
      (emitted ++ needs list map ids emitted hybrid)) = fillers list map ids emitted hybrid ++
        (hybrid :: back).filter (waitsFor list (lighter list (needs list map ids emitted hybrid))
          (emitted ++ needs list map ids emitted hybrid)) := by
    rw [fillers, turn.inFront_eq, ← List.filter_append, ← turn.split]
  have first := pull_front valid.emission.distinct underway.within (lighter list (needs list map ids emitted hybrid))
    (span list (needs list map ids emitted hybrid) + 1 -
      load list (lighter list (needs list map ids emitted hybrid)) (needs list map ids emitted hybrid)) waiting ready
  have pulls : pulled list map ids emitted hybrid = _ :=
    extra_eq list ids emitted (needs list map ids emitted hybrid)
  unfold stalled
  dsimp only
  split at pulls
  · next level =>
    have lane : lighter list (needs list map ids emitted hybrid) = false := by simp [lighter, level]
    rw [lane, span, level]
    omega
  · rw [← pulls] at first
    have none := min_countP_eq_zero first
    omega

end TwoLane.Schedule
