import TwoLane.Proofs.Execution.NewLists
import TwoLane.Proofs.Execution.Scheduling
import TwoLane.Proofs.Program.Lists
import TwoLane.Proofs.Schedule.Maps
import TwoLane.Proofs.Schedule.Turn

/-! # Balancing slows a list down by no more than its charges

Balancing goes through the hybrid instructions of a list, each with its own turn, and what the segments around them lose or
win at these turns adds up. They lose only by what changes sides: no more than the distance of the lanes in front of a
hybrid instruction, one unit for a lane that gets ahead, and the work that stays behind while its lane is not level. Where
control instructions stand behind all hybrid ones the lanes are never apart, and where lanes meet at hybrid instructions
only no work stays behind in vain.
-/

namespace TwoLane.Schedule

open InstructionList (LinesDiffer)

variable {list : InstructionList} {map : HybridMap} {emitted front back ids hybrids : List Nat} {id hybrid : Nat}
  {piece : Piece} {charge charge' : (ids emitted : List Nat) → (hybrid : Nat) → Nat}

/-! ## Moments -/

/-- A hybrid instruction of a run when it is its turn, with what is emitted by then. -/
structure Moment where
  ids : List Nat
  emitted : List Nat
  hybrid : Nat

/-- What is charged at a turn. -/
def Moment.pays (charge : (ids emitted : List Nat) → (hybrid : Nat) → Nat) (moment : Moment) : Nat :=
  charge moment.ids moment.emitted moment.hybrid

def runMoments (list : InstructionList) (map : HybridMap) (ids : List Nat) : (emitted hybrids : List Nat) → List Moment
  | _, [] => []
  | emitted, hybrid :: rest =>
      ⟨ids, emitted, hybrid⟩ :: runMoments list map ids (emitHybrid list map ids emitted hybrid) rest

/-- The turns of the hybrid instructions of pieces. -/
def pieceMoments (list : InstructionList) (map : HybridMap) : (emitted : List Nat) → List Piece → List Moment
  | _, [] => []
  | emitted, piece :: rest =>
      runMoments list map piece.ids emitted (piece.ids.filter (isHybrid list)) ++
        pieceMoments list map (emitBalanced list map emitted piece) rest

/-- The turns of the hybrid instructions of a list as its lanes are balanced. -/
def moments (list : InstructionList) (map : HybridMap) : List Moment :=
  pieceMoments list map [] (pieces list)

/-- The sum of a charge over turns. -/
def sumOf (charge : (ids emitted : List Nat) → (hybrid : Nat) → Nat) (moments : List Moment) : Nat :=
  (moments.map (Moment.pays charge)).sum

/-- The sum of a charge over the hybrid instructions of a list as its lanes are balanced. -/
def tally (list : InstructionList) (map : HybridMap) (charge : (ids emitted : List Nat) → (hybrid : Nat) → Nat) : Nat :=
  sumOf charge (moments list map)

theorem sumOf_append (charge : (ids emitted : List Nat) → (hybrid : Nat) → Nat) (a b : List Moment) :
    sumOf charge (a ++ b) = sumOf charge a + sumOf charge b := by
  rw [sumOf, List.map_append, List.sum_append]
  rfl

theorem tally_add (list : InstructionList) (map : HybridMap)
    (charge charge' : (ids emitted : List Nat) → (hybrid : Nat) → Nat) :
    tally list map (fun ids emitted hybrid => charge ids emitted hybrid + charge' ids emitted hybrid) =
      tally list map charge + tally list map charge' :=
  List.sum_map_add

/-- Every hybrid instruction has one turn. -/
theorem length_moments (valid : Valid list) (map : HybridMap) :
    (moments list map).length = list.order.countP (isHybrid list) := by
  have runs : ∀ ids hybrids emitted : List Nat, (runMoments list map ids emitted hybrids).length = hybrids.length := by
    intro ids hybrids
    induction hybrids with
    | nil => exact fun _ => rfl
    | cons hybrid hybrids ih => exact fun emitted => congrArg (· + 1) (ih _)
  rw [moments, ← (pieces_spec valid).1]
  generalize ([] : List Nat) = emitted
  induction pieces list generalizing emitted with
  | nil => rfl
  | cons piece rest ih =>
      rw [pieceMoments, List.length_append, runs, ih, List.flatMap_cons, List.countP_append,
        List.countP_eq_length_filter (l := piece.ids)]

/-! ## Runs -/

theorem Underway.next (valid : Valid list) (holds : map.Holds list)
    (underway : Underway list ids emitted (hybrid :: hybrids)) :
    Underway list ids (emitHybrid list map ids emitted hybrid) hybrids := by
  obtain ⟨front, back, turn⟩ := underway.turn valid holds
  obtain ⟨before, whole, early⟩ := underway.split
  obtain ⟨new, same, perm⟩ := turn.emitHybrid_eq
  have kept : emitted ⊆ emitHybrid list map ids emitted hybrid := by
    rw [same]
    exact List.subset_append_left _ _
  refine ⟨underway.within, underway.plain, ?_, ⟨before ++ [hybrid], ?_, ?_⟩, ?_, ?_⟩
  · rw [emitHybrid_eq_emit]
    exact nodup_emit (nodup_drain list underway.distinct _ _) _
  · rw [whole, List.append_assoc]
    rfl
  · refine List.append_subset.mpr ⟨List.Subset.trans early kept, ?_⟩
    rw [same]
    simp
  · intro id member
    have meets : isHybrid list id = true ∧ id ≠ hybrid := by
      have once := turn.once.filter (isHybrid list)
      have inside : id ∈ ids.filter (isHybrid list) := by
        rw [whole]
        exact List.mem_append_right _ (List.mem_cons_of_mem _ member)
      rw [whole] at once
      refine ⟨(List.mem_filter.mp inside).2, fun equal => ?_⟩
      exact (List.nodup_cons.mp (List.nodup_append.mp once).2.1).1 (equal ▸ member)
    rw [same, List.mem_append, List.mem_append, List.mem_singleton]
    rintro (old | pooled | equal)
    · exact underway.waits id (List.mem_cons_of_mem _ member) old
    · have plain := (turn.plain_pool (perm.mem_iff.mpr pooled)).2
      rw [meets.1] at plain
      cases plain
    · exact meets.2 equal
  · exact fun id member other predecessor =>
      (underway.closed id member other predecessor).imp_left (fun old => kept old)

theorem dropWhile_of_split {first later : List Nat} (distinct : list.order.Nodup)
    (split : list.order = first ++ (front ++ hybrid :: back ++ later)) :
    (list.order.dropWhile (fun id => id != hybrid)).tail = back ++ later := by
  have parts : list.order = (first ++ front) ++ hybrid :: (back ++ later) := by
    rw [split]
    simp
  have absent : hybrid ∉ first ++ front := by
    rw [parts] at distinct
    exact fun there => (List.nodup_cons.mp (List.nodup_middle.mp distinct)).1 (List.mem_append_left _ there)
  rw [parts, List.dropWhile_append_of_pos (fun id there => by simpa using fun same : id = hybrid => absent (same ▸ there)),
    List.dropWhile_cons_of_neg (by simp), List.tail_cons]

/-- The turns of a run take no longer than before but for what they stretch. -/
theorem Underway.time_le (valid : Valid list) (holds : map.Holds list) {first later : List Nat}
    (split : list.order = first ++ (ids ++ later)) (late : ∀ id ∈ later, id ∉ emitted)
    (underway : Underway list ids emitted hybrids) :
    Underway list ids (hybrids.foldl (emitHybrid list map ids) emitted) [] ∧
      time list (hybrids.foldl (emitHybrid list map ids) emitted ++
          pending ids (hybrids.foldl (emitHybrid list map ids) emitted)) (later.map (categoryOf list)) +
          sumOf (relief list map) (runMoments list map ids emitted hybrids) ≤
        time list (emitted ++ pending ids emitted) (later.map (categoryOf list)) +
          sumOf (stretch list map) (runMoments list map ids emitted hybrids) := by
  induction hybrids generalizing emitted with
  | nil => exact ⟨underway, Nat.le_refl _⟩
  | cons hybrid hybrids ih =>
      obtain ⟨front, back, turn⟩ := underway.turn valid holds
      have distinct := valid.emission.distinct
      have apart : ∀ id ∈ later, id ∉ emitted ∧ id ∉ ids := by
        rw [split] at distinct
        exact fun id there => ⟨late id there,
          fun own => (List.nodup_append.mp (List.nodup_append.mp distinct).2.1).2.2 id own id there rfl⟩
      have own := turn.time_le (dropWhile_of_split valid.emission.distinct (turn.split ▸ split)) apart
      obtain ⟨new, same, perm⟩ := turn.emitHybrid_eq
      obtain ⟨last, rest⟩ := ih (same ▸ turn.waits_later perm apart) (underway.next valid holds)
      refine ⟨last, ?_⟩
      simp only [List.foldl_cons, runMoments, sumOf, List.map_cons, List.sum_cons, Moment.pays] at rest ⊢
      omega

theorem time_perm {a b : List Nat} (plain : ∀ id ∈ a, isHybrid list id = false) (perm : a.Perm b)
    (front : List Nat) (rest : List Category) : time list (front ++ b) rest = time list (front ++ a) rest := by
  obtain ⟨passed, behind⟩ := exists_passed 0 0 (front.map (categoryOf list))
  have plain' : ∀ id ∈ b, isHybrid list id = false := fun id member => plain id (perm.mem_iff.mpr member)
  rw [time_append, time_append, time, time, behind, behind, wallTimeFrom_plain plain, wallTimeFrom_plain plain',
    load, load, load, load, perm.countP_eq, perm.countP_eq]

theorem Follows.underway (follows : Follows list (.run ids) emitted) (plain : ∀ id ∈ ids, steers list id = false)
    (waits : ∀ id ∈ ids, id ∉ emitted) : Underway list ids emitted (ids.filter (isHybrid list)) where
  within := follows.sublist
  plain := plain
  distinct := follows.emission.distinct
  split := ⟨[], rfl, List.nil_subset _⟩
  waits := fun id member => waits id (List.mem_filter.mp member).1
  closed := follows.closed

theorem Underway.plain_pending (underway : Underway list ids emitted []) (member : id ∈ pending ids emitted) :
    isHybrid list id = false := by
  obtain ⟨own, waits⟩ := mem_pending.mp member
  obtain ⟨all, split, early⟩ := underway.split
  rw [List.append_nil] at split
  by_contra meets
  exact waits (early (split ▸ List.mem_filter.mpr ⟨own, by simpa using meets⟩))

theorem isHybrid_of_isControl {category : Category} (control : category.isControl = true) :
    category.isHybrid = false := by
  cases category <;> first | rfl | cases control

theorem isHybrid_of_steers (valid : Valid list) (running : id ∈ list.order) (isSteering : steers list id = true) :
    isHybrid list id = false := by
  rw [← isControl_categoryOf valid running] at isSteering
  exact isHybrid_of_isControl isSteering

theorem emitBalanced_time_le (valid : Valid list) (holds : map.Holds list) (fits : piece.Fits list)
    (follows : Follows list piece emitted) (waits : ∀ id ∈ piece.ids, id ∉ emitted) {first later : List Nat}
    (split : list.order = first ++ (piece.ids ++ later)) (late : ∀ id ∈ later, id ∉ emitted) :
    time list (emitBalanced list map emitted piece) (later.map (categoryOf list)) +
        sumOf (relief list map) (runMoments list map piece.ids emitted (piece.ids.filter (isHybrid list))) ≤
      time list (emitted ++ piece.ids) (later.map (categoryOf list)) +
        sumOf (stretch list map) (runMoments list map piece.ids emitted (piece.ids.filter (isHybrid list))) := by
  cases piece with
  | fixed id =>
      have absent := waits id List.mem_cons_self
      have plain := isHybrid_of_steers valid (follows.sublist.subset List.mem_cons_self) fits
      rw [emitBalanced, emit, if_neg (by simpa using absent), Piece.ids, List.filter_cons_of_neg (by simp [plain])]
      exact Nat.le_refl _
  | run ids =>
      rw [Piece.ids] at split
      obtain ⟨last, most⟩ := (follows.underway fits waits).time_le valid holds split late
      have whole : pending ids emitted = ids :=
        List.filter_eq_self.mpr (fun id member => by simpa using waits id member)
      rw [whole] at most
      rw [emitBalanced]
      change time list (drain list classicalFirst (pending ids _) _) _ + _ ≤ _
      generalize (ids.filter (isHybrid list)).foldl (emitHybrid list map ids) emitted = after at last most ⊢
      obtain ⟨new, drained, perm⟩ := drain_perm list last.distinct
        ((valid.emission.distinct.sublist last.within).filter (fun id => !after.contains id))
        (fun id member => (mem_pending.mp member).2) classicalFirst
      rw [pending, drained, time_perm (fun id member => last.plain_pending member) perm]
      exact most

/-- Behind a hybrid instruction the lanes are level, so only the first one of a run may find them apart. -/
theorem Underway.gap_eq_zero (valid : Valid list) (holds : map.Holds list) (underway : Underway list ids emitted hybrids)
    {moment : Moment} (member : moment ∈ runMoments list map ids emitted hybrids) :
    moment.emitted = emitted ∨ gap list moment.emitted = 0 := by
  induction hybrids generalizing emitted with
  | nil => cases member
  | cons hybrid hybrids ih =>
      rcases List.mem_cons.mp member with rfl | member
      · exact .inl rfl
      · obtain ⟨front, back, turn⟩ := underway.turn valid holds
        obtain ⟨new, same, _⟩ := turn.emitHybrid_eq
        have meets := turn.meets
        rw [isHybrid] at meets
        have level : gap list (emitHybrid list map ids emitted hybrid) = 0 := by
          rw [same, ← List.append_assoc, gap, List.map_append, List.map_singleton, lanesBehind_hybrid _ meets]
          rfl
        exact .inr ((ih (underway.next valid holds) member).elim (fun first => first ▸ level) id)

theorem Underway.of_mem (valid : Valid list) (holds : map.Holds list) (underway : Underway list ids emitted hybrids)
    {moment : Moment} (member : moment ∈ runMoments list map ids emitted hybrids) :
    ∃ rest, Underway list moment.ids moment.emitted (moment.hybrid :: rest) := by
  induction hybrids generalizing emitted with
  | nil => cases member
  | cons hybrid hybrids ih =>
      rcases List.mem_cons.mp member with rfl | member
      · exact ⟨hybrids, underway⟩
      · exact ih (underway.next valid holds) member

/-! ## Whole lists -/

theorem not_emitted_of_split (distinct : list.order.Nodup)
    (split : list.order = front ++ (piece.ids ++ back)) (perm : front.Perm emitted) :
    ∀ id ∈ piece.ids, id ∉ emitted := by
  intro id member old
  rw [split] at distinct
  exact (List.nodup_append.mp distinct).2.2 id (perm.mem_iff.mpr old) id (List.mem_append_left _ member) rfl

/-- Balancing takes no longer than a list did but for what the turns of its hybrid instructions stretch. -/
theorem balanced_time_le (valid : Valid list) (holds : map.Holds list) :
    time list ((pieces list).foldl (emitBalanced list map) []) [] + tally list map (relief list map) ≤
      time list list.order [] + tally list map (stretch list map) := by
  have whole := (pieces_spec valid).1
  have start : time list [] (((pieces list).flatMap Piece.ids).map (categoryOf list)) = time list list.order [] := by
    rw [whole, time, time, List.append_nil]
    rfl
  have all := (pieces_recursion valid (fun _ _ _ follows => emits_balanced valid holds follows)
    (motive := fun pieces front emitted => list.order = front ++ pieces.flatMap Piece.ids ∧
      time list emitted ((pieces.flatMap Piece.ids).map (categoryOf list)) +
          sumOf (stretch list map) (pieceMoments list map emitted pieces) + tally list map (relief list map) ≤
        time list list.order [] + tally list map (stretch list map) +
          sumOf (relief list map) (pieceMoments list map emitted pieces)) ⟨whole.symm, ?_⟩ ?_).2.2.2
  · simpa [pieceMoments, sumOf] using all
  · rw [start]
    exact Nat.le_refl _
  · rintro piece pieces front _ emitted new fits follows - perm _ same ⟨split, before⟩
    rw [List.flatMap_cons] at split before
    have waits := not_emitted_of_split valid.emission.distinct split perm
    have late : ∀ id ∈ pieces.flatMap Piece.ids, id ∉ emitted := by
      have distinct := valid.emission.distinct
      rw [split] at distinct
      exact fun id there old => (List.nodup_append.mp distinct).2.2 id (perm.mem_iff.mpr old) id
        (List.mem_append_right _ there) rfl
    have own := emitBalanced_time_le valid holds fits follows waits split late
    refine ⟨by rw [split, List.append_assoc], ?_⟩
    rw [pieceMoments, sumOf_append, sumOf_append, List.map_append, ← time_append, same] at before
    rw [same] at own
    omega

/-- At every turn a run is underway. -/
theorem underway_of_mem_moments (valid : Valid list) (holds : map.Holds list) {moment : Moment}
    (member : moment ∈ moments list map) : ∃ rest, Underway list moment.ids moment.emitted (moment.hybrid :: rest) := by
  have all := (pieces_recursion valid (fun _ _ _ follows => emits_balanced valid holds follows)
    (motive := fun pieces _ emitted => moment ∈ pieceMoments list map emitted pieces ∨
      ∃ rest, Underway list moment.ids moment.emitted (moment.hybrid :: rest)) (.inl member) ?_).2.2
  · exact all.resolve_left List.not_mem_nil
  · intro piece pieces front back emitted new fits follows split perm _ same so
    have waits := not_emitted_of_split valid.emission.distinct split perm
    rcases so with here | done
    · rcases List.mem_append.mp here with own | later
      · cases piece with
        | fixed id =>
            have plain := isHybrid_of_steers valid (follows.sublist.subset List.mem_cons_self) fits
            rw [Piece.ids, List.filter_cons_of_neg (by simp [plain])] at own
            cases own
        | run ids => exact .inr ((follows.underway fits waits).of_mem valid holds own)
      · exact .inl (same ▸ later)
    · exact .inr done

theorem stretch_of_mem_moments (valid : Valid list) (holds : map.Holds list) {moment : Moment}
    (member : moment ∈ moments list map) :
    moment.pays (stretch list map) ≤ moment.pays (crossing list map) ∧
      moment.pays (stretch list map) ≤ moment.pays (imbalance list map) +
        (moment.pays (overfill list map) + moment.pays (stalled list map)) := by
  obtain ⟨rest, underway⟩ := underway_of_mem_moments valid holds member
  obtain ⟨front, back, turn⟩ := underway.turn valid holds
  exact ⟨turn.stretch_le_crossing, turn.stretch_le⟩

/-- A charge that nothing pays at any turn. -/
theorem tally_eq_zero (free : ∀ moment ∈ moments list map, moment.pays charge = 0) : tally list map charge = 0 := by
  apply List.sum_eq_zero
  intro amount member
  obtain ⟨moment, there, rfl⟩ := List.mem_map.mp member
  exact free moment there

theorem tally_stalled (valid : Valid list) (holds : map.Holds list) (apart : LanesApart list) :
    tally list map (stalled list map) = 0 := by
  apply tally_eq_zero
  intro moment member
  obtain ⟨rest, underway⟩ := underway_of_mem_moments valid holds member
  obtain ⟨front, back, turn⟩ := underway.turn valid holds
  exact turn.stalled_eq_zero valid underway apart

/-- Whether all control instructions stand behind all hybrid ones. -/
def ControlBehind (list : InstructionList) : Prop :=
  list.order.Pairwise (fun a b => steers list a = true → isHybrid list b = false)

instance (list : InstructionList) : Decidable (ControlBehind list) :=
  inferInstanceAs (Decidable (list.order.Pairwise _))

/-- Whether pieces hold no hybrid instruction. -/
def Plain (list : InstructionList) (pieces : List Piece) : Prop :=
  ∀ piece ∈ pieces, ∀ id ∈ piece.ids, isHybrid list id = false

theorem cut_of_behind (list : InstructionList) (run : List Nat) (nodes : List Instruction)
    (each : ∀ node ∈ nodes, list.nodes[node.id]? = some node)
    (behind : (nodes.map Instruction.id).Pairwise (fun a b => steers list a = true → isHybrid list b = false)) :
    ∃ first rest, cut run nodes = closeRun first ++ rest ∧ Plain list rest := by
  induction nodes generalizing run with
  | nil => exact ⟨run, [], (List.append_nil _).symm, fun _ member => absurd member List.not_mem_nil⟩
  | cons node nodes ih =>
      have here := each node List.mem_cons_self
      have later := fun n member => each n (List.mem_cons_of_mem node member)
      obtain ⟨first, behind⟩ := List.pairwise_cons.mp behind
      rw [cut]
      split
      · next control =>
        refine ⟨run, .fixed node.id :: cut [] nodes, rfl, fun piece member id own => ?_⟩
        rcases List.mem_cons.mp member with rfl | member
        · rw [List.mem_singleton.mp own, isHybrid, categoryOf, InstructionList.get?, here]
          exact isHybrid_of_isControl control
        · have ids := (cut_spec list [] nodes (fun _ member => absurd member List.not_mem_nil)
            (fun n member => by rw [steers, later n member]; rfl)).1
          have inside : id ∈ nodes.map Instruction.id := by
            rw [← List.nil_append (nodes.map _), ← ids]
            exact List.mem_flatMap.mpr ⟨piece, member, own⟩
          refine first id inside ?_
          rw [steers, here]
          exact control
      · exact ih (run ++ [node.id]) later behind

theorem pieceMoments_of_plain {pieces : List Piece} (plain : Plain list pieces) (emitted : List Nat) :
    pieceMoments list map emitted pieces = [] := by
  induction pieces generalizing emitted with
  | nil => rfl
  | cons piece pieces ih =>
      have none : piece.ids.filter (isHybrid list) = [] :=
        List.filter_eq_nil_iff.mpr (fun id member => by simp [plain piece List.mem_cons_self id member])
      rw [pieceMoments, none, runMoments, ih (fun piece member => plain piece (List.mem_cons_of_mem _ member))]
      rfl

/-- Where control instructions stand behind hybrid ones, no hybrid one finds the lanes apart. -/
theorem gap_of_mem_moments (valid : Valid list) (holds : map.Holds list) (behind : ControlBehind list) {moment : Moment}
    (member : moment ∈ moments list map) : gap list moment.emitted = 0 := by
  have start : ∃ first rest, pieces list = closeRun first ++ rest ∧ Plain list rest := by
    refine cut_of_behind list [] list.running (fun node member => ?_) ?_
    · exact (InstructionList.id_of_mem_running valid.numbered member).2
    · rw [InstructionList.map_id_running valid.numbered valid.inside]
      exact behind
  obtain ⟨first, rest, parts, plain⟩ := start
  obtain ⟨whole, fits⟩ := pieces_spec valid
  rw [moments, parts] at member
  rw [parts] at whole fits
  unfold closeRun at member whole fits
  split at member
  · rw [List.nil_append, pieceMoments_of_plain plain] at member
    cases member
  · next more =>
    rw [if_neg more] at whole fits
    rw [List.singleton_append, pieceMoments, pieceMoments_of_plain plain, List.append_nil] at member
    have split : list.order = [] ++ (first ++ rest.flatMap Piece.ids) := whole.symm
    have follows : Follows list (.run first) [] := follows_of_split valid (emission_nil list) split (fun _ => Iff.rfl)
    have underway := follows.underway (fits _ List.mem_cons_self) (fun _ _ => List.not_mem_nil)
    exact (underway.gap_eq_zero valid holds member).elim (fun same => same ▸ rfl) id

theorem tally_imbalance (valid : Valid list) (holds : map.Holds list) (behind : ControlBehind list) :
    tally list map (imbalance list map) = 0 := by
  apply tally_eq_zero
  intro moment member
  rw [Moment.pays, imbalance, gap_of_mem_moments valid holds behind member, Nat.zero_min]

theorem tally_overfill_le (valid : Valid list) (map : HybridMap) :
    tally list map (overfill list map) ≤ list.order.countP (isHybrid list) := by
  rw [← length_moments valid map]
  refine (List.sum_le_card_nsmul _ 1 (fun amount member => ?_)).trans (by simp)
  obtain ⟨moment, -, rfl⟩ := List.mem_map.mp member
  exact (Nat.min_le_left _ _).trans (excess_le_one _ _ _ _ _)

/-- The turns of the hybrid instructions stretch a list by no more than the charges. -/
theorem tally_stretch_le (valid : Valid list) (holds : map.Holds list) :
    tally list map (stretch list map) ≤ tally list map (imbalance list map) +
      (tally list map (overfill list map) + tally list map (stalled list map)) := by
  rw [← tally_add, ← tally_add]
  exact List.sum_le_sum (fun moment member => (stretch_of_mem_moments valid holds member).2)

theorem wallTime_eq (valid : Valid list) {order : List Nat} (running : ∀ id ∈ order, id ∈ list.order) :
    ({ list with order := order } : InstructionList).wallTime = time list order [] := by
  rw [InstructionList.wallTime, InstructionList.running, time, List.append_nil, List.map_filterMap]
  congr 1
  rw [← List.filterMap_eq_map]
  refine List.filterMap_congr (fun id member => ?_)
  have inside := valid.inside id (running id member)
  rw [Function.comp_apply, categoryOf, InstructionList.get?, InstructionList.get?, List.getElem?_eq_getElem inside]
  rfl

/-- Balancing the lanes of a list succeeds, and slows it down by no more than the turns of its hybrid instructions
    stretch it. -/
theorem balanced_wallTime_le (valid : Valid list) (lines : LinesDiffer list) (holds : map.Holds list) (index : Nat) :
    ∃ order after changes, balanced list map = .ok order ∧
      Workspace.installOrder index list order = .ok (after, changes) ∧
      after.wallTime + tally list map (relief list map) ≤ list.wallTime + tally list map (stretch list map) := by
  have none : (Table.keys map).find? (fun line => !hasHybridOn list line) = none := by
    rw [List.find?_eq_none]
    intro line key
    simp [hasHybridOn_of_holds lines holds line key]
  have most := balanced_time_le valid holds
  have perm := (arranges_foldl valid (fun _ _ _ follows => emits_balanced valid holds follows)).perm
  rw [balanced, none]
  dsimp only
  generalize (pieces list).foldl (emitBalanced list map) [] = order at most perm ⊢
  rw [← wallTime_eq valid (fun id member => perm.mem_iff.mpr member), ← wallTime_eq valid (fun _ member => member)]
    at most
  unfold orNothing
  split
  · next same =>
    rw [same] at most
    exact ⟨[], list, [], rfl, rfl, most⟩
  · next differ =>
    have full : order.isEmpty = false := by
      cases order with
      | nil => exact absurd (List.perm_nil.mp perm).symm differ
      | cons => rfl
    have installed : ∃ changes, Workspace.installOrder index list order = .ok ({ list with order := order }, changes) := by
      rw [Workspace.installOrder, full, if_neg Bool.false_ne_true, Execution.reorder_eq_ok perm]
      exact ⟨_, rfl⟩
    obtain ⟨changes, isInstalled⟩ := installed
    exact ⟨order, _, changes, rfl, isInstalled, most⟩

variable {nodes : List Instruction} {block : Nat} {title : String}

theorem linesDiffer_ofNodes (lines : (nodes.map Instruction.line).Nodup) :
    LinesDiffer (InstructionList.ofNodes block title nodes) := by
  intro i j a b _ _ aFound bFound same
  obtain ⟨old, found, line, _⟩ := InstructionList.new_ofNodes aFound
  obtain ⟨old', found', line', _⟩ := InstructionList.new_ofNodes bFound
  have inside := (List.getElem?_eq_some_iff.mp found).1
  refine (List.getElem?_inj (by simpa using inside) lines).mp ?_
  rw [List.getElem?_map, List.getElem?_map, found, found', Option.map_some, Option.map_some, ← line, ← line', same]

/-- Whether a quantum instruction touches no memory, and a classical one no qubit. -/
def KeepsToLane (node : Instruction) : Prop :=
  (node.category = .quantum → node.memory = []) ∧
    (node.category = .classical → node.qubits = [] ∧ node.operation.isGlobalReset = false)

instance (node : Instruction) : Decidable (KeepsToLane node) :=
  inferInstanceAs (Decidable (_ ∧ _))

theorem resources_ofNodes {node : Instruction} (keep : ∀ node ∈ nodes, KeepsToLane node)
    (found : (InstructionList.ofNodes block title nodes).nodes[id]? = some node) :
    (node.category = .quantum → ∀ name, Resource.memory name ∉ node.resources) ∧
      (node.category = .classical → ∀ q, Resource.qubit q ∉ node.resources) := by
  obtain ⟨old, there, same⟩ := InstructionList.withoutLinks_ofNodes found
  obtain ⟨quantum, classical⟩ := keep old (List.mem_of_getElem? there)
  have category := congrArg Instruction.category same
  change node.category = old.category at category
  rw [category]
  refine ⟨fun own name member => ?_, fun own q member => ?_⟩
  · have memory := congrArg (fun n : Instruction => n.memory.length) same
    simp [Instruction.withoutLinks, Instruction.withImplied, quantum own] at memory
    simp [Instruction.resources, memory] at member
  · have qubits := congrArg (fun n : Instruction => n.qubits.length) same
    simp [Instruction.withoutLinks, Instruction.withImplied, classical own] at qubits
    simp [Instruction.resources, qubits] at member

/-- Where work waits only for work with which it shares a resource, and keeps to its lane, the lanes are apart. -/
theorem lanesApart_of_shared
    (shares : ∀ id ∈ list.order, ∀ other ∈ list.predecessors id,
      other ∈ list.order ∧ ∃ resource, list.holdsAt resource other = true ∧ list.holdsAt resource id = true)
    (keep : ∀ {id node}, id ∈ list.order → list.nodes[id]? = some node →
      (node.category = .quantum → ∀ name, Resource.memory name ∉ node.resources) ∧
        (node.category = .classical → ∀ q, Resource.qubit q ∉ node.resources)) : LanesApart list := by
  intro id running other predecessor
  obtain ⟨running', resource, there, here⟩ := shares id running other predecessor
  have holder : ∀ {i : Nat}, i ∈ list.order → list.holdsAt resource i = true →
      (categoryOf list i = .quantum → ∀ name, resource ≠ .memory name) ∧
        (categoryOf list i = .classical → ∀ q, resource ≠ .qubit q) := by
    intro i running holds
    rw [InstructionList.holdsAt] at holds
    rw [categoryOf, InstructionList.get?]
    cases found : list.nodes[i]? with
    | none => simp [found] at holds
    | some node =>
        have own : resource ∈ node.resources := by simpa [found, Instruction.holds] using holds
        obtain ⟨quantum, classical⟩ := keep running found
        exact ⟨fun category name same => quantum category name (same ▸ own),
          fun category q same => classical category q (same ▸ own)⟩
  -- what two instructions share is neither memory nor a qubit if they are on different lanes
  have apart : ∀ {i j : Nat}, i ∈ list.order → j ∈ list.order → list.holdsAt resource i = true →
      list.holdsAt resource j = true → categoryOf list i = .quantum → categoryOf list j ≠ .classical := by
    intro i j iRuns jRuns iHolds jHolds quantum classical
    cases resource with
    | memory name => exact (holder iRuns iHolds).1 quantum name rfl
    | qubit q => exact (holder jRuns jHolds).2 classical q rfl
  exact ⟨apart running running' here there, fun classical quantum => apart running' running there here quantum classical⟩

theorem lanesApart_ofNodes (new : ∀ node ∈ nodes, node.IsNew) (keep : ∀ node ∈ nodes, KeepsToLane node) :
    LanesApart (InstructionList.ofNodes block title nodes) := by
  refine lanesApart_of_shared (fun id running other predecessor => ?_) (fun _ found => resources_ofNodes keep found)
  obtain ⟨runs, -, shared⟩ := predecessor_spec (Execution.ordered_ofNodes new) running predecessor
  exact ⟨runs, shared⟩

/-- Balancing the lanes of a list of new instructions on different lines succeeds with its own hybrid map. What the two
    segments around each hybrid instruction take longer at its turn, and what they take less, adds up to a bound on the
    wall time. At each turn they take longer by no more than the instructions that change sides of the hybrid one, and by
    no more than three charges together: how far the lanes are apart in front of it, one unit where the lane that is
    filled gets ahead, both as far as instructions change sides, and work that stays behind though its lane is not level.
    The second charge adds up to no more than the number of hybrid instructions, the first one is zero if control
    instructions stand behind all hybrid ones, and the third one if instructions keep to their lanes. -/
theorem balancing_slows_by_charges (new : ∀ node ∈ nodes, node.IsNew) (lines : (nodes.map Instruction.line).Nodup)
    (block : Nat) (title : String) (index : Nat) :
    let list := InstructionList.ofNodes block title nodes
    let map := HybridMap.ofList list
    (∃ order after changes, balanced list map = .ok order ∧
      Workspace.installOrder index list order = .ok (after, changes) ∧
      after.wallTime + tally list map (relief list map) ≤ list.wallTime + tally list map (stretch list map)) ∧
    (∀ moment ∈ moments list map, moment.pays (stretch list map) ≤ moment.pays (crossing list map) ∧
      moment.pays (stretch list map) ≤ moment.pays (imbalance list map) +
        (moment.pays (overfill list map) + moment.pays (stalled list map))) ∧
    tally list map (stretch list map) ≤ tally list map (imbalance list map) +
      (tally list map (overfill list map) + tally list map (stalled list map)) ∧
    tally list map (overfill list map) ≤ list.order.countP (isHybrid list) ∧
    (ControlBehind list → tally list map (imbalance list map) = 0) ∧
    ((∀ node ∈ nodes, KeepsToLane node) → tally list map (stalled list map) = 0) := by
  intro list map
  have valid : Valid list := valid_of_ordered (Execution.ordered_ofNodes new)
  have differ : LinesDiffer list := linesDiffer_ofNodes lines
  have holds : map.Holds list := HybridMap.holds_ofList valid differ
  exact ⟨balanced_wallTime_le valid differ holds index,
    fun _ => stretch_of_mem_moments valid holds, tally_stretch_le valid holds,
    tally_overfill_le valid map, tally_imbalance valid holds,
    fun keep => tally_stalled valid holds (lanesApart_ofNodes new keep)⟩

def store (line : Nat) (target : String) : Instruction :=
  .ofOperation line .classical (.classical "MOVE" [.address target, .literal (.ofReal 1)])

/-- Independent work for both lanes behind a hybrid instruction. Both gates are pulled in front of it, where one would do
    to be level with the store, and the stores behind it are left alone. -/
def crowded : List Instruction :=
  [store 0 "a", .ofOperation 1 .classicalToQuantum (.gate "RX" [.address "a"] ["9"]),
    .ofOperation 2 .quantum (.gate "H" [] ["0"]), .ofOperation 3 .quantum (.gate "H" [] ["1"]), store 4 "b", store 5 "c"]

/-- A label in front of a run. The store is pulled in front of the hybrid instruction, where the label is already. -/
def labelled : List Instruction :=
  [.ofOperation 0 .control (.label "top"), .ofOperation 1 .quantum (.gate "H" [] ["0"]),
    .ofOperation 2 .quantumToClassical (.measure "0" (some "r")), .ofOperation 3 .quantum (.gate "H" [] ["1"]),
    store 4 "b"]

/-- Stores that wait for a gate, which is taken for purely quantum though it reads memory. All three stay behind. -/
def crossed : List Instruction :=
  [.ofOperation 0 .quantum (.gate "H" [] ["0"]), .ofOperation 1 .quantum (.gate "RX" [.address "a"] ["1"]),
    store 2 "a", store 3 "a", .ofOperation 4 .quantumToClassical (.measure "0" (some "r"))]

theorem isNew_crowded : ∀ node ∈ crowded, node.IsNew := by
  simp [crowded, store, Instruction.isNew_ofOperation]

theorem isNew_labelled : ∀ node ∈ labelled, node.IsNew := by
  simp [labelled, store, Instruction.isNew_ofOperation]

theorem isNew_crossed : ∀ node ∈ crossed, node.IsNew := by
  simp [crossed, store, Instruction.isNew_ofOperation]

theorem crowded_slows_by_one :
    let list := InstructionList.ofNodes 0 "start" crowded
    let map := HybridMap.ofList list
    (∃ order after changes, balanced list map = .ok order ∧
      Workspace.installOrder 0 list order = .ok (after, changes) ∧
      after.wallTime + tally list map (relief list map) ≤ 4 + 1) ∧
    (∀ moment ∈ moments list map, moment.pays (stretch list map) ≤ moment.pays (crossing list map)) ∧
    1 ≤ 0 + (tally list map (overfill list map) + 0) ∧
    tally list map (overfill list map) ≤ 1 := by
  intro list map
  obtain ⟨slows, moved, most, few, level, ready⟩ :=
    balancing_slows_by_charges isNew_crowded (by decide +kernel) 0 "start" 0
  have time : list.wallTime = 4 := by decide +kernel
  have stretched : tally list map (stretch list map) = 1 := by decide +kernel
  have hybrids : list.order.countP (isHybrid list) = 1 := by decide +kernel
  have apart := level (by decide +kernel)
  have stays := ready (by decide +kernel)
  rw [time, stretched] at slows
  rw [stretched] at most
  rw [apart, stays] at most
  exact ⟨slows, fun moment member => (moved moment member).1, most, few.trans hybrids.le⟩

/-- The wall time of a list with its lanes balanced by its own hybrid map. -/
def balancedTime? (list : InstructionList) : Option Nat :=
  match balanced list (HybridMap.ofList list) with
  | .error _ => none
  | .ok order => ((Workspace.installOrder 0 list order).toOption).map (fun installed => installed.1.wallTime)

/-- Balancing the lanes of a list may make it slower. -/
theorem balancing_may_slow_down :
    ¬ ∀ {nodes : List Instruction}, (∀ node ∈ nodes, node.IsNew) → (nodes.map Instruction.line).Nodup →
      ∀ (block : Nat) (title : String) (index : Nat),
        let list := InstructionList.ofNodes block title nodes
        ∃ order after changes, balanced list (HybridMap.ofList list) = .ok order ∧
          Workspace.installOrder index list order = .ok (after, changes) ∧ after.wallTime ≤ list.wallTime := by
  intro never
  obtain ⟨order, after, changes, given, installed, most⟩ := never isNew_crowded (by decide +kernel) 0 "start" 0
  have slower : balancedTime? (InstructionList.ofNodes 0 "start" crowded) = some 5 := by decide +kernel
  have time : (InstructionList.ofNodes 0 "start" crowded).wallTime = 4 := by decide +kernel
  rw [balancedTime?, given] at slower
  dsimp only at slower
  rw [installed] at slower
  have five : after.wallTime = 5 := Option.some.inj slower
  omega

/-- Whether balancing some list makes it slower by more than a bound. -/
def SlowsBeyond (bound : InstructionList → HybridMap → Nat) : Prop :=
  ∃ nodes : List Instruction, (∀ node ∈ nodes, node.IsNew) ∧ (nodes.map Instruction.line).Nodup ∧
    let list := InstructionList.ofNodes 0 "start" nodes
    ∃ time, balancedTime? list = some time ∧ list.wallTime + bound list (HybridMap.ofList list) < time

/-- None of the three charges can be left out. -/
theorem charges_are_needed :
    SlowsBeyond (fun list map => tally list map (imbalance list map) + tally list map (stalled list map)) ∧
    SlowsBeyond (fun list map => tally list map (overfill list map) + tally list map (stalled list map)) ∧
    SlowsBeyond (fun list map => tally list map (imbalance list map) + tally list map (overfill list map)) := by
  refine ⟨⟨crowded, isNew_crowded, ?_, 5, ?_, ?_⟩, ⟨labelled, isNew_labelled, ?_, 4, ?_, ?_⟩,
    ⟨crossed, isNew_crossed, ?_, 4, ?_, ?_⟩⟩ <;> decide +kernel

end TwoLane.Schedule
