import TwoLane.Proofs.Schedule.Emission

/-! # Piece by piece

The pieces of a list make up its order. A schedule that emits all of each piece behind the pieces before it gives an
order of the whole list that keeps to the chains and leaves control instructions in their positions among each other.
-/

namespace TwoLane.Schedule

open Execution (Ordered)

variable {list : InstructionList} {emitted after order : List Nat} {id other : Nat} {piece : Piece}

def Piece.ids : Piece → List Nat
  | .fixed id => [id]
  | .run ids => ids

def steers (list : InstructionList) (id : Nat) : Bool :=
  ((list.nodes[id]?).map (fun node => node.category.isControl)).getD false

/-- Whether a piece is a control instruction or holds none. -/
def Piece.Fits (list : InstructionList) : Piece → Prop
  | .fixed id => steers list id = true
  | .run ids => ∀ id ∈ ids, steers list id = false

theorem closeRun_spec (run : List Nat) (plain : ∀ id ∈ run, steers list id = false) :
    (closeRun run).flatMap Piece.ids = run ∧ ∀ piece ∈ closeRun run, piece.Fits list := by
  unfold closeRun
  split
  · next empty =>
      rw [List.isEmpty_iff.mp empty]
      exact ⟨rfl, fun _ member => absurd member List.not_mem_nil⟩
  · refine ⟨by simp [Piece.ids], fun piece member => ?_⟩
    rw [List.mem_singleton.mp member]
    exact plain

theorem cut_spec (list : InstructionList) (run : List Nat) (nodes : List Instruction)
    (plain : ∀ id ∈ run, steers list id = false)
    (each : ∀ node ∈ nodes, steers list node.id = node.category.isControl) :
    (cut run nodes).flatMap Piece.ids = run ++ nodes.map Instruction.id ∧
      ∀ piece ∈ cut run nodes, piece.Fits list := by
  induction nodes generalizing run with
  | nil =>
      rw [cut, List.map_nil, List.append_nil]
      exact closeRun_spec run plain
  | cons node rest ih =>
      have own := each node List.mem_cons_self
      have later := fun n member => each n (List.mem_cons_of_mem node member)
      rw [cut]
      split
      · next control =>
          obtain ⟨closed, fits⟩ := closeRun_spec run plain
          obtain ⟨ids, further⟩ := ih [] (fun _ member => absurd member List.not_mem_nil) later
          refine ⟨?_, ?_⟩
          · rw [List.flatMap_append, List.flatMap_cons, closed, ids]
            rfl
          · intro piece member
            rcases List.mem_append.mp member with old | new
            · exact fits piece old
            · rcases List.mem_cons.mp new with rfl | new
              · exact own.trans control
              · exact further piece new
      · next free =>
          obtain ⟨ids, further⟩ := ih (run ++ [node.id]) (by
            intro id member
            rcases List.mem_append.mp member with old | new
            · exact plain id old
            · rw [List.mem_singleton.mp new, own]
              simpa using free) later
          exact ⟨by rw [ids, List.map_cons, List.append_assoc]; rfl, further⟩

theorem pieces_spec (valid : Valid list) :
    (pieces list).flatMap Piece.ids = list.order ∧ ∀ piece ∈ pieces list, piece.Fits list := by
  obtain ⟨ids, fits⟩ := cut_spec list [] list.running
    (fun _ member => absurd member List.not_mem_nil) (by
      intro node member
      obtain ⟨_, found⟩ := InstructionList.id_of_mem_running valid.numbered member
      rw [steers, found]
      rfl)
  rw [List.nil_append, InstructionList.map_id_running valid.numbered valid.inside] at ids
  exact ⟨ids, fits⟩

/-! ## Emitting pieces -/

/-- Whether a list goes on with all instructions of a piece. -/
structure Emits (list : InstructionList) (piece : Piece) (emitted after : List Nat) : Prop where
  emission : Emission list after
  extends' : Extends piece.ids emitted after
  all : piece.ids ⊆ after

/-- Whether a piece is the next one to be emitted: what its instructions wait for is emitted or in the piece. -/
structure Follows (list : InstructionList) (piece : Piece) (emitted : List Nat) : Prop where
  emission : Emission list emitted
  sublist : piece.ids.Sublist list.order
  closed : ∀ id ∈ piece.ids, ∀ other ∈ list.predecessors id, other ∈ emitted ∨ other ∈ piece.ids

/-- In front of a piece all instructions of the pieces before it, and no others, are emitted. -/
theorem follows_of_split (valid : Valid list) (emission : Emission list emitted) {front back : List Nat}
    (split : list.order = front ++ (piece.ids ++ back)) (before : ∀ id, id ∈ emitted ↔ id ∈ front) :
    Follows list piece emitted where
  emission := emission
  sublist := by
    rw [split]
    exact (List.sublist_append_left _ _).trans (List.sublist_append_right _ _)
  closed := by
    intro id member other predecessor
    have running : id ∈ list.order := by
      rw [split]
      exact List.mem_append_right _ (List.mem_append_left _ member)
    have there := valid.emission.mem_of_predecessor running predecessor
    obtain ⟨first, further, here⟩ := List.append_of_mem member
    have behind : other ∉ id :: (further ++ back) := by
      refine valid.not_behind ?_ predecessor
      rw [split, here]
      refine List.Sublist.trans ?_ (List.sublist_append_right _ _)
      rw [List.append_assoc]
      exact List.sublist_append_right _ _
    rw [split, here] at there
    rcases List.mem_append.mp there with old | own
    · exact .inl ((before other).mpr old)
    · rw [List.append_assoc] at own
      rcases List.mem_append.mp own with own | later
      · refine .inr ?_
        rw [here]
        exact List.mem_append_left _ own
      · exact absurd later behind

theorem Emits.perm {front back : List Nat} (emits : Emits list piece emitted after) (distinct : list.order.Nodup)
    (split : list.order = front ++ (piece.ids ++ back)) (before : ∀ id, id ∈ emitted ↔ id ∈ front) :
    ∃ new, after = emitted ++ new ∧ piece.ids.Perm new := by
  obtain ⟨new, same, own⟩ := emits.extends'
  have once := emits.emission.distinct
  rw [same] at once
  rw [split] at distinct
  obtain ⟨_, further, apart⟩ := List.nodup_append.mp distinct
  have pieceOnce := (List.nodup_append.mp further).1
  refine ⟨new, same, (List.perm_ext_iff_of_nodup pieceOnce (List.nodup_append.mp once).2.1).mpr ?_⟩
  intro id
  refine ⟨fun member => ?_, fun member => own member⟩
  have there := emits.all member
  rw [same] at there
  refine (List.mem_append.mp there).resolve_left (fun old => ?_)
  exact apart id ((before id).mp old) id (List.mem_append_left _ member) rfl

/-- Instructions of a piece that come in another order steer control in the same order. -/
theorem Piece.Fits.filter_steers {new : List Nat} (fits : piece.Fits list) (perm : piece.ids.Perm new) :
    new.filter (steers list) = piece.ids.filter (steers list) := by
  cases piece with
  | fixed id =>
      have same : new = [id] := List.perm_singleton.mp perm.symm
      rw [same]
      rfl
  | run ids =>
      have none : ids.filter (steers list) = [] :=
        List.filter_eq_nil_iff.mpr (fun id member => by simp [fits id member])
      have none' : new.filter (steers list) = [] :=
        List.filter_eq_nil_iff.mpr (fun id member => by simp [fits id (perm.mem_iff.mpr member)])
      exact none'.trans none.symm

theorem Piece.Fits.inPlace {new : List Nat} (fits : piece.Fits list) (perm : piece.ids.Perm new) {i : Nat}
    (found : piece.ids[i]? = some id) (isSteering : steers list id = true) : new[i]? = some id ∧ i = 0 := by
  cases piece with
  | fixed own =>
      rw [show new = [own] from List.perm_singleton.mp perm.symm]
      have inside := (List.getElem?_eq_some_iff.mp found).1
      exact ⟨found, Nat.lt_one_iff.mp inside⟩
  | run ids =>
      rw [fits id (List.mem_of_getElem? found)] at isSteering
      cases isSteering

/-- What holds in front of all pieces, and goes on to hold behind each of them, holds behind the last one. -/
theorem pieces_recursion (valid : Valid list) {step : List Nat → Piece → List Nat}
    (each : ∀ piece ∈ pieces list, ∀ emitted, Follows list piece emitted →
      Emits list piece emitted (step emitted piece))
    {motive : (rest : List Piece) → (front emitted : List Nat) → Prop} (start : motive (pieces list) [] [])
    (next : ∀ {piece rest front back emitted new}, piece.Fits list → Follows list piece emitted →
      list.order = front ++ (piece.ids ++ back) → front.Perm emitted → piece.ids.Perm new →
        step emitted piece = emitted ++ new → motive (piece :: rest) front emitted →
          motive rest (front ++ piece.ids) (emitted ++ new)) :
    Emission list ((pieces list).foldl step []) ∧ list.order.Perm ((pieces list).foldl step []) ∧
      motive [] list.order ((pieces list).foldl step []) := by
  obtain ⟨whole, fits⟩ := pieces_spec valid
  have distinct := valid.emission.distinct
  have through : ∀ (rest : List Piece) (front emitted : List Nat), rest ⊆ pieces list →
      list.order = front ++ rest.flatMap Piece.ids → Emission list emitted → front.Perm emitted →
      motive rest front emitted → Emission list (rest.foldl step emitted) ∧ list.order.Perm (rest.foldl step emitted) ∧
        motive [] list.order (rest.foldl step emitted) := by
    intro rest
    induction rest with
    | nil =>
        intro front emitted _ split emission perm holds
        rw [List.flatMap_nil, List.append_nil] at split
        subst split
        exact ⟨emission, perm, holds⟩
    | cons piece rest ih =>
        intro front emitted inside split emission perm holds
        have before : ∀ id, id ∈ emitted ↔ id ∈ front := fun id => perm.mem_iff.symm
        rw [List.flatMap_cons] at split
        have own := inside List.mem_cons_self
        have follows := follows_of_split valid emission split before
        have emits := each piece own emitted follows
        obtain ⟨new, same, permPiece⟩ := emits.perm distinct split before
        have further := next (fits piece own) follows split perm permPiece same holds
        rw [← same] at further
        refine ih (front ++ piece.ids) _ (List.subset_of_cons_subset inside) ?_ emits.emission ?_ further
        · rw [List.append_assoc]
          exact split
        · rw [same]
          exact perm.append permPiece
  exact through (pieces list) [] [] (List.Subset.refl _) whole.symm (emission_nil list) (.refl _) start

theorem pieces_induction (valid : Valid list) {step : List Nat → Piece → List Nat}
    (each : ∀ piece ∈ pieces list, ∀ emitted, Follows list piece emitted →
      Emits list piece emitted (step emitted piece)) {motive : (front emitted : List Nat) → Prop} (start : motive [] [])
    (next : ∀ {piece front back emitted new}, piece.Fits list → Follows list piece emitted →
      list.order = front ++ (piece.ids ++ back) → front.Perm emitted → piece.ids.Perm new →
        step emitted piece = emitted ++ new → motive front emitted → motive (front ++ piece.ids) (emitted ++ new)) :
    Emission list ((pieces list).foldl step []) ∧ list.order.Perm ((pieces list).foldl step []) ∧
      motive list.order ((pieces list).foldl step []) :=
  pieces_recursion valid each (motive := fun _ front emitted => motive front emitted) start next

/-- Whether an order holds a whole list, each instruction behind its predecessors, and leaves control instructions in
    their places, the same instructions in front of each. -/
structure Arranges (list : InstructionList) (order : List Nat) : Prop where
  perm : list.order.Perm order
  emission : Emission list order
  inPlace : ∀ {i id : Nat}, list.order[i]? = some id → steers list id = true →
    order[i]? = some id ∧ (list.order.take i).Perm (order.take i)
  steers : order.filter (steers list) = list.order.filter (steers list)

theorem arranges_foldl (valid : Valid list) {step : List Nat → Piece → List Nat}
    (each : ∀ piece ∈ pieces list, ∀ emitted, Follows list piece emitted →
      Emits list piece emitted (step emitted piece)) :
    Arranges list ((pieces list).foldl step []) := by
  obtain ⟨emission, perm, inPlace, steer⟩ := pieces_induction valid each
    (motive := fun front emitted => (∀ {i id : Nat}, front[i]? = some id → steers list id = true →
        emitted[i]? = some id ∧ (front.take i).Perm (emitted.take i)) ∧
      emitted.filter (steers list) = front.filter (steers list))
    ⟨fun found => by simp at found, rfl⟩ (by
      rintro piece front back emitted new fits _ _ perm permPiece _ ⟨inPlace, steer⟩
      refine ⟨fun {i id} found isSteering => ?_, ?_⟩
      · rcases Nat.lt_or_ge i front.length with early | late
        · have early' := perm.length_eq ▸ early
          rw [List.getElem?_append_left early] at found
          rw [List.getElem?_append_left early', List.take_append_of_le_length early.le,
            List.take_append_of_le_length early'.le]
          exact inPlace found isSteering
        · have late' := perm.length_eq ▸ late
          rw [List.getElem?_append_right late] at found
          obtain ⟨same, first⟩ := fits.inPlace permPiece found isSteering
          rw [List.getElem?_append_right late', List.take_append, List.take_append, List.take_of_length_le late,
            List.take_of_length_le late', ← perm.length_eq, first, List.take_zero, List.take_zero, List.append_nil,
            List.append_nil]
          exact ⟨first ▸ same, perm⟩
      · rw [List.filter_append, List.filter_append, steer, fits.filter_steers permPiece])
  exact ⟨perm, emission, inPlace, steer⟩

/-- Whether an order of the whole list keeps to its chains and leaves control instructions in their positions among
    each other. -/
structure Reorders (list : InstructionList) (order : List Nat) : Prop where
  perm : list.order.Perm order
  ordered : Ordered { list with order := order }
  steers : order.filter (steers list) = list.order.filter (steers list)

theorem Arranges.reorders (arranges : Arranges list order) (ordered : Ordered list) : Reorders list order :=
  ⟨arranges.perm, arranges.emission.ordered ordered arranges.perm, arranges.steers⟩

theorem arranges_orNothing (arranges : Arranges list order) :
    orNothing list order = [] ∨ (Arranges list (orNothing list order) ∧ orNothing list order ≠ list.order) := by
  unfold orNothing
  split
  · exact .inl rfl
  · next differ => exact .inr ⟨arranges, differ⟩

/-- A control instruction is emitted once what it waits for is. -/
theorem Follows.emits_fixed (valid : Valid list) (follows : Follows list (.fixed id) emitted) :
    Emits list (.fixed id) emitted (emit emitted id) where
  emission := by
    refine follows.emission.emit (follows.sublist.subset List.mem_cons_self) ?_
    intro other predecessor
    refine (follows.closed id List.mem_cons_self other predecessor).resolve_right (fun same => ?_)
    exact valid.not_behind follows.sublist predecessor same
  extends' := extends_emit List.mem_cons_self
  all := by
    intro other member
    exact mem_emit.mpr (.inr (List.mem_singleton.mp member))

theorem Follows.drain {pool : List Nat} (valid : Valid list) (follows : Follows list piece emitted)
    (emission : Emission list after) (extends' : Extends piece.ids emitted after) (sublist : pool.Sublist piece.ids)
    (closed : ∀ id ∈ pool, ∀ other ∈ list.predecessors id, other ∈ piece.ids → other ∈ after ∨ other ∈ pool)
    (priority : Category → Nat) :
    Emission list (drain list priority pool after) ∧ Extends piece.ids emitted (drain list priority pool after) ∧
      pool ⊆ drain list priority pool after ∧ after ⊆ drain list priority pool after := by
  obtain ⟨further, more, all⟩ := emission.drain valid (sublist.trans follows.sublist) (by
    intro id member other predecessor
    rcases follows.closed id (sublist.subset member) other predecessor with old | own
    · exact .inl (extends'.subset old)
    · exact closed id member other predecessor own) priority
  exact ⟨further, extends'.trans (more.mono sublist.subset), all, more.subset⟩

theorem Follows.emits_drain (valid : Valid list) (follows : Follows list piece emitted)
    (emission : Emission list after) (extends' : Extends piece.ids emitted after) (priority : Category → Nat) :
    Emits list piece emitted (Schedule.drain list priority piece.ids after) := by
  obtain ⟨further, more, all, _⟩ := follows.drain valid emission extends' (.refl _)
    (fun _ _ _ _ own => .inr own) priority
  exact ⟨further, more, all⟩

theorem Follows.emit (follows : Follows list piece emitted) (emission : Emission list after)
    (extends' : Extends piece.ids emitted after) (member : id ∈ piece.ids)
    (closed : ∀ other ∈ list.predecessors id, other ∈ piece.ids → other ∈ after) :
    Emission list (emit after id) ∧ Extends piece.ids emitted (emit after id) := by
  refine ⟨emission.emit (follows.sublist.subset member) ?_, extends'.trans (extends_emit member)⟩
  intro other predecessor
  rcases follows.closed id member other predecessor with old | own
  · exact extends'.subset old
  · exact closed other predecessor own

end TwoLane.Schedule
