import TwoLane.Proofs.Schedule.Pieces

/-! # Runs between control instructions

The longest stretches of an order without control instructions are the runs among its pieces. So whatever a schedule
emits piece by piece holds each of them as one block, made when all pieces in front of it were emitted.
-/

namespace TwoLane.Schedule

variable {list : InstructionList} {run front back tail emitted new later order : List Nat} {id : Nat}

/-- Whether instructions are a longest stretch of an order without control instructions. -/
structure IsRun (list : InstructionList) (run : List Nat) : Prop where
  nonempty : run ≠ []
  plain : ∀ id ∈ run, steers list id = false
  longest : ∃ front back, list.order = front ++ (run ++ back) ∧ (∀ id ∈ front.getLast?, steers list id = true) ∧
    ∀ id ∈ back.head?, steers list id = true

/-! ## Cutting -/

theorem front_passes (plain : ∀ id ∈ run, steers list id = false) (ends : ∀ id ∈ front.getLast?, steers list id = true)
    (split : run ++ tail = front ++ back) : front = [] ∨ ∃ more, front = run ++ more ∧ tail = more ++ back := by
  rcases List.append_eq_append_iff.mp split with ⟨more, longer, rest⟩ | ⟨more, shorter, -⟩
  · exact .inr ⟨more, longer, rest⟩
  · refine .inl ?_
    by_contra filled
    have last := List.getLast?_eq_getLast_of_ne_nil filled
    have steering := ends _ last
    rw [plain _ (by rw [shorter]; exact List.mem_append_left _ (List.getLast_mem filled))] at steering
    cases steering

theorem head_steers (plain : ∀ id ∈ run, steers list id = false) (starts : ∀ id ∈ tail.head?, steers list id = true)
    {more : List Nat} (split : tail = more ++ back) (inside : more ⊆ run) : more = [] := by
  cases more with
  | nil => rfl
  | cons id more =>
      have steering := starts id (by rw [split]; rfl)
      rw [plain id (inside List.mem_cons_self)] at steering
      cases steering

/-- Two stretches that steer nothing, each up to a control instruction or to the end, are the same. -/
theorem run_unique {run' : List Nat} (plain : ∀ id ∈ run, steers list id = false)
    (plain' : ∀ id ∈ run', steers list id = false) (starts : ∀ id ∈ tail.head?, steers list id = true)
    (starts' : ∀ id ∈ back.head?, steers list id = true) (split : run ++ tail = run' ++ back) : run' = run := by
  rcases List.append_eq_append_iff.mp split with ⟨more, longer, rest⟩ | ⟨more, shorter, rest⟩
  · have none := head_steers plain' starts rest (longer ▸ List.subset_append_right _ _)
    rw [longer, none, List.append_nil]
  · have none := head_steers plain starts' rest (shorter ▸ List.subset_append_right _ _)
    rw [shorter, none, List.append_nil]

theorem mem_closeRun (nonempty : run ≠ []) : Piece.run run ∈ closeRun run := by
  rw [closeRun, if_neg (by simpa using nonempty)]
  exact List.mem_singleton_self _

/-- A longest stretch is cut out as a run. -/
theorem mem_cut {opened : List Nat} {nodes : List Instruction} (plainOpened : ∀ id ∈ opened, steers list id = false)
    (each : ∀ node ∈ nodes, steers list node.id = node.category.isControl) (nonempty : run ≠ [])
    (plain : ∀ id ∈ run, steers list id = false) (ends : ∀ id ∈ front.getLast?, steers list id = true)
    (starts : ∀ id ∈ back.head?, steers list id = true)
    (split : opened ++ nodes.map Instruction.id = front ++ (run ++ back)) : Piece.run run ∈ cut opened nodes := by
  induction nodes generalizing opened front with
  | nil =>
      rcases front_passes plainOpened ends split with rfl | ⟨more, -, rest⟩
      · obtain rfl := run_unique plainOpened plain (by simp) starts split
        rw [cut]
        exact mem_closeRun nonempty
      · have empty := (List.append_eq_nil_iff.mp (List.append_eq_nil_iff.mp rest.symm).2).1
        exact absurd empty nonempty
  | cons node rest ih =>
      have own := each node List.mem_cons_self
      have later := fun n member => each n (List.mem_cons_of_mem node member)
      rw [cut]
      split
      · next control =>
          rw [control] at own
          rcases front_passes plainOpened ends split with rfl | ⟨more, longer, rest'⟩
          · obtain rfl := run_unique plainOpened plain (by simpa using own) starts split
            exact List.mem_append_left _ (mem_closeRun nonempty)
          · refine List.mem_append_right _ (List.mem_cons_of_mem _ ?_)
            cases more with
            | nil =>
                -- the stretch would start with the control instruction
                rw [List.nil_append] at rest'
                exact absurd (head_steers plain (by simpa using own) rest' (List.Subset.refl _)) nonempty
            | cons first more =>
                obtain ⟨-, behind⟩ := List.cons.inj rest'
                refine ih (fun _ member => absurd member List.not_mem_nil) later (fun id last => ends id ?_) behind
                have filled : more ≠ [] := by
                  rintro rfl
                  cases last
                rw [longer, List.getLast?_append_cons, List.getLast?_cons_of_ne_nil filled]
                exact last
      · next free =>
          refine ih ?_ later ends ?_
          · intro id member
            rcases List.mem_append.mp member with old | new
            · exact plainOpened id old
            · rw [List.mem_singleton.mp new, own]
              simpa using free
          · rw [← split, List.map_cons, List.append_assoc]
            rfl

theorem IsRun.mem_pieces (valid : Valid list) (isRun : IsRun list run) : Piece.run run ∈ pieces list := by
  obtain ⟨front, back, split, ends, starts⟩ := isRun.longest
  refine mem_cut (fun _ member => absurd member List.not_mem_nil) ?_ isRun.nonempty isRun.plain ends
    starts ?_
  · intro node member
    obtain ⟨_, found⟩ := InstructionList.id_of_mem_running valid.numbered member
    rw [steers, found]
    rfl
  · rw [List.nil_append, InstructionList.map_id_running valid.numbered valid.inside, split]

/-! ## Blocks -/

/-- Whether an order holds the instructions of a run as one block, as a schedule emits them behind what it emits first. -/
structure Block (list : InstructionList) (step : List Nat → Piece → List Nat) (run order emitted new later : List Nat) :
    Prop where
  whole : order = emitted ++ (new ++ later)
  follows : Follows list (.run run) emitted
  emits : Emits list (.run run) emitted (emitted ++ new)
  made : step emitted (.run run) = emitted ++ new
  perm : run.Perm new

theorem IsRun.exists_block (valid : Valid list) (isRun : IsRun list run) {step : List Nat → Piece → List Nat}
    (each : ∀ piece ∈ pieces list, ∀ emitted, Follows list piece emitted →
      Emits list piece emitted (step emitted piece)) :
    ∃ emitted new later, Block list step run ((pieces list).foldl step []) emitted new later := by
  have member := isRun.mem_pieces valid
  obtain ⟨-, -, done⟩ := pieces_recursion valid each
    (motive := fun rest _ order => Piece.run run ∈ rest ∨ ∃ emitted new later, Block list step run order emitted new later)
    (.inl member) (by
      intro piece rest front back emitted new _ follows _ _ perm made made'
      rcases made' with waits | ⟨before, own, later, block⟩
      · rcases List.mem_cons.mp waits with rfl | waits
        · have emits := each _ member emitted follows
          rw [made] at emits
          exact .inr ⟨emitted, new, [], by rw [List.append_nil], follows, emits, made, perm⟩
        · exact .inl waits
      · refine .inr ⟨before, own, later ++ new, ?_, block.follows, block.emits, block.made, block.perm⟩
        rw [block.whole, List.append_assoc, List.append_assoc])
  exact done.resolve_left List.not_mem_nil

theorem Block.absent {step : List Nat → Piece → List Nat} (block : Block list step run order emitted new later)
    (member : id ∈ run) : id ∉ emitted := fun old =>
  (List.nodup_append.mp block.emits.emission.distinct).2.2 id old id (block.perm.mem_iff.mp member) rfl

/-- Inside a block places are counted from its start. -/
theorem Block.idxOf_eq {step : List Nat → Piece → List Nat} (block : Block list step run order emitted new later)
    (member : id ∈ run) : order.idxOf id = emitted.length + new.idxOf id := by
  rw [block.whole, List.idxOf_append_of_notMem (block.absent member),
    List.idxOf_append_of_mem (block.perm.mem_iff.mp member), Nat.add_comm]

/-! ## Answers -/

/-- The order that an answer of a schedule stands for: an empty answer leaves the order as it is. -/
def carriedOut (list : InstructionList) (answer : List Nat) : List Nat :=
  if answer = [] then list.order else answer

theorem carriedOut_orNothing (perm : list.order.Perm order) : carriedOut list (orNothing list order) = order := by
  rw [orNothing]
  split
  · next same => rw [carriedOut, if_pos rfl, same]
  · rw [carriedOut]
    split
    · next empty =>
        rw [empty] at perm ⊢
        exact List.perm_nil.mp perm
    · rfl

end TwoLane.Schedule
