import TwoLane.Proofs.Liveness.Least

/-! # The rounds of liveness come to an end

What is live in front of a list is replaced in each round and not joined with what was found before. But as liveness is
monotone a round only adds names, and all of them occur in the lists or are read out. So some round changes nothing, and
the bound on the number of rounds hides nothing.
-/

namespace TwoLane.Liveness

open Indexed (Part)

variable {readout : List String} {lists : List InstructionList} {front last : List LiveSet} {turns : Nat}

/-- What is taken to be live in front of each list after a number of rounds. -/
def afterRounds (readout : List String) (lists : List InstructionList) : Nat → List LiveSet
  | 0 => lists.map (fun _ => .empty)
  | count + 1 => round readout lists (afterRounds readout lists count)

/-- What rounds come to and in how many of them, where nothing bounds them: they end with the first one that changes
    nothing. -/
inductive Rests (readout : List String) (lists : List InstructionList) : List LiveSet → Nat → List LiveSet → Prop where
  | still {front : List LiveSet} : round readout lists front = front → Rests readout lists front 1 front
  | further {front last : List LiveSet} {turns : Nat} : round readout lists front ≠ front →
      Rests readout lists (round readout lists front) turns last → Rests readout lists front (turns + 1) last

theorem Rests.rounds_eq (rests : Rests readout lists front turns last) {bound : Nat} (enough : turns ≤ bound) :
    rounds readout lists bound front = last := by
  induction rests generalizing bound with
  | still same =>
      obtain ⟨bound, rfl⟩ := Nat.exists_eq_add_of_le' enough
      rw [rounds]
      exact if_pos same
  | further differ _ ih =>
      obtain ⟨bound, rfl⟩ := Nat.exists_eq_add_of_le' (Nat.le_of_add_left_le enough)
      rw [rounds]
      exact (if_neg differ).trans (ih (by omega))

/-- As long as rounds change something they use up the names that are left. -/
theorem Growing.exists_rests (growing : Growing readout lists front) (bounded : Bounded readout lists front)
    (assigns : AllAssign lists) (sorted : Sorted.Increasing readout) {bound : Nat}
    (enough : lists.length * (readout.length + (lists.flatMap (fun list => list.running.flatMap broughtIn)).length) <
      measure lists.length front + bound) :
    ∃ turns ≤ bound, ∃ last, Rests readout lists front turns last := by
  induction bound generalizing front with
  | zero => exact absurd (growing.measure_le bounded) (by omega)
  | succ bound ih =>
      obtain ⟨within, next⟩ := growing.renew assigns sorted (List.range lists.length).reverse
      by_cases same : round readout lists front = front
      · exact ⟨1, by omega, front, .still same⟩
      · have more := growing.measure_lt next within same
        obtain ⟨turns, few, last, rests⟩ := ih next (bounded.renew _) (by omega)
        exact ⟨turns + 1, by omega, last, .further same rests⟩

theorem growing_afterRounds (assigns : AllAssign lists) (sorted : Sorted.Increasing readout) (count : Nat) :
    Growing readout lists (afterRounds readout lists count) ∧ Bounded readout lists (afterRounds readout lists count) := by
  induction count with
  | zero => exact ⟨growing_empties readout lists, bounded_empties readout lists⟩
  | succ count ih => exact ⟨(ih.1.renew assigns sorted _).2, ih.2.renew _⟩

/-- However steps have changed new lists, and whatever may follow them and is read out, each round of liveness keeps
    what it has found in front of each list, adds only names that occur in the lists or are read out, and after no more
    rounds than the bound allows for one changes nothing. The analysis answers what that one finds, and no larger bound
    would change it. -/
theorem rounds_come_to_rest {parts : List Part} (new : ∀ part ∈ parts, ∀ node ∈ part.nodes, node.IsNew)
    {state : Workspace} (worked : Worked parts state) (names : List String) :
    (∀ count, FrontWithin (afterRounds (Sorted.ofList names) state.lists count)
        (afterRounds (Sorted.ofList names) state.lists (count + 1)) ∧
      Bounded (Sorted.ofList names) state.lists (afterRounds (Sorted.ofList names) state.lists count)) ∧
    ∃ turns ≤ roundBound (Sorted.ofList names) state.lists, ∃ last,
      Rests (Sorted.ofList names) state.lists (afterRounds (Sorted.ofList names) state.lists 0) turns last ∧
        fixpoint (Sorted.ofList names) state.lists = last ∧
        ∀ bound, turns ≤ bound → rounds (Sorted.ofList names) state.lists bound
          (afterRounds (Sorted.ofList names) state.lists 0) = last := by
  have assigns := allAssign_of_tended (worked.tended new)
  have sorted := Sorted.increasing_ofList names
  have growing := growing_afterRounds assigns sorted
  refine ⟨fun count => ⟨((growing count).1.renew assigns sorted _).1, (growing count).2⟩, ?_⟩
  obtain ⟨turns, few, last, rests⟩ := (growing 0).1.exists_rests (growing 0).2 assigns sorted
    (show _ < _ + roundBound (Sorted.ofList names) state.lists by unfold roundBound; dsimp only; omega)
  exact ⟨turns, few, last, rests, rests.rounds_eq few, fun bound enough => rests.rounds_eq enough⟩

/-- Two lists that lead to each other, the first one twice and to a list that there is not. -/
def crossing : List Part :=
  [⟨0, "first", [.ofOperation 0 .classical (.classical "MOVE" [.address "a", .address "b"])], [1, 1, 7]⟩,
    ⟨1, "second", [.ofOperation 1 .classical (.classical "ADD" [.address "b", .address "a"])], [0]⟩]

/-- The addition is dead in the first round and alive from the second one on. -/
theorem crossing_comes_to_rest : ∃ turns last,
    Rests ["a"] (Step.earlyQuantum.perform (.ofLists (crossing.map Part.list) ["a"])).1.lists
      (afterRounds ["a"] (Step.earlyQuantum.perform (.ofLists (crossing.map Part.list) ["a"])).1.lists 0) turns last ∧
      last = [⟨["b"], []⟩, ⟨["a", "b"], []⟩] := by
  have new : ∀ part ∈ crossing, ∀ node ∈ part.nodes, node.IsNew := by
    simp only [crossing, List.forall_mem_cons, Instruction.isNew_ofOperation, List.not_mem_nil, false_imp_iff,
      implies_true, and_self]
  obtain ⟨_, turns, _, last, rests, same, _⟩ := rounds_come_to_rest new (.step .earlyQuantum (.new ["a"])) ["a"]
  refine ⟨turns, last, rests, same.symm.trans ?_⟩
  decide +kernel

end TwoLane.Liveness
