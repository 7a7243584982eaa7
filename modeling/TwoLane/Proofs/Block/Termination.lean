import TwoLane.Proofs.Block.Bound

/-! # The loop over the waiting blocks ends

Left to itself the loop goes on while a block waits, and a call may ask for more blocks than the loop has taken up. But
every turn leaves fewer steps: each name that can be asked for is filled once, and in between the waiting blocks get
fewer. So the loop ends after no more turns than the bound of a construction allows for, and the bound changes nothing.
-/

namespace TwoLane

namespace Inlining

variable {root : Level} {state next : Inlining} {turns : Nat} {outcome other : Except ProgramError Inlining}

/-- A turn of the loop: the first waiting block is taken up. -/
def TakesUp (state next : Inlining) : Prop :=
  state.waiting ≠ [] ∧ Leads state next

/-- What the loop comes to and in how many turns, where nothing bounds them. It ends when no block waits any more, or with
    the turn that fails. -/
inductive Ends : Inlining → Nat → Except ProgramError Inlining → Prop
  | done {state : Inlining} : state.waiting = [] → Ends state 0 (.ok state)
  | fails {state : Inlining} {error : ProgramError} : state.waiting ≠ [] → state.step = .error error →
      Ends state 1 (.error error)
  | turn {state next : Inlining} {turns : Nat} {outcome : Except ProgramError Inlining} : TakesUp state next →
      Ends next turns outcome → Ends state (turns + 1) outcome

/-- With as many steps as the loop takes turns, or with more, a construction comes to the same as the loop. -/
theorem Ends.steps_eq (ends : Ends state turns outcome) {bound : Nat} (enough : turns ≤ bound) :
    Inlining.steps bound state = outcome := by
  have step_of_waiting : ∀ {state : Inlining} {bound : Nat}, state.waiting ≠ [] →
      Inlining.steps (bound + 1) state = state.step >>= Inlining.steps bound := by
    intro state bound waits
    obtain ⟨filling, rest, head⟩ := List.exists_cons_of_ne_nil waits
    rw [Inlining.steps, head]
  induction ends generalizing bound with
  | done none =>
      cases bound with
      | zero => rfl
      | succ bound => rw [Inlining.steps, none]
  | fails waits failed =>
      obtain ⟨bound, rfl⟩ := Nat.exists_eq_add_of_le' enough
      rw [step_of_waiting waits, failed]
      rfl
  | turn turn _ ih =>
      obtain ⟨bound, rfl⟩ := Nat.exists_eq_add_of_le' (Nat.le_of_add_left_le enough)
      rw [step_of_waiting turn.1, turn.2]
      exact ih (by omega)

/-- From a state that the construction comes to, the turns of the loop use up the steps that are left. -/
theorem Built.acc (wf : root.WellFormed) (built : Built root state) :
    Acc (fun next state => TakesUp state next) state := by
  induction left : remaining root state using Nat.strong_induction_on generalizing state with
  | _ bound ih =>
      refine .intro state (fun next turn => ?_)
      have less := built.remaining_lt wf turn.2 turn.1
      exact ih _ (left ▸ less) (built.step turn.2) rfl

/-- No chain of turns goes on for ever without an outcome. -/
theorem exists_ends_of_acc (acc : Acc (fun next state => TakesUp state next) state) :
    ∃ turns outcome, Ends state turns outcome := by
  induction acc with
  | intro state _ ih =>
      by_cases none : state.waiting = []
      · exact ⟨0, .ok state, .done none⟩
      · cases leads : state.step with
        | error error => exact ⟨1, .error error, .fails none leads⟩
        | ok next =>
            obtain ⟨turns, outcome, ends⟩ := ih next ⟨none, leads⟩
            exact ⟨turns + 1, outcome, .turn ⟨none, leads⟩ ends⟩

theorem Ends.le_remaining (wf : root.WellFormed) (built : Built root state) (ends : Ends state turns outcome) :
    turns ≤ remaining root state := by
  induction ends with
  | done _ => exact Nat.zero_le _
  | fails waits _ => exact (List.length_pos_iff.mpr waits).trans_le (Nat.le_add_left _ _)
  | turn turn _ ih => exact (ih (built.step turn.2)).trans_lt (built.remaining_lt wf turn.2 turn.1)

theorem remaining_first_le (wf : root.WellFormed) (leads : Leads (.initial root) next) :
    remaining root next + 1 ≤ root.fillingBound := by
  have enough := blockNames_le_fillingBound root
  have filled := (first_fills wf leads).filled
  have asked : next.waiting.length ≤ 2 := length_fill_le (show Inlining.fill _ (first root) = .ok next from leads)
  simp only [remaining, filled, List.length_cons, List.length_nil]
  omega

theorem Ends.le_fillingBound (wf : root.WellFormed) (ends : Ends (.initial root) turns outcome) :
    turns ≤ root.fillingBound := by
  have enough := blockNames_le_fillingBound root
  cases ends with
  | done none => exact Nat.zero_le _
  | fails _ _ => omega
  | turn turn further =>
      have few := further.le_remaining wf ⟨_, turn.2, .refl⟩
      exact (Nat.succ_le_succ few).trans (remaining_first_le wf turn.2)

end Inlining

open Inlining

/-- The loop over the waiting blocks of a program, without a bound on its turns, ends: no run of turns goes on for ever,
    and the loop comes to a graph or to an error in at most as many turns as the bound of a construction allows for. That
    is what the construction with the bound comes to, and no larger bound would change it. -/
theorem construction_ends {root : Level} (wf : root.WellFormed) :
    Acc (fun next state => TakesUp state next) (.initial root) ∧
      ∃ turns ≤ root.fillingBound, ∃ outcome, Ends (.initial root) turns outcome ∧
        BlockGraph.ofLevel root = outcome.map Inlining.graph ∧
        ∀ bound, turns ≤ bound → Inlining.steps bound (.initial root) = outcome := by
  have acc : Acc (fun next state => TakesUp state next) (.initial root) :=
    .intro _ (fun next turn => (show Built root next from ⟨next, turn.2, .refl⟩).acc wf)
  refine ⟨acc, ?_⟩
  obtain ⟨turns, outcome, ends⟩ := exists_ends_of_acc acc
  have few := ends.le_fillingBound wf
  refine ⟨turns, few, outcome, ends, ?_, fun bound enough => ends.steps_eq enough⟩
  rw [BlockGraph.ofLevel]
  split
  · next empty =>
      obtain ⟨last, run, same⟩ := fill_of_no_lines (List.isEmpty_iff.mp empty)
      rw [← ends.steps_eq few, run, ← same]
      rfl
  · rw [ends.steps_eq few]

/-! ## Circuits that call one another -/

/-- A circuit that calls `ping` again. -/
def pongLevel : Level :=
  { Level.ofLines [3] with calls := [(3, ⟨"ping", []⟩)] }

/-- A circuit that calls the `pong` defined in it, which hides the one of the program. -/
def pingLevel : Level :=
  { Level.ofLines [2, 4] with calls := [(4, ⟨"pong", []⟩)], circuits := [("pong", pongLevel)] }

def pingPongLevel : Level :=
  { Level.ofLines [0, 1, 5] with
    labels := [("loop", 0)]
    conditionalJumps := [(1, "loop")]
    calls := [(5, ⟨"ping", []⟩)]
    circuits := [("ping", pingLevel), ("pong", Level.ofLines [7])] }

theorem pingPongLevel_wellFormed : pingPongLevel.WellFormed := by
  have pong : pongLevel.WellFormed := .intro (by decide) (by decide) (fun none => by cases none)
  refine .intro (by decide) (by decide) (fun {name body} member => ?_)
  rcases List.mem_cons.mp member with here | there
  · cases here
    refine .intro (by decide) (by decide) (fun inside => ?_)
    cases List.mem_singleton.mp inside
    exact pong
  · cases List.mem_singleton.mp there
    exact .intro (by decide) (by decide) (fun none => by cases none)

theorem pingPongLevel_ends : pingPongLevel.WellFormed ∧ ∃ turns,
    Ends (.initial pingPongLevel) turns (.error (.recursiveCircuit "ping")) ∧ turns ≤ pingPongLevel.fillingBound := by
  refine ⟨pingPongLevel_wellFormed, ?_⟩
  obtain ⟨_, turns, few, outcome, ends, same, _⟩ := construction_ends pingPongLevel_wellFormed
  cases outcome with
  | ok last => cases same
  | error error =>
      cases same
      exact ⟨turns, ends, few⟩

end TwoLane
