import TwoLane.Proofs.Block.Paths

/-! # When no graph can be built

A construction fails while it leads a block on, and the last line of that block is one that the machine may come to. A
construction that comes to its end has led all its blocks on. Then the machine is always bound for a block or inside
one, so every jump and every call that it may come to leads to a block as well. A call that the machine takes up leads
there too if it never returns, for the block behind it is asked for all the same.
-/

namespace TwoLane

namespace Inlining

open CallChain
open CallStack (Step MayGo Reachable Faulty jumpTo?)

variable {root : Level} {last : Inlining} {stack next callers : CallStack} {frame : Frame} {block line : Nat}
  {isFirst : Bool} {seen rest : List Visit} {error : ProgramError}

/-! ## A construction that fails -/

/-- A construction that fails does so for a faulty line that the machine may come to, in a chain of its own. -/
theorem exists_faulty_of_error (failed : BlockGraph.ofLevel root = .error error) :
    ∃ asked inner outer calls callers stop, Nested root asked (inner :: outer) calls callers ∧
      Reachable root (frameAt inner stop :: callers) ∧ Faulty (frameAt inner stop :: callers) error := by
  unfold BlockGraph.ofLevel at failed
  split at failed
  · cases failed
  · obtain ⟨state, further, stopped⟩ := leads_of_steps_eq_error (Result.of_map_eq_error failed)
    have arrived : ∀ filling ∈ state.waiting, ∃ asked, Arrived root asked filling := by
      intro filling waits
      rcases further.cases_head with rfl | ⟨second, leads, onward⟩
      · exact ⟨fun _ => True, List.mem_singleton.mp waits ▸ arrived_first root _⟩
      · exact ⟨_, Built.arrived ⟨second, leads, onward⟩ filling waits⟩
    unfold Inlining.step at stopped
    split at stopped
    · cases stopped
    · next filling rest head =>
        split at stopped
        · cases stopped
        · obtain ⟨asked, there⟩ := arrived filling (head ▸ List.mem_cons_self)
          exact ⟨asked, there.exists_faulty stopped⟩

/-! ## A construction that comes to its end -/

/-- A machine that a graph accounts for: it is bound for a block or inside one. -/
inductive Followed (root : Level) (last : Inlining) (stack : CallStack) : Prop where
  | bound {block : Nat} : Bound root last stack block → Followed root last stack
  | inside {block : Nat} {rest : List Visit} : Running root last false stack block rest → Followed root last stack

theorem Running.followed (finished : Finished root last) (running : Running root last isFirst stack block rest)
    (step : Step stack seen next) :
    Followed root last next ∨ isFirst = false ∧ ∃ target, Bound root last stack target := by
  cases running.progress finished with
  | opens later _ bound => exact .inr ⟨later, _, bound⟩
  | goes further steps =>
      obtain ⟨rfl, rfl⟩ := (steps _ _).mp step
      exact .inl (.inside further)
  | ends _ only =>
      obtain ⟨_, _, _, bound⟩ := only _ _ step
      exact .inl (.bound bound)

theorem Bound.followed (finished : Finished root last) (bound : Bound root last stack block)
    (step : Step stack seen next) : Followed root last next := by
  cases bound with
  | stopped => cases step
  | asked nested known =>
      obtain ⟨rest, running, _⟩ := finished.running nested known
      rcases running.followed finished step with followed | ⟨later, _⟩
      · exact followed
      · cases later
  | leaving nested behind =>
      obtain ⟨_, rfl⟩ := (CallStack.step_leave (List.getElem?_eq_none behind)).mp step
      exact .bound (.behind nested)

/-- What the line in front of a machine leads to. -/
inductive Fronts (root : Level) (last : Inlining) : CallStack → Nat → Turn → Prop where
  | intro {inner : LevelInstance} {outer : CallChain} {calls : List Nat} {callers : CallStack} {position line : Nat}
      {turn : Turn} (targets : List Nat) : Nested root (Known root last) (inner :: outer) calls callers →
      inner.level.Only line turn → (∀ ending, turn.ending? line position = some ending →
        LeadsOn (Known root last) inner outer ending targets) →
      Fronts root last (frameAt inner position :: callers) line turn

theorem Running.exists_fronts (finished : Finished root last)
    (running : Running root last isFirst (frame :: callers) block rest) (here : frame.line? = some line) :
    ∃ turn, Fronts root last (frame :: callers) line turn := by
  cases running with
  | intro nested follows leads =>
      have one := finished.oneEach nested
      obtain ⟨turn, only, _⟩ := one.exists_only (List.mem_of_getElem? here)
      refine ⟨turn, .intro (last.graph.branches block) nested only (fun ending ends => ?_)⟩
      subst follows
      exact one.ending_followRun here only ends isFirst ▸ leads

namespace Followed

theorem start (root : Level) (last : Inlining) : Followed root last (CallStack.ofProgram root) :=
  .bound (.start root last)

theorem step (finished : Finished root last) (followed : Followed root last stack) (step : Step stack seen next) :
    Followed root last next := by
  cases followed with
  | bound bound => exact bound.followed finished step
  | inside running =>
      rcases running.followed finished step with followed | ⟨_, target, bound⟩
      · exact followed
      · exact bound.followed finished step

theorem exists_fronts (finished : Finished root last) (followed : Followed root last (frame :: callers))
    (here : frame.line? = some line) : ∃ turn, Fronts root last (frame :: callers) line turn := by
  cases followed with
  | inside running => exact running.exists_fronts finished here
  | bound bound =>
      cases bound with
      | asked nested known =>
          obtain ⟨rest, running, _⟩ := finished.running nested known
          exact running.exists_fronts finished here
      | leaving nested behind => cases here.symm.trans (List.getElem?_eq_none behind)

theorem back (finished : Finished root last) (followed : Followed root last (frame :: callers))
    (here : frame.line? = some line) {call : Call} (onLine : frame.level.callAt? line = some call) :
    Followed root last (frame.advance :: callers) := by
  obtain ⟨turn, fronts⟩ := followed.exists_fronts finished here
  cases fronts with
  | intro targets nested only leads =>
      cases only.eq_call onLine
      obtain ⟨_, _, _, _, _, continues, _⟩ := leads _ rfl
      exact .bound (.of_continues nested continues)

theorem mayGo (finished : Finished root last) (followed : Followed root last stack) (goes : MayGo stack next) :
    Followed root last next := by
  cases goes with
  | step step => exact followed.step finished step
  | back here onLine => exact followed.back finished here onLine

theorem reachable (finished : Finished root last) (reachable : Reachable root stack) : Followed root last stack := by
  induction reachable with
  | refl => exact .start root last
  | tail _ goes ih => exact ih.mayGo finished goes

/-- The line in front of a machine that a graph accounts for is not faulty. -/
theorem not_faulty (finished : Finished root last) (followed : Followed root last stack) : ¬ Faulty stack error := by
  intro faulty
  cases faulty with
  | @label frame callers line label here onLine missing =>
      obtain ⟨turn, fronts⟩ := followed.exists_fronts finished here
      cases fronts with
      | @intro inner outer _ _ _ _ _ targets nested only leads =>
          have found : ∃ block more, LeadsToLabel (Known root last) (inner :: outer) label (block :: more) := by
            rcases only.eq_jump onLine with rfl | rfl
            · obtain ⟨block, rfl, there⟩ := leads _ rfl
              exact ⟨block, _, there⟩
            · obtain ⟨block, after, rfl, there, _⟩ := leads _ rfl
              exact ⟨block, _, there⟩
          obtain ⟨block, more, there⟩ := found
          obtain ⟨next, jumps, _⟩ := Bound.of_jump nested there _
          cases missing.symm.trans jumps
  | recursion here onLine opens =>
      obtain ⟨turn, fronts⟩ := followed.exists_fronts finished here
      cases fronts with
      | intro targets nested only leads =>
          cases only.eq_call onLine
          obtain ⟨_, _, _, _, callee, _⟩ := leads _ rfl
          cases (callee_eq_ok callee).1.symm.trans ((nested.isOpen _).mpr opens)
  | circuit here onLine missing =>
      obtain ⟨turn, fronts⟩ := followed.exists_fronts finished here
      cases fronts with
      | intro targets nested only leads =>
          cases only.eq_call onLine
          obtain ⟨_, _, _, _, callee, _⟩ := leads _ rfl
          cases missing.symm.trans ((nested.findCircuit _ _).trans (callee_eq_ok callee).2)

end Followed

/-- No graph is built for a program exactly if the machine may come to a faulty line, where each line carries one thing
    at most and no two places share the name of a block. The error is the one of such a line. -/
theorem fails_iff_reaches_fault (wf : root.WellFormed) (one : ∀ level, Level.Within root level → level.OneEach)
    (names : ∀ state, Built root state → NamesApart root state) :
    ((∃ error, BlockGraph.ofLevel root = .error error) ↔
      ∃ stack error, Reachable root stack ∧ Faulty stack error) ∧
      ∀ error, BlockGraph.ofLevel root = .error error → ∃ stack, Reachable root stack ∧ Faulty stack error := by
  have reached : ∀ error, BlockGraph.ofLevel root = .error error → ∃ stack, Reachable root stack ∧ Faulty stack error := by
    intro error failed
    obtain ⟨_, inner, _, _, callers, stop, _, reachable, faulty⟩ := exists_faulty_of_error failed
    exact ⟨_, reachable, faulty⟩
  refine ⟨⟨?_, ?_⟩, reached⟩
  · rintro ⟨error, failed⟩
    obtain ⟨stack, reachable, faulty⟩ := reached error failed
    exact ⟨stack, error, reachable, faulty⟩
  · rintro ⟨stack, error, reachable, faulty⟩
    cases outcome : BlockGraph.ofLevel root with
    | error error => exact ⟨error, rfl⟩
    | ok graph =>
        obtain ⟨last, _, _, built, done⟩ := BlockGraph.built_ofLevel wf outcome
        have finished : Finished root last := ⟨wf, one, built, done, (keptApart_iff wf built).mpr (names last built)⟩
        exact absurd faulty ((Followed.reachable finished reachable).not_faulty finished)

/-! ## A jump to nowhere behind a call -/

/-- A circuit that jumps to a label that is nowhere. -/
def strayGate : Level :=
  { Level.ofLines [5] with formals := ["q"], conditionalJumps := [(5, "lost")] }

/-- A program that calls the circuit on its second line. -/
def strayLevel : Level :=
  { Level.ofLines [0, 1] with calls := [(1, ⟨"gate", ["3"]⟩)], circuits := [("gate", strayGate)] }

theorem within_strayLevel {level : Level} (within : Level.Within strayLevel level) :
    level = strayLevel ∨ level = strayGate :=
  within.of_single rfl rfl

theorem strayLevel_wellFormed : strayLevel.WellFormed := by
  refine .intro (by decide) (by decide) ?_
  intro name body member
  cases List.mem_singleton.mp member
  exact .intro (by decide) (by decide) (fun none => by cases none)

theorem strayLevel_plainNames : strayLevel.PlainNames := by
  have noLabel : ∀ {level name line}, Level.Within strayLevel level → (name, line) ∉ level.labels := by
    intro level name line within
    rcases within_strayLevel within with rfl | rfl <;> exact List.not_mem_nil
  have names : ∀ {name}, Level.Names strayLevel name → name = "gate" := by
    intro name names
    cases names with
    | label within member => exact absurd member (noLabel within)
    | circuit within member =>
        rcases within_strayLevel within with rfl | rfl <;> cases member
        · rfl
        · next none => cases none
  refine ⟨fun named => ?_, fun named => ?_, fun member => absurd member (noLabel .top),
    fun within defined member _ => absurd member (noLabel (.circuit within defined))⟩
  · rw [names named]
    unfold BlockName.Unmarked
    decide
  · rw [names named]
    exact Level.ne_made (by decide) (by decide)

theorem strayLevel_fails : (∃ error, BlockGraph.ofLevel strayLevel = .error error) ∧
    ∃ stack, Reachable strayLevel stack ∧ Faulty stack (.undefinedLabel "lost" 5) := by
  have one : ∀ level, Level.Within strayLevel level → level.OneEach := by
    intro level within
    rcases within_strayLevel within with rfl | rfl <;> unfold Level.OneEach <;> decide
  obtain ⟨fails, fault⟩ := fails_iff_reaches_fault strayLevel_wellFormed one
    (fun _ _ => namesApart_of_plainNames strayLevel_plainNames)
  have called : Reachable strayLevel [⟨strayLevel, [], 1⟩] := .tail .refl (.step (.plain rfl rfl rfl rfl rfl))
  have entered := called.tail (MayGo.step (.call rfl rfl rfl))
  exact ⟨fails.mpr ⟨_, _, entered, .label rfl (.inr rfl) rfl⟩, fault _ rfl⟩

end Inlining

end TwoLane
