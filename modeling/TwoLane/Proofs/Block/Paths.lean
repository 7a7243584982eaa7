import TwoLane.Proofs.Block.Bound
import TwoLane.Proofs.Block.Nested

/-! # The paths of a block graph are the runs of the machine

While the machine runs through the lines of a block, the block tells what it visits next, and behind the last line it is
bound for one of the blocks that the block leads to. So what the machine visits is what is seen along the paths of the
graph.
-/

namespace TwoLane

/-! ## What is seen of blocks -/

namespace Level

/-- The lines of a block without a label line that ends it. Such a line opens the next block. -/
def withoutOpening (level : Level) (lines : List Nat) : List Nat :=
  if 2 ≤ lines.length ∧ (lines.getLast?.bind level.labelAt?).isSome = true then lines.dropLast else lines

/-- The lines of a run without a label line that ends it. -/
def visitedOf : List Nat × Ending → List Nat
  | (lines, .label _ _) => lines.dropLast
  | (lines, _) => lines

variable {level : Level} {line position : Nat} {turn : Turn} {rest : List Nat}

theorem visitedOf_cons (line : Nat) {run : List Nat × Ending}
    (label : ∀ name there, run.2 = .label name there → run.1 ≠ []) :
    visitedOf (line :: run.1, run.2) = line :: visitedOf run := by
  obtain ⟨lines, ending⟩ := run
  cases ending with
  | label name there =>
      obtain ⟨first, others, rfl⟩ := List.exists_cons_of_ne_nil (label name there rfl)
      rfl
  | _ => rfl

/-- Behind the first line of a block, a run ends with a line with a label exactly if the label ends it. -/
theorem last_followRun (one : level.OneEach) (lines : List Nat) (position : Nat) (inside : lines ⊆ level.lines) :
    ((level.followRun false position lines).1.getLast?.bind level.labelAt?).isSome = true ↔
      ∃ name there, (level.followRun false position lines).2 = .label name there := by
  induction lines generalizing position with
  | nil => simp [followRun]
  | cons line rest ih =>
      obtain ⟨here, further⟩ := List.cons_subset.mp inside
      obtain ⟨turn, only, _⟩ := one.exists_only here
      cases label : level.labelAt? line with
      | some name =>
          rw [followRun_label label]
          simp [label]
      | none =>
          rw [followRun_cons (.inr label) position rest only]
          cases turn with
          | plain =>
              have step := ih (position + 1) further
              dsimp only
              rw [← step]
              cases last : (level.followRun false (position + 1) rest).1.getLast? with
              | none => simp [List.getLast?_cons, last, label]
              | some other => simp [List.getLast?_cons, last]
          | _ => simp [label]

theorem ne_nil_of_label (one : level.OneEach) (inside : rest ⊆ level.lines) :
    ∀ name there, (level.followRun false position rest).2 = .label name there →
      (level.followRun false position rest).1 ≠ [] := by
  intro name there ends empty
  have labelled := (last_followRun one rest position inside).mpr ⟨name, there, ends⟩
  rw [empty] at labelled
  cases labelled

theorem withoutOpening_followRun (one : level.OneEach) (lines : List Nat) (position : Nat)
    (inside : lines ⊆ level.lines) : level.withoutOpening (level.followRun true position lines).1 = visitedOf (level.followRun true position lines) := by
  cases lines with
  | nil => rfl
  | cons line rest =>
      obtain ⟨here, further⟩ := List.cons_subset.mp inside
      obtain ⟨turn, only, _⟩ := one.exists_only here
      rw [followRun_cons (.inl rfl) position rest only]
      cases turn with
      | plain =>
          have step := last_followRun one rest (position + 1) further
          dsimp only
          rw [visitedOf_cons line (ne_nil_of_label one further)]
          generalize level.followRun false (position + 1) rest = run at step ⊢
          obtain ⟨others, ending⟩ := run
          dsimp only at step ⊢
          cases others with
          | nil => cases ending <;> rfl
          | cons first more =>
              have last : (line :: first :: more).getLast? = (first :: more).getLast? := by simp
              rw [withoutOpening, last, List.length_cons, List.length_cons]
              by_cases labelled : ((first :: more).getLast?.bind level.labelAt?).isSome = true
              · obtain ⟨name, there, rfl⟩ := step.mp labelled
                rw [if_pos ⟨by omega, labelled⟩]
                rfl
              · rw [if_neg (fun both => labelled both.2)]
                cases ending with
                | label name there => exact absurd (step.mpr ⟨name, there, rfl⟩) labelled
                | _ => rfl
      | _ => rfl

end Level

namespace Inlining

open CallChain
open CallStack (Step Runs jumpTo?)
open Level (visitedOf)

/-- What is seen of a block: its lines with its bindings, but not a label line that ends it, and nothing of the exit. -/
inductive Shown (root : Level) (last : Inlining) : Nat → List Visit → Prop where
  | exit : Shown root last BlockGraph.halt []
  | block {filling : Filling} {inner : LevelInstance} {outer : CallChain} : Known root last filling →
      filling.chain = inner :: outer → Shown root last filling.block
        ((inner.level.withoutOpening (last.graph.block filling.block).lines).map
          (fun line => (line, (last.graph.block filling.block).bindings)))

/-- A finite path of a graph from the entry to a block, with what is seen of the blocks in front of it. -/
inductive Walk (graph : BlockGraph) (shown : Nat → List Visit → Prop) : Nat → List Visit → Prop where
  | start : Walk graph shown BlockGraph.start []
  | step {id target : Nat} {seen more : List Visit} : Walk graph shown id seen → shown id more →
      target ∈ graph.branches id → Walk graph shown target (seen ++ more)

/-- A construction that has come to its end, for a program whose lines carry one thing at most and whose places are kept
    apart. -/
structure Finished (root : Level) (last : Inlining) : Prop where
  wf : root.WellFormed
  one : ∀ level, Level.Within root level → level.OneEach
  built : Built root last
  done : last.waiting = []
  kept : KeptApart root last

/-! ## Where the machine is -/

/-- A machine that goes on with a block: it is where the block was asked for, or leaves an instance whose exit the block
    is, or has stopped. -/
inductive Bound (root : Level) (last : Inlining) : CallStack → Nat → Prop where
  | stopped : Bound root last [] BlockGraph.halt
  | asked {inner : LevelInstance} {outer : CallChain} {calls : List Nat} {callers : CallStack} {block position : Nat} :
      Nested root (Known root last) (inner :: outer) calls callers → Known root last ⟨inner :: outer, block, position⟩ →
      Bound root last (frameAt inner position :: callers) block
  | leaving {inner : LevelInstance} {outer : CallChain} {calls : List Nat} {callers : CallStack} {position : Nat} :
      Nested root (Known root last) (inner :: outer) calls callers → inner.level.lines.length ≤ position →
      Bound root last (frameAt inner position :: callers) inner.exit

/-- A machine inside a block, at its first line or behind it, with what is left to be seen of the block. -/
inductive Running (root : Level) (last : Inlining) : Bool → CallStack → Nat → List Visit → Prop where
  | intro {inner : LevelInstance} {outer : CallChain} {calls : List Nat} {callers : CallStack} {block position : Nat}
      {isFirst : Bool} {run : List Nat × Ending} :
      Nested root (Known root last) (inner :: outer) calls callers →
      inner.level.followRun isFirst position (inner.level.lines.drop position) = run →
      LeadsOn (Known root last) inner outer run.2 (last.graph.branches block) →
      Running root last isFirst (frameAt inner position :: callers) block
        ((visitedOf run).map (fun line => (line, inner.bindings)))

variable {root : Level} {last : Inlining} {filling : Filling} {inner : LevelInstance} {outer : CallChain}
  {calls : List Nat} {callers stack next : CallStack} {block position : Nat} {isFirst : Bool}
  {seen rest more : List Visit}

theorem Known.framed (known : Known root last filling) : Framed root (Known root last) filling := by
  rcases known with rfl | handed
  · exact ⟨[], [], .program⟩
  · exact handed.framed.mono (fun _ handed => .inr handed)

theorem Bound.of_continues (nested : Nested root (Known root last) (inner :: outer) calls callers)
    (continues : Continues (Known root last) (inner :: outer) inner position block) :
    Bound root last (frameAt inner position :: callers) block := by
  unfold Continues at continues
  split at continues
  · exact .asked nested continues
  · next outside =>
      cases continues
      exact .leaving nested (Nat.le_of_not_lt outside)

theorem Bound.behind (nested : Nested root (Known root last) (inner :: outer) calls callers) :
    Bound root last callers inner.exit := by
  cases nested with
  | program => exact .stopped
  | call before _ _ _ continues => exact .of_continues before continues

theorem Bound.of_jump {label : String} {targets : List Nat}
    (nested : Nested root (Known root last) (inner :: outer) calls callers)
    (leads : LeadsToLabel (Known root last) (inner :: outer) label (block :: targets)) (position : Nat) :
    ∃ next, jumpTo? label (frameAt inner position :: callers) = some next ∧ Bound root last next block := by
  obtain ⟨home, mark, there, target, found, known, head⟩ := leads
  cases head
  obtain ⟨homeInner, away, homeCalls, homeCallers, rfl, homeNested, jumps⟩ := nested.findLabel found position
  exact ⟨_, jumps, .asked homeNested known⟩

namespace Finished

variable (finished : Finished root last)
include finished

theorem oneEach (nested : Nested root (Known root last) (inner :: outer) calls callers) : inner.level.OneEach :=
  finished.one _ (nested.opened.within inner List.mem_cons_self)

/-- The block of a place holds what the machine visits from there on, whatever chain it was asked for in first. -/
theorem running (nested : Nested root (Known root last) (inner :: outer) calls callers)
    (known : Known root last ⟨inner :: outer, block, position⟩) :
    ∃ rest, Running root last true (frameAt inner position :: callers) block rest ∧ Shown root last block rest := by
  obtain ⟨other, otherKnown, rfl, ⟨rfl, otherCalls, otherOpened, opened⟩, written⟩ :=
    exists_written finished.wf finished.built finished.done finished.kept known
  obtain ⟨calls', callers', nested'⟩ := otherKnown.framed
  obtain ⟨inner', outer', head⟩ := otherOpened.exists_cons
  rw [head] at nested' otherOpened
  cases nested.opened.calls_unique opened
  cases nested'.opened.calls_unique otherOpened
  obtain ⟨level, bindings, rfl⟩ := nested.unique finished.wf nested'
  have same : frameAt inner other.position = frameAt inner' other.position := by
    rw [frameAt, frameAt, level, bindings]
  have inside : inner'.level.lines.drop other.position ⊆ inner'.level.lines := (List.drop_sublist _ _).subset
  have shown := Shown.block otherKnown head
  rw [written.lines head, written.bindings head, Level.runFrom,
    Level.withoutOpening_followRun (finished.oneEach nested') _ _ inside] at shown
  refine ⟨_, ?_, shown⟩
  rw [same]
  exact .intro nested' rfl ((written.leads head).mono (fun _ handed => .inr handed))

theorem branches_halt : last.graph.branches BlockGraph.halt = [] :=
  congrArg (fun content => content.2.2) (finished.built.sound finished.wf).exit.2

theorem shown_unique (shown : Shown root last block seen) (shown' : Shown root last block more) : seen = more := by
  cases shown with
  | exit =>
      generalize exit : BlockGraph.halt = id at shown'
      cases shown' with
      | exit => rfl
      | block known head => exact absurd exit.symm (finished.kept.ne_halt known)
  | @block filling inner outer known head =>
      generalize same : filling.block = id at shown' ⊢
      cases shown' with
      | exit => exact absurd same (finished.kept.ne_halt known)
      | @block filling' inner' outer' known' head' =>
          obtain ⟨_, calls, opened, opened'⟩ := finished.kept.samePlace known known' same
          have level := (of_outline_cons (head ▸ head' ▸ opened.outline_unique opened')).1
          rw [level]

/-- Without a step that is visited, a machine that is bound for a block comes to it or stops. -/
theorem arrives (bound : Bound root last stack block) :
    ∃ next, Runs stack [] next ∧ ((block = BlockGraph.halt ∧ next = [] ∧ Shown root last block []) ∨
      ∃ rest, Running root last true next block rest ∧ Shown root last block rest) := by
  induction stack with
  | nil =>
      cases bound
      exact ⟨[], .stay [], .inl ⟨rfl, rfl, .exit⟩⟩
  | cons frame callers ih =>
      cases bound with
      | asked nested known => exact ⟨_, .stay _, .inr (finished.running nested known)⟩
      | leaving nested behind =>
          obtain ⟨next, runs, there⟩ := ih (.behind nested)
          exact ⟨next, .step (.leave (List.getElem?_eq_none behind)) runs, there⟩

theorem exists_shown (bound : Bound root last stack block) : ∃ seen, Shown root last block seen := by
  obtain ⟨_, _, ⟨_, _, shown⟩ | ⟨rest, _, shown⟩⟩ := finished.arrives bound
  · exact ⟨[], shown⟩
  · exact ⟨rest, shown⟩

end Finished

/-! ## Running through a block -/

/-- What can come of a machine inside a block. -/
inductive Progress (root : Level) (last : Inlining) (isFirst : Bool) (stack : CallStack) (block : Nat) :
    List Visit → Prop where
  /-- A label line opens the next block, where the machine is already. -/
  | opens {target : Nat} : isFirst = false → last.graph.branches block = [target] → Bound root last stack target →
      Progress root last isFirst stack block []
  /-- The machine visits the next line of the block and can do nothing else. -/
  | goes {visit : Visit} {next : CallStack} {rest : List Visit} : Running root last false next block rest →
      (∀ more other, Step stack more other ↔ more = [visit] ∧ other = next) →
      Progress root last isFirst stack block (visit :: rest)
  /-- The machine visits what is left of the block, and goes to each of the blocks that the block leads to, and to no
      other one. -/
  | ends {rest : List Visit} : (∀ target ∈ last.graph.branches block, ∃ next, Step stack rest next ∧
      Bound root last next target) → (∀ more next, Step stack more next → more = rest ∧
        ∃ target ∈ last.graph.branches block, Bound root last next target) →
      Progress root last isFirst stack block rest

/-- The machine visits what is left of a block and can go one of several ways, each to one of the blocks that the block
    leads to. -/
theorem Progress.ends_each (ways : List (Nat × CallStack)) (branches : last.graph.branches block = ways.map Prod.fst)
    (steps : ∀ more other, Step stack more other ↔ more = rest ∧ other ∈ ways.map Prod.snd)
    (bound : ∀ way ∈ ways, Bound root last way.2 way.1) : Progress root last isFirst stack block rest := by
  refine .ends ?_ ?_
  · intro target member
    rw [branches] at member
    obtain ⟨way, there, rfl⟩ := List.mem_map.mp member
    exact ⟨way.2, (steps _ _).mpr ⟨rfl, List.mem_map_of_mem there⟩, bound way there⟩
  · intro more other step
    obtain ⟨rfl, member⟩ := (steps more other).mp step
    obtain ⟨way, there, rfl⟩ := List.mem_map.mp member
    exact ⟨rfl, way.1, branches ▸ List.mem_map_of_mem there, bound way there⟩

/-- The machine can go one way only. -/
theorem Progress.ends_one {target : Nat} (branches : last.graph.branches block = [target])
    (steps : ∀ more other, Step stack more other ↔ more = rest ∧ other = next) (bound : Bound root last next target) :
    Progress root last isFirst stack block rest :=
  .ends_each [(target, next)] branches (by simpa using steps) (by simpa using bound)

theorem Running.progress (finished : Finished root last) (running : Running root last isFirst stack block rest) :
    Progress root last isFirst stack block rest := by
  obtain @⟨inner, outer, calls, callers, _, position, _, run, nested, follows, leads⟩ := running
  have one := finished.oneEach nested
  cases found : inner.level.lines[position]? with
  | none =>
      rw [List.drop_eq_nil_of_le (List.getElem?_eq_none_iff.mp found), Level.followRun] at follows
      subst follows
      exact .ends_one leads (fun _ _ => CallStack.step_leave found) (.behind nested)
  | some line =>
      obtain ⟨turn, only, _⟩ := one.exists_only (List.mem_of_getElem? found)
      have here : (frameAt inner position).line? = some line := found
      have steps := fun more other => CallStack.step_iff here callers other more only
      have split : inner.level.lines.drop position = line :: inner.level.lines.drop (position + 1) := by
        obtain ⟨there, rfl⟩ := List.getElem?_eq_some_iff.mp found
        exact List.drop_eq_getElem_cons there
      rw [split] at follows
      by_cases inside : isFirst = true ∨ inner.level.labelAt? line = none
      · rw [Level.followRun_cons inside position _ only] at follows
        subst follows
        cases turn with
        | call call =>
            obtain ⟨body, after, target, branches, callee, continues, entry⟩ := leads
            have defined : CallStack.findCircuit? call.name (frameAt inner position :: callers) = some body :=
              (nested.findCircuit call.name position).trans (CallChain.callee_eq_ok callee).2
            have entered := Nested.call nested found only.1 callee continues
            refine .ends_one branches ?_ (.asked entered entry)
            refine fun more other => (steps more other).trans ⟨?_, ?_⟩
            · rintro ⟨rfl, found, again, rfl⟩
              cases defined.symm.trans again
              exact ⟨rfl, congrArg (· :: _) (enter_frameAt inner position line call body after)⟩
            · rintro ⟨rfl, rfl⟩
              exact ⟨rfl, body, defined, congrArg (· :: _) (enter_frameAt inner position line call body after).symm⟩
        | halt => exact .ends_one leads steps .stopped
        | jump label =>
            obtain ⟨target, branches, there⟩ := leads
            rw [branches] at there
            obtain ⟨behind, jumps, bound⟩ := Bound.of_jump nested there position
            refine .ends_one branches (fun more other => (steps more other).trans (and_congr_right' ?_)) bound
            rw [jumps, Option.some_inj, eq_comm]
        | conditionalJump label =>
            obtain ⟨target, after, branches, there, continues⟩ := leads
            rw [branches] at there
            obtain ⟨behind, jumps, bound⟩ := Bound.of_jump nested there position
            have further := Bound.of_continues nested continues
            refine .ends_each [(target, behind), (after, frameAt inner (position + 1) :: callers)] branches
              (fun more other => (steps more other).trans (and_congr_right' ?_)) ?_
            · rw [jumps, Option.some_inj, eq_comm]
              exact List.mem_pair.symm
            · intro way member
              rcases List.mem_pair.mp member with rfl | rfl
              · exact bound
              · exact further
        | plain =>
            have later : inner.level.lines.drop (position + 1) ⊆ inner.level.lines := (List.drop_sublist _ _).subset
            rw [Level.visitedOf_cons line (Level.ne_nil_of_label one later), List.map_cons]
            exact .goes (.intro nested rfl leads) steps
      · -- A label behind the first line of a block: the machine is where the next block begins.
        obtain ⟨later, labelled⟩ := not_or.mp inside
        obtain ⟨name, label⟩ := Option.ne_none_iff_exists'.mp labelled
        cases Bool.eq_false_iff.mpr later
        rw [Level.followRun_label label] at follows
        subst follows
        obtain ⟨target, branches, known⟩ := leads
        exact .opens rfl branches (.asked nested known)

/-! ## Along the paths -/

theorem Running.branches_ne_nil (running : Running root last isFirst stack block rest) :
    last.graph.branches block ≠ [] := by
  cases running with
  | intro _ _ leads => exact LeadsOn.ne_nil leads

/-- From inside a block the machine can come to each block that it leads to. -/
theorem Running.through (finished : Finished root last) (running : Running root last isFirst stack block rest)
    {target : Nat} (member : target ∈ last.graph.branches block) :
    ∃ next, Runs stack rest next ∧ Bound root last next target := by
  induction rest generalizing isFirst stack with
  | nil =>
      cases running.progress finished with
      | opens _ branches bound =>
          rw [branches] at member
          cases List.mem_singleton.mp member
          exact ⟨stack, .stay stack, bound⟩
      | ends can _ =>
          obtain ⟨next, step, bound⟩ := can target member
          exact ⟨next, .one step, bound⟩
  | cons visit rest ih =>
      cases running.progress finished with
      | goes further steps =>
          obtain ⟨next, runs, bound⟩ := ih further
          exact ⟨next, .step ((steps _ _).mpr ⟨rfl, rfl⟩) runs, bound⟩
      | ends can _ =>
          obtain ⟨next, step, bound⟩ := can target member
          exact ⟨next, .one step, bound⟩

theorem Bound.through (finished : Finished root last) (bound : Bound root last stack block)
    (shown : Shown root last block seen) {target : Nat} (member : target ∈ last.graph.branches block) :
    ∃ next, Runs stack seen next ∧ Bound root last next target := by
  obtain ⟨middle, silent, ⟨rfl, _⟩ | ⟨rest, running, shown'⟩⟩ := finished.arrives bound
  · rw [finished.branches_halt] at member
    cases member
  · cases finished.shown_unique shown shown'
    obtain ⟨next, runs, there⟩ := running.through finished member
    exact ⟨next, silent.trans runs, there⟩

theorem Bound.exists_runs (finished : Finished root last) (bound : Bound root last stack block)
    (shown : Shown root last block seen) : ∃ next, Runs stack seen next := by
  obtain ⟨middle, silent, ⟨rfl, rfl, shown'⟩ | ⟨rest, running, shown'⟩⟩ := finished.arrives bound
  · cases finished.shown_unique shown shown'
    exact ⟨[], silent⟩
  · obtain ⟨target, member⟩ := List.exists_mem_of_ne_nil _ running.branches_ne_nil
    obtain ⟨next, runs, _⟩ := bound.through finished shown member
    exact ⟨next, runs⟩

/-- A machine that is bound for the exit comes to its end and visits nothing more. -/
theorem Bound.stops (finished : Finished root last) (bound : Bound root last stack BlockGraph.halt) :
    Runs stack [] [] := by
  obtain ⟨next, silent, ⟨_, rfl, _⟩ | ⟨rest, running, _⟩⟩ := finished.arrives bound
  · exact silent
  · exact absurd finished.branches_halt running.branches_ne_nil

theorem Bound.start (root : Level) (last : Inlining) :
    Bound root last (CallStack.ofProgram root) BlockGraph.start :=
  .asked .program (.inl rfl)

/-- The machine can follow each path of the graph. -/
theorem Walk.exists_runs (finished : Finished root last)
    (walk : Walk last.graph (Shown root last) block seen) :
    ∃ stack, Runs (CallStack.ofProgram root) seen stack ∧ Bound root last stack block := by
  induction walk with
  | start => exact ⟨_, .stay _, Bound.start root last⟩
  | step _ shown member ih =>
      obtain ⟨middle, runs, bound⟩ := ih
      obtain ⟨next, further, there⟩ := bound.through finished shown member
      exact ⟨next, runs.trans further, there⟩

/-! ## Along the runs -/

/-- A machine that has followed a path: it is bound for its last block, or inside it. -/
inductive Reached (root : Level) (last : Inlining) : CallStack → List Visit → Prop where
  | bound {stack : CallStack} {block : Nat} {seen : List Visit} : Walk last.graph (Shown root last) block seen →
      Bound root last stack block → Reached root last stack seen
  | inside {stack : CallStack} {block : Nat} {seen part rest : List Visit} :
      Walk last.graph (Shown root last) block seen → Shown root last block (part ++ rest) →
      Running root last false stack block rest → Reached root last stack (seen ++ part)

/-- Inside a block the machine goes on with the block or with one behind it, unless a label line has opened the next
    block already. -/
theorem Running.step (finished : Finished root last) (running : Running root last isFirst stack block rest)
    (walk : Walk last.graph (Shown root last) block seen) (part : List Visit)
    (shown : Shown root last block (part ++ rest)) (step : Step stack more next) :
    Reached root last next (seen ++ (part ++ more)) ∨ isFirst = false ∧ rest = [] ∧
      ∃ target ∈ last.graph.branches block, Bound root last stack target := by
  cases running.progress finished with
  | @opens target later branches bound => exact .inr ⟨later, rfl, target, branches ▸ List.mem_singleton_self _, bound⟩
  | goes further steps =>
      obtain ⟨rfl, rfl⟩ := (steps more next).mp step
      exact .inl (.inside walk (List.append_cons part _ _ ▸ shown) further)
  | ends _ only =>
      obtain ⟨rfl, target, member, bound⟩ := only more next step
      exact .inl (.bound (walk.step shown member) bound)

theorem Reached.of_bound (finished : Finished root last) (walk : Walk last.graph (Shown root last) block seen)
    (bound : Bound root last stack block) (step : Step stack more next) : Reached root last next (seen ++ more) := by
  cases bound with
  | stopped => cases step
  | asked nested known =>
      obtain ⟨rest, running, shown⟩ := finished.running nested known
      rcases running.step finished walk [] shown step with reached | ⟨later, _⟩
      · exact reached
      · cases later
  | leaving nested behind =>
      obtain ⟨rfl, rfl⟩ := (CallStack.step_leave (List.getElem?_eq_none behind)).mp step
      rw [List.append_nil]
      exact .bound walk (.behind nested)

theorem Reached.step (finished : Finished root last) (reached : Reached root last stack seen)
    (step : Step stack more next) : Reached root last next (seen ++ more) := by
  cases reached with
  | bound walk bound => exact .of_bound finished walk bound step
  | @inside _ seen part rest walk shown running =>
      rw [List.append_assoc]
      rcases running.step finished walk part shown step with further | ⟨_, rfl, target, member, bound⟩
      · exact further
      · rw [List.append_nil] at shown
        rw [← List.append_assoc]
        exact .of_bound finished (walk.step shown member) bound step

theorem Reached.runs (finished : Finished root last) (reached : Reached root last stack seen)
    (runs : Runs stack more next) : Reached root last next (seen ++ more) := by
  induction runs generalizing seen with
  | stay => rwa [List.append_nil]
  | step one _ ih =>
      rw [← List.append_assoc]
      exact ih (reached.step finished one)

theorem Reached.on_path (finished : Finished root last) (reached : Reached root last stack seen) :
    ∃ block before more, Walk last.graph (Shown root last) block before ∧ Shown root last block more ∧
      seen <+: before ++ more := by
  cases reached with
  | bound walk bound =>
      obtain ⟨more, shown⟩ := finished.exists_shown bound
      exact ⟨_, _, more, walk, shown, List.prefix_append _ _⟩
  | inside walk shown _ =>
      exact ⟨_, _, _, walk, shown, (List.prefix_append_right_inj _).mpr (List.prefix_append _ _)⟩

/-- A machine that has stopped has followed a path to the exit. -/
theorem Reached.walk_halt (reached : Reached root last [] seen) :
    Walk last.graph (Shown root last) BlockGraph.halt seen := by
  generalize stopped : ([] : CallStack) = stack at reached
  cases reached with
  | bound walk bound =>
      subst stopped
      cases bound
      exact walk
  | inside _ _ running =>
      subst stopped
      cases running

/-- A graph that is built has the paths of its program. Each block on a path is seen in one way, what the machine visits
    is what is seen along paths up to a point of the last block, and what it visits until it stops is what is seen along
    the paths to the exit. -/
theorem paths_are_runs {graph : BlockGraph} (wf : root.WellFormed)
    (one : ∀ level, Level.Within root level → level.OneEach) (built : BlockGraph.ofLevel root = .ok graph) :
    ∃ last, Inlining.steps root.fillingBound (.initial root) = .ok last ∧ last.graph = graph ∧
      (NamesApart root last →
        (∀ block seen, Walk graph (Shown root last) block seen → ∃! more, Shown root last block more) ∧
        (∀ visits, (∃ stack, Runs (CallStack.ofProgram root) visits stack) ↔
          ∃ block seen more, Walk graph (Shown root last) block seen ∧ Shown root last block more ∧
            visits <+: seen ++ more) ∧
        ∀ visits, Runs (CallStack.ofProgram root) visits [] ↔
          Walk graph (Shown root last) BlockGraph.halt visits) := by
  obtain ⟨last, run, rfl, there, done⟩ := BlockGraph.built_ofLevel wf built
  refine ⟨last, run, rfl, fun names => ?_⟩
  have finished : Finished root last := ⟨wf, one, there, done, (keptApart_iff wf there).mpr names⟩
  have start : Reached root last (CallStack.ofProgram root) [] := .bound .start (.start root last)
  refine ⟨?_, fun visits => ⟨?_, ?_⟩, fun visits => ⟨?_, ?_⟩⟩
  · intro block seen walk
    obtain ⟨stack, _, bound⟩ := walk.exists_runs finished
    obtain ⟨more, shown⟩ := finished.exists_shown bound
    exact ⟨more, shown, fun _ other => finished.shown_unique other shown⟩
  · rintro ⟨stack, runs⟩
    exact (start.runs finished runs).on_path finished
  · rintro ⟨block, seen, more, walk, shown, front⟩
    obtain ⟨middle, runs, bound⟩ := walk.exists_runs finished
    obtain ⟨next, further⟩ := bound.exists_runs finished shown
    exact (runs.trans further).exists_front front
  · intro runs
    exact (start.runs finished runs).walk_halt
  · intro walk
    obtain ⟨middle, runs, bound⟩ := walk.exists_runs finished
    exact List.append_nil visits ▸ runs.trans (bound.stops finished)

/-! ## A loop around nested calls -/

/-- A circuit of one line. -/
def gateLevel : Level :=
  { Level.ofLines [5] with formals := ["q"] }

/-- A circuit that hands its qubit on to another one. -/
def handLevel : Level :=
  { Level.ofLines [4] with
    formals := ["p"]
    calls := [(4, ⟨"gate", ["p"]⟩)]
    circuits := [("gate", gateLevel)] }

def nestedLevel : Level :=
  { Level.ofLines [0, 1, 2] with
    labels := [("loop", 0)]
    conditionalJumps := [(2, "loop")]
    calls := [(1, ⟨"hand", ["3"]⟩)]
    circuits := [("hand", handLevel)] }

theorem nestedLevel_wellFormed : nestedLevel.WellFormed := by
  have gate : gateLevel.WellFormed := .intro (by decide) (by decide) (fun none => by cases none)
  have hand : handLevel.WellFormed := by
    refine .intro (by decide) (by decide) (fun member => ?_)
    cases List.mem_singleton.mp member
    exact gate
  refine .intro (by decide) (by decide) (fun member => ?_)
  cases List.mem_singleton.mp member
  exact hand

theorem within_nestedLevel {level : Level} (within : Level.Within nestedLevel level) :
    level = nestedLevel ∨ level = handLevel ∨ level = gateLevel := by
  induction within with
  | top => exact .inl rfl
  | circuit _ member ih =>
      rcases ih with rfl | rfl | rfl
      · cases List.mem_singleton.mp member
        exact .inr (.inl rfl)
      · cases List.mem_singleton.mp member
        exact .inr (.inr rfl)
      · cases member

theorem nestedLevel_plainNames : nestedLevel.PlainNames := by
  have names : ∀ {name}, Level.Names nestedLevel name → name = "loop" ∨ name = "hand" ∨ name = "gate" := by
    intro name names
    cases names with
    | label within member =>
        rcases within_nestedLevel within with rfl | rfl | rfl
        · cases List.mem_singleton.mp member
          exact .inl rfl
        · cases member
        · cases member
    | circuit within member =>
        rcases within_nestedLevel within with rfl | rfl | rfl
        · cases List.mem_singleton.mp member
          exact .inr (.inl rfl)
        · cases List.mem_singleton.mp member
          exact .inr (.inr rfl)
        · cases member
  refine ⟨fun {name} named => ?_, fun {name} named => ?_, fun member => ?_, fun within member labelled _ => ?_⟩
  · unfold BlockName.Unmarked
    rcases names named with rfl | rfl | rfl <;> decide
  · rcases names named with rfl | rfl | rfl <;> exact Level.ne_made (by decide) (by decide)
  · cases List.mem_singleton.mp member
    decide
  · rcases within_nestedLevel within with rfl | rfl | rfl
    · cases List.mem_singleton.mp member
      cases labelled
    · cases List.mem_singleton.mp member
      cases labelled
    · cases member

theorem nestedLevel_paths :
    ∃ last, Inlining.steps nestedLevel.fillingBound (.initial nestedLevel) = .ok last ∧
      BlockGraph.ofLevel nestedLevel = .ok last.graph ∧
      (∀ visits, (∃ stack, Runs (CallStack.ofProgram nestedLevel) visits stack) ↔
        ∃ block seen more, Walk last.graph (Shown nestedLevel last) block seen ∧ Shown nestedLevel last block more ∧
          visits <+: seen ++ more) ∧
      Walk last.graph (Shown nestedLevel last) BlockGraph.halt [(0, []), (5, [("q", "3")]), (2, [])] := by
  obtain ⟨graph, built⟩ : ∃ graph, BlockGraph.ofLevel nestedLevel = .ok graph := ⟨_, rfl⟩
  have one : ∀ level, Level.Within nestedLevel level → level.OneEach := by
    intro level within
    rcases within_nestedLevel within with rfl | rfl | rfl <;> unfold Level.OneEach <;> decide
  obtain ⟨last, run, rfl, paths⟩ := paths_are_runs nestedLevel_wellFormed one built
  obtain ⟨_, runs, stops⟩ := paths (namesApart_of_plainNames nestedLevel_plainNames)
  refine ⟨last, run, built, runs, (stops _).mp ?_⟩
  -- through both calls and back, the qubit is the one that the program names
  exact .step (.plain rfl rfl rfl rfl rfl) (.step (.call rfl rfl rfl) (.step (.call rfl rfl rfl)
    (.step (.plain rfl rfl rfl rfl rfl) (.step (.leave rfl) (.step (.leave rfl) (.step (.goOn rfl rfl)
      (.step (.leave rfl) (.stay []))))))))

end Inlining

end TwoLane
