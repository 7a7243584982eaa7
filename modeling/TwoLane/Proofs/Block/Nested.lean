import TwoLane.Proofs.Block.Apart
import TwoLane.Proofs.Block.Machine

/-! # Instances and the frames of their callers

Every chain of instances that blocks are asked for in belongs to a stack of the machine: the frames of the callers stand
behind their calls. The exit of an instance is a block asked for there, or the exit of the caller where the call is the
last line. While a block is filled the machine follows its lines, so every block is asked for where the machine may come
to.
-/

namespace TwoLane

theorem CallChain.findCircuit?_eq (chain : CallChain) (name : String) :
    chain.findCircuit? name = chain.findSome? (fun inner => inner.level.circuit? name) := by
  induction chain with
  | nil => rfl
  | cons inner outer ih =>
      rw [findCircuit?, List.findSome?_cons, ih]
      cases inner.level.circuit? name <;> rfl

theorem CallChain.Opened.calls_unique {root : Level} {chain : CallChain} {calls calls' : List Nat}
    (opened : Opened root chain calls) (opened' : Opened root chain calls') : calls = calls' := by
  obtain ⟨inner, outer, rfl⟩ := opened.exists_cons
  exact BlockName.markOf_injective (opened.mark_eq.symm.trans opened'.mark_eq)

namespace Inlining

open CallChain
open CallStack (jumpTo?)

def frameAt (inner : LevelInstance) (position : Nat) : Frame :=
  ⟨inner.level, inner.bindings, position⟩

theorem enter_frameAt (inner : LevelInstance) (position line : Nat) (call : Call) (body : Level) (after : Nat) :
    (frameAt inner position).enter body call = frameAt (called inner line call body after) 0 := by
  rw [Frame.enter, ← Frame.passQubits_eq]
  rfl

theorem step_called {inner : LevelInstance} {callers : CallStack} {line position : Nat} {call : Call} {body : Level}
    (here : inner.level.lines[position]? = some line) (onLine : inner.level.callAt? line = some call)
    (defined : CallStack.findCircuit? call.name (frameAt inner position :: callers) = some body) (after : Nat) :
    CallStack.Step (frameAt inner position :: callers) []
      (frameAt (called inner line call body after) 0 :: frameAt inner (position + 1) :: callers) := by
  rw [← enter_frameAt inner position]
  exact .call here onLine defined

/-- The chains that blocks are asked for in, with the lines of the open calls and the frames of the callers. -/
inductive Nested (root : Level) (asked : Filling → Prop) : CallChain → List Nat → CallStack → Prop where
  | program : Nested root asked [⟨root, "", BlockGraph.halt, [], none⟩] [] []
  | call {inner : LevelInstance} {outer : CallChain} {calls : List Nat} {callers : CallStack} {line position : Nat}
      {call : Call} {body : Level} {after : Nat} :
      Nested root asked (inner :: outer) calls callers → inner.level.lines[position]? = some line →
      inner.level.callAt? line = some call → CallChain.callee (inner :: outer) call.name line = .ok body →
      Continues asked (inner :: outer) inner (position + 1) after →
      Nested root asked (called inner line call body after :: inner :: outer) (line :: calls)
        (frameAt inner (position + 1) :: callers)

namespace Nested

variable {root : Level} {asked more : Filling → Prop} {chain home : CallChain} {inner inner' : LevelInstance}
  {outer outer' : CallChain} {calls : List Nat} {callers callers' : CallStack}

theorem opened (nested : Nested root asked chain calls callers) : Opened root chain calls := by
  induction nested with
  | program => exact .program
  | call _ _ onLine callee _ ih => exact .call ih onLine callee

theorem mono (nested : Nested root asked chain calls callers) (h : ∀ filling, asked filling → more filling) :
    Nested root more chain calls callers := by
  induction nested with
  | program => exact .program
  | call _ here onLine callee continues ih => exact .call ih here onLine callee (continues.mono h)

theorem unique (wf : root.WellFormed) (nested : Nested root asked (inner :: outer) calls callers)
    (nested' : Nested root more (inner' :: outer') calls callers') :
    inner.level = inner'.level ∧ inner.bindings = inner'.bindings ∧ callers = callers' := by
  have level := (of_outline_cons (nested.opened.outline_unique nested'.opened)).1
  refine ⟨level, ?_⟩
  generalize same : inner :: outer = chain at nested
  induction nested generalizing inner outer inner' outer' callers' with
  | program =>
      cases same
      cases nested'
      exact ⟨rfl, rfl⟩
  | call before here onLine callee _ ih =>
      cases same
      cases nested' with
      | call before' here' onLine' callee' _ =>
          have callerLevel := (of_outline_cons (before.opened.outline_unique before'.opened)).1
          obtain ⟨bindings, frames⟩ := ih before' callerLevel rfl
          have callerWf := before'.opened.wellFormed wf _ List.mem_cons_self
          rw [callerLevel] at here onLine
          have there := Level.position?_of_getElem? callerWf here
          cases there.symm.trans (Level.position?_of_getElem? callerWf here')
          cases onLine.symm.trans onLine'
          cases level
          exact ⟨by rw [called, called, bindings], by rw [frameAt, frameAt, callerLevel, bindings, frames]⟩

theorem findLabel {label mark : String} {position : Nat} (nested : Nested root asked (inner :: outer) calls callers)
    (found : CallChain.findLabel? label (inner :: outer) = some (home, mark, position)) (start : Nat) :
    ∃ homeInner away homeCalls homeCallers, home = homeInner :: away ∧ Nested root asked home homeCalls homeCallers ∧
      jumpTo? label (frameAt inner start :: callers) = some (frameAt homeInner position :: homeCallers) := by
  generalize same : inner :: outer = chain at nested found
  induction nested generalizing inner outer start with
  | program =>
      cases same
      rw [findLabel?] at found
      rw [jumpTo?]
      split at found
      · next position here =>
          cases found
          exact ⟨_, _, _, _, rfl, .program, by simp only [frameAt, here]⟩
      · cases found
  | call before here onLine callee continues ih =>
      cases same
      rw [findLabel?] at found
      rw [jumpTo?]
      split at found
      · next position there =>
          cases found
          exact ⟨_, _, _, _, rfl, .call before here onLine callee continues, by simp only [frameAt, there]⟩
      · next missing =>
          obtain ⟨homeInner, away, homeCalls, homeCallers, head, homeNested, jumps⟩ := ih _ rfl found
          refine ⟨homeInner, away, homeCalls, homeCallers, head, homeNested, ?_⟩
          simp only [frameAt, missing]
          exact jumps

theorem findLabel_none {label : String} (nested : Nested root asked (inner :: outer) calls callers)
    (missing : CallChain.findLabel? label (inner :: outer) = none) (start : Nat) :
    jumpTo? label (frameAt inner start :: callers) = none := by
  generalize same : inner :: outer = chain at nested missing
  induction nested generalizing inner outer start with
  | program =>
      cases same
      rw [findLabel?] at missing
      rw [jumpTo?]
      split at missing
      · cases missing
      · next here =>
          simp only [frameAt, here]
          rfl
  | call _ _ _ _ _ ih =>
      cases same
      rw [findLabel?] at missing
      rw [jumpTo?]
      split at missing
      · cases missing
      · next here =>
          simp only [frameAt, here]
          exact ih _ rfl missing

theorem map_level (nested : Nested root asked (inner :: outer) calls callers) (start : Nat) :
    (frameAt inner start :: callers).map Frame.level = (inner :: outer).map LevelInstance.level := by
  generalize same : inner :: outer = chain at nested
  induction nested generalizing inner outer start with
  | program =>
      cases same
      rfl
  | @call _ _ _ _ _ position _ _ _ _ _ _ _ _ ih =>
      cases same
      exact congrArg (List.cons _) (ih (position + 1) rfl)

theorem findCircuit (nested : Nested root asked (inner :: outer) calls callers) (name : String) (start : Nat) :
    CallStack.findCircuit? name (frameAt inner start :: callers) = CallChain.findCircuit? name (inner :: outer) := by
  have levels := congrArg (List.findSome? (fun level => level.circuit? name)) (nested.map_level start)
  rw [List.findSome?_map, List.findSome?_map] at levels
  rw [findCircuit?_eq]
  exact levels

theorem isOpen (nested : Nested root asked chain calls callers) (name : String) :
    chain.isOpen name = true ↔ name ∈ CallStack.openCircuits callers := by
  induction nested with
  | program => simp [CallChain.isOpen, CallStack.openCircuits]
  | @call inner outer calls callers line position call body after _ here onLine _ _ ih =>
      have behind : (frameAt inner (position + 1)).behind? = some call :=
        (congrArg (fun line => line.bind inner.level.callAt?) here).trans onLine
      have first : CallStack.openCircuits (frameAt inner (position + 1) :: callers) =
          call.name :: CallStack.openCircuits callers :=
        List.filterMap_cons_some (by rw [behind]; rfl)
      rw [first, List.mem_cons, ← ih, CallChain.isOpen, List.any_cons, Bool.or_eq_true, beq_iff_eq, called,
        Option.some_inj, eq_comm]
      rfl

end Nested

end Inlining

/-! ## Where a run of lines ends -/

namespace Level

/-- Whether a run of lines ends at a position in a certain way. -/
inductive StopsAt (level : Level) : Nat → Ending → Prop where
  | leave {stop : Nat} : level.lines[stop]? = none → StopsAt level stop .leave
  | label {stop : Nat} {name : String} : StopsAt level stop (.label name stop)
  | call {stop line : Nat} {call : Call} : level.lines[stop]? = some line → level.callAt? line = some call →
      StopsAt level stop (.call call line stop)
  | halt {stop : Nat} : StopsAt level stop .halt
  | jump {stop line : Nat} {label : String} : level.lines[stop]? = some line → level.jumpAt? line = some label →
      StopsAt level stop (.jump label line)
  | conditionalJump {stop line : Nat} {label : String} : level.lines[stop]? = some line →
      level.conditionalJumpAt? line = some label → StopsAt level stop (.conditionalJump label line stop)

end Level

namespace CallStack

variable {root : Level} {frame : Frame} {callers : CallStack}

/-- The machine may come to the end of each run of lines that it may come to the front of. -/
theorem Reachable.exists_stop {lines : List Nat} {isFirst : Bool}
    (reachable : Reachable root (frame :: callers)) (rest : frame.level.lines.drop frame.position = lines) :
    ∃ stop, Reachable root ({ frame with position := stop } :: callers) ∧
      frame.level.StopsAt stop (frame.level.followRun isFirst frame.position lines).2 := by
  induction lines generalizing frame isFirst with
  | nil => exact ⟨frame.position, reachable, .leave (List.getElem?_eq_none (List.drop_eq_nil_iff.mp rest))⟩
  | cons line lines ih =>
      have here : frame.line? = some line := by
        rw [Frame.line?, ← List.head?_drop, rest]
        rfl
      have further : frame.advance.level.lines.drop frame.advance.position = lines := by
        rw [Frame.advance, ← List.tail_drop, rest]
        rfl
      unfold Level.followRun
      split
      · exact ⟨frame.position, reachable, .label⟩
      · next call => exact ⟨frame.position, reachable, .call here call⟩
      · next call =>
          split
          · exact ⟨frame.position, reachable, .halt⟩
          · next halt =>
              split
              · next jump => exact ⟨frame.position, reachable, .jump here jump⟩
              · next condition => exact ⟨frame.position, reachable, .conditionalJump here condition⟩
              · next jump condition =>
                  exact ih (reachable.tail (.step (.plain here call (Bool.eq_false_iff.mpr halt) jump condition))) further

end CallStack

namespace Inlining

open CallChain
open CallStack (Reachable MayGo Faulty jumpTo?)

/-! ## Blocks that are asked for -/

variable {root : Level} {state next last : Inlining} {asked : Filling → Prop} {inner : LevelInstance}
  {outer chain : CallChain} {calls : List Nat} {callers : CallStack} {ending : Ending} {filling other : Filling}
  {error : ProgramError} {stop : Nat}

/-- Whether a block is asked for in a chain that belongs to a stack of the machine. -/
def Framed (root : Level) (asked : Filling → Prop) (filling : Filling) : Prop :=
  ∃ calls callers, Nested root asked filling.chain calls callers

theorem Framed.mono {more : Filling → Prop} (framed : Framed root asked filling)
    (h : ∀ filling, asked filling → more filling) : Framed root more filling := by
  obtain ⟨calls, callers, nested⟩ := framed
  exact ⟨calls, callers, nested.mono h⟩

/-- A block that is asked for where the machine may come to. -/
inductive Arrived (root : Level) (asked : Filling → Prop) : Filling → Prop where
  | intro {inner : LevelInstance} {outer : CallChain} {calls : List Nat} {callers : CallStack} {block position : Nat} :
      Nested root asked (inner :: outer) calls callers → Reachable root (frameAt inner position :: callers) →
      Arrived root asked ⟨inner :: outer, block, position⟩

theorem Arrived.mono {more : Filling → Prop} (arrived : Arrived root asked filling)
    (h : ∀ filling, asked filling → more filling) : Arrived root more filling := by
  obtain ⟨nested, reachable⟩ := arrived
  exact .intro (nested.mono h) reachable

theorem Arrived.framed (arrived : Arrived root asked filling) : Framed root asked filling := by
  obtain ⟨nested, _⟩ := arrived
  exact ⟨_, _, nested⟩

theorem mem_request {name : String} {position : Nat} (member : other ∈ (state.request name chain position).2.waiting) :
    other ∈ state.waiting ∨ ∃ block, other = ⟨chain, block, position⟩ :=
  (List.mem_append.mp member).imp_right (fun last => ⟨_, List.mem_singleton.mp last⟩)

theorem mem_following {kind : String} {line position : Nat}
    (member : other ∈ (state.following kind chain inner line position).2.waiting) :
    other ∈ state.waiting ∨ ∃ block, other = ⟨chain, block, position + 1⟩ := by
  unfold following at member
  split at member
  · exact mem_request member
  · exact .inl member

theorem mem_target {label : String} {line id : Nat} (found : state.target chain label line = .ok (id, next))
    (member : other ∈ next.waiting) :
    other ∈ state.waiting ∨ ∃ home mark position block, chain.findLabel? label = some (home, mark, position) ∧
      other = ⟨home, block, position⟩ := by
  unfold target at found
  split at found
  · next home mark position here =>
      cases found
      exact (mem_request member).imp_right (fun ⟨block, last⟩ => ⟨home, mark, position, block, here, last⟩)
  · cases found

/-- What is asked for when a block is led on is asked for where the machine may come to from the end of its lines. -/
theorem arrived_close {block : Nat} (nested : Nested root asked (inner :: outer) calls callers)
    (reachable : Reachable root (frameAt inner stop :: callers)) (stops : inner.level.StopsAt stop ending)
    (closed : state.close (inner :: outer) inner block ending = .ok next)
    (later : ∀ filling ∈ next.waiting, asked filling) (member : other ∈ next.waiting) :
    other ∈ state.waiting ∨ Arrived root asked other := by
  have atLabel : ∀ {filling : Filling} {label : String},
      (∀ behind, jumpTo? label (frameAt inner stop :: callers) = some behind →
        MayGo (frameAt inner stop :: callers) behind) →
      (∃ home mark position block, CallChain.findLabel? label (inner :: outer) = some (home, mark, position) ∧
        filling = ⟨home, block, position⟩) → Arrived root asked filling := by
    rintro filling label goes ⟨home, mark, position, block, found, rfl⟩
    obtain ⟨homeInner, away, homeCalls, homeCallers, rfl, homeNested, jumps⟩ := nested.findLabel found stop
    exact .intro homeNested (reachable.tail (goes _ jumps))
  cases stops with
  | leave _ =>
      cases closed
      exact .inl member
  | halt =>
      cases closed
      exact .inl member
  | label =>
      cases closed
      refine (mem_request member).imp_right ?_
      rintro ⟨block, rfl⟩
      exact .intro nested reachable
  | @call line call here onLine =>
      obtain ⟨body, callee, found, rfl, rfl⟩ := enter_eq_ok closed
      have continues := (continues_following state "return." (inner :: outer) inner line stop).mono
        (fun filling waits => later filling (List.mem_append_left _ waits))
      rcases mem_request member with before | ⟨block, rfl⟩
      · refine (mem_following before).imp_right ?_
        rintro ⟨block, rfl⟩
        exact .intro nested (reachable.tail (.back here onLine))
      · have entered := Nested.call nested here onLine found continues
        have defined := (nested.findCircuit call.name stop).trans (callee_eq_ok found).2
        exact .inr (.intro entered (reachable.tail (.step (step_called here onLine defined _))))
  | jump here onLine =>
      obtain ⟨⟨id, middle⟩, found, led⟩ := Result.of_bind_eq_ok closed
      cases led
      exact (mem_target found member).imp_right (atLabel (fun _ jumps => .step (.jump here onLine jumps)))
  | conditionalJump here onLine =>
      obtain ⟨⟨id, middle⟩, found, led⟩ := Result.of_bind_eq_ok closed
      cases led
      rcases mem_following member with before | ⟨block, rfl⟩
      · exact (mem_target found before).imp_right (atLabel (fun _ jumps => .step (.jumpIf here onLine jumps)))
      · exact .inr (.intro nested (reachable.tail (.step (.goOn here onLine))))

/-- A block that cannot be led on ends in front of a faulty line. -/
theorem faulty_close {block : Nat} (nested : Nested root asked (inner :: outer) calls callers)
    (stops : inner.level.StopsAt stop ending)
    (failed : state.close (inner :: outer) inner block ending = .error error) :
    Faulty (frameAt inner stop :: callers) error := by
  have noLabel : ∀ {state : Inlining} {label : String} {line : Nat},
      state.target (inner :: outer) label line = .error error →
        error = .undefinedLabel label line ∧ jumpTo? label (frameAt inner stop :: callers) = none := by
    intro state label line failed
    unfold target at failed
    split at failed
    · cases failed
    · next missing => exact ⟨(Except.error.inj failed).symm, nested.findLabel_none missing stop⟩
  cases stops with
  | leave _ => cases failed
  | halt => cases failed
  | label => cases failed
  | call here onLine =>
      rcases Result.of_bind_eq_error failed with noBody | ⟨_, _, rest⟩
      · unfold callee at noBody
        split at noBody
        · next opens =>
            cases noBody
            exact .recursion here onLine ((nested.isOpen _).mp opens)
        · split at noBody
          · cases noBody
          · next missing =>
              cases noBody
              exact .circuit here onLine ((nested.findCircuit _ stop).trans missing)
      · cases rest
  | jump here onLine =>
      rcases Result.of_bind_eq_error failed with target | ⟨_, _, rest⟩
      · obtain ⟨rfl, missing⟩ := noLabel target
        exact .label here (.inl onLine) missing
      · cases rest
  | conditionalJump here onLine =>
      rcases Result.of_bind_eq_error failed with target | ⟨_, _, rest⟩
      · obtain ⟨rfl, missing⟩ := noLabel target
        exact .label here (.inr onLine) missing
      · cases rest

theorem Arrived.fill (arrived : Arrived root asked filling) (run : state.fill filling = .ok next)
    (later : ∀ filling ∈ next.waiting, asked filling) (member : other ∈ next.waiting) :
    other ∈ state.waiting ∨ Arrived root asked other := by
  obtain @⟨inner, outer, _, callers, _, position, nested, reachable⟩ := arrived
  obtain ⟨stop, there, stops⟩ := reachable.exists_stop rfl
  have asked := arrived_close nested there stops run later member
  exact asked

theorem Arrived.exists_faulty (arrived : Arrived root asked filling) (failed : state.fill filling = .error error) :
    ∃ inner outer calls callers stop, Nested root asked (inner :: outer) calls callers ∧
      Reachable root (frameAt inner stop :: callers) ∧ Faulty (frameAt inner stop :: callers) error := by
  obtain @⟨inner, outer, calls, callers, _, position, nested, reachable⟩ := arrived
  obtain ⟨stop, there, stops⟩ := reachable.exists_stop rfl
  exact ⟨inner, outer, calls, callers, stop, nested, there, faulty_close nested stops failed⟩

theorem arrived_first (root : Level) (asked : Filling → Prop) : Arrived root asked (first root) :=
  .intro .program .refl

theorem Built.arrived (built : Built root state) :
    ∀ filling ∈ state.waiting, Arrived root (HandedOut root state) filling := by
  obtain ⟨second, leads, further⟩ := built
  induction further with
  | refl =>
      have there : Built root second := ⟨second, leads, .refl⟩
      have run : (⟨.initial, [], [BlockGraph.halt]⟩ : Inlining).fill (first root) = .ok second := leads
      intro filling member
      rcases (arrived_first root _).fill run (fun _ waits => there.handedOut waits) member with before | arrived
      · cases before
      · exact arrived
  | @tail middle last before step ih =>
      have there : Built root last := ⟨second, leads, before.tail step⟩
      have kept : ∀ filling ∈ middle.waiting, Arrived root (HandedOut root last) filling :=
        fun filling waits => (ih filling waits).mono (fun _ handed => handed.step step)
      intro filling member
      rcases step_cases step with ⟨_, rfl⟩ | ⟨first, rest, head, ⟨_, rfl⟩ | ⟨_, run⟩⟩
      · exact kept filling member
      · exact kept filling (head ▸ List.mem_cons_of_mem _ member)
      · have known := kept first (head ▸ List.mem_cons_self)
        rcases known.fill run (fun _ waits => there.handedOut waits) member with waits | arrived
        · exact kept filling (head ▸ List.mem_cons_of_mem _ waits)
        · exact arrived

theorem HandedOut.framed (handed : HandedOut root last filling) : Framed root (HandedOut root last) filling := by
  obtain ⟨state, built, member, further⟩ := handed
  refine (built.arrived filling member).framed.mono (fun other known => ?_)
  obtain ⟨earlier, there, waits, onward⟩ := known
  exact ⟨earlier, there, waits, onward.trans further⟩

end Inlining

end TwoLane
