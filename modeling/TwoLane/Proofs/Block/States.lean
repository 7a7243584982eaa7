import Mathlib.Logic.Relation
import TwoLane.Proofs.Block.Construction

/-! # States of the construction

A block that was asked for is filled with the lines from its place on, and then leads on as the last of them says. The
invariant holds behind the first step and every step keeps it, so it holds of every state that the
construction comes to.
-/

namespace TwoLane

/-- What is written in a block when it is filled. -/
def BlockGraph.content (graph : BlockGraph) (id : Nat) : List Nat × Bindings × List Nat :=
  ((graph.block id).lines, (graph.block id).bindings, graph.branches id)

namespace Inlining

open CallChain

/-- The block at which a program begins. -/
def first (root : Level) : Filling :=
  ⟨[⟨root, "", BlockGraph.halt, [], none⟩], BlockGraph.start, 0⟩

/-- The block of a filling holds the lines from its position on and the bindings of its instance, and leads to the
    blocks that were asked for by the end of these lines. -/
structure Written (graph : BlockGraph) (asked : Filling → Prop) (filling : Filling) : Prop where
  lines : ∀ {inner outer}, filling.chain = inner :: outer →
    (graph.block filling.block).lines = (inner.level.runFrom filling.position).1
  bindings : ∀ {inner outer}, filling.chain = inner :: outer → (graph.block filling.block).bindings = inner.bindings
  leads : ∀ {inner outer}, filling.chain = inner :: outer →
    LeadsOn asked inner outer (inner.level.runFrom filling.position).2 (graph.branches filling.block)

theorem Written.mono {graph later : BlockGraph} {asked more : Filling → Prop} {filling : Filling}
    (written : Written graph asked filling) (h : ∀ other, asked other → more other)
    (same : later.content filling.block = graph.content filling.block) : Written later more filling where
  lines := fun head => (congrArg Prod.fst same).trans (written.lines head)
  bindings := fun head => (congrArg (fun content => content.2.1) same).trans (written.bindings head)
  leads := by
    intro inner outer head
    have branches : later.branches filling.block = graph.branches filling.block :=
      congrArg (fun content => content.2.2) same
    rw [branches]
    exact (written.leads head).mono h

theorem Written.jump {graph : BlockGraph} {asked : Filling → Prop} {filling : Filling} {inner : LevelInstance}
    {outer : CallChain} {label : String} (written : Written graph asked filling) (head : filling.chain = inner :: outer)
    (jumps : jumpLabel? (inner.level.runFrom filling.position).2 = some label) :
    LeadsToLabel asked filling.chain label (graph.branches filling.block) :=
  head ▸ (written.leads head).toLabel jumps

/-- What filling a block does: others are asked for, and the block is written. -/
structure Fills (root : Level) (filling : Filling) (state next : Inlining) : Prop where
  keeps : state.graph.Keeps next.graph
  distinct : state.graph.NamesDistinct → next.graph.NamesDistinct
  filled : next.filled = filling.block :: state.filled
  waiting : ∀ other ∈ next.waiting, other ∈ state.waiting ∨
    ∃ spot calls, Granted root next.graph other spot calls
  still : ∀ other ∈ state.waiting, other ∈ next.waiting
  made : ∀ id < next.graph.size, id < state.graph.size ∨ ∃ other ∈ next.waiting, other.block = id
  others : ∀ id, id ≠ filling.block → next.graph.content id = state.graph.content id
  written : state.graph.content filling.block = ([], [], []) → Written next.graph (· ∈ next.waiting) filling

theorem fill_fills {root : Level} {state next : Inlining} {filling : Filling} {calls : List Nat}
    {name : String} (wf : root.WellFormed) (opened : Opened root filling.chain calls)
    (inside : state.graph.nameAt? filling.block = some name)
    (run : state.fill filling = .ok next) : Fills root filling state next := by
  obtain ⟨inner, outer, head⟩ := opened.exists_cons
  rw [Inlining.fill, head] at run
  rw [head] at opened
  set change : Block → Block := fun block =>
    { block with
      lines := block.lines ++ (inner.level.runFrom filling.position).1, bindings := inner.bindings }
  set noted := state.graph.modify filling.block change with hnoted
  have same : ∀ id, noted.nameAt? id = state.graph.nameAt? id :=
    BlockGraph.nameAt?_modify (fun _ => rfl)
  have self : noted.block filling.block = change (state.graph.block filling.block) :=
    BlockGraph.block_modify_self (BlockGraph.nameAt?_lt inside) change
  have others : ∀ id, id ≠ filling.block → noted.block id = state.graph.block id :=
    fun id differ => BlockGraph.block_modify_of_ne differ.symm change
  obtain ⟨targets, grows, leads⟩ := close_grows wf opened ((same _).trans inside)
    (Level.endsAt_runFrom inner.level filling.position) run
  exact {
    keeps := fun id name named => grows.keeps id name ((same id).trans named)
    distinct := by
      intro distinct
      refine grows.distinct ?_
      intro a b name ha hb
      exact distinct a b name ((same a).symm.trans ha) ((same b).symm.trans hb)
    filled := grows.filled
    waiting := grows.waiting
    still := grows.still
    made := fun id inside => BlockGraph.size_modify state.graph filling.block change ▸ grows.made id inside
    others := by
      intro id differ
      have same : noted.content id = state.graph.content id := by
        rw [BlockGraph.content, BlockGraph.branches, others id differ]
        rfl
      rw [← same]
      exact congrArg₂ Prod.mk (grows.lines id) (congrArg₂ Prod.mk (grows.bindings id) (grows.others id differ))
    written := by
      intro blank
      have noLines : (state.graph.block filling.block).lines = [] := congrArg Prod.fst blank
      have noBranches : (state.graph.block filling.block).branches = [] := congrArg (fun content => content.2.2) blank
      have lines := (grows.lines filling.block).trans (congrArg Block.lines self)
      have bindings := (grows.bindings filling.block).trans (congrArg Block.bindings self)
      have branches := grows.branches.trans
        (congrArg (fun block => block.branches ++ targets) self)
      simp only [change, noLines, noBranches, List.nil_append] at lines branches
      refine ⟨?_, ?_, ?_⟩
      · intro inner' outer' head'
        cases head.symm.trans head'
        exact lines
      · intro inner' outer' head'
        cases head.symm.trans head'
        exact bindings
      · intro inner' outer' head'
        cases head.symm.trans head'
        rw [BlockGraph.branches, branches]
        exact leads }

/-- One step of the construction. -/
def Leads (state next : Inlining) : Prop :=
  state.step = .ok next

theorem step_cases {state next : Inlining} (leads : Leads state next) : (state.waiting = [] ∧ next = state) ∨
    ∃ filling rest, state.waiting = filling :: rest ∧
      ((filling.block ∈ state.filled ∧ next = { state with waiting := rest }) ∨
        (filling.block ∉ state.filled ∧ ({ state with waiting := rest } : Inlining).fill filling = .ok next)) := by
  unfold Leads Inlining.step at leads
  split at leads
  · next none =>
      cases leads
      exact .inl ⟨none, rfl⟩
  · next filling rest head =>
      refine .inr ⟨filling, rest, head, ?_⟩
      split at leads
      · next already =>
          cases leads
          exact .inl ⟨List.contains_iff_mem.mp already, rfl⟩
      · next empty => exact .inr ⟨fun member => empty (List.contains_iff_mem.mpr member), leads⟩

/-- A state that the construction comes to behind its first step. -/
def Built (root : Level) (state : Inlining) : Prop :=
  ∃ next, Leads (.initial root) next ∧ Relation.ReflTransGen Leads next state

/-- A block that was asked for on the way to a state. -/
def HandedOut (root : Level) (last : Inlining) (filling : Filling) : Prop :=
  ∃ state, Built root state ∧ filling ∈ state.waiting ∧ Relation.ReflTransGen Leads state last

/-- What holds of every state that the construction comes to. -/
structure Sound (root : Level) (state : Inlining) (asked : Filling → Prop) : Prop where
  distinct : state.graph.NamesDistinct
  start : state.graph.nameAt? BlockGraph.start = some "start"
  halt : state.graph.nameAt? BlockGraph.halt = some "halt"
  waiting : ∀ filling ∈ state.waiting, ∃ spot calls, Granted root state.graph filling spot calls
  filled : ∀ id ∈ state.filled, id = BlockGraph.halt ∨ ∃ filling, filling.block = id ∧
    (filling = first root ∨ asked filling) ∧ Written state.graph asked filling
  fresh : ∀ id, id ∉ state.filled → state.graph.content id = ([], [], [])
  exit : BlockGraph.halt ∈ state.filled ∧ state.graph.content BlockGraph.halt = ([], [], [])
  once : state.filled.Nodup

namespace Sound

variable {root : Level} {state next : Inlining} {asked : Filling → Prop}

/-- Filling a block that is not filled yet keeps the invariant. -/
theorem fill {filling : Filling} {calls : List Nat} {name : String} (wf : root.WellFormed)
    (sound : Sound root state asked) (opened : Opened root filling.chain calls)
    (inside : state.graph.nameAt? filling.block = some name) (empty : filling.block ∉ state.filled)
    (known : filling = first root ∨ asked filling) (run : state.fill filling = .ok next)
    (later : ∀ other ∈ next.waiting, asked other) : Sound root next asked := by
  have fills := fill_fills wf opened inside run
  exact {
    distinct := fills.distinct sound.distinct
    start := fills.keeps _ _ sound.start
    halt := fills.keeps _ _ sound.halt
    waiting := by
      intro other member
      rcases fills.waiting other member with earlier | granted
      · obtain ⟨spot, calls, granted⟩ := sound.waiting other earlier
        exact ⟨spot, calls, granted.keeps fills.keeps⟩
      · exact granted
    filled := by
      intro id member
      rw [fills.filled] at member
      by_cases same : id = filling.block
      · have written := (fills.written (sound.fresh filling.block empty)).mono later rfl
        exact .inr ⟨filling, same.symm, known, written⟩
      · have earlier := (List.mem_cons.mp member).resolve_left same
        rcases sound.filled id earlier with exit | ⟨other, rfl, otherKnown, written⟩
        · exact .inl exit
        · exact .inr ⟨other, rfl, otherKnown, written.mono (fun _ h => h) (fills.others other.block same)⟩
    fresh := by
      intro id absent
      rw [fills.filled, List.mem_cons, not_or] at absent
      exact (fills.others id absent.1).trans (sound.fresh id absent.2)
    exit := by
      have differ : BlockGraph.halt ≠ filling.block := fun same => empty (same ▸ sound.exit.1)
      exact ⟨fills.filled ▸ List.mem_cons_of_mem _ sound.exit.1, (fills.others _ differ).trans sound.exit.2⟩
    once := fills.filled ▸ List.nodup_cons.mpr ⟨empty, sound.once⟩ }

theorem mono {more : Filling → Prop} (sound : Sound root state asked)
    (h : ∀ filling, asked filling → more filling) : Sound root state more where
  distinct := sound.distinct
  start := sound.start
  halt := sound.halt
  waiting := sound.waiting
  filled := by
    intro id member
    rcases sound.filled id member with exit | ⟨filling, same, known, written⟩
    · exact .inl exit
    · exact .inr ⟨filling, same, known.imp_right (h filling), written.mono h rfl⟩
  fresh := sound.fresh
  exit := sound.exit
  once := sound.once

theorem drop {filling : Filling} {rest : List Filling} (sound : Sound root state asked)
    (head : state.waiting = filling :: rest) :
    Sound root { state with waiting := rest } asked where
  distinct := sound.distinct
  start := sound.start
  halt := sound.halt
  waiting := fun other member => sound.waiting other (head ▸ List.mem_cons_of_mem _ member)
  filled := sound.filled
  fresh := sound.fresh
  exit := sound.exit
  once := sound.once

end Sound

/-- From one state to a later one no block is lost: it keeps its name, and one that waits is filled in the end. -/
structure Carries (state next : Inlining) : Prop where
  keeps : state.graph.Keeps next.graph
  filled : ∀ id ∈ state.filled, id ∈ next.filled
  waiting : ∀ filling ∈ state.waiting, filling ∈ next.waiting ∨ filling.block ∈ next.filled

theorem Carries.trans {a b c : Inlining} (hab : Carries a b) (hbc : Carries b c) : Carries a c where
  keeps := hab.keeps.trans hbc.keeps
  filled := fun id member => hbc.filled id (hab.filled id member)
  waiting := by
    intro filling member
    rcases hab.waiting filling member with waits | filled
    · exact hbc.waiting filling waits
    · exact .inr (hbc.filled _ filled)

variable {root : Level} {state next : Inlining} {asked : Filling → Prop}

theorem Sound.step (wf : root.WellFormed) (sound : Sound root state asked)
    (known : ∀ filling ∈ state.waiting, asked filling)
    (later : ∀ filling ∈ next.waiting, asked filling) (leads : Leads state next) :
    Sound root next asked ∧ Carries state next := by
  rcases step_cases leads with ⟨_, rfl⟩ | ⟨filling, rest, head, ⟨already, rfl⟩ | ⟨empty, run⟩⟩
  · exact ⟨sound, .refl _, fun _ member => member, fun _ member => .inl member⟩
  · refine ⟨sound.drop head, .refl _, fun _ member => member, ?_⟩
    intro other member
    rcases List.mem_cons.mp (head ▸ member) with rfl | further
    · exact .inr already
    · exact .inl further
  · have here : filling ∈ state.waiting := head ▸ List.mem_cons_self
    obtain ⟨spot, calls, granted⟩ := sound.waiting filling here
    have fills : Fills root filling { state with waiting := rest } next :=
      fill_fills wf granted.opened granted.named run
    refine ⟨(sound.drop head).fill wf granted.opened granted.named empty
      (.inr (known filling here)) run later, fills.keeps, ?_, ?_⟩
    · intro id member
      rw [fills.filled]
      exact List.mem_cons_of_mem _ member
    · intro other member
      rcases List.mem_cons.mp (head ▸ member) with rfl | further
      · exact .inr (fills.filled ▸ List.mem_cons_self)
      · exact .inl (fills.still other further)

theorem HandedOut.step {filling : Filling} (handed : HandedOut root state filling)
    (leads : Leads state next) : HandedOut root next filling := by
  obtain ⟨earlier, built, member, further⟩ := handed
  exact ⟨earlier, built, member, further.tail leads⟩

theorem sound_start (root : Level) (asked : Filling → Prop) :
    Sound root ⟨.initial, [], [BlockGraph.halt]⟩ asked where
  distinct := by
    intro a b name ha hb
    rcases a with _ | _ | a <;> rcases b with _ | _ | b <;>
      simp [BlockGraph.nameAt?, BlockGraph.initial, Block.named] at ha hb ⊢
    · exact absurd (ha.trans hb.symm) (by decide)
    · exact absurd (ha.trans hb.symm) (by decide)
  start := rfl
  halt := rfl
  waiting := fun _ member => by cases member
  filled := fun id member => .inl (List.mem_singleton.mp member)
  fresh := by
    intro id _
    rcases id with _ | _ | id <;> rfl
  exit := ⟨List.mem_singleton_self _, rfl⟩
  once := List.nodup_singleton _

theorem Built.step (built : Built root state) (leads : Leads state next) : Built root next := by
  obtain ⟨second, first, further⟩ := built
  exact ⟨second, first, further.tail leads⟩

theorem Built.trans {last : Inlining} (built : Built root state) (further : Relation.ReflTransGen Leads state last) :
    Built root last := by
  obtain ⟨second, leads, onward⟩ := built
  exact ⟨second, leads, onward.trans further⟩

theorem Built.handedOut (built : Built root state) {filling : Filling}
    (member : filling ∈ state.waiting) : HandedOut root state filling :=
  ⟨state, built, member, .refl⟩

/-- The invariant holds of every state that the construction comes to. -/
theorem Built.sound (wf : root.WellFormed) (built : Built root state) :
    Sound root state (HandedOut root state) := by
  obtain ⟨second, leads, further⟩ := built
  induction further with
  | refl =>
      have there : Built root second := ⟨second, leads, .refl⟩
      have empty : (first root).block ∉ [BlockGraph.halt] := by
        simp [first, BlockGraph.start, BlockGraph.halt]
      exact (sound_start root _).fill wf .program rfl empty (.inl rfl) leads
        (fun _ member => there.handedOut member)
  | @tail middle last before step ih =>
      have there : Built root middle := ⟨second, leads, before⟩
      have sound := ih.mono (fun _ handed => handed.step step)
      exact (sound.step wf (fun _ member => (there.handedOut member).step step)
        (fun _ member => (there.step step).handedOut member) step).1

theorem Built.carries {last : Inlining} (wf : root.WellFormed) (built : Built root state)
    (further : Relation.ReflTransGen Leads state last) : Carries state last := by
  induction further with
  | refl => exact ⟨.refl _, fun _ member => member, fun _ member => .inl member⟩
  | @tail middle last before step ih =>
      have there := built.trans before
      have sound := (there.sound wf).mono (fun _ handed => handed.step step)
      exact ih.trans (sound.step wf (fun _ member => (there.handedOut member).step step)
        (fun _ member => (there.step step).handedOut member) step).2

theorem first_fills (wf : root.WellFormed) (leads : Leads (.initial root) next) :
    Fills root (first root) ⟨.initial, [], [BlockGraph.halt]⟩ next :=
  fill_fills wf .program rfl leads

theorem Built.start_filled (wf : root.WellFormed) (built : Built root state) :
    BlockGraph.start ∈ state.filled := by
  obtain ⟨second, leads, further⟩ := built
  have there : Built root second := ⟨second, leads, .refl⟩
  refine (there.carries wf further).filled _ ?_
  rw [(first_fills wf leads).filled]
  exact List.mem_cons_self

theorem leads_of_steps {bound : Nat} (run : Inlining.steps bound state = .ok next) :
    Relation.ReflTransGen Leads state next := by
  induction bound generalizing state with
  | zero =>
      cases run
      exact .refl
  | succ bound ih =>
      unfold Inlining.steps at run
      split at run
      · cases run
        exact .refl
      · obtain ⟨second, leads, further⟩ := Result.of_bind_eq_ok run
        exact .head leads (ih further)

theorem leads_of_steps_eq_error {bound : Nat} {error : ProgramError} (run : Inlining.steps bound state = .error error) :
    ∃ last, Relation.ReflTransGen Leads state last ∧ last.step = .error error := by
  induction bound generalizing state with
  | zero => cases run
  | succ bound ih =>
      unfold Inlining.steps at run
      split at run
      · cases run
      · rcases Result.of_bind_eq_error run with failed | ⟨second, leads, further⟩
        · exact ⟨state, .refl, failed⟩
        · obtain ⟨last, onward, failed⟩ := ih further
          exact ⟨last, .head leads onward, failed⟩

theorem built_of_steps {bound : Nat} (run : Inlining.steps (bound + 1) (.initial root) = .ok state) :
    Built root state := by
  obtain ⟨second, leads, further⟩ := Result.of_bind_eq_ok run
  exact ⟨second, leads, leads_of_steps further⟩

end Inlining

end TwoLane
