import TwoLane.Proofs.Block.Graph
import TwoLane.Proofs.Block.Place
import TwoLane.Proofs.Result

/-! # The construction of blocks

Every block that the construction asks for is asked for at a place and by the name of that place. While a
block is led on, other blocks are only asked for, and no lines are written.
-/

namespace TwoLane

namespace Level

/-- What the end of a run of lines says about the line that ends it. -/
def EndsAt (level : Level) : Ending → Prop
  | .leave | .halt => True
  | .label name position =>
      ∃ line, level.lines[position]? = some line ∧ level.labelAt? line = some name
  | .call call line position =>
      level.lines[position]? = some line ∧ level.callAt? line = some call
  | .jump label line => level.jumpAt? line = some label
  | .conditionalJump label line position =>
      level.lines[position]? = some line ∧ level.conditionalJumpAt? line = some label

theorem endsAt_followRun {level : Level} {isFirst position rest}
    (h : level.lines.drop position = rest) :
    level.EndsAt (level.followRun isFirst position rest).2 := by
  induction rest generalizing isFirst position with
  | nil => trivial
  | cons line rest ih =>
      have here : level.lines[position]? = some line := by
        rw [← List.head?_drop, h]
        rfl
      have further : level.lines.drop (position + 1) = rest := by
        rw [← List.tail_drop, h]
        rfl
      unfold followRun
      split
      · next name marked =>
          refine ⟨line, here, ?_⟩
          cases isFirst with
          | true => cases marked
          | false => exact marked
      · next call => exact ⟨here, call⟩
      · split
        · trivial
        · split
          · next label jump => exact jump
          · next label condition => exact ⟨here, condition⟩
          · exact ih further

theorem endsAt_runFrom (level : Level) (position : Nat) :
    level.EndsAt (level.runFrom position).2 :=
  endsAt_followRun rfl

theorem head_runFrom {level : Level} {position line} (here : level.lines[position]? = some line)
    (noCall : level.callAt? line = none) : (level.runFrom position).1.head? = some line := by
  have split : level.lines.drop position = line :: level.lines.drop (position + 1) := by
    obtain ⟨inside, rfl⟩ := List.getElem?_eq_some_iff.mp here
    exact List.drop_eq_getElem_cons inside
  unfold runFrom
  rw [split]
  unfold followRun
  simp only [noCall]
  repeat' split
  all_goals simp_all

end Level

namespace Inlining

open CallChain

/-- A block asked for at a spot of a program, by the name of the spot. -/
structure Granted (root : Level) (graph : BlockGraph) (filling : Filling) (spot : Spot)
    (calls : List Nat) : Prop where
  opened : Opened root filling.chain calls
  stands : ∀ {inner outer}, filling.chain = inner :: outer → spot.Stands inner filling.position
  named : graph.nameAt? filling.block = some (spot.blockName calls)

theorem Granted.keeps {root graph later filling spot calls}
    (h : Granted root graph filling spot calls) (keeps : graph.Keeps later) :
    Granted root later filling spot calls :=
  ⟨h.opened, h.stands, keeps _ _ h.named⟩

/-! ## Where blocks lead -/

/-- Whether a block is the one behind a position of the innermost instance of a chain: a block asked for at that
    position, or behind the last line the exit of the instance. -/
def Continues (asked : Filling → Prop) (chain : CallChain) (inner : LevelInstance) (position block : Nat) : Prop :=
  if position < inner.level.lines.length then asked ⟨chain, block, position⟩ else block = inner.exit

theorem Continues.mono {asked more : Filling → Prop} {chain : CallChain} {inner : LevelInstance}
    {position block : Nat} (continues : Continues asked chain inner position block)
    (h : ∀ filling, asked filling → more filling) : Continues more chain inner position block := by
  unfold Continues at continues ⊢
  split
  · next inside =>
      rw [if_pos inside] at continues
      exact h _ continues
  · next outside =>
      rw [if_neg outside] at continues
      exact continues

/-- The first target is a block asked for at the label that a chain finds. -/
def LeadsToLabel (asked : Filling → Prop) (chain : CallChain) (label : String)
    (targets : List Nat) : Prop :=
  ∃ home mark position block, chain.findLabel? label = some (home, mark, position) ∧
    asked ⟨home, block, position⟩ ∧ targets.head? = some block

theorem LeadsToLabel.mono {asked more : Filling → Prop} {chain : CallChain} {label : String}
    {targets : List Nat} (leads : LeadsToLabel asked chain label targets)
    (h : ∀ filling, asked filling → more filling) : LeadsToLabel more chain label targets := by
  obtain ⟨home, mark, position, block, found, known, head⟩ := leads
  exact ⟨home, mark, position, block, found, h _ known, head⟩

def called (inner : LevelInstance) (line : Nat) (call : Call) (body : Level) (after : Nat) : LevelInstance :=
  ⟨body, inner.mark ++ "@" ++ toString line, after, passQubits body.formals call.qubits inner.bindings, some call.name⟩

/-- Whether blocks are those that a run of lines of an instance leads to by its end. -/
def LeadsOn (asked : Filling → Prop) (inner : LevelInstance) (outer : CallChain) : Ending → List Nat → Prop
  | .leave, targets => targets = [inner.exit]
  | .halt, targets => targets = [BlockGraph.halt]
  | .label _ position, targets => ∃ block, targets = [block] ∧ asked ⟨inner :: outer, block, position⟩
  | .call call line position, targets => ∃ body after block, targets = [block] ∧
      CallChain.callee (inner :: outer) call.name line = .ok body ∧
      Continues asked (inner :: outer) inner (position + 1) after ∧
      asked ⟨called inner line call body after :: inner :: outer, block, 0⟩
  | .jump label _, targets => ∃ block, targets = [block] ∧ LeadsToLabel asked (inner :: outer) label targets
  | .conditionalJump label _ position, targets => ∃ block after, targets = [block, after] ∧
      LeadsToLabel asked (inner :: outer) label targets ∧
      Continues asked (inner :: outer) inner (position + 1) after

theorem LeadsOn.mono {asked more : Filling → Prop} {inner : LevelInstance} {outer : CallChain} {ending : Ending}
    {targets : List Nat} (leads : LeadsOn asked inner outer ending targets)
    (h : ∀ filling, asked filling → more filling) : LeadsOn more inner outer ending targets := by
  cases ending with
  | leave => exact leads
  | halt => exact leads
  | label name position =>
      obtain ⟨block, only, there⟩ := leads
      exact ⟨block, only, h _ there⟩
  | call call line position =>
      obtain ⟨body, after, block, only, callee, continues, entry⟩ := leads
      exact ⟨body, after, block, only, callee, continues.mono h, h _ entry⟩
  | jump label line =>
      obtain ⟨block, only, there⟩ := leads
      exact ⟨block, only, there.mono h⟩
  | conditionalJump label line position =>
      obtain ⟨block, after, both, there, continues⟩ := leads
      exact ⟨block, after, both, there.mono h, continues.mono h⟩

theorem LeadsOn.ne_nil {asked : Filling → Prop} {inner : LevelInstance} {outer : CallChain} {ending : Ending}
    {targets : List Nat} (leads : LeadsOn asked inner outer ending targets) : targets ≠ [] := by
  rintro rfl
  cases ending <;> simp [LeadsOn] at leads

def jumpLabel? : Ending → Option String
  | .jump label _ | .conditionalJump label _ _ => some label
  | _ => none

theorem LeadsOn.toLabel {asked : Filling → Prop} {inner : LevelInstance} {outer : CallChain} {ending : Ending}
    {targets : List Nat} {label : String} (leads : LeadsOn asked inner outer ending targets)
    (jumps : jumpLabel? ending = some label) : LeadsToLabel asked (inner :: outer) label targets := by
  cases ending with
  | jump _ _ =>
      cases jumps
      obtain ⟨_, _, there⟩ := leads
      exact there
  | conditionalJump _ _ _ =>
      cases jumps
      obtain ⟨_, _, _, there, _⟩ := leads
      exact there
  | _ => cases jumps

/-! ## Asking for blocks -/

/-- What happens to a state while a block is led on: others are asked for at places of the program, and only
    the block itself gets branches. -/
structure Grows (root : Level) (block : Nat) (targets : List Nat) (state next : Inlining) :
    Prop where
  keeps : state.graph.Keeps next.graph
  distinct : state.graph.NamesDistinct → next.graph.NamesDistinct
  filled : next.filled = state.filled
  waiting : ∀ filling ∈ next.waiting, filling ∈ state.waiting ∨
    ∃ spot calls, Granted root next.graph filling spot calls
  still : ∀ filling ∈ state.waiting, filling ∈ next.waiting
  made : ∀ id < next.graph.size, id < state.graph.size ∨ ∃ filling ∈ next.waiting, filling.block = id
  lines : ∀ id, (next.graph.block id).lines = (state.graph.block id).lines
  bindings : ∀ id, (next.graph.block id).bindings = (state.graph.block id).bindings
  others : ∀ id, id ≠ block → (next.graph.block id).branches = (state.graph.block id).branches
  branches : (next.graph.block block).branches = (state.graph.block block).branches ++ targets

namespace Grows

variable {root : Level} {block : Nat} {state next last : Inlining}

theorem refl (root : Level) (block : Nat) (state : Inlining) : Grows root block [] state state where
  keeps := .refl _
  distinct := fun h => h
  filled := rfl
  waiting := fun _ member => .inl member
  still := fun _ member => member
  made := fun _ inside => .inl inside
  lines := fun _ => rfl
  bindings := fun _ => rfl
  others := fun _ _ => rfl
  branches := by simp

theorem trans {targets more : List Nat} (hab : Grows root block targets state next)
    (hbc : Grows root block more next last) : Grows root block (targets ++ more) state last where
  keeps := hab.keeps.trans hbc.keeps
  distinct := fun h => hbc.distinct (hab.distinct h)
  filled := hbc.filled.trans hab.filled
  waiting := by
    intro filling member
    rcases hbc.waiting filling member with earlier | granted
    · rcases hab.waiting filling earlier with first | ⟨spot, calls, granted⟩
      · exact .inl first
      · exact .inr ⟨spot, calls, granted.keeps hbc.keeps⟩
    · exact .inr granted
  still := fun filling member => hbc.still filling (hab.still filling member)
  made := by
    intro id inside
    rcases hbc.made id inside with earlier | waits
    · refine (hab.made id earlier).imp_right ?_
      rintro ⟨filling, member, same⟩
      exact ⟨filling, hbc.still filling member, same⟩
    · exact .inr waits
  lines := fun id => (hbc.lines id).trans (hab.lines id)
  bindings := fun id => (hbc.bindings id).trans (hab.bindings id)
  others := fun id differ => (hbc.others id differ).trans (hab.others id differ)
  branches := by rw [hbc.branches, hab.branches, List.append_assoc]

/-- Asking for a block at a place. -/
theorem request {chain : CallChain} {calls : List Nat} {spot : Spot} {position : Nat}
    {name : String} (opened : Opened root chain calls)
    (stands : ∀ {inner outer}, chain = inner :: outer → spot.Stands inner position)
    (named : name = spot.blockName calls) (block : Nat) (state : Inlining) :
    Grows root block [] state (state.request name chain position).2 ∧
      Granted root (state.request name chain position).2.graph
        ⟨chain, (state.request name chain position).1, position⟩ spot calls := by
  have granted : Granted root (state.graph.request name).2
      ⟨chain, (state.graph.request name).1, position⟩ spot calls :=
    ⟨opened, stands, named ▸ BlockGraph.nameAt?_request state.graph name⟩
  refine ⟨?_, granted⟩
  exact {
    keeps := BlockGraph.keeps_request state.graph name
    distinct := fun distinct => BlockGraph.namesDistinct_request distinct name
    filled := rfl
    waiting := by
      intro filling member
      rcases List.mem_append.mp member with earlier | last
      · exact .inl earlier
      · rw [List.mem_singleton.mp last]
        exact .inr ⟨spot, calls, granted⟩
    still := fun _ member => List.mem_append_left _ member
    made := fun id inside => (BlockGraph.lt_size_or_eq_request inside).imp_right
      (fun same => ⟨_, List.mem_append_right _ List.mem_cons_self, same.symm⟩)
    lines := fun id => (BlockGraph.block_request state.graph name id).1
    bindings := fun id => (BlockGraph.block_request state.graph name id).2.2
    others := fun id _ => (BlockGraph.block_request state.graph name id).2.1
    branches := by
      rw [List.append_nil]
      exact (BlockGraph.block_request state.graph name block).2.1 }

theorem addBranch (root : Level) {name : String} (inside : state.graph.nameAt? block = some name)
    (target : Nat) : Grows root block [target] state (state.addBranch block target) where
  keeps := by
    intro id name named
    exact (BlockGraph.nameAt?_addBranch _ _ _ _).trans named
  distinct := by
    intro distinct a b name ha hb
    rw [Inlining.addBranch, BlockGraph.nameAt?_addBranch] at ha hb
    exact distinct a b name ha hb
  filled := rfl
  waiting := fun _ member => .inl member
  still := fun _ member => member
  made := fun id inside => .inl (BlockGraph.size_modify state.graph block _ ▸ inside)
  lines := fun id => BlockGraph.view_addBranch Block.lines (fun _ _ => rfl) state.graph block target id
  bindings := fun id => BlockGraph.view_addBranch Block.bindings (fun _ _ => rfl) state.graph block target id
  others := by
    intro id differ
    simp [Inlining.addBranch, BlockGraph.addBranch, BlockGraph.block_modify_of_ne differ.symm]
  branches := by
    simp [Inlining.addBranch, BlockGraph.addBranch,
      BlockGraph.block_modify_self (BlockGraph.nameAt?_lt inside)]

theorem following {chain outer : CallChain} {inner : LevelInstance} {calls : List Nat} {spot : Spot}
    {kind : String} {line position : Nat} (opened : Opened root chain calls)
    (head : chain = inner :: outer) (stands : spot.Stands inner (position + 1))
    (word : spot.word = kind ++ toString line) (block : Nat) (state : Inlining) :
    Grows root block [] state (state.following kind chain inner line position).2 := by
  unfold Inlining.following
  split
  · have there : ∀ {inner' outer'}, chain = inner' :: outer' → spot.Stands inner' (position + 1) := by
      intro inner' outer' head'
      cases head.symm.trans head'
      exact stands
    have named : kind ++ toString line ++ inner.mark = spot.blockName calls := by
      subst head
      rw [Spot.blockName, word, opened.mark_eq]
    exact (request opened there named block state).1
  · exact .refl root block state

end Grows

/-! ## Leading a filled block on -/

theorem continues_following (state : Inlining) (kind : String) (chain : CallChain) (inner : LevelInstance)
    (line position : Nat) :
    Continues (· ∈ (state.following kind chain inner line position).2.waiting) chain inner (position + 1)
      (state.following kind chain inner line position).1 := by
  unfold Inlining.following Continues
  split
  · exact List.mem_append_right _ List.mem_cons_self
  · rfl

theorem target_grows {root : Level} {state next : Inlining} {chain : CallChain} {calls : List Nat}
    {label : String} {line id : Nat} (opened : Opened root chain calls) (block : Nat)
    (asked : state.target chain label line = .ok (id, next)) :
    Grows root block [] state next ∧ ∀ more, LeadsToLabel (· ∈ next.waiting) chain label (id :: more) := by
  unfold Inlining.target at asked
  split at asked
  · next home mark position found =>
      obtain ⟨homeCalls, inner, outer, rfl, homeOpened, rfl, stands⟩ := opened.findLabel found
      have there : ∀ {inner' outer'}, inner :: outer = inner' :: outer' →
          (Spot.label label).Stands inner' position := by
        intro inner' outer' head
        cases head
        exact stands
      have named : label ++ inner.mark = (Spot.label label).blockName homeCalls := by
        rw [Spot.blockName, Spot.word, homeOpened.mark_eq]
      have grows := Grows.request homeOpened there named block state
      cases asked
      exact ⟨grows.1, fun _ => ⟨_, _, _, _, found, List.mem_append_right _ List.mem_cons_self, rfl⟩⟩
  · cases asked

theorem enter_eq_ok {state next : Inlining} {chain : CallChain} {inner : LevelInstance}
    {block : Nat} {call : Call} {line position : Nat}
    (entered : state.enter chain inner block call line position = .ok next) :
    ∃ body callee, chain.callee call.name line = .ok body ∧
      callee = called inner line call body (state.following "return." chain inner line position).1 ∧
      next = (((state.following "return." chain inner line position).2.request
        (call.name ++ callee.mark) (callee :: chain) 0).2).addBranch block
          ((state.following "return." chain inner line position).2.request
            (call.name ++ callee.mark) (callee :: chain) 0).1 := by
  obtain ⟨body, callee, rest⟩ := Result.of_bind_eq_ok entered
  exact ⟨body, _, callee, rfl, (Except.ok.inj rest).symm⟩

/-- A call leads a block to the first block of the circuit, behind which the caller goes on. -/
theorem enter_grows {root : Level} {state next : Inlining} {inner : LevelInstance} {outer : CallChain}
    {calls : List Nat} {block line position : Nat} {name : String} {call : Call} (wf : root.WellFormed)
    (opened : Opened root (inner :: outer) calls) (inside : state.graph.nameAt? block = some name)
    (here : inner.level.lines[position]? = some line) (onLine : inner.level.callAt? line = some call)
    (closed : state.enter (inner :: outer) inner block call line position = .ok next) :
    ∃ targets, Grows root block targets state next ∧
      LeadsOn (· ∈ next.waiting) inner outer (.call call line position) targets := by
  obtain ⟨body, callee, found, same, rfl⟩ := enter_eq_ok closed
  have behind : (Spot.afterCall line).Stands inner (position + 1) :=
    ⟨position, Level.position?_of_getElem? (opened.wellFormed wf inner List.mem_cons_self) here, rfl⟩
  have first := Grows.following opened rfl behind rfl block state
  have continues := continues_following state "return." (inner :: outer) inner line position
  have entered : Opened root (callee :: inner :: outer) (line :: calls) := by
    rw [same]
    exact .call opened onLine found
  have stands : ∀ {inner' outer'}, callee :: inner :: outer = inner' :: outer' →
      (Spot.entry call.name).Stands inner' 0 := by
    intro inner' outer' head
    cases head
    exact ⟨by rw [same]; rfl, rfl⟩
  have named : call.name ++ callee.mark = (Spot.entry call.name).blockName (line :: calls) := by
    rw [Spot.blockName, Spot.word, entered.mark_eq]
  have second := (Grows.request entered stands named block
    (state.following "return." (inner :: outer) inner line position).2).1
  have both := first.trans second
  exact ⟨_, both.trans (.addBranch root (both.keeps _ _ inside) _), body, _, _, rfl, found,
    continues.mono second.still, same ▸ List.mem_append_right _ List.mem_cons_self⟩

theorem close_grows {root : Level} {state next : Inlining} {inner : LevelInstance}
    {outer : CallChain} {calls : List Nat} {block : Nat} {name : String} {ending : Ending}
    (wf : root.WellFormed) (opened : Opened root (inner :: outer) calls)
    (inside : state.graph.nameAt? block = some name) (ends : inner.level.EndsAt ending)
    (closed : state.close (inner :: outer) inner block ending = .ok next) :
    ∃ targets, Grows root block targets state next ∧ LeadsOn (· ∈ next.waiting) inner outer ending targets := by
  have level := opened.wellFormed wf inner List.mem_cons_self
  cases ending with
  | leave =>
      cases closed
      exact ⟨_, .addBranch root inside _, rfl⟩
  | halt =>
      cases closed
      exact ⟨_, .addBranch root inside _, rfl⟩
  | label word position =>
      obtain ⟨line, here, marked⟩ := ends
      cases closed
      have stands : ∀ {inner' outer'}, inner :: outer = inner' :: outer' →
          (Spot.label word).Stands inner' position := by
        intro inner' outer' head
        cases head
        exact ⟨line, Level.labelLine?_of_labelAt? level marked, Level.position?_of_getElem? level here⟩
      have named : word ++ inner.mark = (Spot.label word).blockName calls := by
        rw [Spot.blockName, Spot.word, opened.mark_eq]
      have grows := (Grows.request opened stands named block state).1
      exact ⟨_, grows.trans (.addBranch root (grows.keeps _ _ inside) _), _, rfl,
        List.mem_append_right _ List.mem_cons_self⟩
  | call call line position =>
      exact enter_grows wf opened inside ends.1 ends.2 closed
  | jump label line =>
      obtain ⟨⟨id, middle⟩, asked, led⟩ := Result.of_bind_eq_ok closed
      cases led
      obtain ⟨first, leads⟩ := target_grows opened block asked
      exact ⟨_, first.trans (.addBranch root (first.keeps _ _ inside) id), id, rfl, leads _⟩
  | conditionalJump label line position =>
      obtain ⟨⟨id, middle⟩, asked, led⟩ := Result.of_bind_eq_ok closed
      cases led
      obtain ⟨first, leads⟩ := target_grows opened block asked
      have behind : (Spot.afterJump line).Stands inner (position + 1) :=
        ⟨position, Level.position?_of_getElem? level ends.1, rfl⟩
      have second := Grows.addBranch root (first.keeps _ _ inside) id
      have third := Grows.following opened rfl behind rfl block (middle.addBranch block id)
      have continues := continues_following (middle.addBranch block id) "after." (inner :: outer) inner line position
      have all := (first.trans second).trans third
      have last := Grows.addBranch root (all.keeps _ _ inside)
        ((middle.addBranch block id).following "after." (inner :: outer) inner line position).1
      exact ⟨_, all.trans last, id, _, rfl, (leads _).mono third.still, continues⟩

end Inlining

end TwoLane
