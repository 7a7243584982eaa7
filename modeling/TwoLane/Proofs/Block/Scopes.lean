import Mathlib.Data.List.TakeWhile
import TwoLane.Proofs.Block.Bound
import TwoLane.Proofs.Block.Levels
import TwoLane.Tree.Draft

/-! # Scopes

The scope of a body is the body itself and the levels around it, as they are written. A chain of calls holds an instance
of each of these levels, but other callers as well, and names are looked up in all of them. So a name means what it means
where the body is written as long as no other caller defines it first; then all expansions of a body are alike.
-/

namespace TwoLane

namespace Level

/-- The scopes of a program: a level and those around it, the innermost one first. -/
inductive Enclosed (root : Level) : List Level → Prop where
  | program : Enclosed root [root]
  | circuit {level body : Level} {scope : List Level} {name : String} :
      Enclosed root (level :: scope) → level.circuit? name = some body → Enclosed root (body :: level :: scope)

def definesCircuit (name : String) (level : Level) : Bool :=
  (level.circuit? name).isSome

/-- Whether a level defines a label on one of its code lines. -/
def definesLabel (label : String) (level : Level) : Bool :=
  ((level.labelLine? label).bind level.position?).isSome

def nearest (defines : Level → Bool) (scope : List Level) : List Level :=
  scope.dropWhile (fun level => !defines level)

def resolve? (name : String) (scope : List Level) : Option (List Level) :=
  match nearest (definesCircuit name) scope with
  | [] => none
  | level :: outer => (level.circuit? name).map (fun body => body :: level :: outer)

end Level

namespace CallChain

/-! ## The levels around a body -/

def enclosing : Option String → CallChain → CallChain
  | _, [] => []
  | none, _ :: _ => []
  | some name, inner :: outer =>
      if inner.level.definesCircuit name then inner :: enclosing inner.circuit outer
      else enclosing (some name) outer

/-- The innermost instance of a chain and the instances of the levels around it. -/
def static : CallChain → CallChain
  | [] => []
  | inner :: outer => inner :: enclosing inner.circuit outer

def scope (chain : CallChain) : List Level :=
  chain.static.map LevelInstance.level

/-- The chain from the nearest instance on whose level defines something. -/
def home (defines : Level → Bool) (chain : CallChain) : CallChain :=
  chain.dropWhile (fun inner => !defines inner.level)

/-- Whether the nearest caller that defines something, if there is one, is a level around the body. -/
def Unshadowed (defines : Level → Bool) (chain : CallChain) : Prop :=
  ∀ inner, (chain.home defines).head? = some inner → inner ∈ chain.static

variable {root : Level} {chain : CallChain} {inner : LevelInstance} {outer : CallChain} {calls : List Nat}
  {defines : Level → Bool} {name label : String} {body : Level}

theorem home_cons_of_defines (here : defines inner.level = true) : home defines (inner :: outer) = inner :: outer := by
  simp [home, here]

theorem home_cons_of_not (missing : defines inner.level = false) :
    home defines (inner :: outer) = home defines outer := by
  simp [home, missing]

theorem of_head?_home (head : (chain.home defines).head? = some inner) :
    inner ∈ chain ∧ defines inner.level = true := by
  have found : chain.find? (fun inner => defines inner.level) = some inner := by
    rw [List.find?_eq_head?_dropWhile_not]
    simpa [home] using head
  exact ⟨List.mem_of_find?_eq_some found, by simpa using List.find?_some found⟩

theorem enclosing_sublist (sought : Option String) (chain : CallChain) : (enclosing sought chain).Sublist chain := by
  induction chain generalizing sought with
  | nil => exact .slnil
  | cons inner outer ih =>
      cases sought with
      | none => exact List.nil_sublist _
      | some name =>
          rw [enclosing]
          split
          · exact (ih inner.circuit).cons_cons inner
          · exact (ih (some name)).cons inner

theorem enclosing_eq_static (name : String) (chain : CallChain) :
    enclosing (some name) chain = (chain.home (Level.definesCircuit name)).static := by
  induction chain with
  | nil => rfl
  | cons inner outer ih =>
      rw [enclosing]
      split
      · next here => rw [home_cons_of_defines here, static]
      · next missing => rw [home_cons_of_not (by simpa using missing), ih]

/-- No instance is twice in a chain: each call makes the mark longer. -/
theorem Opened.nodup (opened : Opened root chain calls) : chain.Nodup := by
  suffices marks : chain.Pairwise (fun inner outer => outer.mark.length < inner.mark.length) from
    marks.imp (fun less same => absurd (congrArg (fun inner => inner.mark.length) same) (Nat.ne_of_gt less))
  induction opened with
  | program => exact List.pairwise_singleton _ _
  | call _ _ _ ih =>
      refine List.pairwise_cons.mpr ⟨fun other member => ?_, ih⟩
      have separator : 0 < "@".length := by decide
      simp only [String.length_append]
      rcases List.mem_cons.mp member with rfl | further
      · omega
      · have := (List.pairwise_cons.mp ih).1 other further
        omega

/-- Where the nearest caller that defines something is a level around a body, it is the nearest such level, and its own
    scope is what is left of the scope of the body. -/
theorem static_home_of_enclosing {sought : Option String} (distinct : chain.Nodup)
    (clear : ∀ inner, (chain.home defines).head? = some inner → inner ∈ enclosing sought chain) :
    (chain.home defines).static = (enclosing sought chain).home defines := by
  induction chain generalizing sought with
  | nil => rfl
  | cons inner outer ih =>
      obtain ⟨absent, distinct⟩ := List.nodup_cons.mp distinct
      cases there : defines inner.level with
      | true =>
          rw [home_cons_of_defines there] at clear ⊢
          have member := clear inner rfl
          cases sought with
          | none => cases member
          | some name =>
              rw [enclosing] at member ⊢
              split at member
              · next names => rw [if_pos names, home_cons_of_defines there, static]
              · exact absurd ((enclosing_sublist _ _).subset member) absent
      | false =>
          rw [home_cons_of_not there] at clear ⊢
          cases sought with
          | none =>
              have empty : enclosing none outer = [] := by cases outer <;> rfl
              rw [ih distinct (fun other head => by cases clear other head), empty]
              rfl
          | some name =>
              rw [enclosing] at clear ⊢
              split
              · next names =>
                rw [if_pos names] at clear
                rw [home_cons_of_not there]
                refine ih distinct (fun other head => ?_)
                rcases List.mem_cons.mp (clear other head) with rfl | behind
                · exact absurd (of_head?_home head).2 (by simp [there])
                · exact behind
              · next names =>
                rw [if_neg names] at clear
                exact ih distinct clear

theorem static_home (distinct : chain.Nodup) (clear : chain.Unshadowed defines) :
    (chain.home defines).static = chain.static.home defines := by
  cases chain with
  | nil => rfl
  | cons inner outer =>
      obtain ⟨absent, distinct⟩ := List.nodup_cons.mp distinct
      cases there : defines inner.level with
      | true => rw [home_cons_of_defines there, static, home_cons_of_defines there]
      | false =>
          rw [Unshadowed, home_cons_of_not there] at clear
          rw [home_cons_of_not there, static, home_cons_of_not there]
          refine static_home_of_enclosing distinct (fun other head => ?_)
          rcases List.mem_cons.mp (clear other head) with rfl | behind
          · exact absurd (of_head?_home head).2 (by simp [there])
          · exact behind

theorem scope_home (distinct : chain.Nodup) (clear : chain.Unshadowed defines) :
    (chain.home defines).scope = Level.nearest defines chain.scope := by
  rw [scope, static_home distinct clear, Level.nearest, scope, List.dropWhile_map]
  rfl

/-! ## What the construction finds -/

theorem findCircuit?_eq_home (name : String) (chain : CallChain) : chain.findCircuit? name =
    (chain.home (Level.definesCircuit name)).head?.bind (fun inner => inner.level.circuit? name) := by
  induction chain with
  | nil => rfl
  | cons inner outer ih =>
      rw [findCircuit?]
      split
      · next body found =>
        rw [home_cons_of_defines (by rw [Level.definesCircuit, found]; rfl)]
        exact found.symm
      · next missing =>
        rw [home_cons_of_not (by rw [Level.definesCircuit, missing]; rfl)]
        exact ih

theorem findLabel?_eq_home {home : CallChain} {mark : String} {position : Nat}
    (found : chain.findLabel? label = some (home, mark, position)) : home = chain.home (Level.definesLabel label) ∧
      ∃ inner outer, home = inner :: outer ∧ (inner.level.labelLine? label).bind inner.level.position? = some position := by
  induction chain with
  | nil => cases found
  | cons inner outer ih =>
      rw [findLabel?] at found
      split at found
      · next position' here =>
        cases found
        exact ⟨(home_cons_of_defines (by rw [Level.definesLabel, here]; rfl)).symm, inner, outer, rfl, here⟩
      · next missing =>
        rw [home_cons_of_not (by rw [Level.definesLabel, missing]; rfl)]
        exact ih found

theorem scope_call (mark : String) (after : Nat) (bindings : Bindings) (body : Level) (name : String)
    (chain : CallChain) : scope (⟨body, mark, after, bindings, some name⟩ :: chain) =
      body :: (chain.home (Level.definesCircuit name)).scope := by
  rw [scope, static, enclosing_eq_static]
  rfl

theorem head?_scope (chain : CallChain) : chain.scope.head? = chain.head?.map LevelInstance.level := by
  cases chain <;> rfl

theorem findCircuit?_eq_scope (distinct : chain.Nodup) (clear : chain.Unshadowed (Level.definesCircuit name)) :
    chain.findCircuit? name =
      (Level.nearest (Level.definesCircuit name) chain.scope).head?.bind (fun level => level.circuit? name) := by
  rw [← scope_home distinct clear, head?_scope, findCircuit?_eq_home, Option.bind_map]
  rfl

theorem exists_home_of_callee {line : Nat} (called : chain.callee name line = .ok body) : ∃ definer away,
    chain.home (Level.definesCircuit name) = definer :: away ∧ definer.level.circuit? name = some body := by
  have found := (callee_eq_ok called).2
  rw [findCircuit?_eq_home] at found
  obtain ⟨definer, first, defined⟩ := Option.bind_eq_some_iff.mp found
  obtain ⟨away, split⟩ := List.head?_eq_some_iff.mp first
  exact ⟨definer, away, split, defined⟩

theorem home_all (chain : CallChain) : chain.home (fun _ => true) = chain := by
  cases chain <;> rfl

/-- An induction along definitions and not along calls: a called circuit stands on the chain from the nearest caller that
    defines it, with other callers between. -/
theorem Opened.definition_induction {motive : CallChain → Prop}
    (program : motive [⟨root, "", BlockGraph.halt, [], none⟩])
    (circuit : ∀ {chain definer away name body} (mark : String) (after : Nat) (bindings : Bindings),
      home (Level.definesCircuit name) chain = definer :: away → definer.level.circuit? name = some body →
        motive (definer :: away) → motive (⟨body, mark, after, bindings, some name⟩ :: chain))
    (opened : Opened root chain calls) : motive chain := by
  suffices homes : ∀ defines, chain.home defines = [] ∨ motive (chain.home defines) by
    obtain ⟨inner, outer, head⟩ := opened.exists_cons
    have whole := homes (fun _ => true)
    rw [home_all, head] at whole
    rw [head]
    exact whole.resolve_left (List.cons_ne_nil inner outer)
  induction opened with
  | program =>
      intro defines
      cases here : defines root with
      | true => exact .inr (by rwa [home_cons_of_defines here])
      | false => exact .inl (home_cons_of_not here)
  | @call inner outer calls line call body after bindings opened onLine called ih =>
      intro defines
      cases here : defines body with
      | false =>
          rw [home_cons_of_not here]
          exact ih defines
      | true =>
          obtain ⟨definer, away, split, defined⟩ := exists_home_of_callee called
          rw [home_cons_of_defines here]
          refine .inr (circuit _ after bindings split defined ?_)
          exact split ▸ (ih (Level.definesCircuit call.name)).resolve_left (by simp [split])

theorem Opened.enclosed (opened : Opened root chain calls) : Level.Enclosed root chain.scope := by
  refine opened.definition_induction (motive := fun chain => Level.Enclosed root chain.scope) .program ?_
  intro chain definer away name body mark after bindings split defined around
  rw [scope_call, split]
  exact .circuit around defined

theorem Opened.program_mem_static (opened : Opened root chain calls) :
    ⟨root, "", BlockGraph.halt, [], none⟩ ∈ chain.static := by
  refine opened.definition_induction
    (motive := fun chain => ⟨root, "", BlockGraph.halt, [], none⟩ ∈ chain.static) List.mem_cons_self ?_
  intro chain definer away name body mark after bindings split _ around
  rw [static, enclosing_eq_static, split]
  exact List.mem_cons_of_mem _ around

theorem Opened.unshadowed (opened : Opened root chain calls) (top : ∀ {level name body}, Level.Within root level →
    level.circuit? name = some body → defines body = false) : chain.Unshadowed defines := by
  intro inner head
  obtain ⟨member, holds⟩ := of_head?_home head
  clear head
  have program : inner = ⟨root, "", BlockGraph.halt, [], none⟩ := by
    induction opened with
    | program => exact List.mem_singleton.mp member
    | call opened _ called ih =>
        rcases List.mem_cons.mp member with rfl | further
        · obtain ⟨other, there, defined⟩ := exists_of_findCircuit? (callee_eq_ok called).2
          rw [top (opened.within other there) defined] at holds
          cases holds
        · exact ih further
  exact program ▸ opened.program_mem_static

theorem Opened.resolve_call (opened : Opened root chain calls) {line : Nat}
    (clear : chain.Unshadowed (Level.definesCircuit name)) (called : chain.callee name line = .ok body)
    (mark : String) (after : Nat) (bindings : Bindings) : Level.resolve? name chain.scope =
      some (scope (⟨body, mark, after, bindings, some name⟩ :: chain)) := by
  obtain ⟨definer, away, split, defined⟩ := exists_home_of_callee called
  have nearest := scope_home opened.nodup clear
  rw [scope_call, Level.resolve?, ← nearest, split]
  exact congrArg (Option.map _) defined

theorem Opened.resolve_label (opened : Opened root chain calls) {home : CallChain} {mark : String} {position : Nat}
    (clear : chain.Unshadowed (Level.definesLabel label))
    (found : chain.findLabel? label = some (home, mark, position)) :
    home.scope = Level.nearest (Level.definesLabel label) chain.scope := by
  rw [(findLabel?_eq_home found).1]
  exact scope_home opened.nodup clear

/-! ## Expansions -/

/-- The chains inside the expansion of a body, behind the lines of the calls that lead to them, where no name of a
    called circuit is shadowed. -/
inductive Expands (site : CallChain) : List Nat → CallChain → Prop where
  | here : Expands site [] site
  | call {path : List Nat} {inner : LevelInstance} {outer : CallChain} {line : Nat} {call : Call} {body : Level}
      {after : Nat} {bindings : Bindings} :
      Expands site path (inner :: outer) → inner.level.callAt? line = some call →
      CallChain.callee (inner :: outer) call.name line = .ok body →
      Unshadowed (Level.definesCircuit call.name) (inner :: outer) → Expands site (line :: path)
        (⟨body, inner.mark ++ "@" ++ toString line, after, bindings, some call.name⟩ :: inner :: outer)

variable {site site' a b : CallChain} {calls' path : List Nat}

theorem Expands.opened (opened : Opened root site calls) (expands : Expands site path chain) :
    Opened root chain (path ++ calls) := by
  induction expands with
  | here => exact opened
  | call _ onLine called _ ih => exact .call ih onLine called

theorem Expands.scope_unique (opened : Opened root site calls) (opened' : Opened root site' calls')
    (same : site.scope = site'.scope) (expands : Expands site path a) (expands' : Expands site' path b) :
    a.scope = b.scope := by
  induction expands generalizing b with
  | here =>
      cases expands'
      exact same
  | call before onLine called clear ih =>
      cases expands' with
      | call before' onLine' called' clear' =>
          have scopes := ih before'
          have level := congrArg List.head? scopes
          rw [show _ = _ from Option.some.inj level, onLine'] at onLine
          cases onLine
          have first := (before.opened opened).resolve_call clear called
          have second := (before'.opened opened').resolve_call clear' called'
          rw [scopes] at first
          exact Option.some.inj ((first _ _ _).symm.trans (second _ _ _))

theorem callee_of_scope (opened : Opened root a calls) (opened' : Opened root b calls') (same : a.scope = b.scope)
    (clear : a.Unshadowed (Level.definesCircuit name)) (clear' : b.Unshadowed (Level.definesCircuit name)) {line : Nat}
    (called : a.callee name line = .ok body) :
    b.callee name line = .ok body ∨ b.callee name line = .error (.recursiveCircuit name) := by
  have found := (callee_eq_ok called).2
  rw [findCircuit?_eq_scope opened.nodup clear, same, ← findCircuit?_eq_scope opened'.nodup clear'] at found
  rw [callee, found]
  split
  · exact .inr rfl
  · exact .inl rfl

end CallChain

namespace Inlining

open CallChain

variable {root : Level} {last : Inlining} {filling : Filling}

/-- Whether a block was filled for a place of the program. -/
def FilledFor (root : Level) (last : Inlining) (filling : Filling) : Prop :=
  Known root last filling ∧ Written last.graph (HandedOut root last) filling

/-- Whether a filled block leads on to what its names mean in the scope of its body: a call to the entry of the circuit
    that the scope gives, and a jump to the label of the nearest level that defines it. A name counts unless the
    nearest caller that defines it is not around the body. -/
structure Resolved (root : Level) (last : Inlining) (filling : Filling) : Prop where
  enclosed : Level.Enclosed root filling.chain.scope
  calls : ∀ {inner outer call line position}, filling.chain = inner :: outer →
    (inner.level.runFrom filling.position).2 = .call call line position →
    filling.chain.Unshadowed (Level.definesCircuit call.name) →
    ∃ entry, HandedOut root last entry ∧ last.graph.branches filling.block = [entry.block] ∧ entry.position = 0 ∧
      Level.resolve? call.name filling.chain.scope = some entry.chain.scope
  jumps : ∀ {inner outer label}, filling.chain = inner :: outer →
    jumpLabel? (inner.level.runFrom filling.position).2 = some label →
    filling.chain.Unshadowed (Level.definesLabel label) →
    ∃ target, HandedOut root last target ∧ (last.graph.branches filling.block).head? = some target.block ∧
      target.chain.scope = Level.nearest (Level.definesLabel label) filling.chain.scope ∧
      target.chain.scope.head?.bind (fun level => (level.labelLine? label).bind level.position?) = some target.position

/-- Whether the names of a program mean what they mean where they are written, so that a body has one expansion. -/
structure Lexical (root : Level) (last : Inlining) : Prop where
  filled : ∀ id ∈ last.filled, id = BlockGraph.halt ∨ ∃ filling, filling.block = id ∧ FilledFor root last filling
  resolved : ∀ filling, FilledFor root last filling → Resolved root last filling
  lines : ∀ a b, FilledFor root last a → FilledFor root last b → a.chain.scope = b.chain.scope → a.position = b.position →
    (last.graph.block a.block).lines = (last.graph.block b.block).lines
  expansions : ∀ {site site' calls calls' path a b}, Opened root site calls → Opened root site' calls' →
    site.scope = site'.scope → Expands site path a → Expands site' path b → a.scope = b.scope
  circuits : ∀ {a b calls calls' name line body}, Opened root a calls → Opened root b calls' → a.scope = b.scope →
    a.Unshadowed (Level.definesCircuit name) → b.Unshadowed (Level.definesCircuit name) →
    a.callee name line = .ok body →
      b.callee name line = .ok body ∨ b.callee name line = .error (.recursiveCircuit name)
  unshadowed : ∀ {defines}, (∀ {level name body}, Level.Within root level → level.circuit? name = some body →
    defines body = false) → ∀ {chain calls}, Opened root chain calls → chain.Unshadowed defines

theorem Known.opened (wf : root.WellFormed) (known : Known root last filling) :
    ∃ calls, Opened root filling.chain calls := by
  rcases known with rfl | handed
  · exact ⟨[], .program⟩
  · obtain ⟨spot, calls, _, granted⟩ := handed.askedAs wf
    exact ⟨calls, granted.opened⟩

theorem FilledFor.resolved (wf : root.WellFormed) (filled : FilledFor root last filling) :
    Resolved root last filling := by
  obtain ⟨known, written⟩ := filled
  obtain ⟨calls, opened⟩ := known.opened wf
  refine ⟨opened.enclosed, fun head ending clear => ?_, fun head jumps clear => ?_⟩
  · have leads := written.leads head
    rw [ending] at leads
    obtain ⟨body, after, block, only, called, _, entered⟩ := leads
    rw [← head] at called entered
    exact ⟨_, entered, only, rfl, opened.resolve_call clear called _ _ _⟩
  · obtain ⟨home, mark, position, block, found, handed, first⟩ := written.jump head jumps
    obtain ⟨inner, outer, split, defined⟩ := (findLabel?_eq_home found).2
    refine ⟨_, handed, first, opened.resolve_label clear found, ?_⟩
    rw [head?_scope, split]
    exact defined

theorem FilledFor.same_lines (wf : root.WellFormed) {a b : Filling} (first : FilledFor root last a)
    (second : FilledFor root last b) (scopes : a.chain.scope = b.chain.scope) (positions : a.position = b.position) :
    (last.graph.block a.block).lines = (last.graph.block b.block).lines := by
  obtain ⟨_, opened⟩ := first.1.opened wf
  obtain ⟨_, opened'⟩ := second.1.opened wf
  obtain ⟨inner, outer, head⟩ := opened.exists_cons
  obtain ⟨inner', outer', head'⟩ := opened'.exists_cons
  have level := congrArg List.head? scopes
  rw [head, head'] at level
  rw [first.2.lines head, second.2.lines head', positions, show inner.level = inner'.level from Option.some.inj level]

end Inlining

/-- In a block graph calls and jumps lead to what their names mean where they are written, unless the nearest caller that
    defines the name is not around the body, and so all expansions of a body are alike. -/
theorem BlockGraph.names_resolve_lexically {tree : Tree} {graph : BlockGraph}
    (built : ofLevel (Level.ofTree tree) = .ok graph) :
    ∃ last, Inlining.steps (Level.ofTree tree).fillingBound (.initial (Level.ofTree tree)) = .ok last ∧
      last.graph = graph ∧ Inlining.Lexical (Level.ofTree tree) last := by
  have wf := Level.wellFormed_ofTree tree
  obtain ⟨last, run, same, built, _⟩ := built_ofLevel wf built
  refine ⟨last, run, same, ?_, fun _ filled => filled.resolved wf, fun _ _ first second => first.same_lines wf second,
    fun opened opened' scopes expands expands' => expands.scope_unique opened opened' scopes expands',
    fun opened opened' scopes clear clear' called => CallChain.callee_of_scope opened opened' scopes clear clear' called,
    fun top _ _ opened => opened.unshadowed top⟩
  intro id filled
  rcases (built.sound wf).filled id filled with exit | ⟨filling, there, known, written⟩
  · exact .inl exit
  · exact .inr ⟨filling, there, known, written⟩

/-- A circuit that calls one of its own and one that stands beside it, and is called twice. -/
def besideStatements : List Statement :=
  [.defCircuit "flip" [] [.gate "X" [] ["0"]],
    .defCircuit "both" [] [.defCircuit "turn" [] [.gate "H" [] ["0"], .jump "end"], .gate "flip" [] [], .gate "turn" [] []],
    .gate "both" [] [], .gate "both" [] [], .label "end", .halt]

/-- Both expansions of the circuit have the lines of the circuits that it calls. -/
theorem BlockGraph.beside_resolves_lexically : ∃ graph last,
    ofLevel (Level.ofTree (Draft.ofStatements besideStatements).tree) = .ok graph ∧
      Inlining.steps (Level.ofTree (Draft.ofStatements besideStatements).tree).fillingBound
        (.initial (Level.ofTree (Draft.ofStatements besideStatements).tree)) = .ok last ∧ last.graph = graph ∧
      Inlining.Lexical (Level.ofTree (Draft.ofStatements besideStatements).tree) last ∧
      ((graph.blocks.drop 5).map fun block => (block.name, block.lines)) =
        [("both@9", []), ("return.6@8", []), ("flip@8@6", [1]), ("return.6@9", []), ("flip@9@6", [1]),
          ("turn@8@7", [4, 5]), ("turn@9@7", [4, 5]), ("end", [10, 11])] := by
  have computed : ((ofLevel (Level.ofTree (Draft.ofStatements besideStatements).tree)).toOption.map fun graph =>
      (graph.blocks.drop 5).map fun block => (block.name, block.lines)) =
      some [("both@9", []), ("return.6@8", []), ("flip@8@6", [1]), ("return.6@9", []), ("flip@9@6", [1]),
        ("turn@8@7", [4, 5]), ("turn@9@7", [4, 5]), ("end", [10, 11])] := by
    decide +kernel
  obtain ⟨graph, built, blocks⟩ := Option.map_eq_some_iff.mp computed
  have built := Result.of_toOption_eq_some built
  obtain ⟨last, run, same, lexical⟩ := names_resolve_lexically built
  exact ⟨graph, last, built, run, same, lexical, blocks⟩

/-- Two circuits of one name, a circuit that means the first of them, and one that defines the second and calls it. -/
def shadowStatements : List Statement :=
  [.defCircuit "B" [] [.gate "X" [] ["0"]], .defCircuit "A" [] [.gate "B" [] []],
    .defCircuit "C" [] [.defCircuit "B" [] [.gate "Y" [] ["0"]], .gate "A" [] []], .gate "A" [] [], .gate "C" [] []]

/-- A caller that defines a circuit takes over the calls of that name in the circuits that it calls. -/
theorem BlockGraph.calls_may_resolve_elsewhere : ¬ ∀ (tree : Tree) (graph : BlockGraph),
    ofLevel (Level.ofTree tree) = .ok graph → ∀ (inner : LevelInstance) (outer : CallChain) (calls : List Nat)
      (line : Nat) (call : Call) (body : Level), CallChain.Opened (Level.ofTree tree) (inner :: outer) calls →
        inner.level.callAt? line = some call → CallChain.callee (inner :: outer) call.name line = .ok body →
          (Level.resolve? call.name (CallChain.scope (inner :: outer))).bind List.head? = some body := by
  intro always
  let root := Level.ofTree (Draft.ofStatements shadowStatements).tree
  let program : CallChain := [⟨root, "", BlockGraph.halt, [], none⟩]
  let callC (body : Level) : CallChain := ⟨body, "" ++ "@" ++ toString 9, 0, [], some "C"⟩ :: program
  let callA (c body : Level) : CallChain := ⟨body, "" ++ "@" ++ toString 9 ++ "@" ++ toString 7, 0, [], some "A"⟩ :: callC c
  have computed : ((ofLevel root).toOption.bind fun graph => (program.callee "C" 9).toOption.bind fun c =>
      ((callC c).callee "A" 7).toOption.bind fun a => ((callA c a).callee "B" 3).toOption.map fun b =>
        ([root.callAt? 9, c.callAt? 7, a.callAt? 3], b.lines,
          ((Level.resolve? "B" (callA c a).scope).bind List.head?).map Level.lines)) =
      some ([some ⟨"C", []⟩, some ⟨"A", []⟩, some ⟨"B", []⟩], [6], some [1]) := by
    decide +kernel
  obtain ⟨graph, built, rest⟩ := Option.bind_eq_some_iff.mp computed
  obtain ⟨c, enterC, rest⟩ := Option.bind_eq_some_iff.mp rest
  obtain ⟨a, enterA, rest⟩ := Option.bind_eq_some_iff.mp rest
  obtain ⟨b, enterB, same⟩ := Option.map_eq_some_iff.mp rest
  simp only [Prod.mk.injEq, List.cons.injEq, and_true] at same
  obtain ⟨⟨onC, onA, onB⟩, lines, meant⟩ := same
  have first : CallChain.Opened root (callC c) [9] := .call .program onC (Result.of_toOption_eq_some enterC)
  have second : CallChain.Opened root (callA c a) [7, 9] := .call first onA (Result.of_toOption_eq_some enterA)
  have found := always _ graph (Result.of_toOption_eq_some built) _ _ _ 3 ⟨"B", []⟩ b second onB
    (Result.of_toOption_eq_some enterB)
  rw [found, Option.map_some, lines] at meant
  exact absurd meant (by decide)

end TwoLane
