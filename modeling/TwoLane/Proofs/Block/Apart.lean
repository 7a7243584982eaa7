import TwoLane.Proofs.Block.PlainNames
import TwoLane.Proofs.Block.States

/-! # Places kept apart

Two requests get one block exactly if they are made under one name. So places are kept apart exactly if their
names are, and plain names of labels and circuits see to that.
-/

namespace TwoLane

namespace Inlining

open CallChain

/-- Two blocks were asked for at one position behind the same open calls. -/
def SamePlace (root : Level) (a b : Filling) : Prop :=
  a.position = b.position ∧ ∃ calls, Opened root a.chain calls ∧ Opened root b.chain calls

/-- Requests at different places get different blocks, and none gets the entry or the exit. -/
structure KeptApart (root : Level) (last : Inlining) : Prop where
  noSentinel : ∀ {filling}, HandedOut root last filling →
    filling.block ≠ BlockGraph.start ∧ filling.block ≠ BlockGraph.halt
  apart : ∀ {a b}, HandedOut root last a → HandedOut root last b → a.block = b.block →
    SamePlace root a b

/-- A block that was asked for, with the spot and the calls that its name is glued from. -/
def AskedAs (root : Level) (last : Inlining) (filling : Filling) (spot : Spot) (calls : List Nat) :
    Prop :=
  HandedOut root last filling ∧ Granted root last.graph filling spot calls

/-- Requests at different places are made under different names, and none under the name of the entry or
    the exit. -/
structure NamesApart (root : Level) (last : Inlining) : Prop where
  noSentinel : ∀ {filling spot calls}, AskedAs root last filling spot calls →
    spot.blockName calls ≠ "start" ∧ spot.blockName calls ≠ "halt"
  apart : ∀ {a b spot spot' calls calls'}, AskedAs root last a spot calls →
    AskedAs root last b spot' calls' → spot.blockName calls = spot'.blockName calls' →
      SamePlace root a b

/-- A block that ends in a jump leads first to a block that begins with the line of the label. -/
def LabelsReached (root : Level) (last : Inlining) : Prop :=
  ∀ filling, filling = first root ∨ HandedOut root last filling →
    ∀ {inner outer label}, filling.chain = inner :: outer →
      jumpLabel? (inner.level.runFrom filling.position).2 = some label →
        ∃ home away mark position line target,
          filling.chain.findLabel? label = some (home :: away, mark, position) ∧
          home.level.labelLine? label = some line ∧
          (last.graph.branches filling.block).head? = some target ∧
          (home.level.callAt? line = none → (last.graph.block target).lines.head? = some line)

variable {root : Level} {last : Inlining}

theorem HandedOut.askedAs (wf : root.WellFormed) {filling : Filling}
    (handed : HandedOut root last filling) : ∃ spot calls, AskedAs root last filling spot calls := by
  obtain ⟨state, built, member, further⟩ := handed
  obtain ⟨spot, calls, granted⟩ := (built.sound wf).waiting filling member
  exact ⟨spot, calls, ⟨state, built, member, further⟩,
    granted.keeps (built.carries wf further).keeps⟩

theorem same_block_iff (wf : root.WellFormed) (built : Built root last) {a b : Filling}
    {spot spot' : Spot} {calls calls' : List Nat} (ha : AskedAs root last a spot calls)
    (hb : AskedAs root last b spot' calls') :
    a.block = b.block ↔ spot.blockName calls = spot'.blockName calls' := by
  constructor
  · intro same
    have named := ha.2.named
    rw [same, hb.2.named] at named
    exact (Option.some.inj named).symm
  · intro same
    exact (built.sound wf).distinct _ _ _ ha.2.named (same ▸ hb.2.named)

theorem sentinel_iff (wf : root.WellFormed) (built : Built root last) {filling : Filling}
    {spot : Spot} {calls : List Nat} (asked : AskedAs root last filling spot calls) :
    (filling.block = BlockGraph.start ↔ spot.blockName calls = "start") ∧
      (filling.block = BlockGraph.halt ↔ spot.blockName calls = "halt") := by
  have sound := built.sound wf
  constructor <;> constructor
  · intro same
    have named := asked.2.named
    rw [same, sound.start] at named
    exact (Option.some.inj named).symm
  · intro same
    exact sound.distinct _ _ _ asked.2.named (same ▸ sound.start)
  · intro same
    have named := asked.2.named
    rw [same, sound.halt] at named
    exact (Option.some.inj named).symm
  · intro same
    exact sound.distinct _ _ _ asked.2.named (same ▸ sound.halt)

theorem keptApart_iff (wf : root.WellFormed) (built : Built root last) :
    KeptApart root last ↔ NamesApart root last := by
  constructor
  · intro kept
    refine ⟨?_, ?_⟩
    · intro filling spot calls asked
      obtain ⟨start, halt⟩ := sentinel_iff wf built asked
      have differ := kept.noSentinel asked.1
      exact ⟨fun same => differ.1 (start.mpr same), fun same => differ.2 (halt.mpr same)⟩
    · intro a b spot spot' calls calls' ha hb same
      exact kept.apart ha.1 hb.1 ((same_block_iff wf built ha hb).mpr same)
  · intro names
    refine ⟨?_, ?_⟩
    · intro filling handed
      obtain ⟨spot, calls, asked⟩ := handed.askedAs wf
      obtain ⟨start, halt⟩ := sentinel_iff wf built asked
      have differ := names.noSentinel asked
      exact ⟨fun same => differ.1 (start.mp same), fun same => differ.2 (halt.mp same)⟩
    · intro a b ha hb same
      obtain ⟨spot, calls, asked⟩ := ha.askedAs wf
      obtain ⟨spot', calls', asked'⟩ := hb.askedAs wf
      exact names.apart asked asked' ((same_block_iff wf built asked asked').mp same)

theorem namesApart_of_plainNames (plain : root.PlainNames) : NamesApart root last where
  noSentinel := by
    intro filling spot calls asked
    obtain ⟨inner, outer, head⟩ := asked.2.opened.exists_cons
    have opened := asked.2.opened
    rw [head] at opened
    have stands := asked.2.stands head
    exact ⟨plain.ne_sentinel opened stands (.inl rfl), plain.ne_sentinel opened stands (.inr rfl)⟩
  apart := by
    intro a b spot spot' calls calls' ha hb same
    obtain ⟨inner, outer, head⟩ := ha.2.opened.exists_cons
    obtain ⟨inner', outer', head'⟩ := hb.2.opened.exists_cons
    have opened := ha.2.opened
    have opened' := hb.2.opened
    rw [head] at opened
    rw [head'] at opened'
    have stands := ha.2.stands head
    have stands' := hb.2.stands head'
    obtain ⟨word, rfl⟩ := BlockName.append_markOf_injective (plain.unmarked_word opened stands)
      (plain.unmarked_word opened' stands') same
    refine ⟨?_, calls, ha.2.opened, hb.2.opened⟩
    obtain ⟨level, circuit, _⟩ := of_outline_cons (opened.outline_unique opened')
    exact plain.position_unique opened stands (stands'.congr level circuit) word

/-- A block that was asked for, or the one at which a program begins. -/
def Known (root : Level) (last : Inlining) (filling : Filling) : Prop :=
  filling = first root ∨ HandedOut root last filling

theorem KeptApart.samePlace (kept : KeptApart root last) {a b : Filling} (aKnown : Known root last a)
    (bKnown : Known root last b) (same : a.block = b.block) : SamePlace root a b := by
  rcases aKnown with rfl | aHanded <;> rcases bKnown with rfl | bHanded
  · exact ⟨rfl, [], .program, .program⟩
  · exact absurd same.symm (kept.noSentinel bHanded).1
  · exact absurd same (kept.noSentinel aHanded).1
  · exact kept.apart aHanded bHanded same

theorem KeptApart.ne_halt (kept : KeptApart root last) {filling : Filling} (known : Known root last filling) :
    filling.block ≠ BlockGraph.halt := by
  rcases known with rfl | handed
  · exact Nat.zero_ne_one
  · exact (kept.noSentinel handed).2

theorem exists_written (wf : root.WellFormed) (built : Built root last) (done : last.waiting = [])
    (kept : KeptApart root last) {filling : Filling} (known : Known root last filling) :
    ∃ other, Known root last other ∧ other.block = filling.block ∧ SamePlace root other filling ∧
      Written last.graph (HandedOut root last) other := by
  have inside : filling.block ∈ last.filled := by
    rcases known with rfl | ⟨state, there, member, further⟩
    · exact built.start_filled wf
    · rcases (there.carries wf further).waiting filling member with waits | filled
      · rw [done] at waits
        cases waits
      · exact filled
  rcases (built.sound wf).filled _ inside with exit | ⟨other, same, otherKnown, written⟩
  · exact absurd exit (kept.ne_halt known)
  · exact ⟨other, otherKnown, same, kept.samePlace otherKnown known same, written⟩

theorem labelsReached (wf : root.WellFormed) (built : Built root last) (done : last.waiting = [])
    (kept : KeptApart root last) : LabelsReached root last := by
  intro filling known inner outer label head jumps
  obtain ⟨other, _, sameBlock, ⟨samePosition, calls, otherOpened, opened⟩, written⟩ :=
    exists_written wf built done kept known
  obtain ⟨inner', outer', head'⟩ := otherOpened.exists_cons
  have outlines := otherOpened.outline_unique opened
  have level := (of_outline_cons (head' ▸ head ▸ outlines)).1
  rw [← samePosition, ← level] at jumps
  obtain ⟨otherHome, otherMark, position, target, found, handed, leads⟩ := written.jump head' jumps
  obtain ⟨otherCalls, otherInner, otherOuter, rfl, otherHomeOpened, _, _⟩ :=
    otherOpened.findLabel found
  obtain ⟨home, mark, foundHere, homes⟩ := findLabel?_congr outlines found
  obtain ⟨homeCalls, homeInner, away, rfl, homeOpened, rfl, line, defined, valid⟩ :=
    opened.findLabel foundHere
  refine ⟨homeInner, away, homeInner.mark, position, line, target, foundHere, defined, ?_, ?_⟩
  · rw [← sameBlock]
    exact leads
  · intro noCall
    obtain ⟨reached, _, reachedBlock, ⟨reachedPosition, _, reachedOpened, alsoOpened⟩, reachedWritten⟩ :=
      exists_written wf built done kept (.inr handed)
    obtain ⟨reachedInner, reachedOuter, reachedHead⟩ := reachedOpened.exists_cons
    have sameLevel : reachedInner.level = homeInner.level :=
      (of_outline_cons (reachedHead ▸ reachedOpened.outline_unique alsoOpened)).1.trans
        (of_outline_cons homes).1
    have lines := reachedWritten.lines reachedHead
    rw [reachedBlock, reachedPosition, sameLevel] at lines
    rw [lines]
    exact Level.head_runFrom (Level.getElem?_of_position? valid) noCall

/-- A construction that comes to its end keeps places apart exactly if it asks for them under different names,
    and plain names of labels and circuits are enough. Then each jump leads to the line of its label. -/
theorem places_kept_apart {bound : Nat} (wf : root.WellFormed)
    (run : Inlining.steps bound (.initial root) = .ok last) (done : last.waiting = []) :
    (KeptApart root last ↔ NamesApart root last) ∧ (root.PlainNames → KeptApart root last) ∧
      (KeptApart root last → LabelsReached root last) := by
  have built : Built root last := by
    cases bound with
    | zero =>
        cases run
        cases done
    | succ bound => exact built_of_steps run
  refine ⟨keptApart_iff wf built, ?_, labelsReached wf built done⟩
  intro plain
  exact (keptApart_iff wf built).mpr (namesApart_of_plainNames plain)

/-! ## A program with plain names and one without -/

/-- A circuit that goes round in itself. -/
def againLevel : Level :=
  { Level.ofLines [5, 6] with labels := [("again", 5)], jumps := [(6, "again")] }

def loopLevel : Level :=
  { Level.ofLines [0, 1, 2] with
    labels := [("loop", 0)]
    conditionalJumps := [(2, "loop")]
    calls := [(1, ⟨"flip", ["0"]⟩)]
    circuits := [("flip", againLevel)] }

theorem loopLevel_wellFormed : loopLevel.WellFormed := by
  refine .intro (by decide) (by decide) ?_
  intro name body member
  cases List.mem_singleton.mp member
  exact .intro (by decide) (by decide) (fun none => by cases none)

theorem within_loopLevel {level : Level} (within : Level.Within loopLevel level) :
    level = loopLevel ∨ level = againLevel :=
  within.of_single rfl rfl

theorem names_loopLevel {name : String} (names : Level.Names loopLevel name) :
    name = "loop" ∨ name = "again" ∨ name = "flip" := by
  cases names with
  | label within member =>
      rcases within_loopLevel within with rfl | rfl <;> cases List.mem_singleton.mp member <;> simp
  | circuit within member =>
      rcases within_loopLevel within with rfl | rfl
      · cases List.mem_singleton.mp member
        simp
      · cases member

theorem loopLevel_plainNames : loopLevel.PlainNames where
  unmarked := by
    intro name names
    unfold BlockName.Unmarked
    rcases names_loopLevel names with rfl | rfl | rfl <;> decide
  notMade := by
    intro name names
    rcases names_loopLevel names with rfl | rfl | rfl <;> exact Level.ne_made (by decide) (by decide)
  notSentinel := by
    intro name line member
    cases List.mem_singleton.mp member
    decide
  notSelf := by
    intro level name body line position within member defined
    rcases within_loopLevel within with rfl | rfl
    · cases List.mem_singleton.mp member
      simp [againLevel] at defined
    · cases member

theorem loopLevel_kept_apart :
    ∃ last, Inlining.steps 20 (.initial loopLevel) = .ok last ∧ last.waiting = [] ∧
      KeptApart loopLevel last ∧ LabelsReached loopLevel last := by
  obtain ⟨last, run, done⟩ : ∃ last,
      Inlining.steps 20 (.initial loopLevel) = .ok last ∧ last.waiting = [] := ⟨_, rfl, rfl⟩
  obtain ⟨_, plain, reached⟩ := places_kept_apart loopLevel_wellFormed run done
  have kept := plain loopLevel_plainNames
  exact ⟨last, run, done, kept, reached kept⟩

/-- A program that jumps to a label named as the exit. -/
def haltLevel : Level :=
  { Level.ofLines [0, 1, 2] with labels := [("halt", 2)], jumps := [(0, "halt")] }

theorem haltLevel_wellFormed : haltLevel.WellFormed :=
  .intro (by decide) (by decide) (fun none => by cases none)

/-- Without a condition on names the exit is handed out for a label. -/
theorem not_always_kept_apart :
    ¬ ∀ (root : Level) (bound : Nat) (last : Inlining), root.WellFormed →
      Inlining.steps bound (.initial root) = .ok last → last.waiting = [] →
        KeptApart root last := by
  intro always
  obtain ⟨second, leads, waits⟩ : ∃ second, Leads (.initial haltLevel) second ∧
      ⟨[⟨haltLevel, "", BlockGraph.halt, [], none⟩], BlockGraph.halt, 2⟩ ∈ second.waiting :=
    ⟨_, rfl, List.mem_cons_self⟩
  obtain ⟨last, run, whole, done⟩ : ∃ last, Inlining.steps 1 second = .ok last ∧
      Inlining.steps 2 (.initial haltLevel) = .ok last ∧ last.waiting = [] := by
    cases leads
    exact ⟨_, rfl, rfl, rfl⟩
  have kept := always haltLevel 2 last haltLevel_wellFormed whole done
  have handed : HandedOut haltLevel last
      ⟨[⟨haltLevel, "", BlockGraph.halt, [], none⟩], BlockGraph.halt, 2⟩ :=
    ⟨second, ⟨second, leads, .refl⟩, waits, leads_of_steps run⟩
  exact (kept.noSentinel handed).2 rfl

end Inlining

end TwoLane
