import Mathlib.Logic.Relation
import TwoLane.Block.Inlining

/-! # The machine that a program is written for

The machine holds a stack of level instances, each at a position of its code lines. It visits lines in order, follows
jumps into the nearest level that defines the label, enters circuits and comes back behind their calls. A call line
itself is not visited.
-/

namespace TwoLane

/-- An instance of a level: the actual qubits of the formal ones, and the position of the code line that is next. -/
structure Frame where
  level : Level
  bindings : Bindings
  position : Nat

/-- The open instances, the innermost one first. A machine without any has stopped. -/
abbrev CallStack := List Frame

/-- A line that is visited, with the actual qubits of the formal ones. -/
abbrev Visit := Nat × Bindings

namespace Frame

/-- The line that is next, unless all lines are behind. -/
def line? (frame : Frame) : Option Nat :=
  frame.level.lines[frame.position]?

/-- Go on behind a line. -/
def advance (frame : Frame) : Frame :=
  { frame with position := frame.position + 1 }

/-- The actual qubit that a name stands for: the one it is bound to, or itself where it is bound to none. -/
def actual (frame : Frame) (name : String) : String :=
  match Table.get? name frame.bindings with
  | some qubit => qubit
  | none => name

/-- Bind the formal qubits of a circuit, one after the other, to what the names in a call of it stand for here. -/
def bind (frame : Frame) : List String → List String → Bindings → Bindings
  | formal :: formals, name :: names, bound => frame.bind formals names (Table.put formal (frame.actual name) bound)
  | _, _, bound => bound

/-- The instance of a circuit that a call enters. -/
def enter (frame : Frame) (body : Level) (call : Call) : Frame :=
  ⟨body, frame.bind body.formals call.qubits [], 0⟩

/-- The construction of a graph passes qubits on as the machine binds them. -/
theorem passQubits_eq (frame : Frame) (formals names : List String) :
    Inlining.passQubits formals names frame.bindings = frame.bind formals names [] := by
  have resolve : ∀ name, Bindings.resolve frame.bindings name = frame.actual name := by
    intro name
    unfold Bindings.resolve actual
    cases Table.get? name frame.bindings <;> rfl
  have all : ∀ (formals names : List String) (bound : Bindings),
      ((formals.zip names).map (fun pair => (pair.1, Bindings.resolve frame.bindings pair.2))).foldl
        (fun table entry => table.put entry.1 entry.2) bound = frame.bind formals names bound := by
    intro formals
    induction formals with
    | nil => exact fun _ _ => rfl
    | cons formal formals ih =>
        intro names bound
        cases names with
        | nil => rfl
        | cons name names =>
            rw [List.zip_cons_cons, List.map_cons, List.foldl_cons, ih, resolve, bind]
  exact all formals names []

end Frame

namespace CallStack

/-- Where a jump goes: to the label in the innermost level that defines it on one of its code lines. -/
def jumpTo? (label : String) : CallStack → Option CallStack
  | [] => none
  | frame :: callers =>
      match (frame.level.labelLine? label).bind frame.level.position? with
      | some position => some ({ frame with position := position } :: callers)
      | none => jumpTo? label callers

/-- The innermost definition of a circuit. -/
def findCircuit? (name : String) (stack : CallStack) : Option Level :=
  stack.findSome? (fun frame => frame.level.circuit? name)

/-- One step of the machine, with what it visits. -/
inductive Step : CallStack → List Visit → CallStack → Prop where
  | leave {frame : Frame} {callers : CallStack} : frame.line? = none → Step (frame :: callers) [] callers
  | call {frame : Frame} {callers : CallStack} {line : Nat} {call : Call} {body : Level} :
      frame.line? = some line → frame.level.callAt? line = some call →
      findCircuit? call.name (frame :: callers) = some body →
      Step (frame :: callers) [] (frame.enter body call :: frame.advance :: callers)
  | halt {frame : Frame} {callers : CallStack} {line : Nat} :
      frame.line? = some line → frame.level.haltsAt line = true → Step (frame :: callers) [(line, frame.bindings)] []
  | jump {frame : Frame} {callers next : CallStack} {line : Nat} {label : String} :
      frame.line? = some line → frame.level.jumpAt? line = some label →
      jumpTo? label (frame :: callers) = some next → Step (frame :: callers) [(line, frame.bindings)] next
  | jumpIf {frame : Frame} {callers next : CallStack} {line : Nat} {label : String} :
      frame.line? = some line → frame.level.conditionalJumpAt? line = some label →
      jumpTo? label (frame :: callers) = some next → Step (frame :: callers) [(line, frame.bindings)] next
  | goOn {frame : Frame} {callers : CallStack} {line : Nat} {label : String} :
      frame.line? = some line → frame.level.conditionalJumpAt? line = some label →
      Step (frame :: callers) [(line, frame.bindings)] (frame.advance :: callers)
  | plain {frame : Frame} {callers : CallStack} {line : Nat} :
      frame.line? = some line → frame.level.callAt? line = none → frame.level.haltsAt line = false →
      frame.level.jumpAt? line = none → frame.level.conditionalJumpAt? line = none →
      Step (frame :: callers) [(line, frame.bindings)] (frame.advance :: callers)

/-- A finite run of the machine, with what it visits. -/
inductive Runs : CallStack → List Visit → CallStack → Prop where
  | stay (stack : CallStack) : Runs stack [] stack
  | step {a b c : CallStack} {seen more : List Visit} : Step a seen b → Runs b more c → Runs a (seen ++ more) c

/-- The machine in front of the first line of a program. -/
def ofProgram (root : Level) : CallStack :=
  [⟨root, [], 0⟩]

variable {a b c : CallStack} {seen more part : List Visit}

theorem Step.length_le (step : Step a seen b) : seen.length ≤ 1 := by
  cases step <;> simp

theorem Runs.one (step : Step a seen b) : Runs a seen b :=
  List.append_nil seen ▸ .step step (.stay b)

theorem Runs.trans (first : Runs a seen b) (second : Runs b more c) : Runs a (seen ++ more) c := by
  induction first with
  | stay => exact second
  | step one _ ih =>
      rw [List.append_assoc]
      exact .step one (ih second)

theorem Runs.exists_front (runs : Runs a seen b) (front : part <+: seen) : ∃ c, Runs a part c := by
  induction runs generalizing part with
  | stay stack =>
      rw [List.prefix_nil.mp front]
      exact ⟨stack, .stay stack⟩
  | @step a b c seen more one _ ih =>
      cases part with
      | nil => exact ⟨a, .stay a⟩
      | cons visit rest =>
          cases seen with
          | nil =>
              obtain ⟨c, further⟩ := ih front
              exact ⟨c, .step one further⟩
          | cons first others =>
              cases List.length_eq_zero_iff.mp (Nat.le_zero.mp (Nat.le_of_succ_le_succ one.length_le))
              obtain ⟨rfl, behind⟩ := List.cons_prefix_cons.mp front
              obtain ⟨c, further⟩ := ih behind
              exact ⟨c, .step one further⟩

end CallStack

/-! ## Lines that a program cannot be built with -/

namespace Frame

def behind? (frame : Frame) : Option Call :=
  match frame.position with
  | 0 => none
  | position + 1 => (frame.level.lines[position]?).bind frame.level.callAt?

@[simp] theorem behind?_advance (frame : Frame) : frame.advance.behind? = frame.line?.bind frame.level.callAt? := rfl

end Frame

namespace CallStack

def openCircuits (callers : CallStack) : List String :=
  callers.filterMap (fun caller => caller.behind?.map Call.name)

/-- Where the machine may go if each call is also assumed to return. -/
inductive MayGo : CallStack → CallStack → Prop where
  | step {stack next : CallStack} {seen : List Visit} : Step stack seen next → MayGo stack next
  | back {frame : Frame} {callers : CallStack} {line : Nat} {call : Call} :
      frame.line? = some line → frame.level.callAt? line = some call →
      MayGo (frame :: callers) (frame.advance :: callers)

/-- The stacks that a program may come to. -/
def Reachable (root : Level) (stack : CallStack) : Prop :=
  Relation.ReflTransGen MayGo (ofProgram root) stack

/-- A machine in front of a line that no graph can be built for: a jump to a label that no open level defines, or a call
    of a circuit that is open already or that no open level defines. The error says which. -/
inductive Faulty : CallStack → ProgramError → Prop where
  | label {frame : Frame} {callers : CallStack} {line : Nat} {label : String} : frame.line? = some line →
      (frame.level.jumpAt? line = some label ∨ frame.level.conditionalJumpAt? line = some label) →
      jumpTo? label (frame :: callers) = none → Faulty (frame :: callers) (.undefinedLabel label line)
  | recursion {frame : Frame} {callers : CallStack} {line : Nat} {call : Call} : frame.line? = some line →
      frame.level.callAt? line = some call → call.name ∈ openCircuits callers →
      Faulty (frame :: callers) (.recursiveCircuit call.name)
  | circuit {frame : Frame} {callers : CallStack} {line : Nat} {call : Call} : frame.line? = some line →
      frame.level.callAt? line = some call → findCircuit? call.name (frame :: callers) = none →
      Faulty (frame :: callers) (.undefinedCircuit call.name line)

end CallStack

/-! ## Lines that carry one thing -/

/-- What a line does to the flow of control. -/
inductive Turn where
  | call (call : Call)
  | halt
  | jump (label : String)
  | conditionalJump (label : String)
  | plain

/-- How a run of lines ends at a line, unless it goes on behind the line. -/
def Turn.ending? (line position : Nat) : Turn → Option Ending
  | .call made => some (.call made line position)
  | .halt => some .halt
  | .jump label => some (.jump label line)
  | .conditionalJump label => some (.conditionalJump label line position)
  | .plain => none

namespace Level

/-- Whether each code line carries one thing at most. -/
def OneEach (level : Level) : Prop :=
  ∀ line ∈ level.lines, [(level.labelAt? line).isSome, (level.jumpAt? line).isSome,
    (level.conditionalJumpAt? line).isSome, level.haltsAt line, (level.callAt? line).isSome].count true ≤ 1

/-- Whether a line does one thing to the flow of control and nothing else. -/
def Only (level : Level) (line : Nat) : Turn → Prop
  | .call call => level.callAt? line = some call ∧ level.haltsAt line = false ∧ level.jumpAt? line = none ∧
      level.conditionalJumpAt? line = none
  | .halt => level.callAt? line = none ∧ level.haltsAt line = true ∧ level.jumpAt? line = none ∧
      level.conditionalJumpAt? line = none
  | .jump label => level.callAt? line = none ∧ level.haltsAt line = false ∧ level.jumpAt? line = some label ∧
      level.conditionalJumpAt? line = none
  | .conditionalJump label => level.callAt? line = none ∧ level.haltsAt line = false ∧ level.jumpAt? line = none ∧
      level.conditionalJumpAt? line = some label
  | .plain => level.callAt? line = none ∧ level.haltsAt line = false ∧ level.jumpAt? line = none ∧
      level.conditionalJumpAt? line = none

variable {level : Level} {line position : Nat} {turn : Turn} {isFirst : Bool} {rest : List Nat}

/-- A line that carries one thing at most does one thing, and nothing where it has a label. -/
theorem OneEach.exists_only (one : level.OneEach) (here : line ∈ level.lines) :
    ∃ turn, level.Only line turn ∧ ((level.labelAt? line).isSome = true → turn = .plain) := by
  have few := one line here
  unfold Only
  generalize level.labelAt? line = label at few ⊢
  generalize level.jumpAt? line = jump at few ⊢
  generalize level.conditionalJumpAt? line = condition at few ⊢
  generalize level.haltsAt line = halts at few ⊢
  generalize level.callAt? line = call at few ⊢
  cases call with
  | some call =>
      refine ⟨.call call, ?_⟩
      cases label <;> cases jump <;> cases condition <;> cases halts <;> simp at few ⊢
  | none =>
      cases jump with
      | some jump =>
          refine ⟨.jump jump, ?_⟩
          cases label <;> cases condition <;> cases halts <;> simp at few ⊢
      | none =>
          cases condition with
          | some condition =>
              refine ⟨.conditionalJump condition, ?_⟩
              cases label <;> cases halts <;> simp at few ⊢
          | none =>
              cases halts with
              | true =>
                  refine ⟨.halt, ?_⟩
                  cases label <;> simp at few ⊢
              | false => exact ⟨.plain, by simp⟩

theorem followRun_cons (inside : isFirst = true ∨ level.labelAt? line = none) (position : Nat) (rest : List Nat) :
    level.Only line turn → level.followRun isFirst position (line :: rest) =
      match turn with
      | .call call => ([], .call call line position)
      | .halt => ([line], .halt)
      | .jump label => ([line], .jump label line)
      | .conditionalJump label => ([line], .conditionalJump label line position)
      | .plain => (line :: (level.followRun false (position + 1) rest).1,
          (level.followRun false (position + 1) rest).2) := by
  intro only
  have unopened : (if isFirst then none else level.labelAt? line) = none := by
    rcases inside with rfl | none
    · rfl
    · rw [none, ite_self]
  rw [followRun, unopened]
  cases turn <;> obtain ⟨call, halt, jump, condition⟩ := only <;> simp [call, halt, jump, condition]

theorem OneEach.ending_followRun (one : level.OneEach) (here : level.lines[position]? = some line)
    (only : level.Only line turn) {ending : Ending} (ends : turn.ending? line position = some ending) (isFirst : Bool) :
    (level.followRun isFirst position (level.lines.drop position)).2 = ending := by
  have unlabelled : level.labelAt? line = none := by
    obtain ⟨other, onlyOther, plain⟩ := one.exists_only (List.mem_of_getElem? here)
    cases labelled : level.labelAt? line with
    | none => rfl
    | some name =>
        cases plain (by rw [labelled]; rfl)
        cases turn <;> simp_all [Only, Turn.ending?]
  have split : level.lines.drop position = line :: level.lines.drop (position + 1) := by
    obtain ⟨there, rfl⟩ := List.getElem?_eq_some_iff.mp here
    exact List.drop_eq_getElem_cons there
  rw [split, followRun_cons (.inr unlabelled) position _ only]
  cases turn <;> cases ends <;> rfl

theorem Only.eq_call {call : Call} (only : level.Only line turn) (onLine : level.callAt? line = some call) :
    turn = .call call := by
  cases turn <;> simp_all [Only]

theorem Only.eq_jump {label : String} (only : level.Only line turn)
    (onLine : level.jumpAt? line = some label ∨ level.conditionalJumpAt? line = some label) :
    turn = .jump label ∨ turn = .conditionalJump label := by
  cases turn <;> simp_all [Only]

theorem followRun_label {name : String} (label : level.labelAt? line = some name) (position : Nat) (rest : List Nat) :
    level.followRun false position (line :: rest) = ([line], .label name position) := by
  rw [followRun, label]
  rfl

end Level

namespace CallStack

theorem step_iff {frame : Frame} {line : Nat} {turn : Turn} (here : frame.line? = some line) (callers next : CallStack)
    (more : List Visit) : frame.level.Only line turn → (Step (frame :: callers) more next ↔
      match turn with
      | .call call => more = [] ∧ ∃ body, findCircuit? call.name (frame :: callers) = some body ∧
          next = frame.enter body call :: frame.advance :: callers
      | .halt => more = [(line, frame.bindings)] ∧ next = []
      | .jump label => more = [(line, frame.bindings)] ∧ jumpTo? label (frame :: callers) = some next
      | .conditionalJump label => more = [(line, frame.bindings)] ∧
          (jumpTo? label (frame :: callers) = some next ∨ next = frame.advance :: callers)
      | .plain => more = [(line, frame.bindings)] ∧ next = frame.advance :: callers) := by
  intro only
  constructor
  · intro step
    cases turn <;> obtain ⟨call, halt, jump, condition⟩ := only <;> cases step <;> simp_all
  · intro effect
    cases turn with
    | call call =>
        obtain ⟨rfl, body, found, rfl⟩ := effect
        exact .call here only.1 found
    | halt =>
        obtain ⟨rfl, rfl⟩ := effect
        exact .halt here only.2.1
    | jump label =>
        obtain ⟨rfl, found⟩ := effect
        exact .jump here only.2.2.1 found
    | conditionalJump label =>
        obtain ⟨rfl, found | rfl⟩ := effect
        · exact .jumpIf here only.2.2.2 found
        · exact .goOn here only.2.2.2
    | plain =>
        obtain ⟨rfl, rfl⟩ := effect
        exact .plain here only.1 only.2.1 only.2.2.1 only.2.2.2

theorem step_leave {frame : Frame} {callers next : CallStack} {more : List Visit} (behind : frame.line? = none) :
    Step (frame :: callers) more next ↔ more = [] ∧ next = callers := by
  constructor
  · intro step
    cases step <;> simp_all
  · rintro ⟨rfl, rfl⟩
    exact .leave behind

end CallStack

end TwoLane
