import TwoLane.InstructionList.Basic

/-! # Changing instruction lists

An instruction leaves a chain by joining its neighbours to each other, so links stay mutual: where one
instruction has another one behind it, the other one has the first in front of it. A new order has to hold
the same instructions.
-/

namespace TwoLane.InstructionList

/-- Apply a change to the links that several instructions have on a chain. -/
def modifyLinksOf (list : InstructionList) (ids : List Nat) (resource : Resource)
    (change : Links → Links) : InstructionList :=
  ids.foldl (fun acc id => acc.modify id (fun node => node.modifyLinks resource change)) list

/-- Take an instruction off one chain and join its neighbours. -/
def unlink (list : InstructionList) (id : Nat) (resource : Resource) : InstructionList :=
  match (list.get? id).bind (fun node => node.links? resource) with
  | none => list
  | some links =>
      let joined := list.modifyLinksOf links.previous resource
        (fun l => { l with next := Links.bypass id links.next l.next })
      let joined := joined.modifyLinksOf links.next resource
        (fun l => { l with previous := Links.bypass id links.previous l.previous })
      joined.modify id (fun node => node.modifyLinks resource (fun _ => .none))

/-- Take an instruction off all of its chains; it stays in the order. -/
def spliceOut (list : InstructionList) (id : Nat) : Except ProgramError InstructionList := do
  let node ← list.get id
  .ok (node.resources.foldl (fun acc resource => acc.unlink id resource) list)

/-- Take an instruction off its chains and out of the order. -/
def remove (list : InstructionList) (id : Nat) : Except ProgramError InstructionList := do
  let spliced ← list.spliceOut id
  .ok { spliced with order := spliced.order.filter (fun other => other != id) }

def detach (list : InstructionList) (id : Nat) (resource : Resource) :
    Except ProgramError InstructionList := do
  let _ ← list.get id
  .ok ((list.unlink id resource).modify id (fun node => node.dropOccurrence resource))

/-- The instructions that only one of two orders holds. -/
def strays (current proposed : List Nat) : List Nat :=
  Sorted.ofList
    (current.filter (fun id => !proposed.contains id) ++
      proposed.filter (fun id => !current.contains id))

/-- Replace the order by another one of the same instructions. -/
def reorder (list : InstructionList) (order : List Nat) : Except ProgramError InstructionList :=
  let strays := strays list.order order
  if strays.isEmpty && order.length == list.order.length then .ok { list with order := order }
  else .error (.unknownInstruction (strays.head?.getD 0))

def lineOrLast (list : InstructionList) (id : Nat) : Nat :=
  ((list.get? id).map Instruction.line).getD (UInt64.size - 1)

/-- Whether a running instruction is linked to another one on a chain. -/
def isLinked (list : InstructionList) (side : Links → List Nat) (resource : Resource)
    (source target : Nat) : Bool :=
  list.contains source &&
    (((list.get? source).bind (fun node => node.links? resource)).map
      (fun links => (side links).contains target)).getD false

/-- The first neighbour on a chain of an instruction that is not linked back. -/
def asymmetry? (list : InstructionList) (node : Instruction) (resource : Resource) :
    Option ProgramError :=
  match node.links? resource with
  | none => none
  | some links =>
      ((links.next.find? (fun n => !list.isLinked Links.previous resource n node.id)).or
        (links.previous.find? (fun p => !list.isLinked Links.next resource p node.id))).map
      (fun other => .chainAsymmetry resource.name (list.lineOrLast node.id) (list.lineOrLast other))

/-- Check that every link of a running instruction has a link back. -/
def checkLinks (list : InstructionList) : Except ProgramError Unit :=
  match list.running.findSome? (fun node => node.resources.findSome? (list.asymmetry? node)) with
  | some error => .error error
  | none => .ok ()

end TwoLane.InstructionList
