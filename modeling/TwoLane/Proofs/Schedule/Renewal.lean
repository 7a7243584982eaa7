import Mathlib.Data.List.Chain
import TwoLane.Proofs.Schedule.Priority

/-! # Lists in the order of a schedule

A new order changes neither what instructions wait for nor where control instructions stand. So the list in that order
is cut into the same pieces, each with its instructions as they were emitted, and a pool that was drained is drained the
same way again: of the instructions that are ready the one that came next stands in front of the others now.
-/

namespace TwoLane

def InstructionList.inOrder (list : InstructionList) (order : List Nat) : InstructionList :=
  { list with order := order }

namespace Schedule

variable {list : InstructionList} {priority : Category → Nat}
  {pool emitted new new' order before later opened ids : List Nat} {id : Nat} {piece : Piece} {rest : List Piece}
  {nodes : List Instruction}

theorem Valid.inOrder (valid : Valid list) (emission : Emission list order) (perm : list.order.Perm order) :
    Valid (list.inOrder order) where
  numbered := valid.numbered
  inside := fun id member => valid.inside id (perm.mem_iff.mpr member)
  emission := ⟨emission.distinct, List.Subset.refl _, emission.closed⟩

/-! ## Draining again -/

theorem Chosen.unique {other : Nat} (within : pool ⊆ list.order) (chosen : Chosen list priority pool emitted id)
    (chosen' : Chosen list priority pool emitted other) : other = id := by
  have same := le_antisymm (chosen.least other chosen'.ready) (chosen'.least id chosen.ready)
  have first := chosen.first other chosen'.ready same.symm
  have first' := chosen'.first id chosen.ready same
  exact (List.idxOf_inj (within chosen'.ready.pooled)).mp (le_antisymm first' first)

theorem Drained.unique (within : pool ⊆ list.order) (drained : Drained list priority pool emitted new)
    (drained' : Drained list priority pool emitted new') : new' = new := by
  induction new generalizing emitted new' with
  | nil =>
      cases new' with
      | nil => rfl
      | cons id rest => exact absurd (drained drained'.1.ready.pooled) drained'.1.ready.waits
  | cons id rest ih =>
      cases new' with
      | nil => exact absurd (drained' drained.1.ready.pooled) drained.1.ready.waits
      | cons other rest' =>
          obtain rfl := drained.1.unique within drained'.1
          rw [ih drained.2 drained'.2]

/-- What is drained of a pool is drained again where it stands as it was emitted. -/
theorem Drained.inOrder {pool' : List Nat} (drained : Drained list priority pool emitted new)
    (same : ∀ x, x ∈ pool' ↔ x ∈ pool) (distinct : order.Nodup) (split : order = before ++ (new ++ later)) :
    Drained (list.inOrder order) priority pool' emitted new := by
  induction new generalizing emitted before with
  | nil => exact fun x member => drained ((same x).mp member)
  | cons id rest ih =>
      obtain ⟨chosen, further⟩ := drained
      have ready : ∀ {x}, Ready (list.inOrder order) pool' emitted x → Ready list pool emitted x :=
        fun ready => ⟨(same _).mp ready.pooled, ready.waits, ready.ready⟩
      have split' : order = (before ++ [id]) ++ (rest ++ later) :=
        split.trans (List.append_assoc before [id] (rest ++ later)).symm
      refine ⟨⟨⟨(same id).mpr chosen.ready.pooled, chosen.ready.waits, chosen.ready.ready⟩, fun other waits =>
        chosen.least other (ready waits), fun other waits _ => ?_⟩, ih further split'⟩
      -- whatever else is ready is drained later, so it stands further behind
      have absent : ∀ {x}, x ∈ id :: rest → x ∉ before := by
        intro x member there
        rw [split] at distinct
        exact (List.nodup_append.mp distinct).2.2 x there x (List.mem_append_left _ member) rfl
      have there : other ∈ id :: rest := by
        have drained : Drained list priority pool emitted (id :: rest) := ⟨chosen, further⟩
        exact drained.mem_iff.mpr ⟨(ready waits).pooled, waits.waits⟩
      change order.idxOf id ≤ order.idxOf other
      rw [split, List.idxOf_append_of_notMem (absent List.mem_cons_self),
        List.idxOf_append_of_notMem (absent there), List.cons_append, List.idxOf_cons_self]
      omega

theorem Drained.drain_inOrder {pool' : List Nat} (drained : Drained list priority pool emitted new)
    (drainable : Drainable list pool emitted) (valid : Valid (list.inOrder order)) (within : pool'.Sublist order)
    (same : ∀ x, x ∈ pool' ↔ x ∈ pool) (block : new <:+: order) :
    drain (list.inOrder order) priority pool' emitted = emitted ++ new := by
  have drainable' : Drainable (list.inOrder order) pool' emitted :=
    ⟨within, fun x member other predecessor =>
      (drainable.closed x ((same x).mp member) other predecessor).imp_right (same other).mpr⟩
  obtain ⟨new', made, drained'⟩ := drained_drain valid drainable' priority
  obtain ⟨before, later, split⟩ := block
  rw [List.append_assoc] at split
  rw [made, (drained.inOrder same valid.emission.distinct split.symm).unique within.subset drained']

/-! ## The pieces of the new order -/

/-- Whether a piece is a control instruction. -/
def Piece.isFixed : Piece → Bool
  | .fixed _ => true
  | .run _ => false

/-- A piece with its instructions as they are emitted. -/
def Piece.renew : Piece → List Nat → Piece
  | .fixed id, _ => .fixed id
  | .run _, new => .run new

theorem Piece.isFixed_renew (piece : Piece) (new : List Nat) : (piece.renew new).isFixed = piece.isFixed := by
  cases piece <;> rfl

theorem Piece.ids_renew (perm : piece.ids.Perm new) : (piece.renew new).ids = new := by
  cases piece with
  | fixed id => exact (List.perm_singleton.mp perm.symm).symm
  | run ids => rfl

theorem Piece.Fits.renew (fits : piece.Fits list) (perm : piece.ids.Perm new) : (piece.renew new).Fits list := by
  cases piece with
  | fixed id => exact fits
  | run ids => exact fun id member => fits id (perm.mem_iff.mpr member)

/-- Whether no piece is empty and no two runs are next to each other. -/
structure Separate (pieces : List Piece) : Prop where
  filled : ∀ piece ∈ pieces, piece.ids ≠ []
  apart : (pieces.map Piece.isFixed).IsChain (fun a b => (a || b) = true)

theorem Separate.renew {done : List Piece} (separate : Separate (done ++ piece :: rest)) (perm : piece.ids.Perm new) :
    Separate (done ++ piece.renew new :: rest) where
  filled := by
    intro other member
    rcases List.mem_append.mp member with old | here
    · exact separate.filled other (List.mem_append_left _ old)
    · rcases List.mem_cons.mp here with rfl | later
      · rw [Piece.ids_renew perm]
        rintro rfl
        exact separate.filled piece (List.mem_append_right _ List.mem_cons_self) (List.perm_nil.mp perm)
      · exact separate.filled other (List.mem_append_right _ (List.mem_cons_of_mem _ later))
  apart := by
    have apart := separate.apart
    rw [List.map_append, List.map_cons] at apart ⊢
    rwa [Piece.isFixed_renew]

theorem Separate.behind {done : List Piece} (separate : Separate (done ++ piece :: rest)) : Separate rest where
  filled := fun other member => separate.filled other (List.mem_append_right _ (List.mem_cons_of_mem _ member))
  apart := by
    have apart := separate.apart
    rw [List.map_append] at apart
    exact apart.right_of_append.tail

theorem separate_closeRun (opened : List Nat) (separate : Separate rest) (behind : ∀ piece ∈ rest.head?, piece.isFixed = true) :
    Separate (closeRun opened ++ rest) := by
  unfold closeRun
  split
  · exact separate
  · next filled =>
      rw [List.isEmpty_iff] at filled
      refine ⟨fun piece member => ?_, ?_⟩
      · rcases List.mem_append.mp member with here | later
        · rw [List.mem_singleton.mp here]
          exact filled
        · exact separate.filled piece later
      · cases rest with
        | nil => exact .singleton _
        | cons first rest =>
            have fixed := behind first rfl
            refine .cons_cons ?_ separate.apart
            rw [fixed, Bool.or_true]

theorem separate_fixed (separate : Separate rest) (id : Nat) : Separate (.fixed id :: rest) where
  filled := by
    intro piece member
    rcases List.mem_cons.mp member with rfl | later
    · exact List.cons_ne_nil _ _
    · exact separate.filled piece later
  apart := by
    cases rest with
    | nil => exact .singleton _
    | cons first rest => exact .cons_cons (Bool.true_or _) separate.apart

theorem separate_cut (opened : List Nat) (nodes : List Instruction) : Separate (cut opened nodes) := by
  induction nodes generalizing opened with
  | nil =>
      rw [cut, ← List.append_nil (closeRun opened)]
      exact separate_closeRun opened ⟨by simp, .nil⟩ (by simp)
  | cons node rest ih =>
      rw [cut]
      split
      · refine separate_closeRun opened (separate_fixed (ih []) node.id) (fun piece member => ?_)
        cases member
        rfl
      · exact ih _

theorem cut_append {plain : List Instruction} (none : ∀ node ∈ plain, node.category.isControl = false) :
    cut opened (plain ++ nodes) = cut (opened ++ plain.map Instruction.id) nodes := by
  induction plain generalizing opened with
  | nil => rw [List.nil_append, List.map_nil, List.append_nil]
  | cons node plain ih =>
      have free := none node List.mem_cons_self
      rw [List.cons_append, cut, if_neg (by simp [free]), ih (fun other member => none other (List.mem_cons_of_mem _ member)),
        List.map_cons, List.append_assoc]
      rfl

/-- Instructions are cut into the pieces that make them up, if these fit and are separate. -/
theorem cut_eq (each : ∀ node ∈ nodes, steers list node.id = node.category.isControl)
    (fits : ∀ piece ∈ rest, piece.Fits list) (separate : Separate (closeRun opened ++ rest))
    (made : nodes.map Instruction.id = rest.flatMap Piece.ids) : cut opened nodes = closeRun opened ++ rest := by
  induction rest generalizing opened nodes with
  | nil =>
      rw [List.map_eq_nil_iff.mp made, cut, List.append_nil]
  | cons piece rest ih =>
      have fitsRest := fun other member => fits other (List.mem_cons_of_mem piece member)
      rw [List.flatMap_cons] at made
      obtain ⟨front, back, rfl, here, behind⟩ := List.map_eq_append_iff.mp made
      have eachFront := fun node member => each node (List.mem_append_left back member)
      have eachBack := fun node member => each node (List.mem_append_right front member)
      have fitsHere := fits piece List.mem_cons_self
      cases piece with
      | fixed id =>
          obtain ⟨node, rfl, rfl⟩ := List.map_eq_singleton_iff.mp here
          have control : node.category.isControl = true := (eachFront node List.mem_cons_self).symm.trans fitsHere
          have further : cut [] back = closeRun [] ++ rest := ih eachBack fitsRest separate.behind behind
          rw [List.singleton_append, cut, if_pos control, further]
          rfl
      | run ids =>
          change front.map Instruction.id = ids at here
          have plain : ∀ node ∈ front, node.category.isControl = false := by
            intro node member
            rw [← eachFront node member]
            exact fitsHere node.id (here ▸ List.mem_map_of_mem member)
          -- two runs are never next to each other, so none is open here
          have closed : opened = [] := by
            by_contra filled
            have apart := separate.apart
            rw [closeRun, if_neg (by simpa using filled)] at apart
            cases (List.isChain_cons_cons.mp apart).1
          have filled : ids ≠ [] := separate.filled (.run ids) (List.mem_append_right _ List.mem_cons_self)
          subst closed
          rw [cut_append plain, here, List.nil_append]
          have run : closeRun ids ++ rest = closeRun [] ++ .run ids :: rest := by
            rw [closeRun, if_neg (by simpa using filled)]
            rfl
          rw [← run] at separate ⊢
          exact ih eachBack fitsRest separate behind

theorem foldl_pieces_inOrder (valid : Valid list) {step step' : List Nat → Piece → List Nat}
    (each : ∀ piece ∈ pieces list, ∀ emitted, Follows list piece emitted →
      Emits list piece emitted (step emitted piece))
    (fixed : ∀ emitted id, step' emitted (.fixed id) = step emitted (.fixed id))
    (again : ∀ {ids emitted new later : List Nat}, Follows list (.run ids) emitted →
      (∀ id ∈ ids, steers list id = false) → ids.Perm new → step emitted (.run ids) = emitted ++ new →
        (pieces list).foldl step [] = emitted ++ (new ++ later) → step' emitted (.run new) = emitted ++ new) :
    (pieces (list.inOrder ((pieces list).foldl step []))).foldl step' [] = (pieces list).foldl step [] := by
  have arranges := arranges_foldl valid each
  have valid' := valid.inOrder arranges.emission arranges.perm
  generalize whole : (pieces list).foldl step [] = order at again valid' ⊢
  have done := (pieces_recursion valid each
    (motive := fun rest _ emitted => ∃ done : List Piece, done.flatMap Piece.ids = emitted ∧
      (∀ piece ∈ done, piece.Fits list) ∧ Separate (done ++ rest) ∧
        ∀ later, order = emitted ++ later → done.foldl step' [] = emitted)
    ⟨[], rfl, by simp, separate_cut [] list.running, fun _ _ => rfl⟩ (by
      rintro piece rest front back emitted new fits follows _ _ perm made ⟨done, ids, fitsDone, separate, same⟩
      refine ⟨done ++ [piece.renew new], ?_, ?_, ?_, fun later split => ?_⟩
      · rw [List.flatMap_append, ids, List.flatMap_cons, Piece.ids_renew perm, List.flatMap_nil, List.append_nil]
      · intro other member
        rcases List.mem_append.mp member with old | here
        · exact fitsDone other old
        · rw [List.mem_singleton.mp here]
          exact fits.renew perm
      · rw [List.append_assoc]
        exact separate.renew perm
      · rw [List.append_assoc] at split
        rw [List.foldl_append, same _ split]
        cases piece with
        | fixed id => exact (fixed emitted id).trans made
        | run ids => exact again follows fits perm made split)).2.2
  rw [whole] at done
  obtain ⟨done, ids, fits, separate, same⟩ := done
  rw [List.append_nil] at separate
  have fits' : ∀ piece ∈ done, piece.Fits (list.inOrder order) := fits
  have steering : ∀ node ∈ (list.inOrder order).running, steers (list.inOrder order) node.id = node.category.isControl := by
    intro node member
    obtain ⟨_, found⟩ := InstructionList.id_of_mem_running valid'.numbered member
    rw [steers, found]
    rfl
  have made : (list.inOrder order).running.map Instruction.id = done.flatMap Piece.ids := by
    rw [InstructionList.map_id_running valid'.numbered valid'.inside, ids]
    rfl
  have cuts : pieces (list.inOrder order) = done := cut_eq steering fits' separate made
  rw [cuts]
  exact same [] (List.append_nil _).symm

end Schedule

end TwoLane
