import Mathlib.Data.List.Nodup
import Mathlib.Data.List.Perm.Subperm
import TwoLane.Block.Reach

/-! # Searches are complete

A search whose bound is at least the number of nodes runs out of waiting nodes. By then the successors of all nodes
that are done are done too. Whatever a search finds has each property that successors inherit, and it finds
each node behind one that leads to it. A search into the depth is complete as well.
-/

namespace TwoLane.Reach

/-! ## New nodes -/

theorem mem_foldl_fresh {candidates known acc : List Nat} {node : Nat} :
    node ∈ candidates.foldl
        (fun acc a => if known.contains a || acc.contains a then acc else acc ++ [a]) acc ↔
      node ∈ acc ∨ (node ∈ candidates ∧ node ∉ known) := by
  induction candidates generalizing acc with
  | nil => simp
  | cons a rest ih =>
      rw [List.foldl_cons, ih]
      split
      · next seen =>
          simp only [Bool.or_eq_true, List.contains_iff_mem] at seen
          grind
      · next unseen =>
          simp only [Bool.or_eq_true, List.contains_iff_mem, not_or] at unseen
          grind

theorem mem_fresh {candidates known : List Nat} {node : Nat} :
    node ∈ fresh candidates known ↔ node ∈ candidates ∧ node ∉ known := by
  rw [fresh, mem_foldl_fresh]
  simp

theorem nodup_foldl_fresh {candidates known acc : List Nat} (nodup : acc.Nodup) :
    (candidates.foldl
      (fun acc a => if known.contains a || acc.contains a then acc else acc ++ [a]) acc).Nodup := by
  induction candidates generalizing acc with
  | nil => exact nodup
  | cons a rest ih =>
      rw [List.foldl_cons]
      split
      · exact ih nodup
      · next unseen =>
          simp only [Bool.or_eq_true, List.contains_iff_mem, not_or] at unseen
          rw [← List.concat_eq_append]
          exact ih (nodup.concat unseen.2)

theorem nodup_fresh (candidates known : List Nat) : (fresh candidates known).Nodup :=
  nodup_foldl_fresh List.nodup_nil

/-! ## The search -/

variable {successors : Nat → List Nat} {nodes done waiting : List Nat}

/-- What holds of the nodes that are done and those that wait. -/
structure Searching (successors : Nat → List Nat) (nodes done waiting : List Nat) : Prop where
  nodup : (done ++ waiting).Nodup
  inside : done ++ waiting ⊆ nodes
  closed : ∀ node ∈ done, ∀ next ∈ successors node, next ∈ done ++ waiting

theorem nodup_visit {node : Nat} (nodup : (done ++ node :: waiting).Nodup) :
    (done ++ [node] ++ (waiting ++ fresh (successors node) (done ++ node :: waiting))).Nodup := by
  have together : done ++ [node] ++ (waiting ++ fresh (successors node) (done ++ node :: waiting)) =
      (done ++ node :: waiting) ++ fresh (successors node) (done ++ node :: waiting) := by simp
  rw [together, List.nodup_append]
  refine ⟨nodup, nodup_fresh _ _, ?_⟩
  rintro a known b new rfl
  exact (mem_fresh.mp new).2 known

theorem Searching.visit {node : Nat} (searching : Searching successors nodes done (node :: waiting))
    (inside : ∀ node, successors node ⊆ nodes) :
    Searching successors nodes (done ++ [node])
      (waiting ++ fresh (successors node) (done ++ node :: waiting)) where
  nodup := nodup_visit searching.nodup
  inside := by
    intro other member
    by_cases known : other ∈ done ++ node :: waiting
    · exact searching.inside known
    · have new : other ∈ fresh (successors node) (done ++ node :: waiting) := by grind
      exact inside node (mem_fresh.mp new).1
  closed := by
    intro other member next follows
    by_cases known : next ∈ done ++ node :: waiting
    · grind
    · rcases List.mem_append.mp member with old | here
      · exact absurd (searching.closed other old next follows) known
      · rw [List.mem_singleton] at here
        subst here
        refine List.mem_append_right _ (List.mem_append_right _ ?_)
        exact mem_fresh.mpr ⟨follows, known⟩

/-- The nodes found hold all that were done or waited, and their successors. -/
theorem Searching.complete (searching : Searching successors nodes done waiting)
    (inside : ∀ node, successors node ⊆ nodes) {bound : Nat}
    (enough : nodes.length ≤ done.length + bound) :
    done ++ waiting ⊆ breadthFirst successors bound done waiting ∧
      ∀ node ∈ breadthFirst successors bound done waiting, ∀ next ∈ successors node,
        next ∈ breadthFirst successors bound done waiting := by
  induction bound generalizing done waiting with
  | zero =>
      have few : (done ++ waiting).length ≤ nodes.length :=
        (searching.nodup.subperm searching.inside).length_le
      have none : waiting = [] := by
        rw [List.length_append] at few
        exact List.eq_nil_of_length_eq_zero (by omega)
      subst none
      have closed := searching.closed
      rw [List.append_nil] at closed ⊢
      exact ⟨List.Subset.refl _, closed⟩
  | succ bound ih =>
      cases waiting with
      | nil =>
          have closed := searching.closed
          rw [List.append_nil] at closed ⊢
          exact ⟨List.Subset.refl _, closed⟩
      | cons node waiting =>
          obtain ⟨all, closed⟩ := ih (searching.visit inside) (by simp; omega)
          refine ⟨?_, closed⟩
          intro other member
          refine all ?_
          grind

theorem breadthFirst_induction {property : Nat → Prop} (bound : Nat)
    (inherits : ∀ node, property node → ∀ next ∈ successors node, property next)
    (begins : ∀ node ∈ done ++ waiting, property node) :
    ∀ node ∈ breadthFirst successors bound done waiting, property node := by
  induction bound generalizing done waiting with
  | zero => exact fun node member => begins node (List.mem_append_left _ member)
  | succ bound ih =>
      cases waiting with
      | nil => exact fun node member => begins node (List.mem_append_left _ member)
      | cons first waiting =>
          refine ih ?_
          intro node member
          by_cases known : node ∈ done ++ first :: waiting
          · exact begins node known
          · have new : node ∈ fresh (successors first) (done ++ first :: waiting) := by grind
            exact inherits first (begins first (by simp)) node (mem_fresh.mp new).1

theorem fromRoot_complete {bound root : Nat}
    (inside : ∀ node, ∀ next ∈ successors node, next < bound) (start : root < bound) :
    root ∈ fromRoot successors bound root ∧
      ∀ node ∈ fromRoot successors bound root, ∀ next ∈ successors node,
        next ∈ fromRoot successors bound root := by
  have searching : Searching successors (List.range bound) [] [root] :=
    ⟨by simp, by simpa using start, by simp⟩
  have enough : (List.range bound).length ≤ ([] : List Nat).length + bound := by simp
  obtain ⟨all, closed⟩ := searching.complete
    (fun node next follows => List.mem_range.mpr (inside node next follows)) enough
  exact ⟨all (by simp), closed⟩

theorem nodup_breadthFirst (bound : Nat) (nodup : (done ++ waiting).Nodup) :
    (breadthFirst successors bound done waiting).Nodup := by
  induction bound generalizing done waiting with
  | zero => exact (List.nodup_append.mp nodup).1
  | succ bound ih =>
      cases waiting with
      | nil => exact (List.nodup_append.mp nodup).1
      | cons node waiting => exact ih (nodup_visit nodup)

theorem nodup_fromRoot (bound root : Nat) : (fromRoot successors bound root).Nodup :=
  nodup_breadthFirst bound (List.nodup_singleton root)

/-! ## The order of a search -/

/-- The lists of nodes that begin with a root and hold each other node behind one that leads to it. -/
inductive Grown (successors : Nat → List Nat) (root : Nat) : List Nat → Prop where
  | root : Grown successors root [root]
  | next {nodes : List Nat} {node new : Nat} : Grown successors root nodes → node ∈ nodes → new ∈ successors node →
      Grown successors root (nodes ++ [new])

variable {root : Nat}

theorem Grown.append {node : Nat} {new : List Nat} (grown : Grown successors root nodes) (member : node ∈ nodes)
    (follows : new ⊆ successors node) : Grown successors root (nodes ++ new) := by
  induction new generalizing nodes with
  | nil => rwa [List.append_nil]
  | cons first rest ih =>
      obtain ⟨here, further⟩ := List.cons_subset.mp follows
      rw [List.append_cons]
      exact ih (grown.next member here) (List.mem_append_left _ member) further

theorem Grown.head? (grown : Grown successors root nodes) : nodes.head? = some root := by
  induction grown with
  | root => rfl
  | next _ _ _ ih =>
      rw [List.head?_append, ih]
      rfl

theorem Grown.upTo {before behind : List Nat} {node : Nat} (grown : Grown successors root nodes)
    (split : nodes = before ++ node :: behind) : Grown successors root (before ++ [node]) := by
  induction grown generalizing behind with
  | root =>
      obtain ⟨rfl, last⟩ := List.append_eq_singleton_iff.mp split.symm |>.resolve_right (by simp)
      cases last
      exact .root
  | @next nodes from' new grown member follows ih =>
      rcases List.eq_nil_or_concat behind with rfl | ⟨behind, last, rfl⟩
      · rw [← split]
        exact grown.next member follows
      · rw [List.concat_eq_append, ← List.cons_append, ← List.append_assoc] at split
        exact ih (List.append_inj_left' split rfl)

theorem grown_breadthFirst {bound : Nat} {before behind : List Nat} {node : Nat}
    (grown : Grown successors root (done ++ waiting))
    (split : breadthFirst successors bound done waiting = before ++ node :: behind) :
    Grown successors root (before ++ [node]) := by
  induction bound generalizing done waiting with
  | zero =>
      have found : done = before ++ node :: behind := split
      exact grown.upTo (by rw [found, List.append_assoc, List.cons_append])
  | succ bound ih =>
      cases waiting with
      | nil =>
          have found : done = before ++ node :: behind := split
          exact grown.upTo (by rw [List.append_nil, found])
      | cons first waiting =>
          refine ih ?_ split
          have together : done ++ [first] ++ (waiting ++ fresh (successors first) (done ++ first :: waiting)) =
              (done ++ first :: waiting) ++ fresh (successors first) (done ++ first :: waiting) := by simp
          rw [together]
          exact grown.append (List.mem_append_right _ List.mem_cons_self) (fun new member => (mem_fresh.mp member).1)

theorem grown_fromRoot {bound : Nat} {before behind : List Nat} {node : Nat}
    (split : fromRoot successors bound root = before ++ node :: behind) :
    Grown successors root (before ++ [node]) :=
  grown_breadthFirst .root split

/-! ## Searches into the depth -/

/-- What holds when targets have been visited in addition to the nodes that are done. -/
structure Visits (successors : Nat → List Nat) (nodes done targets found : List Nat) : Prop where
  kept : done <+: found
  nodup : found.Nodup
  inside : found ⊆ nodes
  reached : targets ⊆ found
  closed : ∀ node ∈ found, node ∉ done → successors node ⊆ found

variable {targets found : List Nat}

theorem Visits.trans {more last : List Nat} (first : Visits successors nodes done targets found)
    (second : Visits successors nodes found more last) : Visits successors nodes done (targets ++ more) last where
  kept := first.kept.trans second.kept
  nodup := second.nodup
  inside := second.inside
  reached := List.append_subset.mpr ⟨List.Subset.trans first.reached second.kept.subset, second.reached⟩
  closed := by
    intro node member new
    by_cases early : node ∈ found
    · exact List.Subset.trans (first.closed node early new) second.kept.subset
    · exact second.closed node member early

theorem Visits.enter {node : Nat} (visits : Visits successors nodes (done ++ [node]) (successors node) found) :
    Visits successors nodes done [node] found where
  kept := (List.prefix_append done [node]).trans visits.kept
  nodup := visits.nodup
  inside := visits.inside
  reached := List.Subset.trans (List.subset_append_right done [node]) visits.kept.subset
  closed := by
    intro other member new
    by_cases same : other = node
    · exact same ▸ visits.reached
    · exact visits.closed other member (by simp [new, same])

theorem foldl_depthFirst {bound : Nat} (inside : ∀ node ∈ nodes, successors node ⊆ nodes)
    (enough : nodes.length < done.length + bound) (nodup : done.Nodup) (subset : done ⊆ nodes)
    (there : targets ⊆ nodes) :
    Visits successors nodes done targets (targets.foldl (depthFirst successors bound) done) := by
  induction bound generalizing done targets with
  | zero =>
      have few := (nodup.subperm subset).length_le
      omega
  | succ bound ihBound =>
      induction targets generalizing done with
      | nil => exact ⟨List.prefix_refl _, nodup, subset, List.nil_subset _, fun _ member new => absurd member new⟩
      | cons node rest ih =>
          obtain ⟨here, further⟩ := List.cons_subset.mp there
          have first : Visits successors nodes done [node] (depthFirst successors (bound + 1) done node) := by
            rw [depthFirst]
            split
            · next seen =>
                refine ⟨List.prefix_refl _, nodup, subset, ?_, fun _ member new => absurd member new⟩
                exact List.cons_subset.mpr ⟨List.contains_iff_mem.mp seen, List.nil_subset _⟩
            · next unseen =>
                have new : node ∉ done := fun member => unseen (List.contains_iff_mem.mpr member)
                refine (ihBound ?_ ?_ ?_ (inside node here)).enter
                · rw [List.length_append, List.length_singleton]
                  omega
                · rw [← List.concat_eq_append]
                  exact nodup.concat new
                · exact List.append_subset.mpr ⟨subset, List.cons_subset.mpr ⟨here, List.nil_subset _⟩⟩
          have longer := first.kept.length_le
          exact first.trans (ih (by omega) first.nodup first.inside further)

theorem depthFirst_complete {bound size : Nat} (inside : ∀ node < size, ∀ next ∈ successors node, next < size)
    (start : root < size) (enough : size < bound + 1) :
    ∃ rest, depthFirst successors (bound + 1) [] root = root :: rest ∧ (root :: rest).Nodup ∧
      ∀ node ∈ root :: rest, node < size ∧ successors node ⊆ root :: rest := by
  have closed : ∀ node ∈ List.range size, successors node ⊆ List.range size :=
    fun node member next follows => List.mem_range.mpr (inside node (List.mem_range.mp member) next follows)
  have visits : Visits successors (List.range size) [root] (successors root)
      (depthFirst successors (bound + 1) [] root) := by
    refine foldl_depthFirst closed ?_ (List.nodup_singleton root) ?_ (closed root (List.mem_range.mpr start))
    · rw [List.length_range, List.length_singleton]
      omega
    · exact List.cons_subset.mpr ⟨List.mem_range.mpr start, List.nil_subset _⟩
  obtain ⟨rest, found⟩ := visits.kept
  have entered : Visits successors (List.range size) [] [root] _ := Visits.enter visits
  rw [← found] at entered ⊢
  exact ⟨rest, rfl, entered.nodup, fun node member =>
    ⟨List.mem_range.mp (entered.inside member), entered.closed node member List.not_mem_nil⟩⟩

end TwoLane.Reach
