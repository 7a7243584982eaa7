import Mathlib.Data.List.Nodup
import TwoLane.InstructionList.Basic

/-! # Occurrences of an instruction

An instruction has one occurrence for each name that its operation names, and one for each other name of its
list that may overlap one of these. An occurrence is written where one of the accesses that led to
it writes.
-/

namespace TwoLane.Instruction

/-! ## Memory -/

/-- The occurrences that accesses leave: one for each name, about which nothing is known. -/
structure Records (accesses : List MemoryAccess) (occurrences : List MemoryOccurrence) : Prop where
  distinct : (occurrences.map MemoryOccurrence.name).Nodup
  names : ∀ name, name ∈ occurrences.map MemoryOccurrence.name ↔ ∃ a ∈ accesses, a.name = name
  use : ∀ o ∈ occurrences, o.use = .assignment ↔
    ∃ a ∈ accesses, a.name = o.name ∧ a.use = .assignment
  blank : ∀ o ∈ occurrences, o.value = none ∧ o.links = .none

theorem records_nil : Records [] [] where
  distinct := List.nodup_nil
  names := by simp
  use := by simp
  blank := by simp

/-- An access by a known name makes its occurrence an assignment where it writes. -/
theorem Records.widen {accesses : List MemoryAccess} {occurrences : List MemoryOccurrence}
    (records : Records accesses occurrences) {access : MemoryAccess}
    (present : ∃ o ∈ occurrences, o.name = access.name) :
    Records (accesses ++ [access]) (occurrences.map (fun o =>
      if o.name == access.name && access.use == .assignment then { o with use := .assignment } else o)) := by
  have names : ∀ o, (if o.name == access.name && access.use == .assignment then
      { o with use := .assignment } else o : MemoryOccurrence).name = o.name := by
    intro o
    split <;> rfl
  have allNames : (occurrences.map (fun o =>
      if o.name == access.name && access.use == .assignment then
        { o with use := .assignment } else o)).map MemoryOccurrence.name =
      occurrences.map MemoryOccurrence.name := by
    simp only [List.map_map, Function.comp_def, names]
  exact {
    distinct := allNames ▸ records.distinct
    names := by
      intro name
      rw [allNames, records.names]
      constructor
      · rintro ⟨a, member, rfl⟩
        exact ⟨a, List.mem_append_left _ member, rfl⟩
      · rintro ⟨a, member, rfl⟩
        rcases List.mem_append.mp member with earlier | last
        · exact ⟨a, earlier, rfl⟩
        · obtain ⟨o, there, same⟩ := present
          rw [List.mem_singleton.mp last, ← same]
          exact (records.names _).mp (List.mem_map_of_mem there)
    use := by
      intro o member
      obtain ⟨before, beforeIn, rfl⟩ := List.mem_map.mp member
      have earlier := records.use before beforeIn
      split
      · next writes =>
          simp only [Bool.and_eq_true, beq_iff_eq] at writes
          simp only [true_iff]
          exact ⟨access, by simp, writes.1.symm, writes.2⟩
      · next not =>
          simp only [Bool.and_eq_true, beq_iff_eq, not_and] at not
          rw [earlier]
          constructor
          · rintro ⟨a, aIn, named, writes⟩
            exact ⟨a, List.mem_append_left _ aIn, named, writes⟩
          · rintro ⟨a, aIn, named, writes⟩
            rcases List.mem_append.mp aIn with first | last
            · exact ⟨a, first, named, writes⟩
            · rw [List.mem_singleton.mp last] at named writes
              exact absurd writes (not named.symm)
    blank := by
      intro o member
      obtain ⟨before, beforeIn, rfl⟩ := List.mem_map.mp member
      have blank := records.blank before beforeIn
      split <;> exact blank }

theorem Records.append {accesses : List MemoryAccess} {occurrences : List MemoryOccurrence}
    (records : Records accesses occurrences) {access : MemoryAccess}
    (new : ∀ o ∈ occurrences, o.name ≠ access.name) :
    Records (accesses ++ [access]) (occurrences ++ [.ofAccess access]) where
  distinct := by
    rw [List.map_append, List.nodup_append]
    refine ⟨records.distinct, List.nodup_singleton _, ?_⟩
    intro name member other otherIn
    obtain ⟨o, oIn, rfl⟩ := List.mem_map.mp member
    rw [List.mem_singleton.mp otherIn]
    exact new o oIn
  names := by
    intro name
    rw [List.map_append, List.mem_append, records.names]
    simp only [List.map_cons, List.map_nil, List.mem_singleton, List.mem_append,
      MemoryOccurrence.ofAccess]
    grind
  use := by
    intro o member
    rcases List.mem_append.mp member with earlier | last
    · rw [records.use o earlier]
      have other := new o earlier
      grind
    · rw [List.mem_singleton.mp last]
      have unnamed : ∀ a ∈ accesses, a.name ≠ access.name := by
        intro a aIn same
        obtain ⟨o, oIn, named⟩ := List.mem_map.mp ((records.names a.name).mpr ⟨a, aIn, rfl⟩)
        exact new o oIn (named.trans same)
      simp only [MemoryOccurrence.ofAccess]
      grind
  blank := by
    intro o member
    rcases List.mem_append.mp member with earlier | last
    · exact records.blank o earlier
    · rw [List.mem_singleton.mp last]
      exact ⟨rfl, rfl⟩

theorem records_addMemory {accesses : List MemoryAccess} {occurrences : List MemoryOccurrence}
    (records : Records accesses occurrences) (access : MemoryAccess) :
    Records (accesses ++ [access]) (addMemory occurrences access) := by
  unfold addMemory
  split
  · next present => exact records.widen (by simpa using present)
  · next absent => exact records.append (by simpa using absent)

theorem records_foldl {accesses more : List MemoryAccess} {occurrences : List MemoryOccurrence}
    (records : Records accesses occurrences) :
    Records (accesses ++ more) (more.foldl addMemory occurrences) := by
  induction more generalizing accesses occurrences with
  | nil => simpa using records
  | cons access more ih =>
      have further := ih (records_addMemory records access)
      rwa [List.append_assoc] at further

theorem records_ofOperation (line : Nat) (category : Category) (operation : Operation) :
    Records operation.memoryAccesses (ofOperation line category operation).memory :=
  records_foldl records_nil

/-! ## Implied memory -/

/-- The occurrences of an instruction in a list with the given names: those of its own accesses, and those of
    names that may overlap them. -/
structure Touches (names : List String) (accesses : List MemoryAccess)
    (occurrences : List MemoryOccurrence) : Prop where
  distinct : (occurrences.map MemoryOccurrence.name).Nodup
  names : ∀ name, name ∈ occurrences.map MemoryOccurrence.name ↔
    name ∈ names ∧ ∃ a ∈ accesses, Memory.mayOverlap name a.name = true
  named : ∀ o ∈ occurrences, (∃ a ∈ accesses, a.name = o.name) →
    (o.use = .assignment ↔ ∃ a ∈ accesses, a.name = o.name ∧ a.use = .assignment)
  implied : ∀ o ∈ occurrences, (¬ ∃ a ∈ accesses, a.name = o.name) →
    (o.use = .assignment ↔
      ∃ a ∈ accesses, Memory.mayOverlap o.name a.name = true ∧ a.use = .assignment)

theorem Touches.congr {names : List String} {accesses : List MemoryAccess}
    {a b : List MemoryOccurrence} (touches : Touches names accesses a)
    (same : a.map (fun o => (o.name, o.use)) = b.map (fun o => (o.name, o.use))) :
    Touches names accesses b := by
  have sameNames : a.map MemoryOccurrence.name = b.map MemoryOccurrence.name := by
    simpa [Function.comp_def] using congrArg (List.map Prod.fst) same
  have back : ∀ o ∈ b, ∃ o' ∈ a, o'.name = o.name ∧ o'.use = o.use := by
    intro o member
    have there : (o.name, o.use) ∈ a.map (fun o => (o.name, o.use)) := by
      rw [same]
      exact List.mem_map_of_mem member
    obtain ⟨o', member', eq⟩ := List.mem_map.mp there
    exact ⟨o', member', (Prod.mk.inj eq).1, (Prod.mk.inj eq).2⟩
  exact {
    distinct := sameNames ▸ touches.distinct
    names := sameNames ▸ touches.names
    named := by
      intro o member
      obtain ⟨o', member', name, use⟩ := back o member
      rw [← name, ← use]
      exact touches.named o' member'
    implied := by
      intro o member
      obtain ⟨o', member', name, use⟩ := back o member
      rw [← name, ← use]
      exact touches.implied o' member' }

theorem foldl_addImplied (named implied : List MemoryOccurrence) (accesses : List MemoryAccess) :
    accesses.foldl (addImplied named) implied =
      (accesses.filter (fun a => !named.any (fun o => o.name == a.name))).foldl addMemory implied := by
  induction accesses generalizing implied with
  | nil => rfl
  | cons access accesses ih =>
      rw [List.foldl_cons, ih, List.filter_cons]
      unfold addImplied
      cases named.any (fun o => o.name == access.name) <;> rfl

def impliedBy (names : List String) (named : List MemoryOccurrence) : List MemoryAccess :=
  (named.flatMap (impliedAccesses names)).filter (fun a => !named.any (fun o => o.name == a.name))

theorem mem_impliedBy {names : List String} {named : List MemoryOccurrence} {access : MemoryAccess} :
    access ∈ impliedBy names named ↔ access.name ∈ names ∧ access.name ∉ named.map MemoryOccurrence.name ∧
      ∃ o ∈ named, Memory.mayOverlap access.name o.name = true ∧ o.use = access.use := by
  simp only [impliedBy, impliedAccesses, List.mem_filter, List.mem_flatMap, List.mem_map,
    Bool.and_eq_true, Bool.not_eq_true', List.any_eq_false, beq_iff_eq, bne_iff_ne]
  constructor
  · rintro ⟨⟨o, oIn, n, ⟨nIn, _, overlap⟩, rfl⟩, absent⟩
    refine ⟨nIn, ?_, o, oIn, overlap, rfl⟩
    rintro ⟨other, otherIn, same⟩
    exact absent other otherIn same
  · rintro ⟨nameIn, absent, o, oIn, overlap, use⟩
    refine ⟨⟨o, oIn, access.name, ⟨nameIn, ?_, overlap⟩, ?_⟩, ?_⟩
    · intro same
      exact absent ⟨o, oIn, same.symm⟩
    · cases access
      simp_all
    · intro other otherIn same
      exact absent ⟨other, otherIn, same⟩

theorem records_implied (names : List String) (named : List MemoryOccurrence) :
    Records (impliedBy names named)
      ((named.flatMap (impliedAccesses names)).foldl (addImplied named) []) := by
  rw [foldl_addImplied]
  exact records_foldl records_nil

theorem blank_withImplied {qubitNames names : List String} {accesses : List MemoryAccess}
    {instruction : Instruction} (records : Records accesses instruction.memory) :
    ∀ o ∈ (withImplied qubitNames names instruction).memory, o.value = none ∧ o.links = .none := by
  intro o member
  rcases List.mem_append.mp member with first | second
  · exact records.blank o first
  · exact (records_implied names instruction.memory).blank o second

theorem touches_withImplied {qubitNames names : List String} {accesses : List MemoryAccess}
    {instruction : Instruction} (records : Records accesses instruction.memory)
    (known : ∀ a ∈ accesses, a.name ∈ names) :
    Touches names accesses (withImplied qubitNames names instruction).memory := by
  have more := records_implied names instruction.memory
  have unnamed : ∀ a ∈ impliedBy names instruction.memory, ¬ ∃ b ∈ accesses, b.name = a.name := by
    intro a member
    rw [← records.names]
    exact (mem_impliedBy.mp member).2.1
  have apart : ∀ o ∈ instruction.memory, ∃ b ∈ accesses, b.name = o.name :=
    fun o member => (records.names _).mp (List.mem_map_of_mem member)
  exact {
    distinct := by
      simp only [withImplied, List.map_append]
      rw [List.nodup_append]
      refine ⟨records.distinct, more.distinct, ?_⟩
      rintro name first other second rfl
      obtain ⟨a, member, rfl⟩ := (more.names _).mp second
      exact (mem_impliedBy.mp member).2.1 first
    names := by
      intro name
      simp only [withImplied, List.map_append, List.mem_append, records.names, more.names]
      constructor
      · rintro (⟨a, member, rfl⟩ | ⟨a, member, rfl⟩)
        · exact ⟨known a member, a, member, Memory.mayOverlap_self _⟩
        · obtain ⟨nameIn, _, o, oIn, overlap, _⟩ := mem_impliedBy.mp member
          obtain ⟨b, bIn, same⟩ := apart o oIn
          exact ⟨nameIn, b, bIn, same ▸ overlap⟩
      · rintro ⟨nameIn, a, member, overlap⟩
        by_cases own : ∃ b ∈ accesses, b.name = name
        · exact .inl own
        · obtain ⟨o, oIn, same⟩ := List.mem_map.mp ((records.names a.name).mpr ⟨a, member, rfl⟩)
          refine .inr ⟨⟨name, o.use⟩, mem_impliedBy.mpr ⟨nameIn, ?_, o, oIn, ?_, rfl⟩, rfl⟩
          · rwa [records.names]
          · rwa [same]
    named := by
      intro o member own
      rcases List.mem_append.mp member with first | second
      · exact records.use o first
      · obtain ⟨a, aIn, same⟩ := (more.names o.name).mp (List.mem_map_of_mem second)
        exact absurd (same ▸ own) (unnamed a aIn)
    implied := by
      intro o member own
      rcases List.mem_append.mp member with first | second
      · exact absurd (apart o first) own
      · rw [more.use o second]
        constructor
        · rintro ⟨a, aIn, same, writes⟩
          obtain ⟨_, _, other, otherIn, overlap, use⟩ := mem_impliedBy.mp aIn
          obtain ⟨b, bIn, named, bWrites⟩ := (records.use other otherIn).mp (use.trans writes)
          exact ⟨b, bIn, by rwa [named, ← same], bWrites⟩
        · rintro ⟨b, bIn, overlap, writes⟩
          obtain ⟨other, otherIn, named⟩ := List.mem_map.mp ((records.names b.name).mpr ⟨b, bIn, rfl⟩)
          obtain ⟨c, cIn, same⟩ := (more.names o.name).mp (List.mem_map_of_mem second)
          obtain ⟨nameIn, absent, _⟩ := mem_impliedBy.mp cIn
          refine ⟨⟨o.name, .assignment⟩, mem_impliedBy.mpr ⟨same ▸ nameIn, same ▸ absent, ?_⟩,
            rfl, rfl⟩
          exact ⟨other, otherIn, by rwa [named],
            (records.use other otherIn).mpr ⟨b, bIn, named.symm, writes⟩⟩ }

/-! ## Qubits -/

/-- The occurrences that accesses of qubits leave. -/
structure RecordsQubits (accesses : List QubitAccess) (occurrences : List QubitOccurrence) :
    Prop where
  distinct : (occurrences.map QubitOccurrence.name).Nodup
  names : ∀ name, name ∈ occurrences.map QubitOccurrence.name ↔ ∃ a ∈ accesses, a.name = name
  use : ∀ o ∈ occurrences, ∃ a ∈ accesses, a.name = o.name ∧ a.use = o.use
  blank : ∀ o ∈ occurrences, o.before = none ∧ o.after = none ∧ o.links = .none

theorem recordsQubits_nil : RecordsQubits [] [] where
  distinct := List.nodup_nil
  names := by simp
  use := by simp
  blank := by simp

theorem recordsQubits_addQubit {accesses : List QubitAccess} {occurrences : List QubitOccurrence}
    (records : RecordsQubits accesses occurrences) (access : QubitAccess) :
    RecordsQubits (accesses ++ [access]) (addQubit occurrences access) := by
  have earlier : ∀ o ∈ occurrences, ∃ a ∈ accesses ++ [access], a.name = o.name ∧ a.use = o.use := by
    intro o member
    obtain ⟨a, aIn, same⟩ := records.use o member
    exact ⟨a, List.mem_append_left _ aIn, same⟩
  unfold addQubit
  split
  · next present =>
      obtain ⟨there, thereIn, same⟩ : ∃ o ∈ occurrences, o.name = access.name := by
        simpa using present
      have known := (records.names access.name).mp (same ▸ List.mem_map_of_mem thereIn)
      exact {
        distinct := records.distinct
        names := by
          intro name
          rw [records.names]
          simp only [List.mem_append, List.mem_singleton]
          grind
        use := earlier
        blank := records.blank }
  · next absent =>
      have new : ∀ o ∈ occurrences, o.name ≠ access.name := by simpa using absent
      exact {
        distinct := by
          rw [List.map_append, List.nodup_append]
          refine ⟨records.distinct, List.nodup_singleton _, ?_⟩
          intro name member other otherIn
          obtain ⟨o, oIn, rfl⟩ := List.mem_map.mp member
          rw [List.mem_singleton.mp otherIn]
          exact new o oIn
        names := by
          intro name
          rw [List.map_append, List.mem_append, records.names]
          simp only [List.map_cons, List.map_nil, List.mem_singleton, List.mem_append,
            QubitOccurrence.ofAccess]
          grind
        use := by
          intro o member
          rcases List.mem_append.mp member with first | last
          · exact earlier o first
          · rw [List.mem_singleton.mp last]
            exact ⟨access, by simp, rfl, rfl⟩
        blank := by
          intro o member
          rcases List.mem_append.mp member with first | last
          · exact records.blank o first
          · rw [List.mem_singleton.mp last]
            exact ⟨rfl, rfl, rfl⟩ }

theorem recordsQubits_foldl {accesses more : List QubitAccess} {occurrences : List QubitOccurrence}
    (records : RecordsQubits accesses occurrences) :
    RecordsQubits (accesses ++ more) (more.foldl addQubit occurrences) := by
  induction more generalizing accesses occurrences with
  | nil => simpa using records
  | cons access more ih =>
      have further := ih (recordsQubits_addQubit records access)
      rwa [List.append_assoc] at further

theorem recordsQubits_ofOperation (line : Nat) (category : Category) (operation : Operation) :
    RecordsQubits operation.qubitAccesses (ofOperation line category operation).qubits :=
  recordsQubits_foldl recordsQubits_nil

def qubitsTouched (qubitNames : List String) (operation : Operation) : List QubitAccess :=
  operation.qubitAccesses ++
    if operation.isGlobalReset then qubitNames.map (fun q => ⟨q, .singleGate⟩) else []

theorem recordsQubits_withImplied {qubitNames names : List String} {instruction : Instruction}
    (records : RecordsQubits instruction.operation.qubitAccesses instruction.qubits) :
    RecordsQubits (qubitsTouched qubitNames instruction.operation)
      (withImplied qubitNames names instruction).qubits := by
  unfold qubitsTouched withImplied
  dsimp only
  split
  · exact recordsQubits_foldl records
  · simpa using records

end TwoLane.Instruction
