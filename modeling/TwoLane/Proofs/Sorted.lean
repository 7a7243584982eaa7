import Mathlib.Data.List.Perm.Subperm
import Mathlib.Data.List.Sort
import Mathlib.Data.String.Basic
import TwoLane.Sorted

/-! # Strictly increasing lists

A set has one strictly increasing list, so sets are equal where their lists are. The changes of such lists keep
them strictly increasing. A table has such a list of keys.
-/

namespace TwoLane.Sorted

variable {α : Type} [LinearOrder α] {a : α} {elements base added : List α}

def Increasing (elements : List α) : Prop :=
  elements.Pairwise (· < ·)

theorem increasing_nil : Increasing ([] : List α) := List.Pairwise.nil

theorem increasing_insert (h : Increasing elements) : Increasing (insert a elements) := by
  induction elements with
  | nil => exact List.pairwise_singleton _ _
  | cons b rest ih =>
      obtain ⟨smaller, further⟩ := List.pairwise_cons.mp h
      simp only [insert]
      split
      · exact h
      · next differ =>
          split
          · next below =>
              refine List.pairwise_cons.mpr ⟨?_, h⟩
              intro c member
              rcases List.mem_cons.mp member with rfl | member
              · exact below
              · exact lt_trans below (smaller c member)
          · next above =>
              refine List.pairwise_cons.mpr ⟨?_, ih further⟩
              intro c member
              rcases mem_insert.mp member with rfl | member
              · exact lt_of_le_of_ne (not_lt.mp above) (Ne.symm differ)
              · exact smaller c member

theorem increasing_union (h : Increasing base) : Increasing (union base added) := by
  unfold union
  induction added generalizing base with
  | nil => exact h
  | cons a rest ih => exact ih (increasing_insert h)

theorem increasing_ofList (elements : List α) : Increasing (ofList elements) :=
  increasing_union increasing_nil

theorem increasing_erase (h : Increasing elements) : Increasing (erase a elements) :=
  h.sublist List.filter_sublist

theorem increasing_foldl_erase (h : Increasing elements) (removed : List α) :
    Increasing (removed.foldl (fun acc a => erase a acc) elements) := by
  induction removed generalizing elements with
  | nil => exact h
  | cons a rest ih => exact ih (increasing_erase h)

theorem mem_foldl_erase {removed : List α} :
    a ∈ removed.foldl (fun acc b => erase b acc) elements ↔ a ∈ elements ∧ a ∉ removed := by
  induction removed generalizing elements with
  | nil => simp
  | cons b rest ih =>
      rw [List.foldl_cons, ih, mem_erase, List.mem_cons, not_or, and_assoc]

theorem Increasing.nodup (h : Increasing elements) : elements.Nodup :=
  h.imp (fun below => ne_of_lt below)

theorem Increasing.eq_of_mem_iff {other : List α} (h : Increasing elements) (h' : Increasing other)
    (same : ∀ a, a ∈ elements ↔ a ∈ other) : elements = other := by
  have perm : elements.Perm other := (List.perm_ext_iff_of_nodup h.nodup h'.nodup).mpr same
  exact perm.eq_of_pairwise (fun _ _ _ _ below above => absurd (lt_trans below above) (lt_irrefl _)) h h'

theorem Increasing.length_lt {other : List α} (h : Increasing elements) (h' : Increasing other)
    (subset : elements ⊆ other) (differ : elements ≠ other) : elements.length < other.length := by
  refine lt_of_le_of_ne (h.nodup.subperm subset).length_le ?_
  intro same
  have perm := (h.nodup.subperm subset).perm_of_length_le same.ge
  exact differ (h.eq_of_mem_iff h' (fun a => perm.mem_iff))

end TwoLane.Sorted

namespace TwoLane.Table

variable {κ ν : Type} [DecidableEq κ]

theorem mem_of_get? {key : κ} {value : ν} {table : Table κ ν} (h : Table.get? key table = some value) :
    (key, value) ∈ table := by
  induction table with
  | nil => cases h
  | cons entry rest ih =>
      obtain ⟨k, v⟩ := entry
      simp only [Table.get?] at h
      split at h
      · next same =>
          cases h
          exact same ▸ List.mem_cons_self
      · exact List.mem_cons_of_mem _ (ih h)

theorem get?_of_mem {key : κ} {value : ν} {table : Table κ ν}
    (distinct : (table.map Prod.fst).Nodup) (member : (key, value) ∈ table) :
    Table.get? key table = some value := by
  induction table with
  | nil => cases member
  | cons entry rest ih =>
      obtain ⟨k, v⟩ := entry
      simp only [List.map_cons, List.nodup_cons] at distinct
      simp only [Table.get?]
      rcases List.mem_cons.mp member with same | further
      · cases same
        simp
      · have present : key ∈ rest.map Prod.fst := List.mem_map_of_mem further
        have differ : key ≠ k := fun same => distinct.1 (same ▸ present)
        rw [if_neg differ]
        exact ih distinct.2 further

variable [LT κ] [DecidableLT κ]

theorem map_fst_put (key : κ) (value : ν) (table : Table κ ν) :
    (table.put key value).map Prod.fst = Sorted.insert key (table.map Prod.fst) := by
  induction table with
  | nil => rfl
  | cons first rest ih =>
      rw [put, List.map_cons, Sorted.insert]
      split
      · next same => rw [same, List.map_cons]
      · split
        · rw [List.map_cons, List.map_cons]
        · rw [List.map_cons, ih]

theorem eq_or_mem_of_mem_put {key : κ} {value : ν} {table : Table κ ν} {entry : κ × ν}
    (member : entry ∈ table.put key value) : entry = (key, value) ∨ entry ∈ table := by
  induction table with
  | nil => exact .inl (List.mem_singleton.mp member)
  | cons first rest ih =>
      rw [Table.put] at member
      split at member
      · exact (List.mem_cons.mp member).imp_right (List.mem_cons_of_mem _)
      · split at member
        · exact List.mem_cons.mp member
        · rcases List.mem_cons.mp member with same | later
          · exact .inr (List.mem_cons.mpr (.inl same))
          · exact (ih later).imp_right (List.mem_cons_of_mem _)

theorem mem_of_mem_ofList {entries : List (κ × ν)} {entry : κ × ν} (member : entry ∈ Table.ofList entries) :
    entry ∈ entries := by
  have through : ∀ (rest : List (κ × ν)) (table : Table κ ν),
      entry ∈ rest.foldl (fun table e => table.put e.1 e.2) table → entry ∈ table ∨ entry ∈ rest := by
    intro rest
    induction rest with
    | nil => exact fun table there => .inl there
    | cons first rest ih =>
        intro table there
        rcases ih _ there with old | new
        · rcases eq_or_mem_of_mem_put old with same | old
          · exact .inr (List.mem_cons.mpr (.inl same))
          · exact .inl old
        · exact .inr (List.mem_cons_of_mem _ new)
  exact (through entries [] member).resolve_left List.not_mem_nil

theorem contains_ofList {entries : List (κ × ν)} {key : κ} (member : key ∈ entries.map Prod.fst) :
    Table.contains key (Table.ofList entries) = true := by
  have through : ∀ (rest : List (κ × ν)) (table : Table κ ν), Table.contains key table = true ∨ key ∈ rest.map Prod.fst →
      Table.contains key (rest.foldl (fun table e => table.put e.1 e.2) table) = true := by
    intro rest
    induction rest with
    | nil => exact fun table known => known.resolve_right List.not_mem_nil
    | cons first rest ih =>
        intro table known
        refine ih _ ?_
        by_cases same : key = first.1
        · exact .inl (by rw [contains, same, get?_put_self]; rfl)
        · rw [contains, get?_put_of_ne same]
          exact known.imp_right (fun there => (List.mem_cons.mp there).resolve_left same)
  exact through entries [] (.inr member)

/-! ## Orders of entries -/

variable {κ ν : Type} [LinearOrder κ]

theorem put_comm {key other : κ} (differ : key ≠ other) (value value' : ν) (table : Table κ ν) :
    (table.put key value).put other value' = (table.put other value').put key value := by
  induction table with
  | nil =>
      rcases lt_or_gt_of_ne differ with below | above
      · simp [put, below, differ, differ.symm, below.not_gt]
      · simp [put, above, differ, differ.symm, above.not_gt]
  | cons first rest ih =>
      obtain ⟨k, v⟩ := first
      simp only [put]
      grind [put]

/-- It does not matter in which order entries with different keys come. -/
theorem ofList_perm {entries entries' : List (κ × ν)} (perm : entries.Perm entries')
    (distinct : (entries.map Prod.fst).Nodup) : Table.ofList entries = Table.ofList entries' := by
  refine perm.foldl_eq' (fun a aIn b bIn table => ?_) []
  by_cases same : a.1 = b.1
  · rw [List.inj_on_of_nodup_map distinct aIn bIn same]
  · exact put_comm same a.2 b.2 table

end TwoLane.Table
