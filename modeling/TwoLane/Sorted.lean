/-! # Sorted lists as sets and tables

A finite set is a strictly increasing list, and a table from keys to values is a list of pairs with
strictly increasing keys. Strings are ordered by code points. Reports and answers list names in this
order, so the order is part of the data and not of a printer. The main statements say which members
an insertion or a union has, and which value a look-up finds after a change.
-/

namespace TwoLane

namespace Sorted

variable {α : Type} [DecidableEq α] [LT α] [DecidableLT α]

/-- Put an element in its place, once. -/
def insert (a : α) : List α → List α
  | [] => [a]
  | b :: rest =>
      if a = b then b :: rest
      else if a < b then a :: b :: rest
      else b :: insert a rest

/-- Add every element of the second list to the first one. -/
def union (base : List α) (added : List α) : List α :=
  added.foldl (fun acc a => insert a acc) base

/-- The distinct elements of a list in increasing order. -/
def ofList (elements : List α) : List α :=
  union [] elements

def erase (a : α) (elements : List α) : List α :=
  elements.filter (fun b => decide (b ≠ a))

@[simp] theorem mem_insert {a b : α} {elements : List α} :
    b ∈ insert a elements ↔ b = a ∨ b ∈ elements := by
  induction elements with
  | nil => simp [insert]
  | cons c rest ih =>
      simp only [insert]
      split
      · next h => subst h; simp
      · split
        · simp
        · simp [ih, or_left_comm]

@[simp] theorem mem_union {b : α} {base added : List α} :
    b ∈ union base added ↔ b ∈ base ∨ b ∈ added := by
  induction added generalizing base with
  | nil => simp [union]
  | cons a rest ih =>
      have step : union base (a :: rest) = union (insert a base) rest := rfl
      rw [step, ih]
      simp only [mem_insert, List.mem_cons]
      constructor
      · rintro ((rfl | h) | h)
        · exact Or.inr (Or.inl rfl)
        · exact Or.inl h
        · exact Or.inr (Or.inr h)
      · rintro (h | rfl | h)
        · exact Or.inl (Or.inr h)
        · exact Or.inl (Or.inl rfl)
        · exact Or.inr h

@[simp] theorem mem_ofList {b : α} {elements : List α} : b ∈ ofList elements ↔ b ∈ elements := by
  simp [ofList]

omit [LT α] [DecidableLT α] in
@[simp] theorem mem_erase {a b : α} {elements : List α} :
    b ∈ erase a elements ↔ b ∈ elements ∧ b ≠ a := by
  simp [erase]

end Sorted

/-- A table with strictly increasing keys. -/
abbrev Table (κ ν : Type) := List (κ × ν)

namespace Table

variable {κ ν : Type} [DecidableEq κ] [LT κ] [DecidableLT κ]

/-- The value stored under a key. -/
def get? (key : κ) : Table κ ν → Option ν
  | [] => none
  | (k, v) :: rest => if key = k then some v else get? key rest

/-- Store a value under a key, in place of the one that was there. -/
def put (key : κ) (value : ν) : Table κ ν → Table κ ν
  | [] => [(key, value)]
  | (k, v) :: rest =>
      if key = k then (key, value) :: rest
      else if key < k then (key, value) :: (k, v) :: rest
      else (k, v) :: put key value rest

/-- Change the value of a key, starting from a default where the key is absent. -/
def modify (key : κ) (default : ν) (change : ν → ν) (table : Table κ ν) : Table κ ν :=
  table.put key (change ((table.get? key).getD default))

def ofList (entries : List (κ × ν)) : Table κ ν :=
  entries.foldl (fun table entry => table.put entry.1 entry.2) []

/-- The keys in increasing order. -/
def keys (table : Table κ ν) : List κ :=
  table.map Prod.fst

def contains (key : κ) (table : Table κ ν) : Bool :=
  (table.get? key).isSome

omit [LT κ] [DecidableLT κ] in
@[simp] theorem get?_nil (key : κ) : get? key ([] : Table κ ν) = none := rfl

theorem get?_put (key other : κ) (value : ν) (table : Table κ ν) :
    get? other (table.put key value) = if other = key then some value else get? other table := by
  induction table with
  | nil => simp [put, get?]
  | cons entry rest ih =>
      obtain ⟨k, v⟩ := entry
      simp only [put]
      split
      · next h => subst h; simp only [get?]; split <;> simp_all
      · split
        · simp only [get?]
        · simp only [get?, ih]
          split
          · split <;> simp_all
          · rfl

@[simp] theorem get?_put_self (key : κ) (value : ν) (table : Table κ ν) :
    get? key (table.put key value) = some value := by
  simp [get?_put]

theorem get?_put_of_ne {key other : κ} (h : other ≠ key) (value : ν) (table : Table κ ν) :
    get? other (table.put key value) = get? other table := by
  simp [get?_put, h]

end Table

end TwoLane
