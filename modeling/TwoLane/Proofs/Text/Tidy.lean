import TwoLane.Proofs.Text.Trim

/-! # Tidy texts

A tidy text holds something, on one line, and has no blanks around it. What is glued from tidy words is tidy as long
as nothing blank comes last, and trimming an indented line gives the tidy text on it back. Where each line of a text
holds something and ends without a blank, splitting the text gives these lines.
-/

namespace TwoLane.Text

variable {s t front : List Char} {c : Char} {text more : String}

/-- Whether a text holds something, on one line and without blanks around it. -/
def IsTidy (text : String) : Prop :=
  text ≠ "" ∧ '\n' ∉ text.toList ∧ trim text.toList = text.toList

instance (text : String) : Decidable (IsTidy text) :=
  inferInstanceAs (Decidable (_ ∧ _ ∧ _))

/-- Whether characters can stand at the end of a line: they are on one line, and the last one is not blank. -/
def Closes (s : List Char) : Prop :=
  '\n' ∉ s ∧ ∀ c, s.getLast? = some c → isBlank c = false

theorem ne_newline (ink : isBlank c = false) : '\n' ≠ c := by
  rintro rfl
  cases ink

/-! ## Ends of texts -/

theorem trimStart_eq_self_iff : trimStart s = s ↔ ∀ c, s.head? = some c → isBlank c = false := by
  cases s with
  | nil => simp [trimStart]
  | cons c rest => simp [trimStart, List.dropWhile_eq_self_iff]

theorem trimEnd_eq_self_iff : trimEnd s = s ↔ ∀ c, s.getLast? = some c → isBlank c = false := by
  rw [trimEnd, List.reverse_eq_iff, ← trimStart, trimStart_eq_self_iff, List.head?_reverse]

theorem trim_eq_self_iff : trim s = s ↔ trimStart s = s ∧ trimEnd s = s := by
  constructor
  · intro same
    have started : trimStart s <:+ s := List.dropWhile_suffix isBlank
    have ended : (trimStart s).reverse.dropWhile isBlank <:+ (trimStart s).reverse := List.dropWhile_suffix isBlank
    have shorter := ended.length_le
    have whole := congrArg List.length same
    rw [trim, trimEnd, List.length_reverse] at whole
    rw [List.length_reverse, whole] at shorter
    have start := started.eq_of_length_le shorter
    exact ⟨start, by rwa [trim, start] at same⟩
  · rintro ⟨start, finish⟩
    rw [trim, start, finish]

theorem isTidy_iff : IsTidy text ↔ (∃ c, text.toList.head? = some c ∧ isBlank c = false) ∧ Closes text.toList := by
  have empty : text = "" ↔ text.toList = [] := String.toList_eq_nil_iff.symm
  rw [IsTidy, Closes, trim_eq_self_iff, trimStart_eq_self_iff, trimEnd_eq_self_iff, ne_eq, empty]
  cases text.toList with
  | nil => simp
  | cons c rest => simpa using and_left_comm

theorem IsTidy.closes (tidy : IsTidy text) : Closes text.toList :=
  (isTidy_iff.mp tidy).2

/-! ## Texts that are glued together -/

theorem Closes.append (first : Closes s) (second : Closes t) : Closes (s ++ t) := by
  refine ⟨fun member => (List.mem_append.mp member).elim first.1 second.1, fun c last => ?_⟩
  rw [List.getLast?_append] at last
  rcases Option.or_eq_some_iff.mp last with there | ⟨_, there⟩
  · exact second.2 c there
  · exact first.2 c there

/-- Behind any characters of the line a text that holds something can stand at the end if it can on its own. -/
theorem Closes.behind (closes : Closes s) (filled : s ≠ []) (oneLine : '\n' ∉ front) : Closes (front ++ s) := by
  refine ⟨fun member => (List.mem_append.mp member).elim oneLine closes.1, fun c last => ?_⟩
  rw [List.getLast?_append] at last
  rcases Option.or_eq_some_iff.mp last with there | ⟨none, _⟩
  · exact closes.2 c there
  · exact absurd (List.getLast?_eq_none_iff.mp none) filled

theorem IsTidy.closes_behind (tidy : IsTidy text) (oneLine : '\n' ∉ front) : Closes (front ++ text.toList) :=
  tidy.closes.behind (String.toList_eq_nil_iff.not.mpr tidy.1) oneLine

theorem closes_snoc (oneLine : '\n' ∉ s) (ink : isBlank c = false) : Closes (s ++ [c]) := by
  refine Closes.behind ⟨?_, fun other last => ?_⟩ (List.cons_ne_nil c []) oneLine
  · rw [List.mem_singleton]
    exact ne_newline ink
  · cases last
    exact ink

theorem closes_of_suffix (closes : Closes t) (suffix : s <:+ t) : Closes s := by
  obtain ⟨front, rfl⟩ := suffix
  refine ⟨fun member => closes.1 (List.mem_append_right _ member), fun c last => closes.2 c ?_⟩
  rw [List.getLast?_append, last, Option.some_or]

theorem IsTidy.append (tidy : IsTidy text) (closes : Closes more.toList) : IsTidy (text ++ more) := by
  obtain ⟨⟨c, head, ink⟩, first⟩ := isTidy_iff.mp tidy
  refine isTidy_iff.mpr ⟨⟨c, ?_, ink⟩, ?_⟩
  · rw [String.toList_append, List.head?_append, head, Option.some_or]
  · rw [String.toList_append]
    exact first.append closes

theorem isTidy_of_ink (filled : s ≠ []) (ink : ∀ c ∈ s, isBlank c = false) : IsTidy (String.ofList s) := by
  rw [isTidy_iff, String.toList_ofList]
  obtain ⟨c, rest, rfl⟩ := List.exists_cons_of_ne_nil filled
  refine ⟨⟨c, rfl, ink c List.mem_cons_self⟩, fun member => ne_newline (ink _ member) rfl, fun last there => ?_⟩
  exact ink last (List.mem_of_getLast? there)

theorem IsTidy.trim_indented (tidy : IsTidy text) (depth : Nat) :
    trim (List.replicate depth ' ' ++ text.toList) = text.toList := by
  have blank : inked (List.replicate depth ' ') = 0 :=
    inked_eq_zero.mpr (fun c member => List.eq_of_mem_replicate member ▸ rfl)
  have trimmed : trim (List.replicate depth ' ' ++ (text.toList ++ [])) = trim text.toList := trim_around blank rfl
  rw [List.append_nil] at trimmed
  rw [trimmed, tidy.2.2]

/-! ## Lines of a text -/

theorem splitAt_append (clear : c ∉ s) (t : List Char) : splitAt c (s ++ c :: t) = s :: splitAt c t := by
  induction s with
  | nil => rw [List.nil_append, splitAt, if_pos rfl]
  | cons first rest ih =>
      obtain ⟨differ, clear⟩ := not_or.mp (List.mem_cons.not.mp clear)
      rw [List.cons_append, splitAt, if_neg (Ne.symm differ), ih clear]

theorem splitAt_of_notMem (clear : c ∉ s) : splitAt c s = [s] := by
  induction s with
  | nil => rfl
  | cons first rest ih =>
      obtain ⟨differ, clear⟩ := not_or.mp (List.mem_cons.not.mp clear)
      rw [splitAt, if_neg (Ne.symm differ), ih clear]

theorem splitAt_intercalate {pieces : List (List Char)} (some : pieces ≠ []) (clear : ∀ piece ∈ pieces, c ∉ piece) :
    splitAt c (List.intercalate [c] pieces) = pieces := by
  induction pieces with
  | nil => exact absurd rfl some
  | cons piece rest ih =>
      have first := clear piece List.mem_cons_self
      cases rest with
      | nil => rw [List.intercalate_singleton, splitAt_of_notMem first]
      | cons next others =>
          rw [List.intercalate_cons_cons, List.append_assoc, List.singleton_append, splitAt_append first,
            ih (List.cons_ne_nil next others) (fun piece member => clear piece (List.mem_cons_of_mem _ member))]

theorem dropReturn_eq_self (closes : Closes s) : dropReturn s = s := by
  unfold dropReturn
  split
  · next rest ends =>
      have last : s.getLast? = some '\r' := by rw [← List.head?_reverse, ends]; rfl
      cases closes.2 '\r' last
  · rfl

theorem closeLines_map {lines : List String} (each : ∀ line ∈ lines, line ≠ "" ∧ Closes line.toList) :
    closeLines (lines.map String.toList) = lines := by
  induction lines with
  | nil => rfl
  | cons line rest ih =>
      obtain ⟨filled, closes⟩ := each line List.mem_cons_self
      have further := ih (fun other member => each other (List.mem_cons_of_mem _ member))
      cases rest with
      | nil =>
          have some : line.toList ≠ [] := String.toList_eq_nil_iff.not.mpr filled
          rw [List.map_singleton, closeLines, List.isEmpty_eq_false_iff.mpr some, String.ofList_toList]
          rfl
      | cons next others =>
          rw [List.map_cons, List.map_cons, closeLines, dropReturn_eq_self closes, String.ofList_toList,
            ← List.map_cons, further]
          exact fun none => List.cons_ne_nil _ _ none

theorem lines_intercalate {lines : List String} (each : ∀ line ∈ lines, line ≠ "" ∧ Closes line.toList) :
    Text.lines ("\n".intercalate lines) = lines := by
  cases lines with
  | nil => rfl
  | cons line rest =>
      have clear : ∀ piece ∈ (line :: rest).map String.toList, '\n' ∉ piece := by
        intro piece member
        obtain ⟨other, there, rfl⟩ := List.mem_map.mp member
        exact (each other there).2.1
      have joined : ("\n".intercalate (line :: rest)).toList =
          List.intercalate ['\n'] ((line :: rest).map String.toList) := String.toList_intercalate
      have some : (line :: rest).map String.toList ≠ [] := List.cons_ne_nil _ _
      rw [Text.lines, joined, splitAt_intercalate some clear, closeLines_map each]

end TwoLane.Text
