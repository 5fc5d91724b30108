import CanonicalLR.Text.Listing

/-!
# Reading texts back

What is written with a character between its parts is read back by splitting it at that character,
as long as no part has the character itself. So lines are read back from a listing where no line has
a line break, and sections where no line is empty besides.
-/
namespace CanonicalLR

/-- The character occurs nowhere in the text. -/
def FreeOf (c : Char) (s : String) : Prop := c ∉ s.toList

instance (c : Char) (s : String) : Decidable (FreeOf c s) :=
  inferInstanceAs (Decidable (¬ c ∈ s.toList))

/-- The parts of a text that stand between the occurrences of a character. -/
def partsText (c : Char) (s : String) : List String :=
  (s.toList.splitOn c).map String.ofList

/-- The lines of a text each of which ends in a line break. -/
def textLines (s : String) : List String := (partsText '\n' s).dropLast

/-- The groups of lines that stand between empty lines. -/
def textSections (s : String) : List (List String) := (textLines s).splitOn ""

variable {c : Char} {s t : String} {parts : List String}

@[simp] theorem freeOf_append : FreeOf c (s ++ t) ↔ FreeOf c s ∧ FreeOf c t := by
  simp [FreeOf]

theorem mem_of_mem_intercalate {α : Type} {x : α} {separator : List α} {lists : List (List α)}
    (member : x ∈ separator.intercalate lists) : x ∈ separator ∨ ∃ list ∈ lists, x ∈ list := by
  induction lists with
  | nil => simp at member
  | cons first rest ih =>
    cases rest with
    | nil => exact .inr ⟨first, by simp, by simpa using member⟩
    | cons second rest =>
      rw [List.intercalate_cons_cons, List.append_assoc, List.mem_append, List.mem_append] at member
      rcases member with in_first | in_separator | in_rest
      · exact .inr ⟨first, by simp, in_first⟩
      · exact .inl in_separator
      · rcases ih in_rest with in_separator | ⟨list, listed, inside⟩
        · exact .inl in_separator
        · exact .inr ⟨list, List.mem_cons_of_mem _ listed, inside⟩

theorem freeOf_intercalate (separator : FreeOf c s) (free : ∀ part ∈ parts, FreeOf c part) :
    FreeOf c (s.intercalate parts) := by
  intro member
  rw [String.toList_intercalate] at member
  rcases mem_of_mem_intercalate member with in_separator | ⟨_, listed, inside⟩
  · exact separator in_separator
  · obtain ⟨part, member, rfl⟩ := List.mem_map.mp listed
    exact free part member inside

/-- Numbers are written in digits. -/
theorem freeOf_padded (other : c.isDigit = false) (width n : Nat) : FreeOf c (padded width n) := by
  simp only [padded, freeOf_append]
  constructor
  · intro member
    rw [String.toList_ofList] at member
    rw [List.eq_of_mem_replicate member] at other
    exact absurd other (by decide)
  · intro member
    have digits : (toString n).toList = Nat.toDigits 10 n := by
      simp [toString, Nat.repr_eq_ofList_toDigits]
    rw [digits] at member
    have digit := Nat.isDigit_of_mem_toDigits (by decide) (by decide) member
    rw [other] at digit
    cases digit

theorem partsText_intercalate (free : ∀ part ∈ parts, FreeOf c part) (some_part : parts ≠ []) :
    partsText c ((String.singleton c).intercalate parts) = parts := by
  rw [partsText, String.toList_intercalate, String.toList_singleton,
    List.splitOn_intercalate c (by simpa [FreeOf] using free) (by simpa using some_part)]
  simp [Function.comp_def]

/-- Nothing stands behind the last line break. -/
theorem linesText_eq (lines : List String) :
    linesText lines = "\n".intercalate (lines ++ [""]) := by
  induction lines with
  | nil => rfl
  | cons line lines ih =>
    rw [linesText] at ih
    rw [linesText, List.map_cons, String.join_cons, ih, List.cons_append,
      String.intercalate_cons_of_ne_nil (by simp)]

theorem textLines_linesText (free : ∀ line ∈ parts, FreeOf '\n' line) :
    textLines (linesText parts) = parts := by
  have all_free : ∀ line ∈ parts ++ [""], FreeOf '\n' line := by
    intro line member
    rcases List.mem_append.mp member with inside | last
    · exact free line inside
    · obtain rfl := List.mem_singleton.mp last
      decide
  have split := partsText_intercalate all_free (by simp)
  rw [textLines, linesText_eq]
  exact (congrArg List.dropLast split).trans List.dropLast_concat

theorem textSections_sectionsText {groups : List (List String)}
    (lines : ∀ group ∈ groups, ∀ line ∈ group, FreeOf '\n' line ∧ line ≠ "")
    (some_group : groups ≠ []) : textSections (sectionsText groups) = groups := by
  have free : ∀ line ∈ List.intercalate [""] groups, FreeOf '\n' line := by
    intro line member
    rcases mem_of_mem_intercalate member with empty | ⟨group, listed, inside⟩
    · obtain rfl := List.mem_singleton.mp empty
      decide
    · exact (lines group listed line inside).1
  rw [textSections, sectionsText, textLines_linesText free]
  refine List.splitOn_intercalate "" (fun group member empty => ?_) some_group
  exact (lines group member "" empty).2 rfl

end CanonicalLR
