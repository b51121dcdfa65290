import Mathlib.Data.List.Basic
import LoadBearing.Text.Split

/-! # Marks in texts

A text with a mark in it is read as what stands before the last mark and what stands after it.  The
reading is unique, since nothing after the last mark is a mark.  So a number that is written after a
mark can be read back, whatever stands before: no digit is a mark.
-/

namespace LoadBearing.Text

/-! ## The last mark -/

theorem append_cons_inj {α : Type} {mark : α} {left right before after : List α}
    (leftFree : mark ∉ left) (rightFree : mark ∉ right)
    (same : before ++ mark :: left = after ++ mark :: right) : before = after ∧ left = right := by
  -- A mark of one side would have to stand behind the mark of the other.
  cases List.append_eq_append_iff.1 same with
  | inl longer =>
    obtain ⟨between, rfl, tail⟩ := longer
    cases between with
    | nil => simpa using tail
    | cons first rest => simp_all
  | inr longer =>
    obtain ⟨between, rfl, tail⟩ := longer
    cases between with
    | nil => simpa [eq_comm] using tail
    | cons first rest => simp_all

theorem exists_last_mark {α : Type} {mark : α} {items : List α} (member : mark ∈ items) :
    ∃ before after, items = before ++ mark :: after ∧ mark ∉ after := by
  induction items with
  | nil => cases member
  | cons item rest ih =>
    by_cases later : mark ∈ rest
    · obtain ⟨before, after, rfl, free⟩ := ih later
      exact ⟨item :: before, after, rfl, free⟩
    · have here : mark = item := by simpa [later] using member
      exact ⟨[], rest, by rw [here]; rfl, later⟩

theorem cutLastChars?_eq_none_iff {sep : Char} {chars : List Char} :
    cutLastChars? sep chars = none ↔ sep ∉ chars := by
  induction chars with
  | nil => simp [cutLastChars?]
  | cons c rest ih =>
    cases cut : cutLastChars? sep rest with
    | none => simp [cutLastChars?, cut, ih.1 cut, eq_comm]
    | some sides =>
      have later : sep ∈ rest := by
        by_contra absent
        simp [ih.2 absent] at cut
      simp [cutLastChars?, cut, later]

theorem cutLastChars?_append_cons {sep : Char} {after : List Char} (free : sep ∉ after)
    (before : List Char) : cutLastChars? sep (before ++ sep :: after) = some (before, after) := by
  induction before with
  | nil => simp [cutLastChars?, cutLastChars?_eq_none_iff.2 free]
  | cons c rest ih => simp [cutLastChars?, ih]

/-- What follows without a mark stays behind the last one. -/
theorem cutLastChars?_append {sep : Char} {after : List Char} (free : sep ∉ after)
    (before : List Char) :
    cutLastChars? sep (before ++ after)
      = (cutLastChars? sep before).map fun sides => (sides.1, sides.2 ++ after) := by
  induction before with
  | nil => simp [cutLastChars?, cutLastChars?_eq_none_iff.2 free]
  | cons c rest ih =>
    cases cut : cutLastChars? sep rest with
    | none =>
      by_cases here : c = sep
      · simp [cutLastChars?, ih, cut, here]
      · simp [cutLastChars?, ih, cut, here]
    | some sides => simp [cutLastChars?, ih, cut]

/-- The two sides joined by the mark give the text back. -/
theorem eq_of_cutLastChars? {sep : Char} {chars before after : List Char}
    (cut : cutLastChars? sep chars = some (before, after)) : chars = before ++ sep :: after := by
  have member : sep ∈ chars := by
    by_contra absent
    simp [cutLastChars?_eq_none_iff.2 absent] at cut
  obtain ⟨front, back, rfl, free⟩ := exists_last_mark member
  rw [cutLastChars?_append_cons free] at cut
  cases cut
  rfl

/-! ## Numbers after a mark -/

theorem notMem_toString {mark : Char} (noDigit : mark.isDigit = false) (n : Nat) :
    mark ∉ (toString n).toList := by
  rw [Nat.toString_eq_repr, Nat.toList_repr]
  intro member
  have digit := Nat.isDigit_of_mem_toDigits (by decide) (by decide) member
  rw [noDigit] at digit
  cases digit

theorem toString_inj {m n : Nat} (same : (toString m).toList = (toString n).toList) : m = n := by
  have digits := congrArg (Nat.ofDigitChars 10 · 0) same
  simpa [Nat.toString_eq_ofList_toDigits] using digits

theorem append_number_inj {mark : Char} (noDigit : mark.isDigit = false)
    {before after : List Char} {m n : Nat}
    (same : before ++ mark :: (toString m).toList = after ++ mark :: (toString n).toList) :
    before = after ∧ m = n := by
  obtain ⟨sides, numbers⟩ :=
    append_cons_inj (notMem_toString noDigit m) (notMem_toString noDigit n) same
  exact ⟨sides, toString_inj numbers⟩

end LoadBearing.Text
