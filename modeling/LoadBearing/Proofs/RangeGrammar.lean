import Mathlib.Data.List.Infix
import LoadBearing.Comparison.RevisionRange

/-! # The grammar of revision ranges

A range is one side, or two sides with two or three dots between them.  A text is cut at its first
three dots if it has any, else at its first two, and the pieces are looked at afterwards.

The non-trivial ingredient is `cutChars?_append`: a side has no two dots in a row and none at its end,
so no row of dots starts inside it and the cut falls right behind it.  Therefore a text that can be
written in one of the three ways is cut into the sides it was written with, and a text that can be
written in no way is cut into something that is no side.
-/

namespace LoadBearing

/-! ## Cutting at the first occurrence -/

namespace Text

variable {mark chars before after : List Char}

theorem cutChars?_cons (mark rest : List Char) (c : Char) :
    cutChars? mark (c :: rest) = if mark <+: c :: rest then some ([], (c :: rest).drop mark.length)
      else (cutChars? mark rest).map fun (before, after) => (c :: before, after) := by
  simp only [cutChars?, List.isPrefixOf_iff_prefix]

theorem cutChars?_eq_none_iff (some : mark ≠ []) :
    cutChars? mark chars = none ↔ ¬ mark <:+: chars := by
  induction chars with
  | nil => simp [cutChars?, some]
  | cons c rest ih =>
    rw [cutChars?_cons, List.infix_cons_iff]
    split
    next here => simp [here]
    next here => simp [here, ih]

theorem eq_of_cutChars? (cut : cutChars? mark chars = some (before, after)) :
    chars = before ++ mark ++ after := by
  induction chars generalizing before with
  | nil => cases cut
  | cons c rest ih =>
    rw [cutChars?_cons] at cut
    split at cut
    next here =>
      cases cut
      exact List.prefix_append_drop here
    next =>
      obtain ⟨⟨front, back⟩, found, same⟩ := Option.map_eq_some_iff.1 cut
      cases same
      rw [ih found]
      rfl

theorem cut?_eq_none_iff {mark text : String} (some : mark ≠ "") :
    cut? mark text = none ↔ ¬ mark.toList <:+: text.toList := by
  rw [cut?, Option.map_eq_none_iff, cutChars?_eq_none_iff (by simpa using some)]

theorem eq_of_cut? {mark text before after : String} (cut : cut? mark text = some (before, after)) :
    text = before ++ mark ++ after := by
  obtain ⟨⟨front, back⟩, found, same⟩ := Option.map_eq_some_iff.1 cut
  cases same
  apply String.toList_injective
  simpa using eq_of_cutChars? found

theorem cut?_append_self {mark : String} (some : mark ≠ "") (rest : String) :
    cut? mark (mark ++ rest) = .some ("", rest) := by
  have chars : mark.toList ≠ [] := by simpa using some
  rw [cut?, String.toList_append]
  cases listed : mark.toList with
  | nil => exact absurd listed chars
  | cons c more =>
    have starts : c :: more <+: c :: (more ++ rest.toList) := List.prefix_append _ _
    rw [List.cons_append, cutChars?_cons, if_pos starts]
    simp

end Text

namespace RevisionRange

/-! ## Sides -/

structure Side (text : String) : Prop where
  named : text ≠ ""
  solid : ∀ c ∈ text.toList, Text.isBlank c = false
  noDots : ¬ "..".toList <:+: text.toList
  opens : text.toList.head? ≠ some '.'
  ends : text.toList.getLast? ≠ some '.'

theorem isSide_iff {text : String} :
    isSide text = true ↔ text ≠ "" ∧ ¬ "..".toList <:+: text.toList ∧
      text.toList.head? ≠ some '.' ∧ text.toList.getLast? ≠ some '.' := by
  have opening : Text.startsWith text "." = true ↔ text.toList.head? = some '.' := by
    cases listed : text.toList with
    | nil => simp [Text.startsWith, listed]
    | cons c rest => simp [Text.startsWith, listed, eq_comm (a := '.')]
  have ending : Text.endsWith text "." = true ↔ text.toList.getLast? = some '.' := by
    simp only [Text.endsWith, List.isSuffixOf_iff_suffix]
    constructor
    · rintro ⟨front, whole⟩
      rw [← whole]
      exact List.getLast?_concat
    · intro last
      obtain ⟨front, whole⟩ := List.getLast?_eq_some_iff.1 last
      exact ⟨front, whole.symm⟩
  simp only [isSide, Bool.and_eq_true, decide_eq_true_eq, Option.isNone_iff_eq_none,
    Text.cut?_eq_none_iff (by decide : ".." ≠ ""), Bool.not_eq_true', Bool.eq_false_iff, ne_eq,
    opening, ending, and_assoc]

theorem side_iff {text : String} :
    Side text ↔ isSide text = true ∧ ∀ c ∈ text.toList, Text.isBlank c = false := by
  rw [isSide_iff]
  constructor
  · rintro ⟨named, solid, noDots, opens, ends⟩
    exact ⟨⟨named, noDots, opens, ends⟩, solid⟩
  · rintro ⟨⟨named, noDots, opens, ends⟩, solid⟩
    exact ⟨named, solid, noDots, opens, ends⟩

theorem side_current : Side current :=
  side_iff.2 ⟨by decide, by simp [current, Text.isBlank]⟩

/-! ## Where a text is cut -/

/-- A row of dots that comes after a side is found where it stands. -/
theorem cutChars?_append {front : List Char} (noDots : ¬ ['.', '.'] <:+: front)
    (ends : front.getLast? ≠ some '.') (more rest : List Char) :
    Text.cutChars? ('.' :: '.' :: more) (front ++ rest)
      = (Text.cutChars? ('.' :: '.' :: more) rest).map
          fun (before, after) => (front ++ before, after) := by
  induction front with
  | nil => simp
  | cons c front ih =>
    have elsewhere : ¬ '.' :: '.' :: more <+: c :: (front ++ rest) := by
      intro here
      obtain ⟨rfl, next⟩ := List.cons_prefix_cons.1 here
      cases front with
      | nil => exact ends rfl
      | cons d front =>
        obtain ⟨rfl, -⟩ := List.cons_prefix_cons.1 next
        exact noDots ⟨[], front, rfl⟩
    have endsLater : front.getLast? ≠ some '.' := by
      cases front with
      | nil => simp
      | cons d front => simpa using ends
    rw [List.cons_append, Text.cutChars?_cons, if_neg elsewhere,
      ih (fun inside => noDots (List.infix_cons inside)) endsLater, Option.map_map]
    rfl

theorem Side.cut?_append {front : String} (side : Side front) {mark : String} {more : List Char}
    (dots : mark.toList = '.' :: '.' :: more) (rest : String) :
    Text.cut? mark (front ++ rest)
      = (Text.cut? mark rest).map fun (before, after) => (front ++ before, after) := by
  rw [Text.cut?, Text.cut?, dots, String.toList_append, cutChars?_append side.noDots side.ends,
    Option.map_map, Option.map_map]
  congr 1
  funext ⟨before, after⟩
  simp

theorem Side.cut?_eq_none {text : String} (side : Side text) {mark : String} {more : List Char}
    (dots : mark.toList = '.' :: '.' :: more) : Text.cut? mark text = none := by
  have whole := side.cut?_append dots ""
  rw [String.append_empty] at whole
  rw [whole, Text.cut?, String.toList_empty]
  rfl

/-! ## Ways to write a range -/

/-- How the sides of a range are put into a text. -/
inductive Writing where
  | twoDots
  | threeDots
  /-- the base alone, for a range that ends at the current revision -/
  | alone
  deriving DecidableEq, Repr

def Writing.text : Writing → RevisionRange → String
  | .twoDots, range => range.base ++ ".." ++ range.head
  | .threeDots, range => range.base ++ "..." ++ range.head
  | .alone, range => range.base

/-- A text is a range written in some way. -/
structure Spells (text : String) (writing : Writing) (range : RevisionRange) : Prop where
  base : Side range.base
  head : Side range.head
  toCurrent : writing = .alone → range.head = current
  text_eq : text = writing.text range

variable {text : String} {writing : Writing} {range : RevisionRange}

/-- Two dots before a side do not make three. -/
theorem Side.cut?_three_eq_none (side : Side text) : Text.cut? "..." (".." ++ text) = none := by
  rw [Text.cut?_eq_none_iff (by decide), String.toList_append]
  show ¬ ['.', '.', '.'] <:+: '.' :: '.' :: text.toList
  have opens : ¬ ['.'] <+: text.toList := fun ⟨rest, whole⟩ => side.opens (by rw [← whole]; rfl)
  rw [List.infix_cons_iff, List.infix_cons_iff, List.cons_prefix_cons, List.cons_prefix_cons,
    List.cons_prefix_cons]
  rintro (⟨-, -, start⟩ | ⟨-, start⟩ | inside)
  · exact opens start
  · exact side.noDots start.isInfix
  · exact side.noDots (.trans ⟨[], ['.'], rfl⟩ inside)

/-- A text that is a range is cut into the sides of the range. -/
theorem Spells.sides_eq (spells : Spells text writing range) :
    sides text = (range.base, range.head) := by
  obtain ⟨base, head, toCurrent, rfl⟩ := spells
  have two : "..".toList = '.' :: '.' :: [] := rfl
  have three : "...".toList = '.' :: '.' :: ['.'] := rfl
  cases writing with
  | twoDots =>
    rw [sides, Writing.text, String.append_assoc, base.cut?_append three,
      head.cut?_three_eq_none, base.cut?_append two, Text.cut?_append_self (by decide)]
    simp
  | threeDots =>
    rw [sides, Writing.text, String.append_assoc, base.cut?_append three,
      Text.cut?_append_self (by decide)]
    simp
  | alone =>
    rw [sides, Writing.text, base.cut?_eq_none three, base.cut?_eq_none two, toCurrent rfl]
    rfl

/-- The sides that a text is cut into give the text back in one of the three ways. -/
theorem exists_text_eq (text : String) :
    ∃ writing : Writing, (writing = .alone → (sides text).2 = current) ∧
      text = writing.text ⟨(sides text).1, (sides text).2⟩ := by
  rw [sides]
  cases three : Text.cut? "..." text with
  | some pieces => exact ⟨.threeDots, nofun, Text.eq_of_cut? three⟩
  | none =>
    cases two : Text.cut? ".." text with
    | some pieces => exact ⟨.twoDots, nofun, Text.eq_of_cut? two⟩
    | none => exact ⟨.alone, fun _ => rfl, rfl⟩

theorem Writing.mem_text {c : Char} :
    c ∈ (writing.text range).toList ↔
      c ∈ range.base.toList ∨ writing ≠ .alone ∧ (c = '.' ∨ c ∈ range.head.toList) := by
  cases writing <;> simp [Writing.text]

/-- The three ways to write a range give texts of different lengths. -/
theorem Writing.eq_of_text_eq {other : Writing} (same : writing.text range = other.text range) :
    writing = other := by
  have lengths := congrArg String.length same
  have two : "..".length = 2 := rfl
  have three : "...".length = 3 := rfl
  cases writing <;> cases other <;>
    simp only [Writing.text, String.length_append, reduceCtorEq] at lengths ⊢ <;> omega

/-! ## Reading -/

/-- A text that can be read: no blank in it, and cut into two sides. -/
def Readable (text : String) : Prop :=
  text ≠ "" ∧ (∀ c ∈ text.toList, Text.isBlank c = false) ∧
    isSide (sides text).1 = true ∧ isSide (sides text).2 = true

instance (text : String) : Decidable (Readable text) :=
  inferInstanceAs (Decidable (_ ∧ _))

theorem parse_eq (text : String) :
    parse text = if Readable text then .ok ⟨(sides text).1, (sides text).2⟩ else .error ⟨text⟩ := by
  have refused : (text = "" || text.toList.any Text.isBlank || !isSide (sides text).1
      || !isSide (sides text).2) = true ↔ ¬ Readable text := by
    simp only [Readable, Bool.or_eq_true, decide_eq_true_eq, List.any_eq_true, Bool.not_eq_true']
    grind
  rw [parse]
  by_cases readable : Readable text
  · rw [if_pos readable]
    exact if_neg (mt refused.1 (not_not.2 readable))
  · rw [if_neg readable]
    exact if_pos (refused.2 readable)

theorem Spells.readable (spells : Spells text writing range) : Readable text := by
  have solid : ∀ c ∈ text.toList, Text.isBlank c = false := by
    intro c member
    rw [spells.text_eq, Writing.mem_text] at member
    rcases member with inBase | ⟨-, rfl | inHead⟩
    · exact spells.base.solid c inBase
    · decide
    · exact spells.head.solid c inHead
  have named : text ≠ "" := by
    rw [spells.text_eq]
    cases writing <;> simp [Writing.text, spells.base.named]
  rw [Readable, spells.sides_eq]
  exact ⟨named, solid, (side_iff.1 spells.base).1, (side_iff.1 spells.head).1⟩

theorem Readable.spells (readable : Readable text) :
    ∃ writing, Spells text writing ⟨(sides text).1, (sides text).2⟩ := by
  obtain ⟨-, solid, base, head⟩ := readable
  obtain ⟨writing, toCurrent, same⟩ := exists_text_eq text
  have chars : ∀ c, c ∈ text.toList ↔ c ∈ (sides text).1.toList ∨
      writing ≠ .alone ∧ (c = '.' ∨ c ∈ (sides text).2.toList) := by
    intro c
    rw [congrArg String.toList same]
    exact Writing.mem_text
  refine ⟨writing, side_iff.2 ⟨base, fun c inBase => ?_⟩, ?_, toCurrent, same⟩
  · exact solid c ((chars c).2 (.inl inBase))
  · -- The current revision stands for a head that is not in the text.
    by_cases lone : writing = .alone
    · exact (toCurrent lone).symm ▸ side_current
    · exact side_iff.2 ⟨head, fun c inHead => solid c ((chars c).2 (.inr ⟨lone, .inr inHead⟩))⟩

theorem parse_eq_ok_iff : parse text = .ok range ↔ ∃ writing, Spells text writing range := by
  rw [parse_eq]
  constructor
  · intro read
    split at read
    next readable =>
      cases read
      exact readable.spells
    next => cases read
  · rintro ⟨writing, spells⟩
    rw [if_pos spells.readable, spells.sides_eq]

theorem parse_eq_error_iff {e : RangeError} :
    parse text = .error e ↔ e = ⟨text⟩ ∧ ¬ ∃ writing range, Spells text writing range := by
  rw [parse_eq]
  constructor
  · intro refused
    split at refused
    next => cases refused
    next unreadable =>
      cases refused
      exact ⟨rfl, fun ⟨_, _, spells⟩ => unreadable spells.readable⟩
  · rintro ⟨rfl, unwritten⟩
    refine if_neg fun readable => unwritten ?_
    obtain ⟨writing, spells⟩ := readable.spells
    exact ⟨writing, _, spells⟩

/-- A text is a range in one way at most. -/
theorem Spells.unique (spells : Spells text writing range) {other : Writing}
    {otherRange : RevisionRange} (otherSpells : Spells text other otherRange) :
    writing = other ∧ range = otherRange := by
  have read := parse_eq_ok_iff.2 ⟨writing, spells⟩
  rw [parse_eq_ok_iff.2 ⟨other, otherSpells⟩] at read
  cases read
  exact ⟨Writing.eq_of_text_eq (spells.text_eq.symm.trans otherSpells.text_eq), rfl⟩

/-- Reading accepts exactly the ranges.  A text is read as a range just if it is that range in one
    of the three ways; no text is a range in two ways, or two ranges.  Every other text is refused
    and named in the error, and what was read is read again from how it is displayed. -/
theorem parse_accepts_exactly_ranges (text : String) :
    (∀ range, parse text = .ok range ↔ ∃ writing, Spells text writing range) ∧
    (∀ writing range other otherRange, Spells text writing range → Spells text other otherRange →
      writing = other ∧ range = otherRange) ∧
    (∀ error, parse text = .error error ↔
      error = ⟨text⟩ ∧ ¬ ∃ writing range, Spells text writing range) ∧
    ∀ range, parse text = .ok range → parse range.display = .ok range := by
  refine ⟨fun range => parse_eq_ok_iff, fun _ _ _ _ spells => spells.unique,
    fun error => parse_eq_error_iff, fun range read => ?_⟩
  obtain ⟨writing, spells⟩ := parse_eq_ok_iff.1 read
  exact parse_eq_ok_iff.2 ⟨.twoDots, spells.base, spells.head, nofun, rfl⟩

example : parse "v1.2...HEAD~1" = .ok ⟨"v1.2", "HEAD~1"⟩ := by decide

example : parse "a....b" = .error ⟨"a....b"⟩ := by decide

end RevisionRange

end LoadBearing
