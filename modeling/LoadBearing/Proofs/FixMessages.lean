import Mathlib.Data.List.Basic
import LoadBearing.History.Commit

/-! # Fixes are told by words

The patterns for the message of a fix stand between edges of words, and what they spell is made of
letters.  So a pattern occurs in a text exactly where a whole word of the text is one of its
spellings.  `mem_reach_iff` says where a pattern leads that has no edges inside; all that is left is
that a stretch of letters between two edges is a maximal run of word characters.
-/

namespace LoadBearing.Text

/-! ## Words -/

/-- A maximal run of word characters of a text. -/
def IsWord (text word : List Char) : Prop :=
  ∃ before after, text = before ++ word ++ after ∧ word ≠ [] ∧ (∀ c ∈ word, isWordChar c = true) ∧
    before.getLast?.any isWordChar = false ∧ after.head?.any isWordChar = false

section Separator

variable {left right word : List Char} {c : Char}

theorem any_head?_append_cons (separates : isWordChar c = false) (after : List Char) :
    (after ++ c :: right).head?.any isWordChar = after.head?.any isWordChar := by
  cases after with
  | nil => simpa using separates
  | cons first rest => rfl

theorem any_getLast?_append_cons (separates : isWordChar c = false) (before : List Char) :
    (left ++ c :: before).getLast?.any isWordChar = before.getLast?.any isWordChar := by
  rw [List.getLast?_append, List.getLast?_cons]
  cases before.getLast? with
  | none => simpa using separates
  | some last => rfl

/-- A separator outside a stretch of text stands after it or before it. -/
theorem append_cons_eq_append {before after : List Char} (outside : c ∉ word) (nonempty : word ≠ [])
    (whole : left ++ c :: right = before ++ (word ++ after)) :
    (∃ rest, left = before ++ word ++ rest ∧ after = rest ++ c :: right) ∨
      ∃ rest, before = left ++ c :: rest ∧ right = rest ++ word ++ after := by
  obtain ⟨first, letters, rfl⟩ := List.exists_cons_of_ne_nil nonempty
  rcases List.append_eq_append_iff.1 whole with ⟨passed, rfl, later⟩ | ⟨passed, rfl, later⟩
  · -- The stretch begins after `left`, so the separator comes first.
    rcases List.cons_eq_append_iff.1 later with ⟨rfl, same⟩ | ⟨rest, rfl, rfl⟩
    · exact absurd ((List.cons.inj same).1 ▸ List.mem_cons_self) outside
    · exact .inr ⟨rest, rfl, by simp⟩
  · rcases List.append_eq_append_iff.1 later with ⟨rest, rfl, rfl⟩ | ⟨rest, same, later⟩
    · exact .inl ⟨rest, by simp, rfl⟩
    · rcases List.cons_eq_append_iff.1 later with ⟨rfl, rfl⟩ | ⟨inner, rfl, -⟩
      · exact .inl ⟨[], by simp [same], rfl⟩
      · exact absurd (same ▸ List.mem_append_right _ List.mem_cons_self) outside

/-- The words of a text are those before a separator and those after it. -/
theorem isWord_append_cons (separates : isWordChar c = false) :
    IsWord (left ++ c :: right) word ↔ IsWord left word ∨ IsWord right word := by
  constructor
  · rintro ⟨before, after, whole, nonempty, inWord, begins, ends⟩
    have outside : c ∉ word := fun member => by simp [inWord c member] at separates
    rw [List.append_assoc] at whole
    rcases append_cons_eq_append outside nonempty whole with ⟨rest, rfl, rfl⟩ | ⟨rest, rfl, rfl⟩
    · rw [any_head?_append_cons separates] at ends
      exact .inl ⟨before, rest, rfl, nonempty, inWord, begins, ends⟩
    · rw [any_getLast?_append_cons separates] at begins
      exact .inr ⟨rest, after, rfl, nonempty, inWord, begins, ends⟩
  · rintro (⟨before, after, rfl, nonempty, inWord, begins, ends⟩ |
      ⟨before, after, rfl, nonempty, inWord, begins, ends⟩)
    · refine ⟨before, after ++ c :: right, by simp, nonempty, inWord, begins, ?_⟩
      rw [any_head?_append_cons separates, ends]
    · refine ⟨left ++ c :: before, after, by simp, nonempty, inWord, ?_, ends⟩
      rw [any_getLast?_append_cons separates, begins]

end Separator

/-! ## Letters -/

section Letters

variable {read letters more : List Char}

theorem sameLetters_iff : sameLetters read letters = true ↔
    read.map foldChar = letters.map foldChar := by
  rw [sameLetters, beq_iff_eq]

theorem sameLetters_nil_iff : sameLetters read [] = true ↔ read = [] := by
  rw [sameLetters_iff, List.map_nil, List.map_eq_nil_iff]

theorem sameLetters_cons_iff {letter : Char} : sameLetters read (letter :: letters) = true ↔
    ∃ c rest, read = c :: rest ∧ foldChar c = foldChar letter ∧
      sameLetters rest letters = true := by
  simp only [sameLetters_iff, List.map_cons, List.map_eq_cons_iff]

theorem sameLetters_append_iff : sameLetters read (letters ++ more) = true ↔
    ∃ one other, read = one ++ other ∧ sameLetters one letters = true ∧
      sameLetters other more = true := by
  simp only [sameLetters_iff, List.map_append, List.map_eq_append_iff]

theorem isUpper_iff {c : Char} : c.isUpper = true ↔ 'A'.val ≤ c.val ∧ c.val ≤ 'Z'.val :=
  decide_eq_true_iff

theorem isLower_iff {c : Char} : c.isLower = true ↔ 'a'.val ≤ c.val ∧ c.val ≤ 'z'.val :=
  Bool.and_eq_true_iff.trans (and_congr decide_eq_true_iff decide_eq_true_iff)

theorem toLower_eq_self {c : Char} (notCapital : ¬ c.isUpper = true) : c.toLower = c :=
  dif_neg fun capital => notCapital (isUpper_iff.2 capital)

theorem isWordChar_of_isAlpha {c : Char} (alpha : c.isAlpha = true) : isWordChar c = true := by
  have low : c.toNat < 128 := by
    rcases Bool.or_eq_true_iff.1 alpha with capital | small
    · have bound : c.toNat ≤ 'Z'.toNat := UInt32.le_iff_toNat_le.1 (isUpper_iff.1 capital).2
      exact Nat.lt_of_le_of_lt bound (by decide)
    · have bound : c.toNat ≤ 'z'.toNat := UInt32.le_iff_toNat_le.1 (isLower_iff.1 small).2
      exact Nat.lt_of_le_of_lt bound (by decide)
  simp [isWordChar, low, Char.isAlphanum, alpha]

theorem isAlpha_of_isLower_toLower {c : Char} (small : c.toLower.isLower = true) :
    c.isAlpha = true := by
  by_cases capital : c.isUpper = true
  · exact Bool.or_eq_true_iff.2 (.inl capital)
  · rw [toLower_eq_self capital] at small
    exact Bool.or_eq_true_iff.2 (.inr small)

theorem foldChar_of_isLower {letter : Char} (small : letter.isLower = true) :
    foldChar letter = letter := by
  rw [foldChar]
  split
  next isLongS => subst isLongS; cases small
  next =>
    split
    next isKelvin => subst isKelvin; cases small
    next =>
      refine toLower_eq_self fun capital => ?_
      exact absurd (UInt32.le_trans (isLower_iff.1 small).1 (isUpper_iff.1 capital).2) (by decide)

/-- Only word characters fold to plain small letters. -/
theorem isWordChar_of_foldChar_eq {c letter : Char} (small : letter.isLower = true)
    (same : foldChar c = foldChar letter) : isWordChar c = true := by
  rw [foldChar_of_isLower small, foldChar] at same
  split at same
  next isLongS =>
    subst isLongS
    decide +kernel
  next =>
    split at same
    next isKelvin =>
      subst isKelvin
      decide +kernel
    next => exact isWordChar_of_isAlpha (isAlpha_of_isLower_toLower (same ▸ small))

/-- What has the same letters as a text of plain small letters is made of word characters. -/
theorem isWordChar_of_sameLetters (small : ∀ letter ∈ letters, letter.isLower = true)
    (same : sameLetters read letters = true) : ∀ c ∈ read, isWordChar c = true := by
  intro c member
  have folded : foldChar c ∈ letters.map foldChar :=
    sameLetters_iff.1 same ▸ List.mem_map_of_mem member
  obtain ⟨letter, isLetter, folds⟩ := List.mem_map.1 folded
  exact isWordChar_of_foldChar_eq (small letter isLetter) folds.symm

end Letters

/-! ## Positions -/

namespace Position

/-- Reading some characters leads from one position to another. -/
structure Leads (p : Position) (read : List Char) (q : Position) : Prop where
  rest : p.rest = read ++ q.rest
  before : q.before = read.getLast?.or p.before

variable {p q : Position} {read more : List Char}

theorem leads_nil_iff : p.Leads [] q ↔ q = p := by
  constructor
  · rintro ⟨rest, before⟩
    obtain ⟨pBefore, pRest⟩ := p
    obtain ⟨qBefore, qRest⟩ := q
    simp_all
  · rintro rfl
    exact ⟨rfl, rfl⟩

theorem leads_append_iff : p.Leads (read ++ more) q ↔ ∃ m, p.Leads read m ∧ m.Leads more q := by
  constructor
  · rintro ⟨rest, before⟩
    refine ⟨⟨read.getLast?.or p.before, more ++ q.rest⟩, ⟨?_, rfl⟩, ⟨rfl, ?_⟩⟩
    · rw [rest, List.append_assoc]
    · rw [before, List.getLast?_append, Option.or_assoc]
  · rintro ⟨m, ⟨restHere, beforeHere⟩, ⟨rest, before⟩⟩
    refine ⟨?_, ?_⟩
    · rw [restHere, rest, List.append_assoc]
    · rw [before, beforeHere, List.getLast?_append, Option.or_assoc]

theorem leads_cons_iff {c : Char} :
    p.Leads (c :: read) q ↔ ∃ rest, p.rest = c :: rest ∧ Leads ⟨some c, rest⟩ read q := by
  have last : (c :: read).getLast?.or p.before = read.getLast?.or (some c) := by
    rw [List.getLast?_cons]
    cases read.getLast? <;> rfl
  constructor
  · rintro ⟨whole, before⟩
    exact ⟨read ++ q.rest, whole, rfl, before.trans last⟩
  · rintro ⟨_, whole, rfl, before⟩
    exact ⟨whole, before.trans last.symm⟩

/-- The positions of a text are those that reading it from the start leads to. -/
theorem mem_all_iff {before : Option Char} {text : List Char} :
    p ∈ all before text ↔ ∃ passed, Leads ⟨before, text⟩ passed p := by
  induction text generalizing before with
  | nil =>
    rw [all, List.mem_singleton, ← leads_nil_iff]
    refine ⟨fun leads => ⟨[], leads⟩, fun ⟨passed, leads⟩ => ?_⟩
    obtain ⟨rfl, -⟩ := List.append_eq_nil_iff.1 leads.rest.symm
    exact leads
  | cons c rest ih =>
    rw [all, List.mem_cons, ih, ← leads_nil_iff]
    constructor
    · rintro (here | ⟨passed, later⟩)
      · exact ⟨[], here⟩
      · exact ⟨c :: passed, leads_cons_iff.2 ⟨rest, rfl, later⟩⟩
    · rintro ⟨passed, leads⟩
      cases passed with
      | nil => exact .inl leads
      | cons first passed =>
        obtain ⟨_, same, later⟩ := leads_cons_iff.1 leads
        obtain ⟨rfl, rfl⟩ := List.cons.inj same
        exact .inr ⟨passed, later⟩

theorem past?_eq_some_iff {letters : List Char} :
    p.past? letters = some q ↔ ∃ read, sameLetters read letters = true ∧ p.Leads read q := by
  induction letters generalizing p with
  | nil =>
    simp only [past?, Option.some.injEq, sameLetters_nil_iff, exists_eq_left, leads_nil_iff]
    exact eq_comm
  | cons letter letters ih =>
    obtain ⟨before, rest⟩ := p
    have next :
        (∃ read, sameLetters read (letter :: letters) = true ∧ Leads ⟨before, rest⟩ read q) ↔
        ∃ c later, rest = c :: later ∧ foldChar c = foldChar letter ∧
          ∃ read, sameLetters read letters = true ∧ Leads ⟨some c, later⟩ read q := by
      simp only [sameLetters_cons_iff]
      constructor
      · rintro ⟨_, ⟨c, read, rfl, folds, same⟩, leads⟩
        obtain ⟨later, whole, leads⟩ := leads_cons_iff.1 leads
        exact ⟨c, later, whole, folds, read, same, leads⟩
      · rintro ⟨c, later, whole, folds, read, same, leads⟩
        exact ⟨c :: read, ⟨c, read, rfl, folds, same⟩, leads_cons_iff.2 ⟨later, whole, leads⟩⟩
    rw [next]
    cases rest with
    | nil => simp [past?]
    | cons c later =>
      rw [past?]
      by_cases folds : foldChar c = foldChar letter
      · rw [if_pos folds, ih]
        simp [folds]
      · simp [folds]

/-- Before and after a stretch of word characters, an edge is where the run of them ends. -/
theorem Leads.isEdge_iff (leads : p.Leads read q) (nonempty : read ≠ [])
    (inWord : ∀ c ∈ read, isWordChar c = true) :
    (p.isEdge = true ↔ p.before.any isWordChar = false) ∧
      (q.isEdge = true ↔ q.rest.head?.any isWordChar = false) := by
  obtain ⟨whole, before⟩ := leads
  constructor
  · obtain ⟨first, letters, rfl⟩ := List.exists_cons_of_ne_nil nonempty
    rw [isEdge, whole, List.cons_append, List.head?_cons, Option.any_some,
      inWord first List.mem_cons_self]
    cases p.before.any isWordChar <;> simp
  · rw [isEdge, before, List.getLast?_eq_some_getLast nonempty, Option.some_or, Option.any_some,
      inWord _ (List.getLast_mem nonempty)]
    cases q.rest.head?.any isWordChar <;> simp

end Position

/-! ## Patterns -/

namespace Pattern

/-- Whether a pattern has no edges. -/
def isPlain : Pattern → Bool
  | .letters _ => true
  | .edge => false
  | .optional inner => inner.isPlain
  | .either one other => one.isPlain && other.isPlain
  | .sequence first next => first.isPlain && next.isPlain

/-- The texts that a pattern describes, its edges aside. -/
def spellings : Pattern → List (List Char)
  | .letters text => [text.toList]
  | .edge => [[]]
  | .optional inner => inner.spellings ++ [[]]
  | .either one other => one.spellings ++ other.spellings
  | .sequence first next => first.spellings.flatMap fun start => next.spellings.map (start ++ ·)

/-- A stretch of text is one of the spellings, case aside. -/
def Spells (pattern : Pattern) (read : List Char) : Prop :=
  ∃ spelling ∈ pattern.spellings, sameLetters read spelling = true

section Spells

variable {read : List Char} {one other : Pattern}

theorem spells_letters_iff {text : String} :
    (letters text).Spells read ↔ sameLetters read text.toList = true := by
  simp [Spells, spellings]

theorem spells_optional_iff : (optional one).Spells read ↔ one.Spells read ∨ read = [] := by
  simp [Spells, spellings, or_and_right, exists_or, sameLetters_nil_iff]

theorem spells_either_iff :
    (either one other).Spells read ↔ one.Spells read ∨ other.Spells read := by
  simp [Spells, spellings, or_and_right, exists_or]

theorem spells_sequence_iff : (sequence one other).Spells read ↔
    ∃ start later, read = start ++ later ∧ one.Spells start ∧ other.Spells later := by
  constructor
  · rintro ⟨spelling, member, same⟩
    obtain ⟨start, isStart, member⟩ := List.mem_flatMap.1 member
    obtain ⟨later, isLater, rfl⟩ := List.mem_map.1 member
    obtain ⟨readStart, readLater, rfl, sameStart, sameLater⟩ := sameLetters_append_iff.1 same
    exact ⟨readStart, readLater, rfl, ⟨start, isStart, sameStart⟩, ⟨later, isLater, sameLater⟩⟩
  · rintro ⟨readStart, readLater, rfl, ⟨start, isStart, sameStart⟩, ⟨later, isLater, sameLater⟩⟩
    refine ⟨start ++ later, ?_, sameLetters_append_iff.2 ⟨_, _, rfl, sameStart, sameLater⟩⟩
    exact List.mem_flatMap.2 ⟨start, isStart, List.mem_map_of_mem isLater⟩

end Spells

theorem mem_reach_edge_iff {p q : Position} : q ∈ edge.reach p ↔ p.isEdge = true ∧ q = p := by
  rw [reach]
  split <;> simp_all

theorem mem_reach_sequence_iff {first next : Pattern} {p q : Position} :
    q ∈ (sequence first next).reach p ↔ ∃ m ∈ first.reach p, q ∈ next.reach m := by
  rw [reach, List.mem_flatMap]

/-- A pattern without edges leads past what it spells. -/
theorem mem_reach_iff {pattern : Pattern} (plain : pattern.isPlain = true) {p q : Position} :
    q ∈ pattern.reach p ↔ ∃ read, pattern.Spells read ∧ p.Leads read q := by
  induction pattern generalizing p q with
  | letters text =>
    simp only [reach, Option.mem_toList, Position.past?_eq_some_iff, spells_letters_iff]
  | edge => cases plain
  | optional inner ih =>
    rw [reach, List.mem_append, ih plain, List.mem_singleton, ← Position.leads_nil_iff]
    simp only [spells_optional_iff, or_and_right, exists_or, exists_eq_left]
  | either one other ihOne ihOther =>
    obtain ⟨plainOne, plainOther⟩ := Bool.and_eq_true_iff.1 plain
    rw [reach, List.mem_append, ihOne plainOne, ihOther plainOther]
    simp only [spells_either_iff, or_and_right, exists_or]
  | sequence first next ihFirst ihNext =>
    obtain ⟨plainFirst, plainNext⟩ := Bool.and_eq_true_iff.1 plain
    simp only [mem_reach_sequence_iff, ihFirst plainFirst, ihNext plainNext, spells_sequence_iff]
    constructor
    · rintro ⟨m, ⟨start, spellsStart, leadsStart⟩, ⟨later, spellsLater, leadsLater⟩⟩
      exact ⟨start ++ later, ⟨start, later, rfl, spellsStart, spellsLater⟩,
        Position.leads_append_iff.2 ⟨m, leadsStart, leadsLater⟩⟩
    · rintro ⟨_, ⟨start, later, rfl, spellsStart, spellsLater⟩, leads⟩
      obtain ⟨m, leadsStart, leadsLater⟩ := Position.leads_append_iff.1 leads
      exact ⟨m, ⟨start, spellsStart, leadsStart⟩, ⟨later, spellsLater, leadsLater⟩⟩

theorem mem_reach_word_iff {inner : Pattern} {p q : Position} :
    q ∈ (word inner).reach p ↔ p.isEdge = true ∧ q ∈ inner.reach p ∧ q.isEdge = true := by
  simp only [word, mem_reach_sequence_iff, mem_reach_edge_iff]
  constructor
  · rintro ⟨_, ⟨begins, rfl⟩, _, reached, ends, rfl⟩
    exact ⟨begins, reached, ends⟩
  · rintro ⟨begins, reached, ends⟩
    exact ⟨p, ⟨begins, rfl⟩, q, reached, ends, rfl⟩

theorem occursIn_iff {pattern : Pattern} {text : String} :
    pattern.occursIn text = true ↔
      ∃ passed p, Position.Leads ⟨none, text.toList⟩ passed p ∧ ∃ q, q ∈ pattern.reach p := by
  simp only [occursIn, List.any_eq_true, Position.mem_all_iff, Bool.not_eq_true',
    List.isEmpty_eq_false_iff_exists_mem]
  exact ⟨fun ⟨p, ⟨passed, leads⟩, reaches⟩ => ⟨passed, p, leads, reaches⟩,
    fun ⟨passed, p, leads, reaches⟩ => ⟨p, ⟨passed, leads⟩, reaches⟩⟩

def isLettered (pattern : Pattern) : Bool :=
  pattern.spellings.all fun spelling => !spelling.isEmpty && spelling.all Char.isLower

/-- What a pattern of plain small letters spells is made of word characters, in either case. -/
theorem Spells.inWord {pattern : Pattern} {read : List Char} (spells : pattern.Spells read)
    (lettered : pattern.isLettered = true) : read ≠ [] ∧ ∀ c ∈ read, isWordChar c = true := by
  obtain ⟨spelling, member, same⟩ := spells
  obtain ⟨nonempty, small⟩ := Bool.and_eq_true_iff.1 (List.all_eq_true.1 lettered spelling member)
  refine ⟨?_, isWordChar_of_sameLetters (List.all_eq_true.1 small) same⟩
  rintro rfl
  rw [List.map_eq_nil_iff.1 (sameLetters_iff.1 same).symm] at nonempty
  cases nonempty

/-- A pattern of letters between edges occurs in a text where a word of the text is one of its
    spellings. -/
theorem occursIn_word_iff {inner : Pattern} (plain : inner.isPlain = true)
    (lettered : inner.isLettered = true) {text : String} :
    (word inner).occursIn text = true ↔ ∃ read, IsWord text.toList read ∧ inner.Spells read := by
  simp only [occursIn_iff, mem_reach_word_iff, mem_reach_iff plain]
  constructor
  · rintro ⟨passed, p, reached, q, begins, ⟨read, spells, leads⟩, ends⟩
    obtain ⟨nonempty, inWord⟩ := spells.inWord lettered
    obtain ⟨beginsIff, endsIff⟩ := leads.isEdge_iff nonempty inWord
    have before : p.before = passed.getLast? := by simpa using reached.before
    refine ⟨read, ⟨passed, q.rest, ?_, nonempty, inWord, ?_, endsIff.1 ends⟩, spells⟩
    · rw [List.append_assoc, ← leads.rest]
      exact reached.rest
    · rw [← before]
      exact beginsIff.1 begins
  · rintro ⟨read, ⟨before, after, whole, nonempty, inWord, begins, ends⟩, spells⟩
    let p : Position := ⟨before.getLast?, read ++ after⟩
    let q : Position := ⟨read.getLast?.or p.before, after⟩
    have leads : p.Leads read q := ⟨rfl, rfl⟩
    obtain ⟨beginsIff, endsIff⟩ := leads.isEdge_iff nonempty inWord
    refine ⟨before, p, ⟨?_, by simp [p]⟩, q, beginsIff.2 begins, ⟨read, spells, leads⟩,
      endsIff.2 ends⟩
    rw [whole, List.append_assoc]

end Pattern

end LoadBearing.Text

namespace LoadBearing

def fixWords : List String :=
  [ "fix", "fixes", "fixed", "fixing", "bug", "bugs", "hotfix", "patch", "revert", "regression",
    "crash", "crashes", "crashed", "broken" ]

theorem plain_and_lettered_fixPatterns :
    ∀ pattern ∈ fixPatterns, pattern.isPlain = true ∧ pattern.isLettered = true := by
  decide +kernel

/-- The patterns for a fix spell each word for a fix once, and nothing else. -/
theorem spellings_fixPatterns :
    (fixPatterns.flatMap Text.Pattern.spellings).Perm (fixWords.map String.toList) := by
  decide

theorem exists_spells_fixPatterns {read : List Char} :
    (∃ pattern ∈ fixPatterns, pattern.Spells read) ↔
    ∃ term ∈ fixWords, Text.sameLetters read term.toList = true := by
  have spelled : ∀ spelling, (∃ pattern ∈ fixPatterns, spelling ∈ pattern.spellings) ↔
      ∃ term ∈ fixWords, term.toList = spelling := by
    intro spelling
    rw [← List.mem_flatMap, spellings_fixPatterns.mem_iff, List.mem_map]
  constructor
  · rintro ⟨pattern, isPattern, spelling, member, same⟩
    obtain ⟨term, isTerm, rfl⟩ := (spelled spelling).1 ⟨pattern, isPattern, member⟩
    exact ⟨term, isTerm, same⟩
  · rintro ⟨term, isTerm, same⟩
    obtain ⟨pattern, isPattern, member⟩ := (spelled _).2 ⟨term, isTerm, rfl⟩
    exact ⟨pattern, isPattern, _, member, same⟩

theorem isFixMessage_iff {message : String} : isFixMessage message = true ↔
    ∃ word, Text.IsWord message.toList word ∧
      ∃ term ∈ fixWords, Text.sameLetters word term.toList = true := by
  simp only [isFixMessage, List.any_eq_true, ← exists_spells_fixPatterns]
  constructor
  · rintro ⟨pattern, isPattern, occurs⟩
    obtain ⟨plain, lettered⟩ := plain_and_lettered_fixPatterns pattern isPattern
    obtain ⟨word, isWord, spells⟩ := (Text.Pattern.occursIn_word_iff plain lettered).1 occurs
    exact ⟨word, isWord, pattern, isPattern, spells⟩
  · rintro ⟨word, isWord, pattern, isPattern, spells⟩
    obtain ⟨plain, lettered⟩ := plain_and_lettered_fixPatterns pattern isPattern
    have occurs := (Text.Pattern.occursIn_word_iff plain lettered).2 ⟨word, isWord, spells⟩
    exact ⟨pattern, isPattern, occurs⟩

/-- A message tells of a fix exactly when one of its words, as a whole and case aside, is a word for
    a fix.  So a message in two parts with a separator between them tells of a fix exactly when one
    of the parts does. -/
theorem isFixMessage_reads_words (message : String) :
    (isFixMessage message = true ↔ ∃ word, Text.IsWord message.toList word ∧
      ∃ term ∈ fixWords, Text.sameLetters word term.toList = true) ∧
    ∀ (later : String) (separator : Char), Text.isWordChar separator = false →
      isFixMessage (message ++ separator.toString ++ later)
        = (isFixMessage message || isFixMessage later) := by
  refine ⟨isFixMessage_iff, fun later separator separates => ?_⟩
  rw [Bool.eq_iff_iff, Bool.or_eq_true, isFixMessage_iff, isFixMessage_iff, isFixMessage_iff]
  have chars : (message ++ separator.toString ++ later).toList
      = message.toList ++ separator :: later.toList := by
    simp
  simp only [chars, Text.isWord_append_cons separates, or_and_right, exists_or]

theorem isFixMessage_reads_words_hyphen :
    Text.isWordChar '-' = false ∧
    (isFixMessage "my_fix" = false ∧ isFixMessage "BUGſ2 BUGſ" = true) ∧
    isFixMessage ("my_fix" ++ '-'.toString ++ "BUGſ2 BUGſ")
      = (isFixMessage "my_fix" || isFixMessage "BUGſ2 BUGſ") := by
  have separates : Text.isWordChar '-' = false := by decide
  have parts : isFixMessage "my_fix" = false ∧ isFixMessage "BUGſ2 BUGſ" = true := by
    decide +kernel
  exact ⟨separates, parts, (isFixMessage_reads_words "my_fix").2 "BUGſ2 BUGſ" '-' separates⟩

end LoadBearing
