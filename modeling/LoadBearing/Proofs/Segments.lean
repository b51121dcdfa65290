import Mathlib.Data.List.DropRight
import LoadBearing.Path.Basic

/-! # Paths and their segments

A text is cut at its slashes and joined again without loss, in both orders.  Away from the empty
text the components of a path depend on its segments alone: the first segment says how the path
opens, and every segment that is a step gives one component.  From there, what is written of a path
below a directory, followed from that directory, leads back to the path.
-/

namespace LoadBearing

namespace Text

variable {sep : Char}

/-! ## Cutting and joining -/

theorem splitChars_ne_nil (chars : List Char) : splitChars sep chars ≠ [] := by
  cases chars with
  | nil => simp [splitChars]
  | cons c rest =>
    simp only [splitChars]
    split
    · simp
    · split <;> simp

theorem splitChars_of_notMem {chars : List Char} (free : sep ∉ chars) :
    splitChars sep chars = [chars] := by
  induction chars with
  | nil => rfl
  | cons c rest ih =>
    obtain ⟨first, later⟩ := not_or.1 (mt List.mem_cons.2 free)
    simp [splitChars, Ne.symm first, ih later]

theorem splitChars_append_cons (before after : List Char) :
    splitChars sep (before ++ sep :: after) = splitChars sep before ++ splitChars sep after := by
  induction before with
  | nil => simp [splitChars]
  | cons c rest ih =>
    by_cases here : c = sep
    · simp [splitChars, here, ih]
    · cases pieces : splitChars sep rest with
      | nil => exact absurd pieces (splitChars_ne_nil rest)
      | cons piece others => simp [splitChars, here, ih, pieces]

theorem notMem_of_mem_splitChars {chars piece : List Char} (member : piece ∈ splitChars sep chars) :
    sep ∉ piece := by
  induction chars generalizing piece with
  | nil => simp_all [splitChars]
  | cons c rest ih =>
    by_cases here : c = sep
    · simp only [splitChars, if_pos here, List.mem_cons] at member
      rcases member with rfl | member
      · simp
      · exact ih member
    · cases pieces : splitChars sep rest with
      | nil => exact absurd pieces (splitChars_ne_nil rest)
      | cons first others =>
        simp only [splitChars, if_neg here, pieces, List.mem_cons] at member
        rcases member with rfl | member
        · simpa [Ne.symm here] using ih (pieces ▸ List.mem_cons_self)
        · exact ih (pieces ▸ List.mem_cons_of_mem _ member)

theorem intercalate_splitChars (sep : Char) (chars : List Char) :
    [sep].intercalate (splitChars sep chars) = chars := by
  induction chars with
  | nil => rfl
  | cons c rest ih =>
    cases pieces : splitChars sep rest with
    | nil => exact absurd pieces (splitChars_ne_nil rest)
    | cons first others =>
      rw [pieces] at ih
      by_cases here : c = sep
      · simp [splitChars, here, pieces, List.intercalate_cons_cons, ih]
      · cases others <;>
          simp_all [splitChars, List.intercalate_cons_cons]

theorem splitChars_intercalate {pieces : List (List Char)} (some : pieces ≠ [])
    (free : ∀ piece ∈ pieces, sep ∉ piece) :
    splitChars sep ([sep].intercalate pieces) = pieces := by
  induction pieces with
  | nil => exact absurd rfl some
  | cons piece rest ih =>
    cases rest with
    | nil => simpa using splitChars_of_notMem (free piece (by simp))
    | cons next others =>
      have tail := ih (by simp) fun p member => free p (List.mem_cons_of_mem _ member)
      rw [List.intercalate_cons_cons, List.append_assoc, List.singleton_append,
        splitChars_append_cons, splitChars_of_notMem (free piece (by simp)), tail]
      rfl

theorem split_ne_nil (text : String) : split sep text ≠ [] := by
  simpa [split] using splitChars_ne_nil text.toList

theorem split_slash_append (before after : String) :
    split '/' (before ++ "/" ++ after) = split '/' before ++ split '/' after := by
  simp [split, splitChars_append_cons]

theorem intercalate_split_slash (text : String) : "/".intercalate (split '/' text) = text := by
  apply String.toList_injective
  simp only [String.toList_intercalate, split, List.map_map]
  simpa [Function.comp_def] using intercalate_splitChars '/' text.toList

theorem notMem_of_mem_split {text segment : String} (member : segment ∈ split sep text) :
    sep ∉ segment.toList := by
  obtain ⟨piece, among, rfl⟩ := List.mem_map.1 member
  simpa using notMem_of_mem_splitChars among

theorem split_intercalate_slash {segments : List String} (some : segments ≠ [])
    (free : ∀ segment ∈ segments, '/' ∉ segment.toList) :
    split '/' ("/".intercalate segments) = segments := by
  have cut : splitChars '/' (['/'].intercalate (segments.map String.toList))
      = segments.map String.toList :=
    splitChars_intercalate (by simpa using some) (by simpa using free)
  simp [split, String.toList_intercalate, cut]

/-- A text with a first character starts with a slash just if its first segment is empty. -/
theorem startsWith_slash_iff {text : String} (named : text ≠ "") :
    startsWith text "/" = true ↔ (split '/' text).head? = some "" := by
  have chars : text.toList ≠ [] := by simpa using named
  cases listed : text.toList with
  | nil => exact absurd listed chars
  | cons c rest =>
    by_cases here : c = '/'
    · simp [startsWith, split, splitChars, listed, here]
    · cases pieces : splitChars '/' rest with
      | nil => exact absurd pieces (splitChars_ne_nil rest)
      | cons first others =>
        simp [startsWith, split, splitChars, listed, here, Ne.symm here, pieces]

end Text

namespace Path

open Text

/-! ## Components from segments -/

/-- The component that a path opens with before its first step. -/
def opening (segments : List String) : List Component :=
  if segments.head? = some "" then [.root]
  else if segments.head? = some "." then [.here]
  else []

theorem components_eq {path : String} (named : path ≠ "") :
    components path
      = opening (split '/' path) ++ (split '/' path).filterMap ofSegment? := by
  by_cases slash : startsWith path "/" = true
  · simp [components, opening, slash, (startsWith_slash_iff named).1 slash]
  · have first := mt (startsWith_slash_iff named).2 slash
    by_cases dot : (split '/' path).head? = some "." <;>
      simp [components, opening, slash, first, dot]

theorem startsWith_slash_iff_head? {path : String} :
    startsWith path "/" = true ↔ (components path).head? = some .root := by
  by_cases slash : startsWith path "/" = true
  · simp [components, slash]
  · have steps : (split '/' path).findSome? ofSegment? ≠ some .root := by
      intro first
      obtain ⟨segment, -, read⟩ := List.exists_of_findSome?_eq_some first
      simp only [ofSegment?] at read
      split at read
      · cases read
      · split at read <;> cases read
    by_cases dot : (split '/' path).head? = some "." <;> simp [components, slash, dot, steps]

theorem opening_append {front : List String} (some : front ≠ []) (back : List String) :
    opening (front ++ back) = opening front := by
  cases front with
  | nil => exact absurd rfl some
  | cons segment rest => rfl

theorem components_ne_nil {path : String} (named : path ≠ "") : components path ≠ [] := by
  rw [components_eq named]
  cases segments : split '/' path with
  | nil => exact absurd segments (split_ne_nil path)
  | cons segment rest =>
    by_cases empty : segment = ""
    · simp [opening, empty]
    · by_cases dot : segment = "."
      · simp [opening, dot]
      · by_cases up : segment = ".." <;> simp [opening, ofSegment?, empty, dot, up]

/-- The segments of a path followed from a directory are those of the directory, up to an empty
    one at its end, and then those of the path. -/
theorem exists_split_join {directory : String} (named : directory ≠ "") :
    ∃ front, front ≠ [] ∧
      components directory = opening front ++ front.filterMap ofSegment? ∧
      ∀ path, startsWith path "/" = false →
        split '/' (join directory path) = front ++ split '/' path := by
  by_cases slash : endsWith directory "/" = true
  · obtain ⟨before, ends⟩ := List.isSuffixOf_iff_suffix.1 slash
    have text : directory = String.ofList before ++ "/" := by
      apply String.toList_injective
      simpa using ends.symm
    have cut : split '/' directory = split '/' (String.ofList before) ++ [""] := by
      have whole := split_slash_append (String.ofList before) ""
      rw [String.append_empty] at whole
      rw [text, whole]
      rfl
    refine ⟨split '/' (String.ofList before), split_ne_nil _, ?_, fun path relative => ?_⟩
    · rw [components_eq named, cut, opening_append (split_ne_nil _), List.filterMap_append]
      simp [ofSegment?]
    · simp only [join, relative, slash, Bool.or_true, Bool.false_eq_true, ↓reduceIte]
      rw [text, split_slash_append]
  · refine ⟨split '/' directory, split_ne_nil _, components_eq named, fun path relative => ?_⟩
    simp only [join, relative, slash, named, Bool.false_eq_true, decide_false, Bool.or_self,
      ↓reduceIte]
    exact split_slash_append directory path

theorem join_ne_empty {directory path : String} (named : directory ≠ "")
    (relative : startsWith path "/" = false) : join directory path ≠ "" := by
  simp only [join, relative, Bool.false_eq_true, ↓reduceIte]
  split <;> simp [named]

theorem components_join {directory path : String} (named : directory ≠ "")
    (relative : startsWith path "/" = false) :
    components (join directory path)
      = components directory ++ (split '/' path).filterMap ofSegment? := by
  obtain ⟨front, some, outer, whole⟩ := exists_split_join named
  rw [components_eq (join_ne_empty named relative), whole path relative, opening_append some,
    List.filterMap_append, outer, List.append_assoc]

/-! ## Dropping steps -/

theorem filterMap_dropSteps (count : Nat) (segments : List String) :
    (dropSteps count segments).filterMap ofSegment?
      = (segments.filterMap ofSegment?).drop count := by
  induction segments generalizing count with
  | nil => simp [dropSteps]
  | cons segment rest ih =>
    cases read : ofSegment? segment with
    | none => simp [dropSteps, isStep, read, ih]
    | some step =>
      cases count with
      | zero => simp [dropSteps, isStep, read]
      | succ count => simp [dropSteps, isStep, read, ih]

theorem dropSteps_suffix (count : Nat) (segments : List String) :
    dropSteps count segments <:+ segments := by
  induction segments generalizing count with
  | nil => simp [dropSteps]
  | cons segment rest ih =>
    simp only [dropSteps]
    split
    · cases count with
      | zero => exact List.suffix_rfl
      | succ count => exact (ih count).trans (List.suffix_cons _ _)
    · exact (ih count).trans (List.suffix_cons _ _)

theorem isStep_of_head?_dropSteps {count : Nat} {segments : List String} {first : String}
    (head : (dropSteps count segments).head? = some first) : isStep first = true := by
  induction segments generalizing count with
  | nil => simp [dropSteps] at head
  | cons segment rest ih =>
    simp only [dropSteps] at head
    split at head
    next step =>
      cases count with
      | zero =>
        obtain rfl : segment = first := by simpa using head
        exact step
      | succ count => exact ih head
    next => exact ih head

/-- Steps that are all in front are dropped there, if what comes behind opens with a step. -/
theorem dropSteps_append {count : Nat} {front back : List String}
    (enough : count ≤ (front.filterMap ofSegment?).length)
    (opens : ∀ first, back.head? = some first → isStep first = true) :
    dropSteps count (front ++ back) = dropSteps count front ++ back := by
  induction front generalizing count with
  | nil =>
    obtain rfl : count = 0 := by simpa using enough
    cases back with
    | nil => rfl
    | cons first rest => simp [dropSteps, opens first rfl]
  | cons segment rest ih =>
    cases read : ofSegment? segment with
    | none =>
      simp only [List.filterMap_cons, read] at enough
      simp [dropSteps, isStep, read, ih enough]
    | some step =>
      simp only [List.filterMap_cons, read, List.length_cons] at enough
      cases count with
      | zero => simp [dropSteps, isStep, read]
      | succ count => simp [dropSteps, isStep, read, ih (Nat.le_of_succ_le_succ enough)]

/-- The segments as far as the last step. -/
def uptoLastStep (segments : List String) : List String :=
  segments.rdropWhile fun segment => !isStep segment

theorem filterMap_uptoLastStep (segments : List String) :
    (uptoLastStep segments).filterMap ofSegment? = segments.filterMap ofSegment? := by
  induction segments using List.reverseRecOn with
  | nil => rfl
  | append_singleton rest segment ih =>
    rw [uptoLastStep, List.rdropWhile_concat]
    split
    next idle =>
      have read : ofSegment? segment = none := by simpa [isStep] using idle
      rw [List.filterMap_append, ← ih]
      simp [read, uptoLastStep]
    next => rfl

/-- A first segment that is no step is dropped in any case. -/
theorem dropSteps_uptoLastStep_cons {segment : String} (idle : isStep segment = false)
    (count : Nat) (rest : List String) :
    dropSteps count (uptoLastStep (segment :: rest)) = dropSteps count (uptoLastStep rest) := by
  induction rest using List.reverseRecOn with
  | nil => simp [uptoLastStep, List.rdropWhile, idle]
  | append_singleton rest last ih =>
    simp only [uptoLastStep] at ih ⊢
    rw [← List.cons_append, List.rdropWhile_concat, List.rdropWhile_concat]
    split
    · exact ih
    · simp [dropSteps, idle]

/-! ## Below a directory -/

def stepsAbove (directory : String) (segments : List String) : Nat :=
  (components directory).length - (opening segments).length

theorem tailBelow?_eq {directory path : String} (outside : directory ≠ "") (named : path ≠ "")
    (inside : components directory <+: components path) :
    tailBelow? directory path = some ("/".intercalate
      (dropSteps (stepsAbove directory (split '/' path)) (uptoLastStep (split '/' path)))) := by
  have below : below? directory path
      = some ((components path).drop (components directory).length) :=
    if_pos (List.isPrefixOf_iff_prefix.2 inside)
  have slash := startsWith_slash_iff named
  have trim : ∀ body : List String,
      (body.reverse.dropWhile fun segment => !isStep segment).reverse = uptoLastStep body :=
    fun _ => rfl
  simp only [tailBelow?, below, Option.map_some, stepsAbove, trim]
  cases outer : components directory with
  | nil => exact absurd outer (components_ne_nil outside)
  | cons first others =>
    cases segments : split '/' path with
    | nil => exact absurd segments (split_ne_nil path)
    | cons segment rest =>
      rw [segments] at slash
      -- The opening is no step, so it makes no difference that it is cut off first.
      by_cases leads : segment = "" ∨ segment = "."
      · have idle : isStep segment = false := by
          rcases leads with rfl | rfl <;> rfl
        rw [dropSteps_uptoLastStep_cons idle]
        rcases leads with rfl | rfl <;> simp [opening, slash]
      · obtain ⟨empty, dot⟩ := not_or.1 leads
        simp [opening, slash, empty, dot]

/-- Segments that open with a step are joined to a relative path with the same steps. -/
theorem intercalate_of_opens {segments : List String}
    (free : ∀ segment ∈ segments, '/' ∉ segment.toList)
    (opens : ∀ first, segments.head? = some first → isStep first = true) :
    startsWith ("/".intercalate segments) "/" = false ∧
      (split '/' ("/".intercalate segments)).filterMap ofSegment?
        = segments.filterMap ofSegment? := by
  cases segments with
  | nil => exact ⟨rfl, rfl⟩
  | cons first rest =>
    have cut := split_intercalate_slash (by simp) free
    have step : first ≠ "" := by
      rintro rfl
      exact absurd (opens "" rfl) (by decide)
    have named : "/".intercalate (first :: rest) ≠ "" := by
      intro empty
      rw [empty] at cut
      exact step (List.cons.inj cut).1.symm
    refine ⟨?_, by rw [cut]⟩
    rw [Bool.eq_false_iff, ne_eq, startsWith_slash_iff named, cut]
    simpa using step

theorem length_opening_le (segments : List String) : (opening segments).length ≤ 1 := by
  simp only [opening]
  split
  · simp
  · split <;> simp

/-- What is written of a path below a directory leads from the directory to the path. -/
theorem exists_tailBelow? {directory path : String} (outside : directory ≠ "")
    (named : path ≠ "") (inside : components directory <+: components path) :
    ∃ tail, tailBelow? directory path = some tail ∧ startsWith tail "/" = false ∧
      components (join directory tail) = components path := by
  refine ⟨_, tailBelow?_eq outside named inside, ?_⟩
  have free : ∀ segment ∈ dropSteps (stepsAbove directory (split '/' path))
      (uptoLastStep (split '/' path)), '/' ∉ segment.toList := fun segment member =>
    notMem_of_mem_split
      ((List.rdropWhile_prefix _ _).subset ((dropSteps_suffix _ _).subset member))
  obtain ⟨relative, steps⟩ := intercalate_of_opens free fun _ => isStep_of_head?_dropSteps
  refine ⟨relative, ?_⟩
  rw [components_join outside relative, steps, filterMap_dropSteps, filterMap_uptoLastStep]
  obtain ⟨rest, whole⟩ := inside
  have short : (opening (split '/' path)).length ≤ (components directory).length :=
    (length_opening_le _).trans (List.length_pos_iff.2 (components_ne_nil outside))
  have steps : rest = ((split '/' path).filterMap ofSegment?).drop
      (stepsAbove directory (split '/' path)) := by
    have cut := congrArg (List.drop (components directory).length) whole
    rw [components_eq named, List.drop_left, List.drop_append,
      List.drop_eq_nil_of_le short, List.nil_append] at cut
    exact cut
  rw [← steps, whole]

theorem startsWith_of_tailBelow? {directory path tail : String} (outside : directory ≠ "")
    (below : tailBelow? directory path = some tail) : startsWith tail "/" = false := by
  have inside : components directory <+: components path := by
    obtain ⟨steps, found, -⟩ := Option.map_eq_some_iff.1 below
    simp only [below?] at found
    split at found
    next outer => exact List.isPrefixOf_iff_prefix.1 outer
    next => cases found
  have named : path ≠ "" := by
    rintro rfl
    exact components_ne_nil outside (List.prefix_nil.1 inside)
  obtain ⟨other, found, relative, -⟩ := exists_tailBelow? outside named inside
  obtain rfl : tail = other := Option.some.inj (below.symm.trans found)
  exact relative

end Path

end LoadBearing
