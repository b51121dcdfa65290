import LoadBearing.Files.Discover
import LoadBearing.Repository.Sources
import LoadBearing.Proofs.Globs

/-! # Patterns on a walk and on a path

A walk asks the patterns of the settings about every directory on the way to a file; a file of a
revision is asked about by its path alone.  A pattern that ends in a slash gives both the same
answer, since what its rules match they match with all that is below.  Any other pattern may match a
directory and not the files in it, so a file is dropped by the walk and kept by the other: this is
all that the two can differ in.
-/

namespace LoadBearing

/-! ## Runs that may fail -/

section Runs

variable {α β ε : Type} {f : α → Except ε β} {items : List α} {results : List β}

theorem mapM_cons_eq_ok_iff {item : α} :
    (item :: items).mapM f = .ok results ↔
      ∃ first rest, f item = .ok first ∧ items.mapM f = .ok rest ∧ results = first :: rest := by
  rw [List.mapM_cons]
  cases f item with
  | error e => simp [bind, Except.bind]
  | ok first =>
    cases items.mapM f with
    | error e => simp [bind, Except.bind]
    | ok rest => simp [bind, Except.bind, pure, Except.pure, eq_comm]

theorem mem_of_mapM_eq_ok (all : items.mapM f = .ok results) {result : β} :
    result ∈ results ↔ ∃ item ∈ items, f item = .ok result := by
  induction items generalizing results with
  | nil =>
    cases all
    simp
  | cons item items ih =>
    obtain ⟨first, rest, here, later, rfl⟩ := mapM_cons_eq_ok_iff.1 all
    simp [ih later, here, eq_comm]

theorem exists_mapM_eq_ok_iff :
    (∃ results, items.mapM f = .ok results) ↔ ∀ item ∈ items, ∃ result, f item = .ok result := by
  induction items with
  | nil => simp [pure, Except.pure]
  | cons item items ih =>
    rw [List.forall_mem_cons, ← ih]
    constructor
    · rintro ⟨results, all⟩
      obtain ⟨first, rest, here, later, -⟩ := mapM_cons_eq_ok_iff.1 all
      exact ⟨⟨first, here⟩, ⟨rest, later⟩⟩
    · rintro ⟨⟨first, here⟩, ⟨rest, later⟩⟩
      exact ⟨first :: rest, mapM_cons_eq_ok_iff.2 ⟨first, rest, here, later, rfl⟩⟩

end Runs

/-! ## Marked lines -/

theorem Text.trimEnd_cons {c : Char} (visible : isBlank c = false) (text : List Char) :
    trimEnd (c :: text) = c :: trimEnd text := by
  rw [trimEnd, trimEnd, List.reverse_cons, List.dropWhile_append]
  split
  next empty => simp [List.isEmpty_iff.1 empty, visible]
  next => simp

theorem Text.trimEnd_concat {c : Char} (visible : isBlank c = false) (text : List Char) :
    trimEnd (text ++ [c]) = text ++ [c] := by
  simp [trimEnd, visible]

namespace IgnoreRule

theorem withoutTail_marked (text : String) : withoutTail ("!" ++ text) = "!" ++ withoutTail text := by
  have listed : ("!" ++ text).toList = '!' :: text.toList := String.toList_append
  have escape : Text.endsWith ("!" ++ text) "\\ " = Text.endsWith text "\\ " := by
    rw [Bool.eq_iff_iff]
    simp [Text.endsWith, listed, List.suffix_cons_iff]
  rw [withoutTail, withoutTail, escape, listed, Text.trimEnd_cons (by decide)]
  split
  · rfl
  · exact String.ext (by simp)

theorem withoutTail_concat {text : String} {front : List Char} {c : Char}
    (visible : Text.isBlank c = false) (ends : text.toList = front ++ [c]) :
    withoutTail text = text := by
  rw [withoutTail]
  split
  · rfl
  · rw [ends, Text.trimEnd_concat visible, ← ends, String.ofList_toList]

/-- A marked line is a rule that keeps, unless its pattern cannot be read. -/
theorem ofLine_marked (lenient : Bool) (text : String) :
    ofLine lenient ("!" ++ text) =
      some <$> ofBody lenient true (Text.startsWith (withoutTail text) "/")
        ((Text.dropStart? (withoutTail text) "/").getD (withoutTail text)) := by
  have listed : ∀ body : String, ("!" ++ body).toList = '!' :: body.toList :=
    fun body => String.toList_append
  have dropped : Text.dropStart? ("!" ++ withoutTail text) "!" = some (withoutTail text) := by
    simp [Text.dropStart?, Text.startsWith, listed]
  have named : "!" ++ withoutTail text ≠ "" := by
    intro same
    simpa [listed] using congrArg String.toList same
  rw [ofLine]
  simp [withoutTail_marked, named, dropped, Text.startsWith, listed]

theorem ofBody_eq_ok_iff {lenient keeps anchored : Bool} {body : String} {rule : IgnoreRule} :
    ofBody lenient keeps anchored body = .ok rule ↔
      ∃ glob, Glob.parse lenient (patternOf anchored
          (if Text.endsWith body "/" then withoutSlash body else body)) = .ok glob ∧
        rule = ⟨keeps, Text.endsWith body "/", glob⟩ := by
  rw [ofBody]
  cases Glob.parse lenient (patternOf anchored
      (if Text.endsWith body "/" then withoutSlash body else body)) with
  | error e => simp [bind, Except.bind]
  | ok glob => simp [bind, Except.bind, eq_comm]

theorem ofLine_marked_eq_ok_iff {lenient : Bool} {text : String} {rule : IgnoreRule} :
    ofLine lenient ("!" ++ text) = .ok (some rule) ↔
      ofBody lenient true (Text.startsWith (withoutTail text) "/")
        ((Text.dropStart? (withoutTail text) "/").getD (withoutTail text)) = .ok rule := by
  rw [ofLine_marked]
  cases ofBody lenient true (Text.startsWith (withoutTail text) "/")
      ((Text.dropStart? (withoutTail text) "/").getD (withoutTail text)) with
  | error e => simp [Functor.map, Except.map]
  | ok read => simp [Functor.map, Except.map]

theorem keeps_of_ofLine {lenient : Bool} {text : String} {rule : IgnoreRule}
    (read : ofLine lenient ("!" ++ text) = .ok (some rule)) : rule.keeps = true := by
  obtain ⟨glob, -, rfl⟩ := ofBody_eq_ok_iff.1 (ofLine_marked_eq_ok_iff.1 read)
  rfl

/-- A rule that matches directories as it matches files, and with a directory all below it. -/
structure Deep (rule : IgnoreRule) : Prop where
  anyKind : rule.onlyDirectories = false
  deep : rule.glob.Deep

theorem deep_of_ofLine {lenient : Bool} {text : String} {front : List Char} {rule : IgnoreRule}
    (relative : Text.startsWith text "/" = false) (inside : text.toList = front ++ ['/', '*', '*'])
    (read : ofLine lenient ("!" ++ text) = .ok (some rule)) : Deep rule := by
  have whole : withoutTail text = text :=
    withoutTail_concat (by decide)
      (show text.toList = (front ++ ['/', '*']) ++ ['*'] by simp [inside])
  have plain : Text.endsWith text "/" = false := by
    rw [Bool.eq_false_iff]
    intro ends
    obtain ⟨start, same⟩ := List.isSuffixOf_iff_suffix.1 ends
    simpa [inside] using congrArg List.getLast? same
  have stars : Text.endsWith text "/**" = true :=
    List.isSuffixOf_iff_suffix.2 ⟨front, inside.symm⟩
  -- The slash makes it a path and not a bare name, so only the end of the pattern is new.
  have pattern : (patternOf false text).toList = front ++ Glob.insideEnd := by
    simp [patternOf, stars, inside, Glob.insideEnd]
  have kept : (Text.dropStart? text "/").getD text = text := by
    simp [Text.dropStart?, relative]
  rw [ofLine_marked_eq_ok_iff, whole, relative, kept] at read
  obtain ⟨glob, parsed, rfl⟩ := ofBody_eq_ok_iff.1 read
  rw [if_neg (by simp [plain])] at parsed
  exact ⟨plain, Glob.deep_of_parse pattern parsed⟩

end IgnoreRule

/-! ## The rules of patterns -/

namespace PathFilter

variable {patterns : List String} {filter : PathFilter}

/-- Whether a pattern ends in a slash, and so means what is inside a directory. -/
def endsInSlash (pattern : String) : Bool := Text.endsWith (Text.trimStartOf '/' pattern) "/"

theorem startsWith_trimStartOf (pattern : String) :
    Text.startsWith (Text.trimStartOf '/' pattern) "/" = false := by
  rw [Bool.eq_false_iff]
  intro starts
  obtain ⟨rest, same⟩ : ['/'] <+: pattern.toList.dropWhile (· = '/') := by
    simpa [Text.startsWith, Text.trimStartOf] using starts
  have other := List.head?_dropWhile_not (fun c => decide (c = '/')) pattern.toList
  rw [← same] at other
  simp at other

theorem exists_of_mem_linesOf {pattern line : String} (member : line ∈ linesOf pattern) :
    ∃ text, line = "!" ++ text ∧ (endsInSlash pattern = true →
      Text.startsWith text "/" = false ∧ ∃ front, text.toList = front ++ ['/', '*', '*']) := by
  rw [linesOf] at member
  have relative := startsWith_trimStartOf pattern
  rw [endsInSlash]
  generalize Text.trimStartOf '/' pattern = body at member relative ⊢
  cases slash : Text.endsWith body "/" with
  | false =>
    simp only [slash] at member
    exact ⟨body, by simpa using member, by simp⟩
  | true =>
    obtain ⟨front, whole⟩ := List.isSuffixOf_iff_suffix.1 slash
    have listed : body.toList = front ++ ['/'] := whole.symm
    simp only [slash, if_true, List.mem_cons, List.not_mem_nil, or_false] at member
    rcases member with rfl | rfl
    · refine ⟨body ++ "**", String.append_assoc, fun _ => ⟨?_, front, by simp [listed]⟩⟩
      cases front <;> simp_all [Text.startsWith, List.isPrefixOf]
    · refine ⟨"**/" ++ body ++ "**", ?_, fun _ => ⟨?_, '*' :: '*' :: '/' :: front, ?_⟩⟩
      · simp [String.ext_iff]
      · simp [Text.startsWith, List.isPrefixOf]
      · simp [listed]

theorem ofPatterns_eq_ok_iff :
    ofPatterns patterns = .ok filter ↔
      ∃ rules, (patterns.flatMap linesOf).mapM (IgnoreRule.ofLine false) = .ok rules ∧
        filter = ⟨rules.filterMap id⟩ := by
  rw [ofPatterns]
  cases (patterns.flatMap linesOf).mapM (IgnoreRule.ofLine false) with
  | error e => simp [bind, Except.bind]
  | ok rules => simp [bind, Except.bind, eq_comm]

theorem mem_rules (compiled : ofPatterns patterns = .ok filter) {rule : IgnoreRule} :
    rule ∈ filter.rules ↔ ∃ pattern ∈ patterns, ∃ line ∈ linesOf pattern,
      IgnoreRule.ofLine false line = .ok (some rule) := by
  obtain ⟨rules, all, rfl⟩ := ofPatterns_eq_ok_iff.1 compiled
  simp only [List.mem_filterMap, id, exists_eq_right, mem_of_mapM_eq_ok all, List.mem_flatMap]
  constructor
  · rintro ⟨line, ⟨pattern, given, listed⟩, read⟩
    exact ⟨pattern, given, line, listed, read⟩
  · rintro ⟨pattern, given, line, listed, read⟩
    exact ⟨line, ⟨pattern, given, listed⟩, read⟩

theorem keeps_of_mem_rules (compiled : ofPatterns patterns = .ok filter) {rule : IgnoreRule}
    (member : rule ∈ filter.rules) : rule.keeps = true := by
  obtain ⟨pattern, -, line, listed, read⟩ := (mem_rules compiled).1 member
  obtain ⟨text, rfl, -⟩ := exists_of_mem_linesOf listed
  exact IgnoreRule.keeps_of_ofLine read

/-- No rule of a pattern takes back what another excludes, so any match decides. -/
theorem excludes_iff (compiled : ofPatterns patterns = .ok filter) {path : String}
    {isDirectory : Bool} :
    filter.excludes path isDirectory = true ↔
      ∃ rule ∈ filter.rules, rule.isMatch path isDirectory = true := by
  rw [excludes, decide_eq_true_iff, IgnoreRule.verdict?, Option.map_eq_some_iff]
  constructor
  · rintro ⟨rule, found, -⟩
    have matched := List.find?_some found
    exact ⟨rule, List.mem_reverse.1 (List.mem_of_find?_eq_some found), matched⟩
  · rintro ⟨rule, member, matched⟩
    have decided : (filter.rules.reverse.find? (·.isMatch path isDirectory)).isSome := by
      rw [List.find?_isSome]
      exact ⟨rule, List.mem_reverse.2 member, matched⟩
    obtain ⟨last, found⟩ := Option.isSome_iff_exists.1 decided
    -- Whichever rule comes last, it is one that excludes.
    have keeps := keeps_of_mem_rules compiled (List.mem_reverse.1 (List.mem_of_find?_eq_some found))
    exact ⟨last, found, by rw [keeps]; rfl⟩

/-- Without the patterns that end in a slash, only rules for what is inside directories go. -/
theorem exists_bare (compiled : ofPatterns patterns = .ok filter) :
    ∃ bare, ofPatterns (patterns.filter fun pattern => !endsInSlash pattern) = .ok bare ∧
      bare.rules ⊆ filter.rules ∧ ∀ rule ∈ filter.rules, rule ∈ bare.rules ∨ rule.Deep := by
  obtain ⟨rules, all, -⟩ := ofPatterns_eq_ok_iff.1 compiled
  have each := exists_mapM_eq_ok_iff.1 ⟨rules, all⟩
  obtain ⟨fewer, some⟩ : ∃ fewer, ((patterns.filter fun pattern => !endsInSlash pattern).flatMap
      linesOf).mapM (IgnoreRule.ofLine false) = .ok fewer := by
    rw [exists_mapM_eq_ok_iff]
    intro line member
    obtain ⟨pattern, kept, listed⟩ := List.mem_flatMap.1 member
    exact each line (List.mem_flatMap.2 ⟨pattern, List.mem_of_mem_filter kept, listed⟩)
  have compiled' := ofPatterns_eq_ok_iff.2 ⟨fewer, some, rfl⟩
  refine ⟨_, compiled', ?_, ?_⟩
  · intro rule member
    obtain ⟨pattern, kept, made⟩ := (mem_rules compiled').1 member
    exact (mem_rules compiled).2 ⟨pattern, List.mem_of_mem_filter kept, made⟩
  · intro rule member
    obtain ⟨pattern, given, line, listed, read⟩ := (mem_rules compiled).1 member
    cases slash : endsInSlash pattern with
    | false =>
      refine .inl ((mem_rules compiled').2 ⟨pattern, ?_, line, listed, read⟩)
      exact List.mem_filter.2 ⟨given, by rw [slash]; rfl⟩
    | true =>
      obtain ⟨text, rfl, inside⟩ := exists_of_mem_linesOf listed
      obtain ⟨relative, front, ends⟩ := inside slash
      exact .inr (IgnoreRule.deep_of_ofLine relative ends read)

end PathFilter

/-! ## Directories on the way -/

namespace Place

theorem onTheWay_concat (directory : Place) (name : String) :
    onTheWay (directory ++ [name]) 0 = onTheWay directory 0 ++ [directory ++ [name]] := by
  rw [onTheWay, onTheWay]
  simp only [List.length_append, List.length_singleton, Nat.sub_zero, Nat.zero_add,
    List.range_succ, List.map_append, List.map_singleton]
  congr 1
  · apply List.map_congr_left
    intro count within
    exact List.take_append_of_le_length (List.mem_range.1 within)
  · rw [List.take_of_length_le (by simp)]

theorem mem_onTheWay {place entry : Place} :
    entry ∈ onTheWay place 0 ↔ entry ≠ [] ∧ entry <+: place := by
  simp only [onTheWay, List.mem_map, List.mem_range, Nat.sub_zero, Nat.zero_add]
  constructor
  · rintro ⟨count, within, rfl⟩
    refine ⟨?_, List.take_prefix _ _⟩
    rw [ne_eq, List.take_eq_nil_iff]
    rintro (none | rfl)
    · omega
    · simp at within
  · rintro ⟨named, below, rfl⟩
    have longer := List.length_pos_iff.2 named
    refine ⟨entry.length - 1, by rw [List.length_append]; omega, ?_⟩
    exact List.take_left' (by omega)

theorem bytes_text_append {directory below : Place} (named : directory ≠ []) (more : below ≠ []) :
    (SourceText.ofString (text (directory ++ below))).bytes =
      (SourceText.ofString (text directory)).bytes ++
        Token.slash :: (SourceText.ofString (text below)).bytes := by
  rw [text, String.intercalate_append_of_ne_nil named more]
  simp [SourceText.ofString, text]
  rfl

end Place

/-! ## What the walk drops and what is dropped of a revision -/

theorem IgnoreRule.Deep.isMatch_below {rule : IgnoreRule} (deep : rule.Deep) {directory below : Place}
    (named : directory ≠ []) (more : below ≠ [])
    (matched : rule.isMatch directory.text true = true) :
    rule.isMatch (Place.text (directory ++ below)) false = true := by
  rw [isMatch, deep.anyKind, Place.bytes_text_append named more]
  rw [isMatch, deep.anyKind] at matched
  exact deep.deep.isMatch_below matched _

namespace PathFilter

theorem prunes_concat (filter : PathFilter) (directory : Place) (name : String) :
    filter.prunes (directory ++ [name]) = true ↔
      filter.ignores (Place.text (directory ++ [name])) = true ∨
        ∃ entry ∈ directory.onTheWay 0, filter.excludes entry.text true = true := by
  have shorter : ∀ entry ∈ directory.onTheWay 0, entry ≠ directory ++ [name] := by
    rintro entry member rfl
    have within := (Place.mem_onTheWay.1 member).2.length_le
    rw [List.length_append, List.length_singleton] at within
    omega
  rw [prunes, Place.onTheWay_concat, List.any_append, Bool.or_eq_true, or_comm]
  refine or_congr (by simp [ignores]) ?_
  rw [List.any_eq_true]
  refine exists_congr fun entry => and_congr_right fun member => ?_
  rw [decide_eq_true (shorter entry member)]

theorem excludes_nil (path : String) (isDirectory : Bool) :
    excludes ⟨[]⟩ path isDirectory = false := rfl

/-- The walk lists what it lists without patterns, less what they prune. -/
theorem discover_perm (filter : PathFilter) (tree : FileTree) (directory : Place)
    (extensions : List String) :
    (tree.discover directory extensions filter).Perm
      ((tree.discover directory extensions ⟨[]⟩).filter fun place =>
        !filter.prunes (place.drop directory.length)) := by
  simp only [FileTree.discover]
  refine (List.mergeSort_perm _ _).trans ?_
  refine List.Perm.trans ?_ ((List.mergeSort_perm _ _).filter _).symm
  rw [List.filter_filterMap]
  refine .of_eq (List.filterMap_congr fun ⟨place, file⟩ _ => ?_)
  have free : prunes ⟨[]⟩ (place.drop directory.length) = false := by
    simp [prunes, excludes_nil]
  ext found
  simp only [FileTree.finds, free, Option.filter_eq_some_iff, Option.ite_none_right_eq_some,
    Option.some.injEq, Bool.and_eq_true, Bool.not_false, and_true]
  constructor
  · rintro ⟨⟨source, ⟨inside, kept⟩, shown⟩, rfl⟩
    exact ⟨⟨⟨source, inside, shown⟩, rfl⟩, kept⟩
  · rintro ⟨⟨⟨source, inside, shown⟩, rfl⟩, kept⟩
    exact ⟨⟨source, ⟨inside, kept⟩, shown⟩, rfl⟩

theorem sourcesIn_eq (filter : PathFilter) (directory : String) (extensions : List String)
    (files : Table File) :
    sourcesIn directory extensions filter files =
      (sourcesIn directory extensions ⟨[]⟩ files).filter fun source =>
        !filter.ignores source.path := by
  simp only [sourcesIn, List.filter_filterMap]
  refine List.filterMap_congr fun ⟨path, file⟩ _ => ?_
  cases pathBelow? (Text.trimEndsOf (· = '/') directory) path with
  | none => rfl
  | some below =>
    have free : ignores ⟨[]⟩ below = false := excludes_nil below false
    ext found
    simp only [free, Option.bind_eq_bind, Option.bind_some, Option.filter_eq_some_iff,
      Option.ite_none_right_eq_some, Option.bind_eq_some_iff, Option.some.injEq, Bool.and_eq_true,
      Bool.not_false, and_true]
    constructor
    · rintro ⟨⟨⟨source, kept⟩, plain⟩, text, read, rfl⟩
      exact ⟨⟨⟨source, plain⟩, text, read, rfl⟩, kept⟩
    · rintro ⟨⟨⟨source, plain⟩, text, read, rfl⟩, kept⟩
      exact ⟨⟨⟨source, kept⟩, plain⟩, text, read, rfl⟩

/-- Both take away from what they would list without patterns: the walk what is pruned, a revision
    what is ignored.  What is ignored is pruned, and the rest of what is pruned is below a directory
    that a pattern without a slash at its end excludes. -/
theorem drops_of_walk_and_revision {patterns : List String} {filter : PathFilter}
    (compiled : ofPatterns patterns = .ok filter) :
    (∀ (tree : FileTree) directory extensions, (tree.discover directory extensions filter).Perm
      ((tree.discover directory extensions ⟨[]⟩).filter fun place =>
        !filter.prunes (place.drop directory.length))) ∧
    (∀ directory extensions files, sourcesIn directory extensions filter files =
      (sourcesIn directory extensions ⟨[]⟩ files).filter fun source =>
        !filter.ignores source.path) ∧
    ∃ bare, ofPatterns (patterns.filter fun pattern => !endsInSlash pattern) = .ok bare ∧
      ∀ (directory : Place) (name : String), filter.prunes (directory ++ [name]) = true ↔
        filter.ignores (Place.text (directory ++ [name])) = true ∨
          ∃ entry ∈ directory.onTheWay 0, bare.excludes entry.text true = true := by
  refine ⟨filter.discover_perm, filter.sourcesIn_eq, ?_⟩
  obtain ⟨bare, compiled', fewer, others⟩ := exists_bare compiled
  refine ⟨bare, compiled', fun directory name => ?_⟩
  rw [prunes_concat]
  constructor
  · rintro (ignored | ⟨entry, member, excluded⟩)
    · exact .inl ignored
    · obtain ⟨rule, given, matched⟩ := (excludes_iff compiled).1 excluded
      rcases others rule given with kept | deep
      · exact .inr ⟨entry, member, (excludes_iff compiled').2 ⟨rule, kept, matched⟩⟩
      · -- The rule of a pattern with the slash goes on to match down to the file.
        obtain ⟨named, below, rfl⟩ := Place.mem_onTheWay.1 member
        rw [List.append_assoc]
        exact .inl ((excludes_iff compiled).2
          ⟨rule, given, deep.isMatch_below named (by simp) matched⟩)
  · rintro (ignored | ⟨entry, member, excluded⟩)
    · exact .inl ignored
    · obtain ⟨rule, kept, matched⟩ := (excludes_iff compiled').1 excluded
      exact .inr ⟨entry, member, (excludes_iff compiled).2 ⟨rule, fewer kept, matched⟩⟩

theorem drops_of_walk_and_revision_vendor :
    ∃ filter, ofPatterns ["vendor/", "*.min.js"] = .ok filter ∧
      filter.prunes (["packages", "vendor"] ++ ["lib.js"]) = true := by
  obtain ⟨filter, compiled, ignored⟩ : ∃ filter, ofPatterns ["vendor/", "*.min.js"] = .ok filter ∧
      filter.ignores (Place.text (["packages", "vendor"] ++ ["lib.js"])) = true :=
    ⟨_, rfl, by decide +kernel⟩
  obtain ⟨-, -, bare, -, pruned⟩ := drops_of_walk_and_revision compiled
  exact ⟨filter, compiled, (pruned _ _).2 (.inl ignored)⟩

/-- The pattern `build` drops a directory of that name from the walk, but no file in it from a
    revision. -/
theorem build_prunes_what_it_does_not_ignore :
    ∃ filter, ofPatterns ["build"] = .ok filter ∧ filter.prunes ["build", "x.js"] = true ∧
      filter.ignores "build/x.js" = false :=
  ⟨_, rfl, by decide +kernel, by decide +kernel⟩

end PathFilter

end LoadBearing
