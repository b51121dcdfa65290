import LoadBearing.Proofs.Marks
import LoadBearing.Proofs.Segments
import LoadBearing.Source.Language

/-! # Extensions of files

There are two readings of the extension of a file.  One takes the file's name out of the path and
does not count a dot that starts it; the other cuts the whole path at its last dot.  On a path made
of plain names both come down to the last dot of the name, and they differ only in a name that is an
extension and nothing else.
-/

namespace LoadBearing

open Text

namespace Path

/-- A path has names between its slashes, and nothing else. -/
def Named (path : String) : Prop :=
  ∀ segment ∈ split '/' path, segment ≠ "" ∧ segment ≠ "." ∧ segment ≠ ".."

instance (path : String) : Decidable (Named path) :=
  inferInstanceAs (Decidable (∀ segment ∈ split '/' path, _))

theorem Named.ne_empty {path : String} (named : Named path) : path ≠ "" := by
  rintro rfl
  exact (named "" (by decide)).1 rfl

theorem ofSegment?_of_name {segment : String}
    (name : segment ≠ "" ∧ segment ≠ "." ∧ segment ≠ "..") :
    ofSegment? segment = some (.name segment) := by
  simp [ofSegment?, name]

theorem Named.fileName? {path name : String} (named : Named path)
    (last : (split '/' path).getLast? = some name) : fileName? path = some name := by
  obtain ⟨front, whole⟩ := List.getLast?_eq_some_iff.1 last
  have step := ofSegment?_of_name (named name (List.mem_of_getLast? last))
  rw [Path.fileName?, components_eq named.ne_empty, whole, List.filterMap_append,
    ← List.append_assoc]
  simp [step]

/-- A path is its last segment, behind nothing or behind a slash. -/
theorem exists_getLast?_split (path : String) :
    ∃ name, (split '/' path).getLast? = some name ∧ '/' ∉ name.toList ∧
      (path = name ∨ ∃ directory, path.toList = directory ++ '/' :: name.toList) := by
  by_cases slash : '/' ∈ path.toList
  · obtain ⟨directory, after, whole, free⟩ := exists_last_mark slash
    refine ⟨String.ofList after, ?_, by simpa using free, .inr ⟨directory, by simpa using whole⟩⟩
    simp [split, whole, splitChars_append_cons, splitChars_of_notMem free]
  · exact ⟨path, by simp [split, splitChars_of_notMem slash], slash, .inl rfl⟩

end Path

/-! ## Both readings at the name -/

section Name

variable {extensions : List String} {path name : String}

theorem hasExtension_eq (found : Path.fileName? path = some name) :
    hasExtension extensions path
      = (cutLast? '.' name).any fun sides =>
          sides.1 ≠ "" && extensions.contains ("." ++ sides.2) := by
  cases cut : cutLast? '.' name with
  | none => simp [hasExtension, Path.extension?, found, cut]
  | some sides =>
    by_cases bare : sides.1 = ""
    · simp [hasExtension, Path.extension?, found, cut, bare]
    · simp [hasExtension, Path.extension?, found, cut, bare]

theorem endsInExtension_eq (free : '/' ∉ name.toList)
    (ends : path = name ∨ ∃ directory, path.toList = directory ++ '/' :: name.toList) :
    endsInExtension extensions path
      = (cutLast? '.' name).any fun sides => extensions.contains ("." ++ sides.2) := by
  by_cases dot : '.' ∈ name.toList
  · obtain ⟨stem, extension, whole, last⟩ := exists_last_mark dot
    have noSlash : '/' ∉ extension := by
      rw [whole] at free
      simp_all
    -- The last dot of the name is the last one of the path.
    obtain ⟨front, path⟩ : ∃ front, path.toList = front ++ '.' :: extension := by
      rcases ends with rfl | ⟨directory, ends⟩
      · exact ⟨stem, whole⟩
      · exact ⟨directory ++ '/' :: stem, by simp [ends, whole]⟩
    simp [endsInExtension, cutLast?, path, whole, cutLastChars?_append_cons last, noSlash]
  · have none := cutLastChars?_eq_none_iff.2 dot
    rcases ends with rfl | ⟨directory, ends⟩
    · simp [endsInExtension, cutLast?, none]
    · -- A dot of the directory has the slash after it.
      have tail : '.' ∉ '/' :: name.toList := by simpa using dot
      rw [endsInExtension, cutLast?, ends, cutLastChars?_append tail]
      cases cutLastChars? '.' directory with
      | none => simp [cutLast?, none]
      | some sides => simp [cutLast?, none]

end Name

/-! ## Agreement -/

theorem isSome_ofPath? (path : String) :
    (Language.ofPath? path).isSome = hasExtension Language.allExtensions path := by
  cases found : Path.extension? path with
  | none => simp [Language.ofPath?, hasExtension, found]
  | some extension =>
    rw [Bool.eq_iff_iff]
    simp [Language.ofPath?, hasExtension, found, Language.allExtensions]

/-- Nothing stands before the dot of an extension. -/
theorem cutLast?_of_mem_allExtensions {name : String} (member : name ∈ Language.allExtensions) :
    ∃ extension, cutLast? '.' name = some ("", extension) := by
  have all : ∀ name ∈ Language.allExtensions,
      cutLast? '.' name = some ("", String.ofList name.toList.tail) := by decide
  exact ⟨_, all name member⟩

/-- The checks of a path agree unless the file is named by an extension alone. -/
theorem extension_checks_agree_iff {path : String} (named : Path.Named path) :
    (Language.ofPath? path).isSome = hasExtension Language.allExtensions path ∧
    ∃ name, (split '/' path).getLast? = some name ∧
      (name ∉ Language.allExtensions →
        endsInExtension Language.allExtensions path = hasExtension Language.allExtensions path) ∧
      (name ∈ Language.allExtensions →
        endsInExtension Language.allExtensions path = true ∧
          hasExtension Language.allExtensions path = false) := by
  refine ⟨isSome_ofPath? path, ?_⟩
  obtain ⟨name, last, free, ends⟩ := Path.exists_getLast?_split path
  refine ⟨name, last, ?_⟩
  rw [hasExtension_eq (named.fileName? last), endsInExtension_eq free ends]
  cases cut : cutLast? '.' name with
  | none =>
    refine ⟨fun _ => rfl, fun member => ?_⟩
    obtain ⟨extension, again⟩ := cutLast?_of_mem_allExtensions member
    simp [cut] at again
  | some sides =>
    obtain ⟨stem, extension⟩ := sides
    by_cases bare : stem = ""
    · -- The name is its extension, so looking it up is looking up the name.
      have whole : "." ++ extension = name := by
        obtain ⟨before, front, back⟩ := Option.map_eq_some_iff.1 cut
        have chars := eq_of_cutLastChars? front
        apply String.toList_injective
        rw [chars]
        cases back
        simpa using bare
      simp [bare, whole]
    · refine ⟨fun _ => by simp [bare], fun member => ?_⟩
      obtain ⟨extension, again⟩ := cutLast?_of_mem_allExtensions member
      simp [cut, bare] at again

theorem extension_checks_agree_iff_dots :
    (Language.ofPath? "src/.config/app.test.ts").isSome = true ∧
      endsInExtension Language.allExtensions "src/.config/app.test.ts" = true ∧
      hasExtension Language.allExtensions "src/.config/app.test.ts" = true := by
  obtain ⟨language, name, last, agree, -⟩ :=
    extension_checks_agree_iff (show Path.Named "src/.config/app.test.ts" by decide)
  have isName : name = "app.test.ts" := Option.some.inj (last.symm.trans (by decide))
  have has : hasExtension Language.allExtensions "src/.config/app.test.ts" = true := by decide
  exact ⟨language.trans has, (agree (by rw [isName]; decide)).trans has, has⟩

/-- A file named by an extension alone passes one check and fails the others. -/
theorem extension_checks_disagree :
    Path.Named "src/.js" ∧ endsInExtension Language.allExtensions "src/.js" = true ∧
      hasExtension Language.allExtensions "src/.js" = false ∧ Language.ofPath? "src/.js" = none := by
  decide

end LoadBearing
