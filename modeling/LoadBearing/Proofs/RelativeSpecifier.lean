import LoadBearing.Proofs.ModuleProbing

/-! # Specifiers that start from the importing file

A specifier whose first segment is `.` or `..` means a path from the directory of the importing file.
Whether it is followed from there is decided by the slash after that segment.  A bare `.` or `..` has
no such slash and is followed from the root, and the two ways are told apart by some project unless
they have one normal form (`probe_eq_iff`).
-/

namespace LoadBearing

namespace Text

theorem split_of_notMem {text : String} (free : '/' ∉ text.toList) : split '/' text = [text] := by
  simp [split, splitChars_of_notMem free]

theorem split_slash_end (text : String) : split '/' (text ++ "/") = split '/' text ++ [""] := by
  have empty : split '/' "" = [""] := rfl
  rw [← empty, ← split_slash_append, String.append_empty]

/-- The first segment is the whole text, or a slash stands after it. -/
theorem head?_split_slash_iff {text first : String} (free : '/' ∉ first.toList) :
    (split '/' text).head? = some first ↔ text = first ∨ startsWith text (first ++ "/") = true := by
  constructor
  · intro leads
    obtain ⟨rest, segments⟩ := List.head?_eq_some_iff.1 leads
    have whole := intercalate_split_slash text
    rw [segments] at whole
    cases rest with
    | nil => exact .inl (by simpa using whole.symm)
    | cons next others =>
      refine .inr ?_
      rw [← whole, startsWith, List.isPrefixOf_iff_prefix]
      exact ⟨("/".intercalate (next :: others)).toList, by simp [String.toList_intercalate]⟩
  · rintro (rfl | starts)
    · rw [split_of_notMem free]
      rfl
    · obtain ⟨rest, whole⟩ := List.isPrefixOf_iff_prefix.1 starts
      have text_eq : text = first ++ "/" ++ String.ofList rest :=
        String.toList_injective (by simp [← whole])
      rw [text_eq, split_slash_append, split_of_notMem free]
      rfl

end Text

namespace Scope

open Text

/-! ## Ways from a directory -/

/-- The first segment of a specifier is `.` or `..`. -/
def Dotted (specifier : String) : Prop :=
  (split '/' specifier).head? = some "." ∨ (split '/' specifier).head? = some ".."

instance (specifier : String) : Decidable (Dotted specifier) :=
  inferInstanceAs (Decidable (_ ∨ _))

/-- The directory of a file; the one of a file in the root is empty. -/
def directory (file : String) : String :=
  "/".intercalate (split '/' file).dropLast

def beside (importer specifier : String) : String :=
  "/".intercalate ((split '/' importer).dropLast ++ split '/' specifier)

def probe (files : List String) (path : String) : Option String :=
  (normalize? path).bind fun base => (candidates base).find? files.contains

theorem resolve?_eq_probe (files : List String) (specifier importer : String) :
    resolve? files specifier importer = probe files (spelled specifier importer) := rfl

theorem probe_of_normalize?_eq {path other : String} (same : normalize? path = normalize? other)
    (files : List String) : probe files path = probe files other := by
  rw [probe, probe, same]

theorem probe_of_mem {files : List String} {path base : String} (read : normalize? path = some base)
    (member : base ∈ files) : probe files path = some base := by
  simp [probe, read, candidates, member]

/-- Some project tells two paths apart unless they have one normal form. -/
theorem probe_eq_iff {path other : String} :
    (∀ files, probe files path = probe files other) ↔ normalize? path = normalize? other := by
  refine ⟨fun alike => ?_, probe_of_normalize?_eq⟩
  -- The project that tells the paths apart has their normal forms as its files.
  cases read : normalize? path with
  | none =>
    cases readOther : normalize? other with
    | none => rfl
    | some base =>
      have found := alike [base]
      rw [probe_of_mem readOther (by simp)] at found
      simp [probe, read] at found
  | some base =>
    cases readOther : normalize? other with
    | none =>
      have found := alike [base]
      rw [probe_of_mem read (by simp)] at found
      simp [probe, readOther] at found
    | some otherBase =>
      have found := alike [base, otherBase]
      rwa [probe_of_mem read (by simp), probe_of_mem readOther (by simp)] at found

theorem follow?_append (trail front back : List String) :
    follow? trail (front ++ back) = (follow? trail front).bind fun here => follow? here back := by
  fun_induction follow? trail front with
  | case1 trail => rfl
  | case2 trail segment rest idle ih => simp [follow?, idle, ih]
  | case3 rest _ => simp [follow?]
  | case4 rest name above _ ih => simp [follow?, ih]
  | case5 trail segment rest idle up ih => simp [follow?, idle, up, ih]

theorem split_directory (file : String) :
    (split '/' file).dropLast = [] ∧ directory file = "" ∨
      split '/' (directory file) = (split '/' file).dropLast := by
  by_cases none : (split '/' file).dropLast = []
  · exact .inl ⟨none, by rw [directory, none]; rfl⟩
  · refine .inr (split_intercalate_slash none fun segment member => ?_)
    exact notMem_of_mem_split (List.dropLast_subset _ member)

theorem normalize?_directory (file : String) :
    normalize? (directory file)
      = (follow? [] (split '/' file).dropLast).map fun trail => "/".intercalate trail.reverse := by
  rcases split_directory file with ⟨none, empty⟩ | segments
  · rw [empty, none]
    rfl
  · rw [normalize?, segments]

theorem normalize?_beside (importer specifier : String) :
    normalize? (beside importer specifier)
      = ((follow? [] (split '/' importer).dropLast).bind fun here =>
          follow? here (split '/' specifier)).map fun trail => "/".intercalate trail.reverse := by
  have segments : split '/' (beside importer specifier)
      = (split '/' importer).dropLast ++ split '/' specifier := by
    refine split_intercalate_slash (by simp [split_ne_nil]) fun segment member => ?_
    rcases List.mem_append.1 member with above | own
    · exact notMem_of_mem_split (List.dropLast_subset _ above)
    · exact notMem_of_mem_split own
  rw [normalize?, segments, follow?_append]

theorem normalize?_beside_slash (importer specifier : String) :
    normalize? (beside importer (specifier ++ "/")) = normalize? (beside importer specifier) := by
  -- The slash adds one empty segment, which is skipped.
  have idle (here : List String) : follow? here (split '/' specifier ++ [""])
      = follow? here (split '/' specifier) := by
    rw [follow?_append]
    cases follow? here (split '/' specifier) <;> rfl
  simp only [normalize?_beside, split_slash_end, idle]

/-! ## Bare dots -/

/-- Among these specifiers a slash tells the relative ones. -/
theorem isRelative_iff {specifier : String} (dotted : Dotted specifier) :
    isRelative specifier = true ↔ '/' ∈ specifier.toList := by
  rw [Dotted, head?_split_slash_iff (by decide), head?_split_slash_iff (by decide)] at dotted
  constructor
  · intro relative
    rcases Bool.or_eq_true_iff.1 relative with starts | starts <;>
      exact (List.isPrefixOf_iff_prefix.1 starts).subset (by decide)
  · intro slash
    rcases dotted with (rfl | starts) | (rfl | starts)
    · exact absurd slash (by decide)
    · exact Bool.or_eq_true_iff.2 (.inl starts)
    · exact absurd slash (by decide)
    · exact Bool.or_eq_true_iff.2 (.inr starts)

theorem eq_dots_of_notMem {specifier : String} (dotted : Dotted specifier)
    (bare : '/' ∉ specifier.toList) : specifier = "." ∨ specifier = ".." := by
  simpa [Dotted, split_of_notMem bare] using dotted

theorem spelled_of_mem {specifier : String} (dotted : Dotted specifier)
    (slash : '/' ∈ specifier.toList) (importer : String) :
    spelled specifier importer = beside importer specifier := by
  rw [spelled_eq, if_pos ((isRelative_iff dotted).2 slash), beside]

theorem spelled_of_notMem {specifier : String} (dotted : Dotted specifier)
    (bare : '/' ∉ specifier.toList) (importer : String) :
    spelled specifier importer = specifier := by
  rw [spelled, if_neg (mt (isRelative_iff dotted).1 bare)]
  rcases eq_dots_of_notMem dotted bare with rfl | rfl <;> rfl

theorem Dotted.slash {specifier : String} (dotted : Dotted specifier) : Dotted (specifier ++ "/") := by
  rw [Dotted, split_slash_end, List.head?_append_of_ne_nil _ (split_ne_nil specifier)]
  exact dotted

/-- The segments of a directory lead back to the root just if its normal form is empty. -/
theorem normalize?_directory_eq_empty_iff (file : String) :
    normalize? (directory file) = some "" ↔ follow? [] (split '/' file).dropLast = some [] := by
  rw [normalize?_directory, Option.map_eq_some_iff]
  constructor
  · rintro ⟨trail, followed, empty⟩
    have names : Names trail.reverse := fun segment member =>
      names_of_follow? (by simp [Names])
        (fun _ inside => notMem_of_mem_split (List.dropLast_subset _ inside)) followed segment
        (List.mem_reverse.1 member)
    rcases names.split_intercalate with ⟨none, -⟩ | cut
    · rw [followed, List.reverse_eq_nil_iff.1 none]
    · -- The empty text has one empty segment, which is no name.
      rw [empty] at cut
      have unnamed : isName "" = true := (names "" (cut ▸ by decide)).1
      cases unnamed
  · intro followed
    exact ⟨[], followed, rfl⟩

theorem normalize?_beside_dot (importer : String) :
    normalize? (beside importer ".") = normalize? (directory importer) := by
  have stays (here : List String) : follow? here (split '/' ".") = some here := rfl
  simp [normalize?_beside, normalize?_directory, stays]

/-- `..` leads nowhere from the root and from above it, and somewhere from all other directories. -/
theorem normalize?_beside_dots_eq_none_iff (importer : String) :
    normalize? (beside importer "..") = none ↔
      normalize? (directory importer) = some "" ∨ normalize? (directory importer) = none := by
  rw [normalize?_directory_eq_empty_iff, normalize?_directory, normalize?_beside]
  cases follow? [] (split '/' importer).dropLast with
  | none => simp
  | some trail =>
    cases trail with
    | nil => simp [split, splitChars, follow?]
    | cons name above => simp [split, splitChars, follow?]

/-- A specifier that starts with `.` or `..` as its first segment is resolved from the directory of
    the importing file as soon as it has a slash, and a slash can always be added.  A bare one is
    probed from the root, which is right for every project only in an importing file that stands in
    the root, and for `..` also where the directory itself leads above the root. -/
theorem dotted_specifier_resolved_beside_importer (specifier importer : String)
    (dotted : Dotted specifier) :
    (∀ files, resolve? files (specifier ++ "/") importer
      = probe files (beside importer specifier)) ∧
    ('/' ∈ specifier.toList → ∀ files, resolve? files specifier importer
      = probe files (beside importer specifier)) ∧
    ('/' ∉ specifier.toList →
      (∀ files, resolve? files specifier importer = probe files specifier) ∧
      ((∀ files, resolve? files specifier importer = probe files (beside importer specifier)) ↔
        normalize? (directory importer) = some "" ∨
          specifier = ".." ∧ normalize? (directory importer) = none)) := by
  refine ⟨fun files => ?_, fun slash files => ?_, fun bare => ?_⟩
  · have slash : '/' ∈ (specifier ++ "/").toList := by simp
    rw [resolve?_eq_probe, spelled_of_mem dotted.slash slash]
    exact probe_of_normalize?_eq (normalize?_beside_slash importer specifier) files
  · rw [resolve?_eq_probe, spelled_of_mem dotted slash]
  · have spelling := spelled_of_notMem dotted bare importer
    simp only [resolve?_eq_probe, spelling, implies_true, true_and, probe_eq_iff]
    -- From the root `.` is the root and `..` leads nowhere; the question is what they are from the
    -- directory.
    rw [eq_comm]
    rcases eq_dots_of_notMem dotted bare with rfl | rfl
    · have root : normalize? "." = some "" := rfl
      simp [normalize?_beside_dot, root]
    · have nowhere : normalize? ".." = none := rfl
      simp [nowhere, normalize?_beside_dots_eq_none_iff]

def twoIndices : List String := ["index.ts", "src/index.ts"]

/-- With a slash both dots lead beside the importing file; without one, `..` does so from the root
    only. -/
theorem dotted_specifier_resolved_beside_importer_twoIndices :
    (Dotted "." ∧ Dotted "..") ∧
      resolve? twoIndices "./" "src/app.ts" = some "src/index.ts" ∧
      resolve? twoIndices "../" "src/app.ts" = some "index.ts" ∧
      (∀ files, resolve? files ".." "app.ts" = probe files (beside "app.ts" "..")) ∧
      ¬ ∀ files, resolve? files ".." "src/app.ts" = probe files (beside "src/app.ts" "..") := by
  have dot : Dotted "." := by decide
  have up : Dotted ".." := by decide
  have bare : '/' ∉ "..".toList := by decide
  have here := (dotted_specifier_resolved_beside_importer "." "src/app.ts" dot).1 twoIndices
  obtain ⟨above, -, below⟩ := dotted_specifier_resolved_beside_importer ".." "src/app.ts" up
  have root := (dotted_specifier_resolved_beside_importer ".." "app.ts" up).2.2 bare
  exact ⟨⟨dot, up⟩, here.trans (by decide), (above twoIndices).trans (by decide),
    root.2.2 (by decide), mt (below bare).2.1 (by decide)⟩

/-- Bare dots in a directory stand for the index of the root, and for nothing. -/
theorem bare_dots_leave_the_directory :
    (Dotted "." ∧ probe twoIndices (beside "src/app.ts" ".") = some "src/index.ts" ∧
      resolve? twoIndices "." "src/app.ts" = some "index.ts") ∧
    (Dotted ".." ∧ probe twoIndices (beside "src/app.ts" "..") = some "index.ts" ∧
      resolve? twoIndices ".." "src/app.ts" = none) := by
  decide

end Scope

end LoadBearing
