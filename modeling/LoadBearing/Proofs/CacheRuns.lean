import Mathlib.Data.List.Induction
import LoadBearing.History.Cache
import LoadBearing.Proofs.Marks
import LoadBearing.Proofs.Table

/-! # What a cache remembers

A cache goes through runs of stores, loads, fetches and clearings, and between them its files may be
overwritten from outside.  The second account of a run is a journal, in which files and bytes do not
occur: it lists what was kept, for which start and which number of commits, and what was lost.
`lastKept` reads the journal from its newest line.  A cache answers as its journal does, because the
name of a file determines the pair that it stands for.
-/

namespace LoadBearing

/-! ## Names of files -/

namespace CommitCache

/-- Different pairs have different files, even if a start ends like a number of commits. -/
theorem fileName_inj {start other : String} {limit bound : Nat} :
    fileName start limit = fileName other bound ↔ start = other ∧ limit = bound := by
  constructor
  · intro same
    have characters := congrArg String.toList same
    simp only [fileName, String.toList_append, List.append_assoc] at characters
    rw [← List.append_assoc, ← List.append_assoc, ← List.append_assoc, ← List.append_assoc,
      List.append_left_inj, List.append_assoc, List.append_assoc] at characters
    obtain ⟨starts, limits⟩ := Text.append_number_inj (by decide) characters
    exact ⟨String.toList_inj.1 starts, limits⟩
  · rintro ⟨rfl, rfl⟩
    rfl

end CommitCache

/-! ## Runs -/

inductive CacheStep where
  | store (start : String) (limit : Nat) (commits : List Commit)
  | load (start : String) (limit : Nat)
  | fetch (source : HistorySource) (limit : Nat)
  | clear
  /-- bytes from elsewhere come to stand in a file -/
  | spoil (file : String) (bytes : List UInt8)

namespace CommitCache

def perform (cache : CommitCache) : CacheStep → CommitCache
  | .store start limit commits => cache.store start limit commits
  | .load _ _ => cache
  | .fetch source limit => (cache.fetch source limit).2
  | .clear => []
  | .spoil file bytes => Table.insert cache file bytes

def after (steps : List CacheStep) : CommitCache :=
  steps.foldl perform []

end CommitCache

/-! ## Journals -/

inductive Deed where
  | kept (start : String) (limit : Nat) (commits : List Commit)
  | spoiled (file : String)
  | cleared

/-- The commits last kept for a start and a number of commits, unless they were lost since.  The
    newest line of the journal comes first. -/
def lastKept : List Deed → String → Nat → Option (List Commit)
  | [], _, _ => none
  | .kept start limit commits :: earlier, other, bound =>
    if start = other ∧ limit = bound then some commits else lastKept earlier other bound
  | .spoiled file :: earlier, start, limit =>
    if file = CommitCache.fileName start limit then none else lastKept earlier start limit
  | .cleared :: _, _, _ => none

namespace CacheStep

/-- What a step adds to a journal.  A fetch keeps commits only if it had to ask for them and got
    them. -/
def deeds (past : List Deed) : CacheStep → List Deed
  | .store start limit commits => [.kept start limit commits]
  | .load _ _ => []
  | .fetch source limit =>
    match source.start, source.commits limit with
    | .ok start, .ok commits =>
      if lastKept past start limit = none then [.kept start limit commits] else []
    | _, _ => []
  | .clear => [.cleared]
  | .spoil file _ => [.spoiled file]

def journal (steps : List CacheStep) : List Deed :=
  steps.foldl (fun past step => step.deeds past ++ past) []

/-- A step that can change what is kept for a start and a number of commits. -/
def Concerns (start : String) (limit : Nat) : CacheStep → Prop
  | .store other bound _ => other = start ∧ bound = limit
  | .load _ _ => False
  | .fetch source bound => source.start = .ok start ∧ bound = limit
  | .clear => True
  | .spoil file _ => file = CommitCache.fileName start limit

end CacheStep

def CacheEntry.current (start : String) (limit : Nat) (commits : List Commit) : CacheEntry :=
  ⟨CacheEntry.currentVersion, start, limit, commits⟩

/-- An entry that comes back from its bytes. -/
def CacheEntry.RoundTrips (entry : CacheEntry) : Prop :=
  CacheEntry.decode? entry.encode = some entry

/-- Bytes that hold no entry, or one of another version. -/
def Foreign (bytes : List UInt8) : Prop :=
  ∀ entry, CacheEntry.decode? bytes = some entry → entry.version ≠ CacheEntry.currentVersion

/-- What is written comes back, and what is put in its place from elsewhere is foreign. -/
def CacheStep.Sound : CacheStep → Prop
  | .store start limit commits => (CacheEntry.current start limit commits).RoundTrips
  | .fetch source limit => ∀ start commits, source.start = .ok start →
      source.commits limit = .ok commits → (CacheEntry.current start limit commits).RoundTrips
  | .spoil _ bytes => Foreign bytes
  | .load _ _ | .clear => True

/-! ## One step -/

namespace CommitCache

variable {cache : CommitCache} {start other : String} {limit bound : Nat} {commits : List Commit}

theorem load?_nil (start : String) (limit : Nat) : load? [] start limit = none := rfl

theorem load?_insert_ne {file : String} (different : file ≠ fileName start limit)
    (bytes : List UInt8) :
    load? (Table.insert cache file bytes) start limit = cache.load? start limit := by
  simp only [load?, Table.find?_insert, if_neg different.symm]

theorem load?_insert_foreign {bytes : List UInt8} (foreign : Foreign bytes) :
    load? (Table.insert cache (fileName start limit) bytes) start limit = none := by
  simp only [load?, Table.find?_insert, if_pos, Option.bind_eq_bind, Option.bind_some]
  cases decoded : CacheEntry.decode? bytes with
  | none => rfl
  | some entry => simp [foreign entry decoded]

theorem load?_store (roundTrips : (CacheEntry.current start limit commits).RoundTrips) :
    load? (cache.store start limit commits) start limit = some commits := by
  have decoded : CacheEntry.decode? (CacheEntry.encode ⟨CacheEntry.currentVersion, start, limit,
      commits⟩) = some (CacheEntry.current start limit commits) := roundTrips
  simp only [load?, store, Table.find?_insert, if_pos, Option.bind_eq_bind, Option.bind_some,
    decoded]
  simp [CacheEntry.current]

theorem load?_store_ne (different : ¬ (start = other ∧ limit = bound)) :
    load? (cache.store start limit commits) other bound = cache.load? other bound :=
  load?_insert_ne (fun same => different (fileName_inj.1 same)) _

theorem fetch_of_hit {source : HistorySource} (started : source.start = .ok start)
    (hit : cache.load? start limit = some commits) :
    cache.fetch source limit = (.ok commits, cache) := by
  simp only [fetch, started, hit]

theorem fetch_of_miss {source : HistorySource} (started : source.start = .ok start)
    (miss : cache.load? start limit = none) (given : source.commits limit = .ok commits) :
    cache.fetch source limit = (.ok commits, cache.store start limit commits) := by
  simp only [fetch, started, miss, given]

theorem fetch_of_start_error {source : HistorySource} {e : HistoryError}
    (failed : source.start = .error e) : cache.fetch source limit = (.error e, cache) := by
  simp only [fetch, failed]

theorem fetch_of_commits_error {source : HistorySource} {e : HistoryError}
    (started : source.start = .ok start) (miss : cache.load? start limit = none)
    (failed : source.commits limit = .error e) :
    cache.fetch source limit = (.error e, cache) := by
  simp only [fetch, started, miss, failed]

/-- A fetch leaves the files alone or stores the commits it was given. -/
theorem fetch_cases (cache : CommitCache) (source : HistorySource) (limit : Nat) :
    (cache.fetch source limit).2 = cache ∨
      ∃ start commits, source.start = .ok start ∧ source.commits limit = .ok commits ∧
        cache.load? start limit = none ∧
        (cache.fetch source limit).2 = cache.store start limit commits := by
  cases started : source.start with
  | error e => simp [fetch_of_start_error started]
  | ok start =>
    cases loaded : cache.load? start limit with
    | some commits => simp [fetch_of_hit started loaded]
    | none =>
      cases given : source.commits limit with
      | error e => simp [fetch_of_commits_error started loaded given]
      | ok commits => exact .inr ⟨start, commits, rfl, rfl, loaded,
          by rw [fetch_of_miss started loaded given]⟩

/-- What is kept for one pair does not depend on steps about others. -/
theorem load?_perform_of_not_concerns {step : CacheStep} (apart : ¬ step.Concerns start limit) :
    load? (cache.perform step) start limit = cache.load? start limit := by
  cases step with
  | store other bound commits => exact load?_store_ne apart
  | load other bound => rfl
  | clear => exact absurd trivial apart
  | spoil file bytes => exact load?_insert_ne apart bytes
  | fetch source bound =>
    cases fetch_cases cache source bound with
    | inl same => rw [perform, same]
    | inr stored =>
      obtain ⟨other, commits, started, -, -, same⟩ := stored
      rw [perform, same]
      apply load?_store_ne
      rintro ⟨rfl, rfl⟩
      exact apart ⟨started, rfl⟩

/-! ## Runs and journals -/

/-- A cache that answers loads as a journal does. -/
def Follows (cache : CommitCache) (past : List Deed) : Prop :=
  ∀ start limit, cache.load? start limit = lastKept past start limit

theorem Follows.store {past : List Deed} (follows : cache.Follows past)
    (roundTrips : (CacheEntry.current start limit commits).RoundTrips) :
    (cache.store start limit commits).Follows (.kept start limit commits :: past) := by
  intro other bound
  by_cases same : start = other ∧ limit = bound
  · obtain ⟨rfl, rfl⟩ := same
    simp [lastKept, load?_store roundTrips]
  · rw [load?_store_ne same, lastKept, if_neg same, follows]

theorem Follows.perform {past : List Deed} (follows : cache.Follows past) {step : CacheStep}
    (sound : step.Sound) : (cache.perform step).Follows (step.deeds past ++ past) := by
  cases step with
  | store start limit commits => exact follows.store sound
  | load start limit => exact follows
  | clear => exact load?_nil
  | spoil file bytes =>
    intro start limit
    by_cases same : file = fileName start limit
    · subst same
      simpa [CacheStep.deeds, lastKept, CommitCache.perform] using load?_insert_foreign sound
    · simpa [CacheStep.deeds, lastKept, same, CommitCache.perform] using
        (load?_insert_ne same bytes).trans (follows start limit)
  | fetch source limit =>
    simp only [CommitCache.perform, CacheStep.deeds]
    cases started : source.start with
    | error e => simpa [fetch_of_start_error started] using follows
    | ok start =>
      -- The journal and the cache agree on whether the history has to be asked.
      cases loaded : cache.load? start limit with
      | some commits =>
        have known : ¬ lastKept past start limit = none := by simp [← follows start limit, loaded]
        rw [fetch_of_hit started loaded]
        cases source.commits limit <;> simpa [known] using follows
      | none =>
        have unknown : lastKept past start limit = none := by rw [← follows start limit, loaded]
        cases given : source.commits limit with
        | error e => simpa [fetch_of_commits_error started loaded given] using follows
        | ok commits =>
          simpa [fetch_of_miss started loaded given, unknown] using
            follows.store (sound start commits started given)

theorem follows_after {steps : List CacheStep} (sound : ∀ step ∈ steps, step.Sound) :
    (after steps).Follows (CacheStep.journal steps) := by
  -- Cache and journal are filled step by step, so the run is followed from its end.
  induction steps using List.reverseRecOn with
  | nil => exact load?_nil
  | append_singleton steps step ih =>
    rw [after, CacheStep.journal, List.foldl_concat, List.foldl_concat]
    exact (ih fun other member => sound other (List.mem_append_left _ member)).perform
      (sound step (List.mem_append_right _ (List.mem_singleton_self step)))

/-- What a cache answers and what it holds next, told by a journal. -/
structure AnswersBy (cache : CommitCache) (past : List Deed) : Prop where
  load : ∀ start limit, cache.load? start limit = lastKept past start limit
  hit : ∀ (source : HistorySource) limit start commits, source.start = .ok start →
    lastKept past start limit = some commits → cache.fetch source limit = (.ok commits, cache)
  miss : ∀ (source : HistorySource) limit start commits, source.start = .ok start →
    lastKept past start limit = none → source.commits limit = .ok commits →
    cache.fetch source limit = (.ok commits, cache.store start limit commits)
  noStart : ∀ (source : HistorySource) limit e, source.start = .error e →
    cache.fetch source limit = (.error e, cache)
  noCommits : ∀ (source : HistorySource) limit start e, source.start = .ok start →
    lastKept past start limit = none → source.commits limit = .error e →
    cache.fetch source limit = (.error e, cache)

theorem Follows.answersBy {past : List Deed} (follows : cache.Follows past) :
    cache.AnswersBy past where
  load := follows
  hit _ _ _ _ started known := fetch_of_hit started ((follows _ _).trans known)
  miss _ _ _ _ started unknown given :=
    fetch_of_miss started ((follows _ _).trans unknown) given
  noStart _ _ _ failed := fetch_of_start_error failed
  noCommits _ _ _ _ started unknown failed :=
    fetch_of_commits_error started ((follows _ _).trans unknown) failed

end CommitCache

/-! ## Histories that do not change -/

/-- The commits of a history depend on its start and their number alone. -/
def HistorySource.Obeys (answers : String → Nat → Except HistoryError (List Commit))
    (source : HistorySource) : Prop :=
  ∀ start limit, source.start = .ok start → source.commits limit = answers start limit

/-- A step that brings no commits into the cache but those of such histories. -/
def CacheStep.Obeys (answers : String → Nat → Except HistoryError (List Commit)) :
    CacheStep → Prop
  | .store _ _ _ => False
  | .fetch source _ => source.Obeys answers
  | .load _ _ | .clear | .spoil _ _ => True

section Obeys

variable {answers : String → Nat → Except HistoryError (List Commit)}

/-- All that a journal has kept is what the histories would answer. -/
def Truthful (answers : String → Nat → Except HistoryError (List Commit)) (past : List Deed) :
    Prop :=
  ∀ start limit commits, lastKept past start limit = some commits →
    answers start limit = .ok commits

theorem Truthful.deeds {past : List Deed} (truthful : Truthful answers past) {step : CacheStep}
    (obeys : step.Obeys answers) : Truthful answers (step.deeds past ++ past) := by
  cases step with
  | store start limit commits => cases obeys
  | load start limit => exact truthful
  | clear =>
    intro start limit commits known
    cases known
  | spoil file bytes =>
    intro start limit commits known
    simp only [CacheStep.deeds, List.singleton_append, lastKept] at known
    split at known
    · cases known
    · exact truthful start limit commits known
  | fetch source limit =>
    simp only [CacheStep.deeds]
    split
    next start commits started given =>
      split
      · intro other bound stored known
        simp only [List.singleton_append, lastKept] at known
        split at known
        next same =>
          obtain ⟨rfl, rfl⟩ := same
          cases known
          rw [← obeys start limit started, given]
        next => exact truthful other bound stored known
      · exact truthful
    · exact truthful

theorem truthful_journal {steps : List CacheStep} (obeys : ∀ step ∈ steps, step.Obeys answers) :
    Truthful answers (CacheStep.journal steps) := by
  induction steps using List.reverseRecOn with
  | nil =>
    intro start limit commits known
    cases known
  | append_singleton steps step ih =>
    rw [CacheStep.journal, List.foldl_concat]
    exact (ih fun other member => obeys other (List.mem_append_left _ member)).deeds
      (obeys step (List.mem_append_right _ (List.mem_singleton_self step)))

/-- A fetch through a cache that holds nothing but the truth is a fetch without a cache. -/
theorem CommitCache.AnswersBy.fetch_eq {cache : CommitCache} {past : List Deed}
    (answersBy : cache.AnswersBy past) (truthful : Truthful answers past) {source : HistorySource}
    (obeys : source.Obeys answers) (limit : Nat) :
    (cache.fetch source limit).1 = source.fetch limit := by
  cases started : source.start with
  | error e =>
    rw [answersBy.noStart source limit e started, HistorySource.fetch, started]
    rfl
  | ok start =>
    have plain : source.fetch limit = source.commits limit := by
      rw [HistorySource.fetch, started]
      rfl
    cases known : lastKept past start limit with
    | some commits =>
      rw [answersBy.hit source limit start commits started known, plain, obeys start limit started,
        truthful start limit commits known]
    | none =>
      cases given : source.commits limit with
      | ok commits =>
        rw [answersBy.miss source limit start commits started known given, plain, given]
      | error e => rw [answersBy.noCommits source limit start e started known given, plain, given]

end Obeys

/-! ## All runs -/

namespace CommitCache

/-- After every run a cache answers as its journal does: a load gives what was last kept for the
    pair and not lost since, a fetch the same or else what the history gives, which is then kept,
    and a fetch that fails changes nothing.  Steps about other pairs do not matter.  If nothing but
    fetches from histories that do not change brought commits into the cache, then a fetch answers
    as if there were no cache. -/
theorem after_answersBy_journal (steps : List CacheStep) (sound : ∀ step ∈ steps, step.Sound) :
    (after steps).AnswersBy (CacheStep.journal steps) ∧
    (∀ (step : CacheStep) start limit, ¬ step.Concerns start limit →
      ((after steps).perform step).load? start limit = (after steps).load? start limit) ∧
    (∀ answers, (∀ step ∈ steps, step.Obeys answers) → ∀ (source : HistorySource) limit,
      source.Obeys answers → ((after steps).fetch source limit).1 = source.fetch limit) := by
  have answersBy := (follows_after sound).answersBy
  refine ⟨answersBy, fun step start limit apart => load?_perform_of_not_concerns apart, ?_⟩
  intro answers obeys source limit sourceObeys
  exact answersBy.fetch_eq (truthful_journal obeys) sourceObeys limit

namespace Sample

def commit : Commit := ⟨"c1", "author", 1000, "fix a", true, [⟨"a.js", [⟨1, 3⟩]⟩]⟩

def answers (_ : String) (limit : Nat) : Except HistoryError (List Commit) :=
  .ok ([commit].take limit)

def history (start : String) : HistorySource := ⟨"/", .ok start, answers start⟩

/-- Two pairs that are written alike, and one of them is lost again. -/
def steps : List CacheStep :=
  [.fetch (history "c1") 5, .fetch (history "c1-5") 1, .spoil "c1-5-1.msgpack" [0xc1]]

theorem history_obeys (start : String) : (history start).Obeys answers := by
  intro other limit started
  rfl

theorem steps_obey : ∀ step ∈ steps, step.Obeys answers := by
  simp [steps, CacheStep.Obeys, history_obeys]

theorem steps_sound : ∀ step ∈ steps, step.Sound := by
  have first : (CacheEntry.current "c1" 5 [commit]).RoundTrips := by
    rw [CacheEntry.RoundTrips]
    decide +kernel
  have second : (CacheEntry.current "c1-5" 1 [commit]).RoundTrips := by
    rw [CacheEntry.RoundTrips]
    decide +kernel
  have unreadable : CacheEntry.decode? [0xc1] = none := by decide
  simp [steps, CacheStep.Sound, history, answers, Foreign, first, second, unreadable]

end Sample

theorem after_answersBy_journal_sample :
    (∀ step ∈ Sample.steps, step.Sound ∧ step.Obeys Sample.answers) ∧
    (after Sample.steps).load? "c1" 5 = some [Sample.commit] ∧
    (after Sample.steps).load? "c1-5" 1 = none ∧
    ((after Sample.steps).fetch (Sample.history "c1-5") 1).1 = .ok [Sample.commit] := by
  obtain ⟨answersBy, -, transparent⟩ := after_answersBy_journal Sample.steps Sample.steps_sound
  refine ⟨fun step member => ⟨Sample.steps_sound step member, Sample.steps_obey step member⟩,
    ?_, ?_, ?_⟩
  · rw [answersBy.load]
    decide
  · rw [answersBy.load]
    decide
  · exact transparent Sample.answers Sample.steps_obey _ 1 (Sample.history_obeys "c1-5")

end CommitCache

end LoadBearing
