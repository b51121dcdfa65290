import LoadBearing.Archetype.Load
import LoadBearing.Proofs.DoubleOrder
import LoadBearing.Proofs.Marks
import LoadBearing.Proofs.Percentiles
import LoadBearing.Proofs.Reach

/-! # The boss of a code base

A boss is called from so many places as to reach a threshold, which is the greater one of a fixed
floor and a percentile of the same counts.  A percentile is one of the counts, so the routine with
the most calls is never below it, and the floor alone decides whether there is a boss.

A boss that others reach through further routines has this among its reasons.  What is compared are
two numbers: of the routines that reach it, without itself, and of its direct callers, where it
counts as one if it calls itself.
-/

namespace LoadBearing

/-! ## Counted calls -/

namespace CallGraph

def callCount (calls : List Call) (id : String) : Nat :=
  calls.countP fun c => c.target = some id

variable {routines : List Routine} (calls : List Call)

theorem exists_metrics? {r : Routine} (member : r ∈ routines) :
    ∃ m, (ofParts routines calls).metrics? r.id = some m ∧ m.fanIn = callCount calls r.id := by
  obtain ⟨other, found⟩ : ∃ other, (ofParts routines calls).routine? r.id = some other := by
    rw [routine?_ofParts, ← Option.isSome_iff_exists, List.find?_isSome]
    exact ⟨r, member, by simp⟩
  rw [metrics?, found]
  exact ⟨_, rfl, fanIn_ofParts routines calls r.id⟩

theorem exists_fanIn_p95 (some : routines ≠ []) :
    ∃ r ∈ routines, (Profile.of (ofParts routines calls)).fanIn.p95
      = Float.ofNat (callCount calls r.id) := by
  obtain ⟨first, member⟩ := List.exists_mem_of_ne_nil _ some
  obtain ⟨m, measured, -⟩ := exists_metrics? calls member
  have sample : (routines.filterMap fun r => (ofParts routines calls).metrics? r.id).map
      (fun m => Float.ofNat m.fanIn) ≠ [] :=
    List.ne_nil_of_mem (List.mem_map_of_mem (List.mem_filterMap.2 ⟨first, member, measured⟩))
  have ranked := Summary.atRank_read .native
    (by simp [Summary.percentiles] : ⟨0.95, 95, Summary.p95⟩ ∈ Summary.percentiles) sample
  obtain ⟨counted, among, value⟩ := List.mem_map.1 ranked.mem
  obtain ⟨r, isRoutine, measured⟩ := List.mem_filterMap.1 among
  -- Routines are measured by identity, so the count is right also where identities repeat.
  obtain ⟨own, measuredAgain, count⟩ := exists_metrics? calls isRoutine
  obtain rfl : own = counted := Option.some.inj (measuredAgain.symm.trans measured)
  exact ⟨r, isRoutine, by rw [← count]; exact value.symm⟩

/-! ## Ways to a routine -/

theorem exists_trail_iff_transGen {R : String → String → Prop} {start id : String} :
    (∃ n, 1 ≤ n ∧ Trail R start n id) ↔ Relation.TransGen R start id := by
  constructor
  · rintro ⟨n, positive, trail⟩
    induction trail with
    | here => omega
    | @step n one other before call ih =>
      rcases Nat.eq_zero_or_pos n with rfl | further
      · cases before
        exact .single call
      · exact .tail (ih further) call
  · intro way
    induction way with
    | single call => exact ⟨1, le_rfl, .step .here call⟩
    | tail _ call ih =>
      obtain ⟨n, positive, trail⟩ := ih
      exact ⟨n + 1, by omega, .step trail call⟩

theorem mem_directCallers_iff {id other : String} :
    other ∈ (ofParts routines calls).directCallers id ↔ Leads calls other id := by
  rw [directCallers, mem_firsts, mem_callers_ofParts]
  simp

theorem mem_transitiveCallers_iff {id other : String} (known : ∃ r ∈ routines, r.id = id) :
    other ∈ (ofParts routines calls).transitiveCallers id none ↔
      other ≠ id ∧ Relation.TransGen (Leads calls) other id := by
  rw [(explores_transitiveCallers routines calls known none).exact, ← Relation.transGen_swap,
    ← exists_trail_iff_transGen]
  simp

/-- Another identity that leads to `id`, though not by a call of its own. -/
structure Detour (calls : List Call) (id other : String) : Prop where
  different : other ≠ id
  leads : Relation.TransGen (Leads calls) other id
  notDirect : ¬ Leads calls other id

theorem card_lt_card_iff {direct reaching : Finset String} {id : String}
    (agree : reaching ∩ direct = direct.erase id) :
    direct.card < reaching.card ↔
      ∃ one ∈ reaching \ direct, id ∈ direct → ∃ other ≠ one, other ∈ reaching \ direct := by
  -- One element of `direct` may be missing in `reaching`, and then two others have to make up for it.
  have parts := Finset.card_sdiff_add_card_inter reaching direct
  rw [agree] at parts
  by_cases itself : id ∈ direct
  · have without := Finset.card_erase_add_one itself
    have two : direct.card < reaching.card ↔ 1 < (reaching \ direct).card := by omega
    rw [two, Finset.one_lt_card]
    exact exists_congr fun one => and_congr_right fun _ =>
      ⟨fun ⟨other, member, different⟩ _ => ⟨other, different.symm, member⟩,
        fun more => have ⟨other, different, member⟩ := more itself
          ⟨other, member, different.symm⟩⟩
  · rw [Finset.erase_eq_of_notMem itself] at parts
    have one : direct.card < reaching.card ↔ 0 < (reaching \ direct).card := by omega
    rw [one, Finset.card_pos]
    simp [itself, Finset.Nonempty]

/-- More lead to a routine than call it if there is a detour; a routine that calls itself needs two,
    since it is among its direct callers only. -/
theorem directCallers_fewer_iff {id : String} (known : ∃ r ∈ routines, r.id = id) :
    ((ofParts routines calls).directCallers id).length
        < ((ofParts routines calls).transitiveCallers id none).length ↔
      ∃ one, Detour calls id one ∧ (Leads calls id id → ∃ other ≠ one, Detour calls id other) := by
  have calling (other : String) : other ∈ (ofParts routines calls).directCallers id ↔
      Leads calls other id := mem_directCallers_iff calls
  have leading (other : String) : other ∈ (ofParts routines calls).transitiveCallers id none ↔
      other ≠ id ∧ Relation.TransGen (Leads calls) other id := mem_transitiveCallers_iff calls known
  have nodup : ((ofParts routines calls).directCallers id).Nodup := nodup_firsts _ _
  have nodupReaching := (explores_transitiveCallers routines calls known none).nodup
  -- From here on all that matters is who is in the two lists, each of them once.
  generalize (ofParts routines calls).directCallers id = direct at calling nodup ⊢
  generalize (ofParts routines calls).transitiveCallers id none = reaching
    at leading nodupReaching ⊢
  have isDetour (other : String) :
      other ∈ reaching.toFinset \ direct.toFinset ↔ Detour calls id other := by
    rw [Finset.mem_sdiff, List.mem_toFinset, List.mem_toFinset, leading, calling]
    exact ⟨fun ⟨⟨different, leads⟩, notDirect⟩ => ⟨different, leads, notDirect⟩,
      fun detour => ⟨⟨detour.different, detour.leads⟩, detour.notDirect⟩⟩
  have agree : reaching.toFinset ∩ direct.toFinset = direct.toFinset.erase id := by
    ext other
    rw [Finset.mem_inter, Finset.mem_erase, List.mem_toFinset, List.mem_toFinset, leading, calling]
    exact ⟨fun ⟨⟨different, _⟩, direct⟩ => ⟨different, direct⟩,
      fun ⟨different, direct⟩ => ⟨⟨different, .single direct⟩, direct⟩⟩
  rw [← List.toFinset_card_of_nodup nodup, ← List.toFinset_card_of_nodup nodupReaching,
    card_lt_card_iff agree]
  simp only [isDetour, List.mem_toFinset, calling]

theorem length_transitiveCallers {id : String} (known : ∃ r ∈ routines, r.id = id) :
    ((ofParts routines calls).transitiveCallers id none).length
      = {other | other ≠ id ∧ Relation.TransGen (Leads calls) other id}.ncard := by
  have nodup := (explores_transitiveCallers routines calls known none).nodup
  have found : {other | other ≠ id ∧ Relation.TransGen (Leads calls) other id}
      = ((ofParts routines calls).transitiveCallers id none).toFinset := by
    ext other
    simp [mem_transitiveCallers_iff calls known]
  rw [found, Set.ncard_coe_finset, List.toFinset_card_of_nodup nodup]

end CallGraph

namespace Detector

open CallGraph Double

variable {e : Evidence} {r : Routine}

theorem boss_isSome_iff : (boss e r).isSome = true ↔ ∃ m, e.graph.metrics? r.id = some m ∧
    ¬ Float.ofNat m.fanIn < larger e.profile.fanIn.p95 bossFloor := by
  rw [boss]
  cases e.graph.metrics? r.id with
  | none => simp
  | some m =>
    by_cases below : Float.ofNat m.fanIn < larger e.profile.fanIn.p95 bossFloor
    · simp [below]
    · simp [below]

theorem not_lt_larger_iff {x y z : Float} (size : IsSize x) (one : IsSize y) (other : IsSize z) :
    ¬ x < larger y z ↔
      Decimal.orderKey y ≤ Decimal.orderKey x ∧ Decimal.orderKey z ≤ Decimal.orderKey x := by
  rw [larger, one.isNaN_eq_false, Bool.false_or]
  simp only [decide_eq_true_eq]
  split
  next less =>
    rw [size.lt_iff other]
    rw [one.lt_iff other] at less
    omega
  next notLess =>
    rw [size.lt_iff one]
    rw [one.lt_iff other] at notLess
    omega

theorem orderKey_bossFloor_le_iff (n : Nat) :
    Decimal.orderKey bossFloor ≤ Decimal.orderKey (Float.ofNat n) ↔ 5 ≤ n := by
  have floor : bossFloor = Float.ofNat 5 := rfl
  rw [floor]
  refine ⟨fun keys => ?_, orderKey_ofNat_mono⟩
  -- Below five the conversion is exact, so the keys tell the counts apart.
  by_contra few
  have exact := (counts_ofNat (n := 5) (by decide)).orderKey_le_iff
    (counts_ofNat (n := n) (by omega)) (.inl (by decide))
  exact few (exact.1 keys)

/-- With a count as its percentile, a profile makes a boss of what has as many calls and five. -/
theorem boss_isSome_iff_of_p95 {routines : List Routine} {calls : List Call} {c : Nat}
    (graph : e.graph = ofParts routines calls) (p95 : e.profile.fanIn.p95 = Float.ofNat c)
    (member : r ∈ routines) :
    (boss e r).isSome = true ↔
      Decimal.orderKey (Float.ofNat c) ≤ Decimal.orderKey (Float.ofNat (callCount calls r.id)) ∧
        5 ≤ callCount calls r.id := by
  obtain ⟨m, measured, count⟩ := exists_metrics? calls member
  have floor : IsSize bossFloor := isSize_ofNat 5
  rw [boss_isSome_iff, graph, measured, p95, ← orderKey_bossFloor_le_iff,
    ← not_lt_larger_iff (isSize_ofNat _) (isSize_ofNat c) floor, ← count]
  simp

/-- Measured against the profile of its own code base, what has at least as many calls as a boss is
    a boss too, and there is a boss just if some routine is called from five places. -/
theorem bosses_are_the_most_called (routines : List Routine) (calls : List Call)
    (log : Option ActivityLog) (bridges : Table Bridge) (minTogether : Nat) :
    let graph := ofParts routines calls
    let e : Evidence := ⟨graph, .of graph, log, bridges, minTogether⟩
    (∀ f ∈ routines, ∀ g ∈ routines, (boss e f).isSome = true →
      callCount calls f.id ≤ callCount calls g.id → (boss e g).isSome = true) ∧
    ((∃ f ∈ routines, (boss e f).isSome = true) ↔ ∃ f ∈ routines, 5 ≤ callCount calls f.id) := by
  intro graph e
  rcases eq_or_ne routines [] with rfl | some
  · simp
  obtain ⟨h, isRoutine, p95⟩ := exists_fanIn_p95 calls some
  have isBoss {f : Routine} (member : f ∈ routines) :=
    boss_isSome_iff_of_p95 (e := e) rfl p95 member
  refine ⟨fun f member g memberToo found more => ?_, ?_, ?_⟩
  · obtain ⟨asMany, enough⟩ := (isBoss member).1 found
    exact (isBoss memberToo).2 ⟨asMany.trans (orderKey_ofNat_mono more), enough.trans more⟩
  · rintro ⟨f, member, found⟩
    exact ⟨f, member, ((isBoss member).1 found).2⟩
  · -- Either this routine has as many calls as the one at the percentile, or that one has more.
    rintro ⟨f, member, enough⟩
    rcases Nat.le_total (callCount calls h.id) (callCount calls f.id) with atLeast | atMost
    · exact ⟨f, member, (isBoss member).2 ⟨orderKey_ofNat_mono atLeast, enough⟩⟩
    · exact ⟨h, isRoutine, (isBoss isRoutine).2 ⟨le_rfl, enough.trans atMost⟩⟩

namespace TwoBosses

/-- Two routines that a third one calls, the second once more often. -/
def routines : List Routine := ["a", "f", "g"].map Circle.routine

def calls : List Call :=
  List.replicate 5 (Circle.call "a" "f") ++ List.replicate 6 (Circle.call "a" "g")

def evidence : Evidence :=
  ⟨ofParts routines calls, .of (ofParts routines calls), none, [], 3⟩

theorem p95_evidence : evidence.profile.fanIn.p95 = Float.ofNat 5 := by
  have sorted : Summary.ordered .native [.ofNat 0, .ofNat 5, .ofNat 6]
      = [.ofNat 0, .ofNat 5, .ofNat 6] := List.mergeSort_of_pairwise (by decide +kernel)
  show Summary.percentile .native (Summary.ordered .native [.ofNat 0, .ofNat 5, .ofNat 6]) 0.95 = _
  rw [sorted]
  rfl

end TwoBosses

theorem bosses_are_the_most_called_twoBosses :
    ((boss TwoBosses.evidence (Circle.routine "f")).isSome = true ∧
      callCount TwoBosses.calls "f" = 5 ∧ callCount TwoBosses.calls "g" = 6) ∧
    (boss TwoBosses.evidence (Circle.routine "g")).isSome = true ∧
    ∃ f ∈ TwoBosses.routines, (boss TwoBosses.evidence f).isSome = true := by
  have f : Circle.routine "f" ∈ TwoBosses.routines := by simp [TwoBosses.routines]
  have g : Circle.routine "g" ∈ TwoBosses.routines := by simp [TwoBosses.routines]
  have found : (boss TwoBosses.evidence (Circle.routine "f")).isSome = true :=
    (boss_isSome_iff_of_p95 rfl TwoBosses.p95_evidence f).2 (by decide)
  obtain ⟨upward, exist⟩ :=
    bosses_are_the_most_called TwoBosses.routines TwoBosses.calls none [] 3
  exact ⟨⟨found, by decide, by decide⟩, upward _ f _ g found (by decide),
    exist.2 ⟨_, f, by decide⟩⟩

/-! ## Reach of a boss -/

def reachReason (count : Nat) : String := s!"{count} functions reach it transitively"

theorem toList_reachReason (count : Nat) : (reachReason count).toList
    = (toString count).toList ++ " functions reach it transitively".toList :=
  String.toList_append

theorem reachReason_inj {m n : Nat} (same : reachReason m = reachReason n) : m = n := by
  have chars := congrArg String.toList same
  rw [toList_reachReason, toList_reachReason] at chars
  exact Text.toString_inj (List.append_cancel_right chars)

theorem head?_reachReason (count : Nat) {first : Char} (noDigit : first.isDigit = false) :
    (reachReason count).toList.head? ≠ some first := by
  have written : (toString count).toList ≠ [] := by simp
  rw [toList_reachReason, List.head?_append_of_ne_nil _ written]
  intro head
  exact Text.notMem_toString noDigit count (List.mem_of_mem_head? head)

/-- The reasons of a boss end with its reach if that is more than its direct callers, and the other
    reasons start with a letter. -/
theorem reasons_of_boss {d : Detection} (found : boss e r = some d) :
    ∃ opening : List String,
      (∀ text ∈ opening, text.toList.head? = some 'C' ∨ text.toList.head? = some 'D') ∧
      d.reasons = opening ++
        if (e.graph.directCallers r.id).length < (e.graph.transitiveCallers r.id none).length
        then [reachReason (e.graph.transitiveCallers r.id none).length] else [] := by
  rw [boss] at found
  cases measured : e.graph.metrics? r.id with
  | none => simp [measured] at found
  | some m =>
    by_cases below : Float.ofNat m.fanIn < larger e.profile.fanIn.p95 bossFloor
    · simp [measured, below] at found
    · simp only [measured, below, Option.bind_eq_bind, Option.bind_some, if_false] at found
      cases found
      refine ⟨_, fun text member => ?_, rfl⟩
      simp only [List.mem_append, List.mem_ite_nil_right, List.mem_singleton] at member
      have called : (toString "Called from ").toList.head? = some 'C' := rfl
      have delegates : (toString "Delegates little: calls ").toList.head? = some 'D' := rfl
      have spans : (toString "Callers span ").toList.head? = some 'C' := rfl
      rcases member with (rfl | ⟨-, rfl⟩) | ⟨-, rfl⟩
      · exact .inl (by simp [called])
      · exact .inr (by simp [delegates])
      · exact .inl (by simp [spans])

theorem reachReason_mem_iff {d : Detection} (found : boss e r = some d) (count : Nat) :
    reachReason count ∈ d.reasons ↔
      (e.graph.directCallers r.id).length < (e.graph.transitiveCallers r.id none).length ∧
        count = (e.graph.transitiveCallers r.id none).length := by
  obtain ⟨opening, letters, reasons⟩ := reasons_of_boss found
  -- The other reasons start with a letter and this one with a digit.
  have notOpening : reachReason count ∉ opening := by
    intro member
    rcases letters _ member with letter | letter
    · exact head?_reachReason count (by decide) letter
    · exact head?_reachReason count (by decide) letter
  rw [reasons, List.mem_append, or_iff_right notOpening]
  split
  next more =>
    rw [List.mem_singleton, and_iff_right more]
    exact ⟨reachReason_inj, fun same => same ▸ rfl⟩
  next notMore => simp [notMore]

theorem exists_routine_of_boss {routines : List Routine} {calls : List Call} {d : Detection}
    (graph : e.graph = ofParts routines calls) (found : boss e r = some d) :
    ∃ s ∈ routines, s.id = r.id := by
  obtain ⟨m, measured, -⟩ := boss_isSome_iff.1 (Option.isSome_of_eq_some found)
  obtain ⟨s, isRoutine, -⟩ := Option.map_eq_some_iff.1 measured
  rw [graph, routine?_ofParts] at isRoutine
  exact ⟨s, List.mem_of_find?_eq_some isRoutine, by simpa using List.find?_some isRoutine⟩

/-- A boss has its reach among its reasons if something leads to it by detours only, and for one that
    calls itself if two do, as it is counted among its direct callers.  The number given is that of
    all others that lead to it; they are routines where all calls come from routines. -/
theorem boss_reach_reason_of_detours {routines : List Routine} {calls : List Call} {e : Evidence}
    {r : Routine} {d : Detection} (graph : e.graph = ofParts routines calls)
    (found : boss e r = some d) :
    ((∃ count, reachReason count ∈ d.reasons) ↔ ∃ one, Detour calls r.id one ∧
      (Leads calls r.id r.id → ∃ other ≠ one, Detour calls r.id other)) ∧
    (∀ count, reachReason count ∈ d.reasons →
      count = {other | other ≠ r.id ∧ Relation.TransGen (Leads calls) other r.id}.ncard) ∧
    ((∀ c ∈ calls, ∃ s ∈ routines, s.id = c.source) →
      ∀ one, Detour calls r.id one → ∃ s ∈ routines, s.id = one) := by
  have known := exists_routine_of_boss graph found
  have present (count : Nat) := reachReason_mem_iff found count
  rw [graph] at present
  refine ⟨?_, fun count member => ?_, fun sources one detour => ?_⟩
  · simp only [present, exists_and_left, exists_eq, and_true, directCallers_fewer_iff calls known]
  · rw [← length_transitiveCallers calls known]
    exact ((present count).1 member).2
  · obtain ⟨next, ⟨c, member, rfl, -⟩, -⟩ := Relation.TransGen.head'_iff.1 detour.leads
    exact sources c member

namespace Recursive

/-- A routine that calls itself and has four other callers. -/
def routines : List Routine := ["f", "a", "b", "c", "d", "x", "y"].map Circle.routine

def calls (ways : List Call) : List Call :=
  (["f", "a", "b", "c", "d"].map fun caller => Circle.call caller "f") ++ ways

def evidence (ways : List Call) : Evidence :=
  ⟨ofParts routines (calls ways), .of (ofParts routines (calls ways)), none, [], 3⟩

theorem exists_boss (ways : List Call)
    (most : ∀ h ∈ routines, callCount (calls ways) h.id ≤ callCount (calls ways) "f")
    (enough : 5 ≤ callCount (calls ways) "f") :
    ∃ d, boss (evidence ways) (Circle.routine "f") = some d := by
  obtain ⟨h, isRoutine, p95⟩ := exists_fanIn_p95 (calls ways) (by decide : routines ≠ [])
  have member : Circle.routine "f" ∈ routines := by simp [routines]
  rw [← Option.isSome_iff_exists, boss_isSome_iff_of_p95 (e := evidence ways) rfl p95 member]
  exact ⟨orderKey_ofNat_mono (most h isRoutine), enough⟩

def oneWay : List Call := [Circle.call "x" "a"]

def twoWays : List Call := [Circle.call "x" "a", Circle.call "y" "b"]

theorem boss_reach_reason_of_detours_recursive :
    ∃ d, boss (evidence twoWays) (Circle.routine "f") = some d ∧
      Leads (calls twoWays) "f" "f" ∧ ∃ count, reachReason count ∈ d.reasons := by
  obtain ⟨d, found⟩ := exists_boss twoWays (by decide) (by decide)
  have through : Detour (calls twoWays) "f" "x" :=
    ⟨by decide, .head (b := "a") (by decide) (.single (by decide)), by decide⟩
  have throughOther : Detour (calls twoWays) "f" "y" :=
    ⟨by decide, .head (b := "b") (by decide) (.single (by decide)), by decide⟩
  exact ⟨d, found, by decide, (boss_reach_reason_of_detours rfl found).1.2
    ⟨"x", through, fun _ => ⟨"y", by decide, throughOther⟩⟩⟩

/-- A single detour to a routine that calls itself gives no reason. -/
theorem single_detour_gives_no_reason :
    ∃ d, boss (evidence oneWay) (Circle.routine "f") = some d ∧
      Detour (calls oneWay) "f" "x" ∧ ∀ count, reachReason count ∉ d.reasons := by
  obtain ⟨d, found⟩ := exists_boss oneWay (by decide) (by decide)
  have through : Detour (calls oneWay) "f" "x" :=
    ⟨by decide, .head (b := "a") (by decide) (.single (by decide)), by decide⟩
  -- Five call it, itself included, and five others lead to it.
  have asMany : ¬ ((evidence oneWay).graph.directCallers "f").length
      < ((evidence oneWay).graph.transitiveCallers "f" none).length := by
    rw [transitiveCallers, reach_eq_spread]
    decide
  exact ⟨d, found, through, fun count member => asMany ((reachReason_mem_iff found count).1 member).1⟩

end Recursive

end Detector

end LoadBearing
