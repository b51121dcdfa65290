import Mathlib.Data.List.Perm.Subperm
import LoadBearing.CallGraph.Reach
import LoadBearing.Proofs.CallIndex

/-! # Reach and distance

The other side of a search is the distance of an identity: the least number of calls that lead to
it.  A search finds every identity that is near enough, once, and the nearer ones first.

The queue holds the rest of one level and the beginning of the next, so that a search is the same as
one that goes level by level (`Search.run_eq_spread`): the level after a frontier holds the new
neighbours of its members, in the order in which they are met.  The non-trivial ingredient of the
rest is `Front.advance`.  A search by levels remembers all identities up to some distance and goes on
from those at just that distance, and one more level keeps this true.  Without a limit it may go as
many levels as there are ends of calls, which is enough because the identities on a shortest way are
different ones of them (`Distance.le_length`).
-/

namespace LoadBearing

/-! ## Elements met for the first time -/

theorem mem_firsts {seen names : List String} {name : String} :
    name ∈ firsts seen names ↔ name ∈ names ∧ name ∉ seen := by
  induction names generalizing seen with
  | nil => simp [firsts]
  | cons first rest ih =>
    by_cases met : first ∈ seen
    · simp only [firsts, List.contains_iff_mem, met, if_true, ih, List.mem_cons]
      constructor
      · rintro ⟨later, new⟩
        exact ⟨.inr later, new⟩
      · rintro ⟨rfl | later, new⟩
        · exact absurd met new
        · exact ⟨later, new⟩
    · simp only [firsts, List.contains_iff_mem, met, if_false, ih, List.mem_cons, not_or]
      by_cases here : name = first
      · simp [here, met]
      · simp [here]

theorem nodup_firsts (seen names : List String) : (firsts seen names).Nodup := by
  induction names generalizing seen with
  | nil => simp [firsts]
  | cons first rest ih =>
    by_cases met : first ∈ seen
    · simpa [firsts, met] using ih seen
    · simp [firsts, met, mem_firsts, ih]

theorem firsts_congr {seen other : List String} (same : ∀ name, name ∈ seen ↔ name ∈ other)
    (names : List String) : firsts seen names = firsts other names := by
  induction names generalizing seen other with
  | nil => rfl
  | cons first rest ih =>
    have more : ∀ name, name ∈ first :: seen ↔ name ∈ first :: other := by
      simp only [List.mem_cons, same, implies_true]
    simp only [firsts, List.contains_iff_mem, same, ih same, ih more]

theorem firsts_append (seen left right : List String) :
    firsts seen (left ++ right)
      = firsts seen left ++ firsts ((firsts seen left).reverse ++ seen) right := by
  induction left generalizing seen with
  | nil => rfl
  | cons first rest ih =>
    by_cases met : first ∈ seen
    · simp [firsts, met, ih]
    · simp [firsts, met, ih]

namespace CallGraph

variable {R : String → String → Prop} {start one other : String} {m n : Nat}

/-! ## Distance -/

/-- An identity that is reached from `start` in just `n` steps. -/
inductive Trail (R : String → String → Prop) (start : String) : Nat → String → Prop where
  | here : Trail R start 0 start
  | step {n : Nat} {one other : String} :
      Trail R start n one → R one other → Trail R start (n + 1) other

/-- No trail to an identity is shorter than `n` steps, and one has that length. -/
structure Distance (R : String → String → Prop) (start : String) (n : Nat) (id : String) :
    Prop where
  trail : Trail R start n id
  least : ∀ m, Trail R start m id → n ≤ m

theorem Distance.unique (first : Distance R start m one) (second : Distance R start n one) :
    m = n :=
  Nat.le_antisymm (first.least n second.trail) (second.least m first.trail)

theorem distance_zero_iff : Distance R start 0 one ↔ one = start := by
  constructor
  · rintro ⟨trail, -⟩
    cases trail
    rfl
  · rintro rfl
    exact ⟨.here, fun m _ => Nat.zero_le m⟩

theorem Trail.exists_distance (trail : Trail R start n one) :
    ∃ m ≤ n, Distance R start m one := by
  induction n using Nat.strongRecOn with
  | ind n shorter =>
    by_cases least : ∀ m, Trail R start m one → n ≤ m
    · exact ⟨n, le_refl n, trail, least⟩
    · -- A shorter trail is there, so the distance is that of the shorter one.
      push Not at least
      obtain ⟨m, trail, less⟩ := least
      obtain ⟨k, bound, distance⟩ := shorter m less trail
      exact ⟨k, bound.trans less.le, distance⟩

theorem Distance.exists_pred (distance : Distance R start (n + 1) other) :
    ∃ one, Distance R start n one ∧ R one other := by
  obtain ⟨trail, least⟩ := distance
  cases trail with
  | @step _ one _ before call =>
    refine ⟨one, ⟨before, fun m shorter => ?_⟩, call⟩
    exact Nat.le_of_succ_le_succ (least (m + 1) (shorter.step call))

/-- Something stands at every distance on the way. -/
theorem Distance.exists_between (distance : Distance R start n other) (before : m ≤ n) :
    ∃ one, Distance R start m one := by
  induction n generalizing other with
  | zero => exact ⟨other, Nat.le_zero.1 before ▸ distance⟩
  | succ n ih =>
    rcases Nat.le_succ_iff.1 before with earlier | rfl
    · obtain ⟨one, nearer, -⟩ := distance.exists_pred
      exact ih nearer earlier
    · exact ⟨other, distance⟩

/-- A call leads at most one step further away. -/
theorem Distance.exists_step (distance : Distance R start n one) (call : R one other) :
    ∃ m ≤ n + 1, Distance R start m other :=
  (distance.trail.step call).exists_distance

/-- The identities on a shortest way are all different. -/
theorem Distance.exists_way (distance : Distance R start n other) {ends : List String}
    (closed : ∀ {one other}, R one other → other ∈ ends) :
    ∃ way : List String, way.length = n ∧ way.Nodup ∧ way ⊆ ends ∧
      ∀ id ∈ way, ∃ m ≤ n, Distance R start m id := by
  induction n generalizing other with
  | zero => exact ⟨[], rfl, List.nodup_nil, List.nil_subset _, by simp⟩
  | succ n ih =>
    obtain ⟨one, nearer, call⟩ := distance.exists_pred
    obtain ⟨way, length, nodup, inside, near⟩ := ih nearer
    refine ⟨other :: way, by simp [length], List.nodup_cons.2 ⟨fun member => ?_, nodup⟩,
      List.cons_subset.2 ⟨closed call, inside⟩, ?_⟩
    · obtain ⟨m, bound, again⟩ := near other member
      have same := distance.unique again
      omega
    · intro id member
      rcases List.mem_cons.1 member with rfl | later
      · exact ⟨n + 1, le_refl _, distance⟩
      · obtain ⟨m, bound, known⟩ := near id later
        exact ⟨m, bound.trans n.le_succ, known⟩

theorem Distance.le_length (distance : Distance R start n other) {ends : List String}
    (closed : ∀ {one other}, R one other → other ∈ ends) : n ≤ ends.length := by
  obtain ⟨way, length, nodup, inside, -⟩ := distance.exists_way closed
  rw [← length]
  exact (List.subperm_of_subset nodup inside).length_le

/-! ## Level by level -/

/-- At most `depth` levels beyond a frontier, without the texts already `seen`. -/
def spread (next : String → List String) : Nat → List String → List String → List String
  | 0, _, _ => []
  | depth + 1, seen, frontier =>
    let level := firsts seen (frontier.flatMap next)
    if level.isEmpty then [] else level ++ spread next depth (level ++ seen) level

/-- One identity is not further away than another. -/
def NotFarther (R : String → String → Prop) (start one other : String) : Prop :=
  ∀ m n, Distance R start m one → Distance R start n other → m ≤ n

/-- A search that has seen what is at most `n` steps away, and goes on from what is just `n` steps
    away. -/
structure Front (R : String → String → Prop) (start : String) (n : Nat)
    (seen frontier : List String) : Prop where
  frontier : ∀ id, id ∈ frontier ↔ Distance R start n id
  seen : ∀ id, id ∈ seen ↔ ∃ m ≤ n, Distance R start m id

theorem front_start (R : String → String → Prop) (start : String) :
    Front R start 0 [start] [start] := by
  constructor
  · intro id
    rw [List.mem_singleton, distance_zero_iff]
  · intro id
    simp [distance_zero_iff]

section Spread

variable {next : String → List String} {seen frontier : List String}

/-- The new neighbours of a frontier are what is one step further away. -/
theorem Front.advance (front : Front R start n seen frontier)
    (steps : ∀ one other, other ∈ next one ↔ R one other) :
    Front R start (n + 1) (firsts seen (frontier.flatMap next) ++ seen)
      (firsts seen (frontier.flatMap next)) := by
  have level : ∀ id, id ∈ firsts seen (frontier.flatMap next) ↔ Distance R start (n + 1) id := by
    intro id
    simp only [mem_firsts, List.mem_flatMap, front.frontier, front.seen, steps]
    constructor
    · rintro ⟨⟨one, distance, call⟩, new⟩
      obtain ⟨m, bound, reached⟩ := distance.exists_step call
      -- What is nearer has been seen, so the step leads further away.
      rcases Nat.le_succ_iff.1 bound with nearer | rfl
      · exact absurd ⟨m, nearer, reached⟩ new
      · exact reached
    · intro distance
      refine ⟨distance.exists_pred, ?_⟩
      rintro ⟨m, bound, nearer⟩
      have same := distance.unique nearer
      omega
  refine ⟨level, fun id => ?_⟩
  rw [List.mem_append, level, front.seen]
  constructor
  · rintro (distance | ⟨m, bound, distance⟩)
    · exact ⟨n + 1, le_refl _, distance⟩
    · exact ⟨m, bound.trans n.le_succ, distance⟩
  · rintro ⟨m, bound, distance⟩
    rcases Nat.le_succ_iff.1 bound with nearer | rfl
    · exact .inr ⟨m, nearer, distance⟩
    · exact .inl distance

theorem Front.mem_spread (front : Front R start n seen frontier)
    (steps : ∀ one other, other ∈ next one ↔ R one other) {depth : Nat} {id : String} :
    id ∈ spread next depth seen frontier ↔ ∃ m, n < m ∧ m ≤ n + depth ∧ Distance R start m id := by
  induction depth generalizing n seen frontier with
  | zero =>
    simp only [spread, List.not_mem_nil, false_iff]
    rintro ⟨m, above, below, -⟩
    omega
  | succ depth ih =>
    have further := front.advance steps
    simp only [spread]
    split
    next empty =>
      -- Nothing at the next distance means nothing at any later one.
      rw [List.isEmpty_iff] at empty
      simp only [List.not_mem_nil, false_iff]
      rintro ⟨m, above, -, distance⟩
      obtain ⟨one, nearer⟩ := distance.exists_between (Nat.succ_le_of_lt above)
      have member := (further.frontier one).2 nearer
      rw [empty] at member
      cases member
    next =>
      rw [List.mem_append, further.frontier, ih further]
      constructor
      · rintro (distance | ⟨m, above, below, distance⟩)
        · exact ⟨n + 1, by omega, by omega, distance⟩
        · exact ⟨m, by omega, by omega, distance⟩
      · rintro ⟨m, above, below, distance⟩
        rcases Nat.eq_or_lt_of_le (Nat.succ_le_of_lt above) with rfl | later
        · exact .inl distance
        · exact .inr ⟨m, later, by omega, distance⟩

theorem Front.nodup_spread (front : Front R start n seen frontier)
    (steps : ∀ one other, other ∈ next one ↔ R one other) (depth : Nat) :
    (spread next depth seen frontier).Nodup := by
  induction depth generalizing n seen frontier with
  | zero => exact List.nodup_nil
  | succ depth ih =>
    have further := front.advance steps
    simp only [spread]
    split
    · exact List.nodup_nil
    · refine List.nodup_append'.2 ⟨nodup_firsts _ _, ih further, fun id here later => ?_⟩
      obtain ⟨m, above, -, distance⟩ := (further.mem_spread steps).1 later
      have same := distance.unique ((further.frontier id).1 here)
      omega

theorem Front.pairwise_spread (front : Front R start n seen frontier)
    (steps : ∀ one other, other ∈ next one ↔ R one other) (depth : Nat) :
    (spread next depth seen frontier).Pairwise (NotFarther R start) := by
  induction depth generalizing n seen frontier with
  | zero => exact List.Pairwise.nil
  | succ depth ih =>
    have further := front.advance steps
    simp only [spread]
    split
    · exact List.Pairwise.nil
    · refine List.pairwise_append.2 ⟨?_, ih further, ?_⟩
      · -- All identities of a level are equally far away.
        refine List.pairwise_of_forall_mem_list fun one first other second m n here there => ?_
        rw [here.unique ((further.frontier one).1 first),
          there.unique ((further.frontier other).1 second)]
      · intro one first other second m k here there
        obtain ⟨l, above, -, distance⟩ := (further.mem_spread steps).1 second
        rw [here.unique ((further.frontier one).1 first), there.unique distance]
        exact above.le

end Spread

/-! ## The queue -/

namespace Search

variable {d : Direction} {limit : Option Nat} {visited found : List String}
  {queue : List (String × Nat)} {depth : Nat}

theorem run_nil : run d limit ⟨visited, [], found⟩ = found := by
  rw [run]

theorem run_cons {id : String} :
    run d limit ⟨visited, (id, depth) :: queue, found⟩
      = run d limit (visit d limit ⟨visited, queue, found⟩ id depth) := by
  rw [run]

/-- Neighbours that are met for the first time join the queue and what is found. -/
theorem foldl_meet (ids : List String) :
    ids.foldl (meet depth) ⟨visited, queue, found⟩
      = ⟨(firsts visited ids).reverse ++ visited,
          queue ++ (firsts visited ids).map fun id => (id, depth + 1),
          found ++ firsts visited ids⟩ := by
  induction ids generalizing visited queue found with
  | nil => simp [firsts]
  | cons id rest ih =>
    by_cases met : id ∈ visited
    · simp [meet, met, firsts, ih]
    · simp [meet, met, firsts, ih]

theorem run_of_deep (deep : ∀ entry ∈ queue, limit.any (· ≤ entry.2)) :
    run d limit ⟨visited, queue, found⟩ = found := by
  induction queue with
  | nil => exact run_nil
  | cons entry rest ih =>
    obtain ⟨here, later⟩ := List.forall_mem_cons.1 deep
    rw [run_cons, visit, if_pos here, ih later]

/-- Taking the rest of a level from the queue leaves its new neighbours there, behind those that were
    already met. -/
theorem run_level (near : limit.any (· ≤ depth) = false) (frontier later : List String) :
    run d limit ⟨visited, frontier.map (fun id => (id, depth)) ++ later.map fun id => (id, depth + 1),
        found⟩
      = run d limit ⟨(firsts visited (frontier.flatMap d.next)).reverse ++ visited,
          (later ++ firsts visited (frontier.flatMap d.next)).map fun id => (id, depth + 1),
          found ++ firsts visited (frontier.flatMap d.next)⟩ := by
  induction frontier generalizing visited found later with
  | nil => simp [firsts]
  | cons id rest ih =>
    rw [List.map_cons, List.cons_append, run_cons, visit, if_neg (by simp [near]), foldl_meet,
      List.append_assoc, ← List.map_append, ih, List.flatMap_cons, firsts_append]
    simp only [List.reverse_append, List.append_assoc]

theorem run_succ (near : limit.any (· ≤ depth) = false) (frontier : List String) :
    run d limit ⟨visited, frontier.map fun id => (id, depth), found⟩
      = run d limit ⟨(firsts visited (frontier.flatMap d.next)).reverse ++ visited,
          (firsts visited (frontier.flatMap d.next)).map fun id => (id, depth + 1),
          found ++ firsts visited (frontier.flatMap d.next)⟩ := by
  simpa using run_level near frontier []

/-- The new neighbours of a frontier come out of what had not been visited. -/
theorem length_level_le (d : Direction) (visited frontier : List String) :
    (d.ends.filter fun id => !((firsts visited (frontier.flatMap d.next)).reverse
        ++ visited).contains id).length + (firsts visited (frontier.flatMap d.next)).length
      ≤ (d.ends.filter fun id => !visited.contains id).length := by
  have inside : ∀ id ∈ frontier.flatMap d.next, id ∈ d.ends := by
    intro id member
    obtain ⟨one, -, step⟩ := List.mem_flatMap.1 member
    exact d.inside step
  have work := work_foldl_meet_le 0 inside (s := ⟨visited, [], []⟩)
  rw [foldl_meet] at work
  simpa [Search.work] using work

/-- A search whose queue is a level goes on by levels: just as many as the limit leaves, or at least
    as many as there is left to visit. -/
theorem run_eq_spread {left : Nat} {seen : List String} (frontier : List String)
    (same : ∀ id, id ∈ visited ↔ id ∈ seen)
    (limited : ∀ bound, limit = some bound → bound = depth + left)
    (unlimited : limit = none → (d.ends.filter fun id => !visited.contains id).length ≤ left) :
    run d limit ⟨visited, frontier.map fun id => (id, depth), found⟩
      = found ++ spread d.next left seen frontier := by
  have fewer := length_level_le d visited frontier
  induction left generalizing depth visited seen frontier found with
  | zero =>
    rw [spread, List.append_nil]
    cases limit with
    | some bound =>
      refine run_of_deep fun entry member => ?_
      obtain ⟨id, -, rfl⟩ := List.mem_map.1 member
      simp [limited bound rfl]
    | none =>
      -- Nothing is left to visit, so the level is the last one.
      have nothing : firsts visited (frontier.flatMap d.next) = [] :=
        List.eq_nil_of_length_eq_zero (by have := unlimited rfl; omega)
      rw [run_succ rfl, nothing, List.map_nil, run_nil, List.append_nil]
  | succ left ih =>
    have near : limit.any (· ≤ depth) = false := by
      cases limit with
      | some bound => simp [limited bound rfl]
      | none => rfl
    rw [run_succ near, spread, firsts_congr same]
    split
    next empty =>
      rw [List.isEmpty_iff] at empty
      rw [empty, List.map_nil, run_nil]
    next more =>
      rw [← List.append_assoc]
      rw [firsts_congr same] at fewer
      refine ih _ (by simp [same]) (fun bound eq => ?_) (fun none => ?_) (length_level_le d _ _)
      · rw [limited bound eq]
        omega
      · have some : (firsts seen (frontier.flatMap d.next)).length ≠ 0 := by simpa using more
        have := unlimited none
        omega

theorem run_ofStart (d : Direction) (limit : Option Nat) (start : String) :
    (ofStart start).run d limit = spread d.next (limit.getD d.ends.length) [start] [start] := by
  refine run_eq_spread [start] (fun _ => .rfl) (fun bound eq => ?_) fun none => ?_
  · simp [eq]
  · rw [none]
    exact List.length_filter_le _ _

end Search

theorem reach_eq_spread (g : CallGraph) (d : Direction) (start : String) (depth : Option Nat) :
    g.reach d start depth = if g.byId.has start then
      spread d.next (depth.getD d.ends.length) [start] [start] else [] := by
  rw [reach, Search.run_ofStart]

/-! ## Transitive calls -/

/-- What a search from an identity has to find: the other identities on trails that are not too
    long, each once, the nearer ones first. -/
structure Explores (R : String → String → Prop) (start : String) (depth : Option Nat)
    (found : List String) : Prop where
  exact : ∀ id, id ∈ found ↔ id ≠ start ∧
    ∃ n, 1 ≤ n ∧ (∀ bound, depth = some bound → n ≤ bound) ∧ Trail R start n id
  nodup : found.Nodup
  inOrder : found.Pairwise (NotFarther R start)

theorem explores_run {d : Direction} (steps : ∀ one other, other ∈ d.next one ↔ R one other)
    (start : String) (depth : Option Nat) :
    Explores R start depth ((Search.ofStart start).run d depth) := by
  rw [Search.run_ofStart]
  have front := front_start R start
  refine ⟨fun id => ?_, front.nodup_spread steps _, front.pairwise_spread steps _⟩
  rw [front.mem_spread steps, Nat.zero_add]
  constructor
  · rintro ⟨m, above, below, distance⟩
    refine ⟨?_, m, above, ?_, distance.trail⟩
    · rintro rfl
      have same := distance.unique (distance_zero_iff.2 rfl)
      omega
    · rintro bound rfl
      exact below
  · rintro ⟨different, n, -, near, trail⟩
    obtain ⟨m, shorter, distance⟩ := trail.exists_distance
    have above : 0 < m := by
      apply Nat.pos_of_ne_zero
      rintro rfl
      exact different (distance_zero_iff.1 distance)
    refine ⟨m, above, ?_, distance⟩
    cases depth with
    | none => exact distance.le_length fun call => d.inside ((steps _ _).2 call)
    | some bound => exact shorter.trans (near bound rfl)

def Leads (calls : List Call) (one other : String) : Prop :=
  ∃ c ∈ calls, c.source = one ∧ c.target = some other

instance (calls : List Call) (one other : String) : Decidable (Leads calls one other) :=
  inferInstanceAs (Decidable (∃ c ∈ calls, _))

section OfParts

variable (routines : List Routine) (calls : List Call)

theorem has_byId_ofParts (id : String) :
    (ofParts routines calls).byId.has id = true ↔ ∃ r ∈ routines, r.id = id := by
  show ((indexRoutines routines).find? id).isSome = true ↔ _
  rw [find?_indexRoutines, List.findIdx?_isSome]
  simp

theorem mem_callees_ofParts (one other : String) :
    other ∈ (ofParts routines calls).callees one ↔ Leads calls one other := by
  rw [callees, callsFrom_ofParts]
  simp [Leads, and_assoc]

theorem mem_callers_ofParts (one other : String) :
    other ∈ (ofParts routines calls).callers one ↔ Leads calls other one := by
  rw [callers, callsTo_ofParts]
  simp [Leads, and_left_comm, and_comm]

theorem explores_transitiveCallers {id : String} (known : ∃ r ∈ routines, r.id = id)
    (depth : Option Nat) :
    Explores (fun one other => Leads calls other one) id depth
      ((ofParts routines calls).transitiveCallers id depth) := by
  simp only [transitiveCallers, reach, (has_byId_ofParts routines calls id).2 known, if_true]
  exact explores_run (mem_callers_ofParts routines calls) id depth

/-- From a routine of the graph, the calls are explored in both directions up to the bound; an
    identity of no routine leads nowhere. -/
theorem transitive_calls_explore (id : String) (depth : Option Nat) :
    ((∃ r ∈ routines, r.id = id) →
      Explores (Leads calls) id depth ((ofParts routines calls).transitiveCallees id depth) ∧
      Explores (fun one other => Leads calls other one) id depth
        ((ofParts routines calls).transitiveCallers id depth)) ∧
    ((¬ ∃ r ∈ routines, r.id = id) →
      (ofParts routines calls).transitiveCallees id depth = [] ∧
      (ofParts routines calls).transitiveCallers id depth = []) := by
  have known := has_byId_ofParts routines calls id
  constructor
  · intro isRoutine
    refine ⟨?_, explores_transitiveCallers routines calls isRoutine depth⟩
    simp only [transitiveCallees, reach, known.2 isRoutine, if_true]
    exact explores_run (mem_callees_ofParts routines calls) id depth
  · intro unknown
    have absent : (ofParts routines calls).byId.has id = false := by simpa using mt known.1 unknown
    simp [transitiveCallees, transitiveCallers, reach, absent]

end OfParts

namespace Circle

def routine (id : String) : Routine := .ofDefinition id "m.js" (.spanning id .function 1 1)

def call (source target : String) : Call := .known source target target none "m.js" 1 false .sameFile

def routines : List Routine := ["a", "b", "c", "d"].map routine

/-- Calls in a circle, one of them to itself and one made twice, with a shorter way to `d` through
    an identity of no routine. -/
def calls : List Call :=
  [call "a" "a", call "a" "b", call "a" "b", .unknown "a" "log" none "m.js" 2, call "a" "lost",
    call "b" "c", call "c" "d", call "lost" "d", call "d" "a"]

end Circle

theorem transitive_calls_explore_circle :
    Explores (Leads Circle.calls) "a" (some 2) ["b", "lost", "c", "d"] ∧
      Explores (fun one other => Leads Circle.calls other one) "a" none ["d", "c", "lost", "b"] ∧
      (ofParts Circle.routines Circle.calls).transitiveCallees "lost" none = [] := by
  have known : ∃ r ∈ Circle.routines, r.id = "a" := by decide
  have unknown : ¬ ∃ r ∈ Circle.routines, r.id = "lost" := by decide
  have down : (ofParts Circle.routines Circle.calls).transitiveCallees "a" (some 2)
      = ["b", "lost", "c", "d"] := by
    rw [transitiveCallees, reach_eq_spread]
    decide
  have up : (ofParts Circle.routines Circle.calls).transitiveCallers "a" none
      = ["d", "c", "lost", "b"] := by
    rw [transitiveCallers, reach_eq_spread]
    decide
  rw [← down, ← up]
  exact ⟨((transitive_calls_explore _ _ "a" (some 2)).1 known).1,
    ((transitive_calls_explore _ _ "a" none).1 known).2,
    ((transitive_calls_explore _ _ "lost" none).2 unknown).1⟩

end CallGraph

end LoadBearing
