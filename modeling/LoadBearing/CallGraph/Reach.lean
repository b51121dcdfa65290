import LoadBearing.CallGraph.Graph

/-! # Reach

What a routine reaches is found breadth first.  A queue holds the identities to go on from, each with
its depth; an identity joins the queue when it is met for the first time.  The search ends because
calls lead to finitely many identities: `Search.work` counts those not yet visited together with
those in the queue.
-/

namespace LoadBearing.CallGraph

/-- A way to follow calls, with a list that it does not leave. -/
structure Direction where
  next : String → List String
  ends : List String
  inside : ∀ {one other : String}, other ∈ next one → other ∈ ends

structure Search where
  visited : List String
  queue : List (String × Nat)
  found : List String
  deriving DecidableEq, Repr

namespace Search

def ofStart (id : String) : Search := ⟨[id], [(id, 0)], []⟩

def meet (depth : Nat) (s : Search) (id : String) : Search :=
  if s.visited.contains id then s
  else
    { visited := id :: s.visited
      queue := s.queue ++ [(id, depth + 1)]
      found := s.found ++ [id] }

/-- Goes on from an identity, unless it is as deep as the limit. -/
def visit (d : Direction) (limit : Option Nat) (s : Search) (id : String) (depth : Nat) : Search :=
  if limit.any (· ≤ depth) then s else (d.next id).foldl (meet depth) s

def work (ends : List String) (s : Search) : Nat :=
  (ends.filter fun id => !s.visited.contains id).length + s.queue.length

variable {ends : List String} {s : Search}

theorem work_meet_le (depth : Nat) {id : String} (inside : id ∈ ends) :
    (s.meet depth id).work ends ≤ s.work ends := by
  rw [meet]
  split
  · exact Nat.le_refl _
  next new =>
    have kept : (ends.filter fun other => !(id :: s.visited).contains other)
        = (ends.filter fun other => !s.visited.contains other).filter fun other => other ≠ id := by
      simp [List.filter_filter]
    have fewer : (ends.filter fun other => !(id :: s.visited).contains other).length
        < (ends.filter fun other => !s.visited.contains other).length := by
      rw [kept, List.length_filter_lt_length_iff_exists]
      exact ⟨id, List.mem_filter.2 ⟨inside, by simpa using new⟩, by simp⟩
    simp only [work, List.length_append, List.length_singleton]
    omega

theorem work_foldl_meet_le (depth : Nat) {ids : List String} (inside : ∀ id ∈ ids, id ∈ ends) :
    (ids.foldl (meet depth) s).work ends ≤ s.work ends := by
  induction ids generalizing s with
  | nil => exact Nat.le_refl _
  | cons id rest ih =>
    obtain ⟨here, later⟩ := List.forall_mem_cons.1 inside
    exact Nat.le_trans (ih later) (work_meet_le depth here)

theorem work_visit_le (d : Direction) (limit : Option Nat) (id : String) (depth : Nat) :
    (s.visit d limit id depth).work d.ends ≤ s.work d.ends := by
  rw [visit]
  split
  · exact Nat.le_refl _
  · exact work_foldl_meet_le depth fun _ member => d.inside member

/-- Everything found until the queue is empty. -/
def run (d : Direction) (limit : Option Nat) (s : Search) : List String :=
  match s with
  | ⟨_, [], found⟩ => found
  | ⟨visited, (id, depth) :: queue, found⟩ =>
    run d limit (visit d limit ⟨visited, queue, found⟩ id depth)
termination_by s.work d.ends
decreasing_by
  refine Nat.lt_of_le_of_lt (work_visit_le d limit id depth) ?_
  simp [work]

end Search

/-- What a routine of the graph reaches in at most `depth` steps; an identity that is not in the
    graph reaches nothing. -/
def reach (g : CallGraph) (d : Direction) (start : String) (depth : Option Nat) : List String :=
  if g.byId.has start then (Search.ofStart start).run d depth else []

def callers (g : CallGraph) (id : String) : List String :=
  (g.callsTo id).map Call.source

/-- The known targets of the calls that leave an identity. -/
def callees (g : CallGraph) (id : String) : List String :=
  (g.callsFrom id).filterMap Call.target

theorem mem_calls_of_mem_callsAt {g : CallGraph} {positions : Option (List Nat)} {c : Call}
    (member : c ∈ g.callsAt positions) : c ∈ g.calls := by
  obtain ⟨position, -, found⟩ := List.mem_filterMap.1 member
  exact List.mem_of_getElem? found

def backward (g : CallGraph) : Direction where
  next := g.callers
  ends := g.calls.map Call.source
  inside member := by
    obtain ⟨c, call, source⟩ := List.mem_map.1 member
    exact List.mem_map.2 ⟨c, mem_calls_of_mem_callsAt call, source⟩

def forward (g : CallGraph) : Direction where
  next := g.callees
  ends := g.calls.filterMap Call.target
  inside member := by
    obtain ⟨c, call, target⟩ := List.mem_filterMap.1 member
    exact List.mem_filterMap.2 ⟨c, mem_calls_of_mem_callsAt call, target⟩

def directCallers (g : CallGraph) (id : String) : List String :=
  firsts [] (g.callers id)

def transitiveCallers (g : CallGraph) (id : String) (depth : Option Nat) : List String :=
  g.reach g.backward id depth

def transitiveCallees (g : CallGraph) (id : String) (depth : Option Nat) : List String :=
  g.reach g.forward id depth

end LoadBearing.CallGraph
