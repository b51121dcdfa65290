import LoadBearing.Proofs.Identity

/-! # The indices answer like scans

The indices over the calls list positions under identities.  An answer read off an index is the part
of the list of calls that a scan would have found, so whatever is counted through an index can be
counted over the list.  In a graph that comes from a draft the lists are what was added, in order.
-/

namespace LoadBearing

/-! ## Lists under keys -/

namespace Table

variable {α β : Type} {table : Table (List α)} {key? : β → Option String} {say : β → α}

/-- Appends what an item says to the list under its key; an item without a key says nothing. -/
def enlist (key? : β → Option String) (say : β → α) (table : Table (List α)) (item : β) :
    Table (List α) :=
  match key? item with
  | some key => table.update key fun old => old.getD [] ++ [say item]
  | none => table

theorem Ordered.enlist (ordered : table.Ordered) (item : β) :
    Ordered (enlist key? say table item) := by
  rw [Table.enlist]
  split
  · exact ordered.update _ _
  · exact ordered

theorem getD_find?_enlist (ordered : table.Ordered) (item : β) (key : String) :
    (find? (enlist key? say table item) key).getD []
      = (find? table key).getD [] ++ if key? item = some key then [say item] else [] := by
  rw [enlist]
  cases key? item with
  | none => simp
  | some other =>
    by_cases same : key = other
    · subst same
      simp [find?_update_self ordered]
    · simp [find?_update_ne same, Ne.symm same]

/-- Under a key stands what the items with that key say, in order. -/
theorem getD_find?_foldl_enlist (ordered : table.Ordered) (items : List β) (key : String) :
    (find? (items.foldl (enlist key? say) table) key).getD []
      = (find? table key).getD [] ++ (items.filter fun item => key? item = some key).map say := by
  induction items generalizing table with
  | nil => simp
  | cons item rest ih =>
    rw [List.foldl_cons, ih (ordered.enlist item), getD_find?_enlist ordered, List.filter_cons]
    by_cases here : key? item = some key <;> simp [here]

theorem mem_keys_foldl_enlist (items : List β) {key : String} :
    key ∈ keys (items.foldl (enlist key? say) table)
      ↔ key ∈ keys table ∨ ∃ item ∈ items, key? item = some key := by
  induction items generalizing table with
  | nil => simp
  | cons item rest ih =>
    rw [List.foldl_cons, ih, List.exists_mem_cons_iff, ← or_assoc]
    refine or_congr_left ?_
    rw [enlist]
    cases key? item with
    | none => simp
    | some own => rw [mem_keys_update, Option.some.injEq, or_comm, eq_comm]

end Table

/-! ## Calls under identities -/

namespace CallGraph

def indexBy (key? : Call → Option String) (calls : List Call) : Table (List Nat) :=
  calls.zipIdx.foldl (Table.enlist (fun entry => key? entry.1) Prod.snd) []

theorem indexOutgoing_eq (calls : List Call) :
    indexOutgoing calls = indexBy (fun c => some c.source) calls := rfl

theorem indexIncoming_eq (calls : List Call) : indexIncoming calls = indexBy Call.target calls := rfl

theorem getD_find?_indexBy (key? : Call → Option String) (calls : List Call) (id : String) :
    ((indexBy key? calls).find? id).getD []
      = (calls.zipIdx.filter fun entry => key? entry.1 = some id).map Prod.snd := by
  rw [indexBy, Table.getD_find?_foldl_enlist Table.ordered_nil, Table.find?_nil, Option.getD_none,
    List.nil_append]

theorem map_fst_filter_zipIdx (calls : List Call) (p : Call → Bool) :
    (calls.zipIdx.filter fun entry => p entry.1).map Prod.fst = calls.filter p := by
  conv_rhs => rw [← List.zipIdx_map_fst 0 calls, List.filter_map]
  rfl

theorem length_getD_find?_indexBy (key? : Call → Option String) (calls : List Call) (id : String) :
    (((indexBy key? calls).find? id).getD []).length = calls.countP fun c => key? c = some id := by
  rw [getD_find?_indexBy, List.countP_eq_length_filter, ← map_fst_filter_zipIdx, List.length_map,
    List.length_map]

theorem filterMap_getD_find?_indexBy (key? : Call → Option String) (calls : List Call)
    (id : String) :
    (((indexBy key? calls).find? id).getD []).filterMap (calls[·]?)
      = calls.filter fun c => key? c = some id := by
  rw [getD_find?_indexBy, List.filterMap_map, ← map_fst_filter_zipIdx, ← List.filterMap_eq_map]
  -- Each position stands beside its call, so following it leads back to that call.
  refine List.filterMap_congr fun entry member => ?_
  exact List.mem_zipIdx_iff_getElem?.1 (List.mem_of_mem_filter member)

section OfParts

variable (routines : List Routine) (calls : List Call) (id : String)

theorem fanOut_ofParts :
    (ofParts routines calls).fanOut id = calls.countP fun c => c.source = id := by
  show (((indexOutgoing calls).find? id).getD []).length = _
  rw [indexOutgoing_eq, length_getD_find?_indexBy]
  simp only [Option.some.injEq]

theorem fanIn_ofParts :
    (ofParts routines calls).fanIn id = calls.countP fun c => c.target = some id := by
  show (((indexIncoming calls).find? id).getD []).length = _
  rw [indexIncoming_eq, length_getD_find?_indexBy]

theorem callsFrom_ofParts :
    (ofParts routines calls).callsFrom id = calls.filter fun c => c.source = id := by
  show (((indexOutgoing calls).find? id).getD []).filterMap (calls[·]?) = _
  rw [indexOutgoing_eq, filterMap_getD_find?_indexBy]
  simp only [Option.some.injEq]

theorem callsTo_ofParts :
    (ofParts routines calls).callsTo id = calls.filter fun c => c.target = some id := by
  show (((indexIncoming calls).find? id).getD []).filterMap (calls[·]?) = _
  rw [indexIncoming_eq, filterMap_getD_find?_indexBy]

theorem crossFanOut_ofParts : (ofParts routines calls).crossFanOut id
    = calls.countP fun c => c.source = id && c.leavesModule := by
  rw [crossFanOut, callsFrom_ofParts, List.countP_filter]
  simp only [Bool.and_comm]

end OfParts

end CallGraph

/-! ## Drafts -/

inductive Addition where
  | routine (r : Routine)
  | call (c : Call)
  deriving DecidableEq, Repr

namespace Addition

def routine? : Addition → Option Routine
  | .routine r => some r
  | .call _ => none

def call? : Addition → Option Call
  | .routine _ => none
  | .call c => some c

end Addition

namespace Draft

def add (d : Draft) : Addition → Draft
  | .routine r => d.addRoutine r
  | .call c => d.addCall c

/-- An addition goes to the end of its own list and leaves the other one alone. -/
theorem add_eq (d : Draft) (addition : Addition) :
    d.add addition
      = ⟨d.routines ++ addition.routine?.toList, d.calls ++ addition.call?.toList⟩ := by
  cases addition with
  | routine r => simp [add, addRoutine, Addition.routine?, Addition.call?]
  | call c => simp [add, addCall, Addition.routine?, Addition.call?]

theorem foldl_add (d : Draft) (additions : List Addition) :
    additions.foldl add d = ⟨d.routines ++ additions.filterMap Addition.routine?,
      d.calls ++ additions.filterMap Addition.call?⟩ := by
  induction additions generalizing d with
  | nil => simp
  | cons addition rest ih =>
    rw [List.foldl_cons, ih, add_eq]
    simp only [List.filterMap_eq_flatMap_toList, List.flatMap_cons, List.append_assoc]

/-- However routines and calls were added to a draft, its graph answers every question about an
    identity like a scan of what was added: all calls to it and from it in the order of their
    additions, whether their target is known or not, and the first routine that has it. -/
theorem freeze_answers_like_scans (additions : List Addition) (id : String) :
    let graph := (additions.foldl add {}).freeze
    let routines := additions.filterMap Addition.routine?
    let calls := additions.filterMap Addition.call?
    (graph.routines = routines ∧ graph.calls = calls) ∧
    graph.routine? id = (routines.find? fun r => r.id = id) ∧
    (graph.callsTo id = (calls.filter fun c => c.target = some id) ∧
      graph.fanIn id = (graph.callsTo id).length) ∧
    (graph.callsFrom id = (calls.filter fun c => c.source = id) ∧
      graph.fanOut id = (graph.callsFrom id).length) ∧
    graph.crossFanOut id = (calls.countP fun c => c.source = id && c.leavesModule) ∧
    graph.crossFanOut id ≤ graph.fanOut id := by
  intro graph routines calls
  have parts : graph = CallGraph.ofParts routines calls := by
    show (additions.foldl add {}).freeze = _
    rw [foldl_add]
    rfl
  have fanOut : graph.fanOut id = (graph.callsFrom id).length := by
    rw [parts, CallGraph.fanOut_ofParts, CallGraph.callsFrom_ofParts, List.countP_eq_length_filter]
  refine ⟨⟨by rw [parts]; rfl, by rw [parts]; rfl⟩, ?_, ⟨?_, ?_⟩, ⟨?_, fanOut⟩, ?_, ?_⟩
  · rw [parts, CallGraph.routine?_ofParts]
  · rw [parts, CallGraph.callsTo_ofParts]
  · rw [parts, CallGraph.fanIn_ofParts, CallGraph.callsTo_ofParts, List.countP_eq_length_filter]
  · rw [parts, CallGraph.callsFrom_ofParts]
  · rw [parts, CallGraph.crossFanOut_ofParts]
  · rw [fanOut]
    exact List.countP_le_length

end Draft

end LoadBearing
