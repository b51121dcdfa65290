import Mathlib.Data.String.Basic
import Mathlib.Data.List.Sort
import LoadBearing.Data.Table

/-! # What tables and rosters hold

A table is read through `find?` and a roster through membership.  Every operation keeps the entries
in increasing order, and in that order the reading determines the list: two ordered tables with the
same values are equal.

The non-trivial ingredient is `find?_update_self`.  `update` stops at the first larger key and takes
the value to be absent there, which is right only because the table is ordered.
-/

namespace LoadBearing

namespace Table

variable {α : Type}

/-- The keys increase, so that no key occurs twice. -/
def Ordered (table : Table α) : Prop :=
  (keys table).Pairwise (· < ·)

/-! ## Reading -/

@[simp] theorem find?_nil (key : String) : find? ([] : Table α) key = none := rfl

theorem find?_cons (entry : String × α) (rest : Table α) (key : String) :
    find? (entry :: rest) key = if key = entry.1 then some entry.2 else find? rest key := by
  obtain ⟨other, value⟩ := entry
  by_cases same : key = other
  · subst same
    simp [find?]
  · have unequal : (key == other) = false := by simpa using same
    simp only [find?, List.lookup_cons, unequal, if_neg same]

@[simp] theorem keys_nil : keys ([] : Table α) = [] := rfl

@[simp] theorem keys_cons (entry : String × α) (rest : Table α) :
    keys (entry :: rest) = entry.1 :: keys rest := rfl

theorem mem_keys_iff {table : Table α} {key : String} :
    key ∈ keys table ↔ ∃ value, find? table key = some value := by
  induction table with
  | nil => simp
  | cons entry rest ih =>
    rw [keys_cons, List.mem_cons, find?_cons]
    by_cases same : key = entry.1
    · simp [same]
    · simp [same, ih]

theorem find?_eq_none_iff {table : Table α} {key : String} :
    find? table key = none ↔ key ∉ keys table := by
  rw [mem_keys_iff]
  cases find? table key <;> simp

theorem mem_of_find? {table : Table α} {key : String} {value : α}
    (found : find? table key = some value) : (key, value) ∈ table := by
  induction table with
  | nil => simp at found
  | cons entry rest ih =>
    rw [find?_cons] at found
    split at found
    next same =>
      obtain ⟨other, stored⟩ := entry
      cases found
      exact same ▸ List.mem_cons_self
    next => exact List.mem_cons_of_mem _ (ih found)

theorem Ordered.tail {entry : String × α} {rest : Table α} (ordered : Ordered (entry :: rest)) :
    Ordered rest :=
  List.Pairwise.of_cons ordered

theorem Ordered.lt_of_mem {entry : String × α} {rest : Table α}
    (ordered : Ordered (entry :: rest)) {key : String} (member : key ∈ keys rest) :
    entry.1 < key :=
  List.rel_of_pairwise_cons ordered member

theorem Ordered.find?_of_mem {table : Table α} (ordered : Ordered table) {key : String} {value : α}
    (member : (key, value) ∈ table) : find? table key = some value := by
  induction table with
  | nil => cases member
  | cons entry rest ih =>
    rw [find?_cons]
    cases member with
    | head => simp
    | tail _ member =>
      have larger : entry.1 < key := ordered.lt_of_mem (List.mem_map_of_mem member)
      rw [if_neg larger.ne']
      exact ih ordered.tail member

theorem Ordered.filter_key {table : Table α} (ordered : Ordered table) (key : String) :
    table.filter (fun entry => entry.1 = key) = (find? table key).toList.map (Prod.mk key) := by
  induction table with
  | nil => rfl
  | cons entry rest ih =>
    rw [find?_cons]
    by_cases same : entry.1 = key
    · -- A key that has been met does not come again.
      have absent : find? rest key = none := by
        rw [find?_eq_none_iff]
        exact fun member => absurd same (ordered.lt_of_mem member).ne
      rw [List.filter_cons_of_pos (by simpa using same), ih ordered.tail, absent, if_pos same.symm]
      subst same
      rfl
    · rw [List.filter_cons_of_neg (by simpa using same), ih ordered.tail, if_neg (Ne.symm same)]

theorem Ordered.ext {left right : Table α} (leftOrdered : Ordered left)
    (rightOrdered : Ordered right) (agree : ∀ key, find? left key = find? right key) :
    left = right := by
  induction left generalizing right with
  | nil =>
    cases right with
    | nil => rfl
    | cons entry rest =>
      have stored := agree entry.1
      simp [find?_cons] at stored
  | cons entry rest ih =>
    cases right with
    | nil =>
      have stored := agree entry.1
      simp [find?_cons] at stored
    | cons other others =>
      -- Each first key is stored on the other side, so neither can be the smaller one.
      have sameKey : entry.1 = other.1 := by
        have atEntry : entry.1 ∈ keys (other :: others) :=
          mem_keys_iff.2 ⟨entry.2, by rw [← agree]; simp [find?_cons]⟩
        have atOther : other.1 ∈ keys (entry :: rest) :=
          mem_keys_iff.2 ⟨other.2, by rw [agree]; simp [find?_cons]⟩
        rw [keys_cons, List.mem_cons] at atEntry atOther
        rcases atEntry with same | later
        · exact same
        · rcases atOther with same | laterOther
          · exact same.symm
          · exact absurd (rightOrdered.lt_of_mem later)
              (lt_asymm (leftOrdered.lt_of_mem laterOther))
      have sameValue : entry.2 = other.2 := by
        have stored := agree entry.1
        simpa [find?_cons, sameKey] using stored
      have sameRest : rest = others := by
        apply ih leftOrdered.tail rightOrdered.tail
        intro key
        by_cases first : key = entry.1
        · have leftNone : find? rest key = none := by
            rw [find?_eq_none_iff]
            intro member
            exact absurd first (leftOrdered.lt_of_mem member).ne'
          have rightNone : find? others key = none := by
            rw [find?_eq_none_iff]
            intro member
            exact absurd (first.trans sameKey) (rightOrdered.lt_of_mem member).ne'
          rw [leftNone, rightNone]
        · have stored := agree key
          rw [find?_cons, find?_cons, if_neg first, if_neg (sameKey ▸ first)] at stored
          exact stored
      obtain ⟨key, value⟩ := entry
      obtain ⟨otherKey, otherValue⟩ := other
      cases sameKey
      cases sameValue
      rw [sameRest]

/-! ## Writing -/

theorem mem_keys_update {table : Table α} {key other : String} {change : Option α → α} :
    other ∈ keys (update table key change) ↔ other = key ∨ other ∈ keys table := by
  induction table with
  | nil => simp [update]
  | cons entry rest ih =>
    rw [update]
    split
    · simp
    · split
      next same => simp [same]
      next => rw [keys_cons, List.mem_cons, ih, keys_cons, List.mem_cons, or_left_comm]

theorem Ordered.update {table : Table α} (ordered : Ordered table) (key : String)
    (change : Option α → α) : Ordered (update table key change) := by
  induction table with
  | nil => exact List.pairwise_singleton _ _
  | cons entry rest ih =>
    rw [Table.update]
    split
    next smaller =>
      refine List.Pairwise.cons ?_ ordered
      intro other member
      rcases List.mem_cons.1 member with rfl | member
      · exact smaller
      · exact smaller.trans (ordered.lt_of_mem member)
    next notSmaller =>
      split
      next same =>
        subst same
        exact List.Pairwise.cons (fun _ member => ordered.lt_of_mem member) ordered.tail
      next different =>
        refine List.Pairwise.cons ?_ (ih ordered.tail)
        intro other member
        rcases mem_keys_update.1 member with rfl | member
        · exact lt_of_le_of_ne (not_lt.1 notSmaller) (Ne.symm different)
        · exact ordered.lt_of_mem member

theorem Ordered.insert {table : Table α} (ordered : Ordered table) (key : String) (value : α) :
    Ordered (insert table key value) :=
  ordered.update key _

theorem Ordered.insertNew {table : Table α} (ordered : Ordered table) (key : String) (value : α) :
    Ordered (insertNew table key value) :=
  ordered.update key _

theorem find?_update_ne {table : Table α} {key other : String} (different : other ≠ key)
    (change : Option α → α) : find? (update table key change) other = find? table other := by
  induction table with
  | nil => simp [update, find?_cons, different]
  | cons entry rest ih =>
    rw [update]
    split
    · rw [find?_cons, if_neg different]
    · split
      next same =>
        rw [find?_cons, find?_cons, if_neg different, if_neg (same ▸ different)]
      next => rw [find?_cons, find?_cons, ih]

theorem find?_update_self {table : Table α} (ordered : Ordered table) (key : String)
    (change : Option α → α) :
    find? (update table key change) key = some (change (find? table key)) := by
  induction table with
  | nil => simp [update, find?_cons]
  | cons entry rest ih =>
    rw [update]
    split
    next smaller =>
      -- A key below the first one is below all keys.
      have absent : find? (entry :: rest) key = none := by
        rw [find?_eq_none_iff, keys_cons, List.mem_cons, not_or]
        exact ⟨smaller.ne, fun member => lt_asymm smaller (ordered.lt_of_mem member)⟩
      rw [absent, find?_cons, if_pos rfl]
    next =>
      split
      next same => rw [find?_cons, if_pos rfl, find?_cons, if_pos same]
      next different =>
        rw [find?_cons, if_neg different, find?_cons, if_neg different, ih ordered.tail]

theorem find?_update {table : Table α} (ordered : Ordered table) (key other : String)
    (change : Option α → α) :
    find? (update table key change) other
      = if other = key then some (change (find? table key)) else find? table other := by
  split
  next same => rw [same, find?_update_self ordered]
  next different => exact find?_update_ne different change

/-- What is stored can be read whether or not the table is ordered. -/
theorem find?_insert (table : Table α) (key other : String) (value : α) :
    find? (insert table key value) other
      = if other = key then some value else find? table other := by
  split
  next same =>
    subst same
    induction table with
    | nil => simp [insert, update, find?_cons]
    | cons entry rest ih =>
      rw [insert, update]
      split
      · rw [find?_cons, if_pos rfl]
      · split
        · rw [find?_cons, if_pos rfl]
        next different =>
          rw [find?_cons, if_neg different]
          exact ih
  next different => exact find?_update_ne different _

theorem find?_insertNew {table : Table α} (ordered : Ordered table) (key other : String)
    (value : α) :
    find? (insertNew table key value) other
      = if other = key then some ((find? table key).getD value) else find? table other :=
  find?_update ordered key other _

/-- Storing what is stored already changes nothing. -/
theorem Ordered.insert_eq_self {table : Table α} (ordered : Ordered table) {key : String}
    {value : α} (found : find? table key = some value) : table.insert key value = table := by
  apply Ordered.ext (ordered.insert key value) ordered
  intro other
  rw [find?_insert]
  split
  next same => rw [same, found]
  next => rfl

/-- A loop that stores into a table keeps it ordered. -/
theorem Ordered.foldl {β : Type} {store : Table α → β → Table α}
    (step : ∀ table item, Ordered table → Ordered (store table item)) (items : List β)
    {table : Table α} (ordered : Ordered table) : Ordered (items.foldl store table) :=
  List.foldlRecOn items store ordered fun table ordered item _ => step table item ordered

theorem ordered_nil : Ordered ([] : Table α) := List.Pairwise.nil

theorem ordered_ofList (entries : List (String × α)) : Ordered (ofList entries) :=
  Ordered.foldl (fun _ entry ordered => ordered.insert entry.1 entry.2) entries ordered_nil

theorem insert_perm {table : Table α} {key : String} (fresh : key ∉ keys table) (value : α) :
    (insert table key value).Perm ((key, value) :: table) := by
  rw [insert]
  induction table with
  | nil => exact .refl _
  | cons entry rest ih =>
    rw [keys_cons, List.mem_cons, not_or] at fresh
    rw [update]
    split
    · exact .refl _
    · rw [if_neg fresh.1]
      exact ((ih fresh.2).cons entry).trans (.swap _ _ _)

/-- Entries with different keys all end up in the table. -/
theorem ofList_perm {entries : List (String × α)} (nodup : (entries.map Prod.fst).Nodup) :
    (ofList entries).Perm entries := by
  -- The loop is generalised to start with any table that has none of the keys.
  suffices general : ∀ table : Table α, (∀ entry ∈ entries, entry.1 ∉ keys table) →
      (entries.foldl (fun table entry => table.insert entry.1 entry.2) table).Perm
        (table ++ entries) by
    simpa [ofList] using general [] (by simp)
  induction entries with
  | nil => simp
  | cons entry rest ih =>
    intro table fresh
    obtain ⟨unlike, nodupRest⟩ := List.nodup_cons.1 nodup
    have freshRest : ∀ other ∈ rest, other.1 ∉ keys (table.insert entry.1 entry.2) := by
      intro other member
      rw [insert, mem_keys_update, not_or]
      refine ⟨fun same => unlike (same ▸ List.mem_map_of_mem member), ?_⟩
      exact fresh other (List.mem_cons_of_mem _ member)
    have inserted := insert_perm (fresh entry List.mem_cons_self) entry.2
    exact (ih nodupRest _ freshRest).trans ((inserted.append_right rest).trans List.perm_middle.symm)

/-- A loop that updates different keys, each by its own change, reaches each of them once. -/
theorem find?_foldl_update {table : Table α} (ordered : Ordered table) {ids : List String}
    (nodup : ids.Nodup) (change : String → Option α → α) (key : String) :
    find? (ids.foldl (fun table id => table.update id (change id)) table) key
      = if key ∈ ids then some (change key (find? table key)) else find? table key := by
  induction ids generalizing table with
  | nil => simp
  | cons id rest ih =>
    obtain ⟨fresh, nodupRest⟩ := List.nodup_cons.1 nodup
    rw [List.foldl_cons, ih (ordered.update id _) nodupRest, find?_update ordered]
    by_cases same : key = id
    · subst same
      simp [fresh]
    · simp [same]

end Table

/-! ## Rosters -/

namespace Roster

/-- The names increase, so that no name occurs twice. -/
def Ordered (names : List String) : Prop :=
  names.Pairwise (· < ·)

theorem mem_insert {name other : String} {names : List String} :
    other ∈ insert name names ↔ other = name ∨ other ∈ names := by
  induction names with
  | nil => simp [insert]
  | cons first rest ih =>
    rw [insert]
    split
    · simp
    · split
      next same => simp [same]
      next => rw [List.mem_cons, ih, List.mem_cons, or_left_comm]

theorem Ordered.insert {names : List String} (ordered : Ordered names) (name : String) :
    Ordered (insert name names) := by
  induction names with
  | nil => exact List.pairwise_singleton _ _
  | cons first rest ih =>
    rw [Roster.insert]
    split
    next smaller =>
      refine List.Pairwise.cons ?_ ordered
      intro other member
      rcases List.mem_cons.1 member with rfl | member
      · exact smaller
      · exact smaller.trans (List.rel_of_pairwise_cons ordered member)
    next notSmaller =>
      split
      · exact ordered
      next different =>
        refine List.Pairwise.cons ?_ (ih ordered.of_cons)
        intro other member
        rcases mem_insert.1 member with rfl | member
        · exact lt_of_le_of_ne (not_lt.1 notSmaller) (Ne.symm different)
        · exact List.rel_of_pairwise_cons ordered member

theorem Ordered.nodup {names : List String} (ordered : Ordered names) : names.Nodup :=
  List.Pairwise.imp ne_of_lt ordered

theorem Ordered.ext {left right : List String} (leftOrdered : Ordered left)
    (rightOrdered : Ordered right) (agree : ∀ name, name ∈ left ↔ name ∈ right) : left = right := by
  have shuffled : left.Perm right :=
    (List.perm_ext_iff_of_nodup leftOrdered.nodup rightOrdered.nodup).2 agree
  exact shuffled.eq_of_pairwise (fun _ _ _ _ below above => absurd above (lt_asymm below))
    leftOrdered rightOrdered

private theorem foldl_insert (names roster : List String) (ordered : Ordered roster) :
    Ordered (names.foldl (fun roster name => insert name roster) roster) ∧
      ∀ name, name ∈ names.foldl (fun roster name => insert name roster) roster
        ↔ name ∈ names ∨ name ∈ roster := by
  induction names generalizing roster with
  | nil => exact ⟨ordered, fun name => by simp⟩
  | cons first rest ih =>
    obtain ⟨orderedAll, members⟩ := ih (insert first roster) (ordered.insert first)
    refine ⟨orderedAll, fun name => ?_⟩
    rw [List.foldl_cons, members, mem_insert, List.mem_cons, or_left_comm, or_assoc]

theorem ordered_ofList (names : List String) : Ordered (ofList names) :=
  (foldl_insert names [] List.Pairwise.nil).1

@[simp] theorem mem_ofList {name : String} {names : List String} :
    name ∈ ofList names ↔ name ∈ names := by
  rw [ofList, (foldl_insert names [] List.Pairwise.nil).2]
  simp

end Roster

/-! ## The order of texts -/

theorem textLe_iff {left right : String} : textLe left right = true ↔ left ≤ right := by
  rw [textLe, Bool.not_eq_true', decide_eq_false_iff_not, not_lt]

theorem pairwise_mergeSort_textLe {α : Type} (key : α → String) (items : List α) :
    (items.mergeSort fun left right => textLe (key left) (key right)).Pairwise
      fun left right => key left ≤ key right := by
  have trans : ∀ one two three, textLe (key one) (key two) = true →
      textLe (key two) (key three) = true → textLe (key one) (key three) = true := by
    intro one two three first second
    rw [textLe_iff] at *
    exact first.trans second
  have total : ∀ one two, (textLe (key one) (key two) || textLe (key two) (key one)) = true := by
    intro one two
    rw [Bool.or_eq_true, textLe_iff, textLe_iff]
    exact le_total _ _
  exact (List.pairwise_mergeSort trans total items).imp textLe_iff.1

end LoadBearing
