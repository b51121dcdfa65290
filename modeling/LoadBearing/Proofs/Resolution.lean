import LoadBearing.Proofs.Integrity

/-!
# What a call means

`Symbols` answers from two indices that are filled entry by entry.  This module says what they hold
without the filling: an export is the default export bound to its key, or else the first routine in
the list that claims the key, and the routines of a name are those that a scan of the list keeps.
The four rules then read as conditions on the list.

The indices are keyed by `file::name`.  A default export is therefore found under every pair whose
key it has, which is why `exported?` compares keys and not pairs.  `exportedByFile?` is what a file
exports by its own default export; the two differ only where the default export of another file has
the key (`exported?_eq_exportedByFile?`).
-/

namespace LoadBearing.Scope

/-- A routine claims a key with its name, and with its qualified name if it has an owner. -/
def Claims (r : Routine) (key : String) : Prop :=
  exportKey r.file r.name = key ∨ r.owner.isSome = true ∧ exportKey r.file r.qualified = key

instance (r : Routine) (key : String) : Decidable (Claims r key) :=
  inferInstanceAs (Decidable (_ ∨ _))

/-- The identity of the first routine that claims a key. -/
def claimed? (routines : List Routine) (key : String) : Option String :=
  (routines.find? fun r => Claims r key).map Routine.id

def default? (defaults : Table String) (key : String) : Option String :=
  (List.find? (fun entry => exportKey entry.1 "default" = key) defaults).map Prod.snd

/-- What a file exports under a name, read off the routines and the default exports. -/
def exported? (routines : List Routine) (defaults : Table String) (file name : String) :
    Option String :=
  (default? defaults (exportKey file name)).or (claimed? routines (exportKey file name))

def lone? (routines : List Routine) (condition : Routine → Bool) : Option String :=
  match routines.filter condition with
  | [r] => some r.id
  | _ => none

theorem exportKey_inj {file other name : String} :
    exportKey file name = exportKey other name ↔ file = other := by
  simp [exportKey]

/-- The files of the default exports tell their keys apart. -/
theorem default?_eq_some_iff {defaults : Table String} (distinct : defaults.keys.Nodup)
    {key id : String} :
    default? defaults key = some id ↔
      ∃ file, (file, id) ∈ defaults ∧ exportKey file "default" = key := by
  rw [default?, Option.map_eq_some_iff]
  constructor
  · rintro ⟨⟨file, _⟩, found, rfl⟩
    exact ⟨file, List.mem_of_find?_eq_some found, by simpa using List.find?_some found⟩
  · rintro ⟨file, member, bound⟩
    have some : (List.find? (fun entry => exportKey entry.1 "default" = key) defaults).isSome := by
      rw [List.find?_isSome]
      exact ⟨(file, id), member, by simpa using bound⟩
    obtain ⟨entry, found⟩ := Option.isSome_iff_exists.1 some
    have sameKey : exportKey entry.1 "default" = key := by simpa using List.find?_some found
    have sameFile : entry.1 = file := exportKey_inj.1 (sameKey.trans bound.symm)
    have same : entry = (file, id) :=
      List.inj_on_of_nodup_map distinct (List.mem_of_find?_eq_some found) member sameFile
    exact ⟨entry, found, by rw [same]⟩

namespace Symbols

/-! ## The index of exports -/

theorem ordered_exports_enter {s : Symbols} (ordered : s.exports.Ordered) (r : Routine) :
    (s.enter r).exports.Ordered := by
  have named := ordered.insertNew (exportKey r.file r.name) r.id
  simp only [enter]
  split
  · exact named.insertNew _ _
  · exact named

theorem find?_insertNew_eq_or {table : Table String} (ordered : table.Ordered)
    (key other id : String) :
    (table.insertNew key id).find? other
      = (table.find? other).or (if key = other then some id else none) := by
  rw [Table.find?_insertNew ordered]
  by_cases same : key = other
  · subst same
    cases table.find? key <;> simp
  · simp [same, Ne.symm same]

/-- A routine gets the keys that it claims and that are still free. -/
theorem find?_exports_enter {s : Symbols} (ordered : s.exports.Ordered) (r : Routine)
    (key : String) :
    (s.enter r).exports.find? key
      = (s.exports.find? key).or (if Claims r key then some r.id else none) := by
  have named := ordered.insertNew (exportKey r.file r.name) r.id
  have entered : (s.enter r).exports
      = if r.owner.isSome = true
        then (s.exports.insertNew (exportKey r.file r.name) r.id).insertNew
          (exportKey r.file r.qualified) r.id
        else s.exports.insertNew (exportKey r.file r.name) r.id := rfl
  rw [entered]
  by_cases owned : r.owner.isSome = true
  · rw [if_pos owned, find?_insertNew_eq_or named, find?_insertNew_eq_or ordered, Option.or_assoc]
    congr 1
    by_cases byName : exportKey r.file r.name = key <;> simp [Claims, byName, owned]
  · rw [if_neg owned, find?_insertNew_eq_or ordered]
    simp [Claims, owned]

theorem find?_exports_foldl_enter (routines : List Routine) {s : Symbols}
    (ordered : s.exports.Ordered) (key : String) :
    (routines.foldl enter s).exports.find? key
      = (s.exports.find? key).or (claimed? routines key) := by
  induction routines generalizing s with
  | nil => simp [claimed?]
  | cons r rest ih =>
    rw [List.foldl_cons, ih (ordered_exports_enter ordered r), find?_exports_enter ordered,
      Option.or_assoc]
    congr 1
    by_cases claims : Claims r key <;> simp [claimed?, claims]

/-- Of the default exports at most one has a given key, so it does not matter that a later binding
    replaces an earlier one. -/
theorem find?_exports_foldl_bindDefault {defaults : Table String} (distinct : defaults.keys.Nodup)
    (s : Symbols) (key : String) :
    (defaults.foldl bindDefault s).exports.find? key
      = (default? defaults key).or (s.exports.find? key) := by
  induction defaults generalizing s with
  | nil => simp [default?]
  | cons entry rest ih =>
    obtain ⟨fresh, distinctRest⟩ := List.nodup_cons.1 distinct
    rw [List.foldl_cons, ih distinctRest, bindDefault, Table.find?_insert]
    by_cases here : exportKey entry.1 "default" = key
    · have later : default? rest key = none := by
        simp only [default?, Option.map_eq_none_iff, List.find?_eq_none, decide_eq_true_eq]
        intro other member same
        have files : other.1 = entry.1 := exportKey_inj.1 (same.trans here.symm)
        exact fresh (files ▸ List.mem_map_of_mem member)
      rw [later]
      simp [default?, here]
    · simp [default?, here, Ne.symm here]

theorem export?_build (routines : List Routine) {defaults : Table String}
    (distinct : defaults.keys.Nodup) (file name : String) :
    (build routines defaults).export? file name = exported? routines defaults file name := by
  rw [export?, build, find?_exports_foldl_bindDefault distinct,
    find?_exports_foldl_enter routines Table.ordered_nil]
  rfl

/-! ## The index of names -/

theorem byName_foldl_bindDefault (defaults : List (String × String)) (s : Symbols) :
    (defaults.foldl bindDefault s).byName = s.byName := by
  induction defaults generalizing s with
  | nil => rfl
  | cons entry rest ih => exact ih _

theorem find?_byName_foldl_enter (routines : List Routine) {s : Symbols}
    (ordered : s.byName.Ordered) (name : String) :
    ((routines.foldl enter s).byName.find? name).getD []
      = (s.byName.find? name).getD [] ++
          (routines.filter fun r => r.name = name).map fun r => (r.file, r.id) := by
  induction routines generalizing s with
  | nil => simp
  | cons r rest ih =>
    have entered : ((s.enter r).byName.find? name).getD []
        = (s.byName.find? name).getD [] ++ if r.name = name then [(r.file, r.id)] else [] := by
      rw [enter, Table.find?_update ordered]
      by_cases same : r.name = name
      · subst same
        simp
      · simp [same, Ne.symm same]
    rw [List.foldl_cons, ih (ordered.update _ _), entered]
    by_cases same : r.name = name <;> simp [same]

theorem only?_build (routines : List Routine) (defaults : Table String) (name : String)
    (inFile : Option String) :
    (build routines defaults).only? name inFile
      = lone? routines fun r => r.name = name && inFile.all (· = r.file) := by
  have entries := find?_byName_foldl_enter routines (s := {}) Table.ordered_nil name
  have kept : (((routines.filter fun r => r.name = name).map fun r => (r.file, r.id)).filter
        fun entry => inFile.all (· = entry.1))
      = (routines.filter fun r => r.name = name && inFile.all (· = r.file)).map
          fun r => (r.file, r.id) := by
    rw [List.filter_map, List.filter_filter]
    congr 2
    funext r
    exact Bool.and_comm _ _
  rw [only?, build, byName_foldl_bindDefault, entries, Table.find?_nil, Option.getD_none,
    List.nil_append, kept, lone?]
  generalize routines.filter (fun r => r.name = name && inFile.all (· = r.file)) = found
  cases found with
  | nil => rfl
  | cons r rest => cases rest <;> rfl

end Symbols

/-! ## The four rules -/

/-- Exactly one routine of the list meets a condition, and it has this identity. -/
def Lone (routines : List Routine) (condition : Routine → Bool) (id : String) : Prop :=
  ∃ r, routines.filter condition = [r] ∧ r.id = id

/-- The name of a plain call is bound to an export of a file. -/
def ImportTarget (exports : String → String → Option String) (q : Query) (id : String) : Prop :=
  q.receiver = none ∧ ∃ binding file, q.imports.find? q.name = some binding ∧
    binding.isNamespace = false ∧ binding.file = some file ∧ exports file binding.exported = some id

def MemberTarget (exports : String → String → Option String) (q : Query) (id : String) : Prop :=
  ∃ receiver binding file, q.receiver = some receiver ∧ q.imports.find? receiver = some binding ∧
    binding.isNamespace = true ∧ binding.file = some file ∧ exports file q.name = some id

/-- What each rule asks for, given what the files export and the list of routines. -/
def Target (exports : String → String → Option String) (routines : List Routine) (q : Query) :
    Rule → String → Prop
  | .imported, id => ImportTarget exports q id
  | .member, id => MemberTarget exports q id
  | .sameFile, id => Lone routines (fun r => r.name = q.name && r.file = q.file) id
  | .unique, id => isBuiltin q.name = false ∧ Lone routines (fun r => r.name = q.name) id

/-- Two accounts of the exports agree on the files that some imports stand for. -/
def AgreeOn (imports : Table Import) (exports others : String → String → Option String) : Prop :=
  ∀ name binding file, imports.find? name = some binding → binding.file = some file →
    exports file = others file

section Agreement

variable {exports others : String → String → Option String} {q : Query} {id : String}

theorem AgreeOn.symm {imports : Table Import} (agree : AgreeOn imports exports others) :
    AgreeOn imports others exports :=
  fun name binding file bound located => (agree name binding file bound located).symm

theorem ImportTarget.mono (target : ImportTarget exports q id)
    (agree : AgreeOn q.imports exports others) : ImportTarget others q id := by
  obtain ⟨plain, binding, file, bound, named, located, exported⟩ := target
  rw [agree _ _ _ bound located] at exported
  exact ⟨plain, binding, file, bound, named, located, exported⟩

theorem MemberTarget.mono (target : MemberTarget exports q id)
    (agree : AgreeOn q.imports exports others) : MemberTarget others q id := by
  obtain ⟨receiver, binding, file, called, bound, whole, located, exported⟩ := target
  rw [agree _ _ _ bound located] at exported
  exact ⟨receiver, binding, file, called, bound, whole, located, exported⟩

end Agreement

def before (rule : Rule) : List Rule :=
  Rule.all.takeWhile (· ≠ rule)

theorem lone?_eq_some_iff {routines : List Routine} {condition : Routine → Bool} {id : String} :
    lone? routines condition = some id ↔ Lone routines condition id := by
  rw [lone?, Lone]
  split
  next r single => simp [single]
  next several =>
    simp only [reduceCtorEq, false_iff, not_exists, not_and]
    intro r single
    exact absurd single (several r)

namespace Symbols

variable {s : Symbols} {q : Query} {id : String}

theorem through?_eq_some_iff {binding : Import} {name : String} :
    s.through? binding name = some id ↔
      ∃ file, binding.file = some file ∧ s.export? file name = some id := by
  simp [through?, Option.bind_eq_some_iff]

theorem viaImport?_eq_some_iff :
    s.viaImport? q = some id ↔ ImportTarget s.export? q id := by
  cases receiver : q.receiver with
  | some _ => simp [viaImport?, ImportTarget, receiver]
  | none =>
    cases bound : q.imports.find? q.name with
    | none => simp [viaImport?, ImportTarget, receiver, bound]
    | some binding =>
      cases whole : binding.isNamespace with
      | true => simp [viaImport?, ImportTarget, receiver, bound, whole]
      | false => simp [viaImport?, ImportTarget, receiver, bound, whole, through?_eq_some_iff]

theorem viaNamespace?_eq_some_iff :
    s.viaNamespace? q = some id ↔ MemberTarget s.export? q id := by
  cases receiver : q.receiver with
  | none => simp [viaNamespace?, MemberTarget, receiver]
  | some object =>
    cases bound : q.imports.find? object with
    | none => simp [viaNamespace?, MemberTarget, receiver, bound]
    | some binding =>
      cases whole : binding.isNamespace with
      | true => simp [viaNamespace?, MemberTarget, receiver, bound, whole, through?_eq_some_iff]
      | false => simp [viaNamespace?, MemberTarget, receiver, bound, whole]

theorem attempt?_build_iff {routines : List Routine} {defaults : Table String}
    (distinct : defaults.keys.Nodup) {rule : Rule} :
    (build routines defaults).attempt? q rule = some id ↔
      Target (exported? routines defaults) routines q rule id := by
  have exports : (build routines defaults).export? = exported? routines defaults := by
    funext file name
    exact export?_build routines distinct file name
  cases rule with
  | imported =>
    show (build routines defaults).viaImport? q = some id ↔ _
    rw [viaImport?_eq_some_iff, exports]
    rfl
  | member =>
    show (build routines defaults).viaNamespace? q = some id ↔ _
    rw [viaNamespace?_eq_some_iff, exports]
    rfl
  | sameFile =>
    show (build routines defaults).only? q.name (some q.file) = some id ↔ _
    rw [only?_build, lone?_eq_some_iff]
    simp only [Option.all_some, Target, eq_comm (a := q.file)]
  | unique =>
    cases builtin : isBuiltin q.name with
    | true => simp [attempt?, Target, builtin]
    | false => simp [attempt?, Target, builtin, only?_build, lone?_eq_some_iff]

theorem attempt?_build_eq_none_iff {routines : List Routine} {defaults : Table String}
    (distinct : defaults.keys.Nodup) {rule : Rule} :
    (build routines defaults).attempt? q rule = none ↔
      ∀ id, ¬ Target (exported? routines defaults) routines q rule id := by
  rw [Option.eq_none_iff_forall_ne_some]
  exact forall_congr' fun id => not_congr (attempt?_build_iff distinct)

theorem resolve?_eq_some_iff {found : Resolution} :
    s.resolve? q = some found ↔
      (∀ earlier ∈ before found.rule, s.attempt? q earlier = none) ∧
        s.attempt? q found.rule = some found.target := by
  obtain ⟨target, rule⟩ := found
  simp only [resolve?, Rule.all, List.findSome?]
  cases imported : s.attempt? q .imported <;> cases member : s.attempt? q .member <;>
    cases sameFile : s.attempt? q .sameFile <;> cases unique : s.attempt? q .unique <;>
    cases rule <;> simp [before, Rule.all, imported, member, sameFile, unique]

def early? (s : Symbols) (q : Query) : Option Resolution :=
  (before .unique).findSome? fun rule => (s.attempt? q rule).map (⟨·, rule⟩)

theorem resolve?_eq_or (s : Symbols) (q : Query) :
    s.resolve? q = (s.early? q).or ((s.attempt? q .unique).map (⟨·, .unique⟩)) := by
  have split : Rule.all = before .unique ++ [.unique] := rfl
  rw [resolve?, split, List.findSome?_append, List.findSome?_singleton, early?]

theorem early?_congr {t : Symbols}
    (agree : ∀ rule ∈ before .unique, s.attempt? q rule = t.attempt? q rule) :
    s.early? q = t.early? q := by
  have tried : before .unique = [.imported, .member, .sameFile] := rfl
  rw [tried] at agree
  simp only [List.forall_mem_cons] at agree
  obtain ⟨imported, member, sameFile, -⟩ := agree
  rw [early?, early?, tried]
  simp only [List.findSome?_cons, List.findSome?_nil, imported, member, sameFile]

theorem resolve?_eq_none_iff : s.resolve? q = none ↔ ∀ rule, s.attempt? q rule = none := by
  rw [resolve?, List.findSome?_eq_none_iff]
  constructor
  · intro all rule
    have listed : rule ∈ Rule.all := by cases rule <;> decide
    exact Option.map_eq_none_iff.1 (all rule listed)
  · intro all rule _
    rw [all rule]
    rfl

end Symbols

/-! ## Keys of other files -/

/-- What a file exports under a name: its own default export, or else the first routine that claims
    the key. -/
def exportedByFile? (routines : List Routine) (defaults : Table String) (file name : String) :
    Option String :=
  if name = "default" ∧ defaults.has file = true then defaults.find? file
  else claimed? routines (exportKey file name)

/-- The default export of another file has the key of a file and a name. -/
def Borrows (defaults : Table String) (file name id : String) : Prop :=
  ∃ other, other ≠ file ∧ (other, id) ∈ defaults ∧ exportKey other "default" = exportKey file name

/-- By which rule a call looks for a name of a file. -/
inductive Query.Asks (q : Query) : Rule → String → String → Prop where
  | plain {binding : Import} {file : String} :
      q.receiver = none → q.imports.find? q.name = some binding → binding.isNamespace = false →
      binding.file = some file → Asks q .imported file binding.exported
  | member {receiver : String} {binding : Import} {file : String} :
      q.receiver = some receiver → q.imports.find? receiver = some binding →
      binding.isNamespace = true → binding.file = some file → Asks q .member file q.name

section Keys

variable {routines : List Routine} {defaults : Table String} {file name id : String} {q : Query}
  {exports others : String → String → Option String} {rule : Rule}

theorem find?_eq_some_iff_mem (distinct : defaults.keys.Nodup) :
    defaults.find? file = some id ↔ (file, id) ∈ defaults := by
  refine ⟨Table.mem_of_find?, fun member => ?_⟩
  obtain ⟨other, found⟩ := Table.mem_keys_iff.1 (List.mem_map_of_mem member)
  have same : (file, other) = (file, id) :=
    List.inj_on_of_nodup_map distinct (Table.mem_of_find? found) member rfl
  rwa [(Prod.mk.inj same).2] at found

theorem exported?_of_borrows (distinct : defaults.keys.Nodup) (borrows : Borrows defaults file name id) :
    exported? routines defaults file name = some id := by
  obtain ⟨other, -, member, key⟩ := borrows
  rw [exported?, (default?_eq_some_iff distinct).2 ⟨other, member, key⟩, Option.some_or]

theorem exported?_eq_exportedByFile? (distinct : defaults.keys.Nodup)
    (own : ∀ id, ¬ Borrows defaults file name id) :
    exported? routines defaults file name = exportedByFile? routines defaults file name := by
  -- Without a borrowed key only the file itself can have a default export with the key.
  have unborrowed : ∀ id, default? defaults (exportKey file name) = some id ↔
      name = "default" ∧ defaults.find? file = some id := by
    intro id
    rw [default?_eq_some_iff distinct, find?_eq_some_iff_mem distinct]
    constructor
    · rintro ⟨other, member, key⟩
      obtain rfl : other = file := by_contra fun different => own id ⟨other, different, member, key⟩
      exact ⟨by simpa [exportKey] using key.symm, member⟩
    · rintro ⟨rfl, member⟩
      exact ⟨file, member, rfl⟩
  rw [exported?, exportedByFile?, Table.has]
  cases bound : default? defaults (exportKey file name) with
  | some id =>
    obtain ⟨isDefault, found⟩ := (unborrowed id).1 bound
    simp [isDefault, found]
  | none =>
    have absent : ¬ (name = "default" ∧ (defaults.find? file).isSome = true) := by
      rintro ⟨isDefault, found⟩
      obtain ⟨id, found⟩ := Option.isSome_iff_exists.1 found
      exact absurd ((unborrowed id).2 ⟨isDefault, found⟩) (by simp [bound])
    rw [if_neg absent, Option.none_or]

theorem importTarget_iff : ImportTarget exports q id ↔
    ∃ file name, q.Asks .imported file name ∧ exports file name = some id := by
  constructor
  · rintro ⟨plain, binding, file, bound, named, located, exported⟩
    exact ⟨file, binding.exported, .plain plain bound named located, exported⟩
  · rintro ⟨_, _, ⟨plain, bound, named, located⟩, exported⟩
    exact ⟨plain, _, _, bound, named, located, exported⟩

theorem memberTarget_iff : MemberTarget exports q id ↔
    ∃ file name, q.Asks .member file name ∧ exports file name = some id := by
  constructor
  · rintro ⟨receiver, binding, file, called, bound, whole, located, exported⟩
    exact ⟨file, q.name, .member called bound whole located, exported⟩
  · rintro ⟨_, _, _ | ⟨called, bound, whole, located⟩, exported⟩
    exact ⟨_, _, _, called, bound, whole, located, exported⟩

/-- A rule depends on the exports only for what a call asks for by it. -/
theorem target_congr
    (agree : ∀ file name, q.Asks rule file name → exports file name = others file name) :
    Target exports routines q rule id ↔ Target others routines q rule id := by
  have same : (∃ file name, q.Asks rule file name ∧ exports file name = some id) ↔
      ∃ file name, q.Asks rule file name ∧ others file name = some id :=
    exists₂_congr fun file name => and_congr_right fun asks => by rw [agree file name asks]
  cases rule with
  | imported => exact importTarget_iff.trans (same.trans importTarget_iff.symm)
  | member => exact memberTarget_iff.trans (same.trans memberTarget_iff.symm)
  | sameFile => exact .rfl
  | unique => exact .rfl

theorem Query.Asks.target (asks : q.Asks rule file name) (exported : exports file name = some id) :
    Target exports routines q rule id := by
  cases asks with
  | plain plain bound named located =>
    exact importTarget_iff.2 ⟨_, _, .plain plain bound named located, exported⟩
  | member called bound whole located =>
    exact memberTarget_iff.2 ⟨_, _, .member called bound whole located, exported⟩

/-- Nothing is tried before the rule by which a call asks for an export, or it finds nothing. -/
theorem Query.Asks.not_target_of_before (asks : q.Asks rule file name) {earlier : Rule}
    (first : earlier ∈ before rule) : ¬ Target exports routines q earlier id := by
  cases asks with
  | plain => cases first
  | member called =>
    obtain rfl : earlier = .imported := List.mem_singleton.1 first
    rintro ⟨plain, -⟩
    cases called.symm.trans plain

end Keys

namespace Symbols

theorem resolve?_build_eq_some_iff {routines : List Routine} {defaults : Table String}
    (distinct : defaults.keys.Nodup) {q : Query} {rule : Rule} {id : String} :
    (build routines defaults).resolve? q = some ⟨id, rule⟩ ↔
      (∀ earlier ∈ before rule, ∀ other,
        ¬ Target (exported? routines defaults) routines q earlier other) ∧
      Target (exported? routines defaults) routines q rule id := by
  rw [resolve?_eq_some_iff, attempt?_build_iff distinct]
  simp only [attempt?_build_eq_none_iff distinct]

/-- A call is resolved by the first rule whose condition on the routines, the default exports and
    the imports is met, to the routine that meets it, and stays unresolved if no condition is met.
    A call that asks for a key of another file's default export goes to that instead. -/
theorem resolve?_by_first_rule_met (routines : List Routine) (defaults : Table String)
    (distinct : defaults.keys.Nodup) (q : Query) :
    let answer := (build routines defaults).resolve? q
    let Met := Target (exportedByFile? routines defaults) routines q
    ((∀ rule file name id, q.Asks rule file name → ¬ Borrows defaults file name id) →
      (∀ rule id, answer = some ⟨id, rule⟩ ↔
        (∀ earlier ∈ before rule, ∀ other, ¬ Met earlier other) ∧ Met rule id) ∧
      (answer = none ↔ ∀ rule id, ¬ Met rule id)) ∧
    ∀ rule file name id, q.Asks rule file name → Borrows defaults file name id →
      answer = some ⟨id, rule⟩ := by
  intro answer Met
  constructor
  · intro own
    have met : ∀ rule id, Target (exported? routines defaults) routines q rule id ↔ Met rule id :=
      fun rule id => target_congr fun file name asks =>
        exported?_eq_exportedByFile? distinct fun id => own rule file name id asks
    constructor
    · intro rule id
      rw [resolve?_build_eq_some_iff distinct]
      simp only [met]
    · rw [resolve?_eq_none_iff]
      simp only [attempt?_build_eq_none_iff distinct, met]
  · intro rule file name id asks borrows
    refine (resolve?_build_eq_some_iff distinct).2 ⟨fun earlier first other => ?_, ?_⟩
    · exact asks.not_target_of_before first
    · exact asks.target (exported?_of_borrows distinct borrows)

/-- A declared default export takes precedence over a method that is called `default`. -/
theorem resolve?_by_first_rule_met_default :
    let method : Routine := .ofDefinition "b.js::A.default" "b.js"
      { Definition.spanning "default" .method 1 3 with owner := some "A" }
    let run : Routine := .ofDefinition "b.js::run" "b.js" (.spanning "run" .function 5 9)
    let defaults : Table String := [("b.js", "b.js::run")]
    let q : Query := ⟨"c.js", "start", none, [("start", ⟨"./b", "default", false, some "b.js"⟩)]⟩
    defaults.keys.Nodup ∧
      (∀ rule file name id, q.Asks rule file name → ¬ Borrows defaults file name id) ∧
      (build [method, run] defaults).resolve? q = some ⟨"b.js::run", .imported⟩ := by
  intro method run defaults q
  have distinct : defaults.keys.Nodup := List.nodup_singleton _
  have own : ∀ rule file name id, q.Asks rule file name → ¬ Borrows defaults file name id := by
    rintro rule file name id asks ⟨other, different, member, -⟩
    obtain ⟨rfl, -⟩ := Prod.mk.inj (List.mem_singleton.1 member)
    cases asks with
    | plain _ bound _ located =>
      cases bound
      cases located
      exact different rfl
    | member called => cases called
  refine ⟨distinct, own,
    (((resolve?_by_first_rule_met [method, run] defaults distinct q).1 own).1 _ _).2 ⟨?_, ?_⟩⟩
  · intro earlier member
    cases member
  · exact ⟨rfl, _, "b.js", rfl, rfl, rfl, by decide⟩

/-- The default export of `a.js::b.js` answers for the name `b.js::default` of `a.js`: by file and
    name no rule is met, and yet the call is resolved. -/
theorem default_export_answers_for_its_key :
    let run : Routine := .ofDefinition "a.js::b.js::run" "a.js::b.js" (.spanning "run" .function 1 3)
    let defaults : Table String := [("a.js::b.js", "a.js::b.js::run")]
    let q : Query :=
      ⟨"main.js", "start", none, [("start", ⟨"./a.js", "b.js::default", false, some "a.js"⟩)]⟩
    defaults.keys.Nodup ∧ (∀ rule id, ¬ Target (exportedByFile? [run] defaults) [run] q rule id) ∧
      (build [run] defaults).resolve? q = some ⟨"a.js::b.js::run", .imported⟩ := by
  intro run defaults q
  refine ⟨List.nodup_singleton _, ?_, by decide⟩
  have nothing : exportedByFile? [run] defaults "a.js" "b.js::default" = none := by decide
  intro rule id met
  cases rule with
  | imported =>
    obtain ⟨-, binding, file, bound, -, located, exported⟩ := met
    cases bound
    cases located
    cases nothing.symm.trans exported
  | member =>
    obtain ⟨receiver, -, -, called, -⟩ := met
    cases called
  | sameFile =>
    obtain ⟨r, single, -⟩ := met
    cases single
  | unique =>
    obtain ⟨-, r, single, -⟩ := met
    cases single

end Symbols
end LoadBearing.Scope
