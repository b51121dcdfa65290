import LoadBearing.Source.Construct

/-! # Syntax trees

The tree that a parser made of a source text.  A node knows its kind, the field it fills in its
parent and the bytes it covers.  Two nodes of a tree may look alike, so a node is told from others by
its *place*: the positions of the children on the way down to it.  A `Part` of a node is a node
somewhere below it, with its place: every walk that only steps to parts comes to an end.
-/

namespace LoadBearing

structure Node where
  kind : String
  /-- whether the node stands for a construct and not for a token -/
  named : Bool
  /-- the role in the parent, or empty -/
  field : String
  /-- the first byte -/
  start : Nat
  /-- the byte after the last -/
  stop : Nat
  children : List Node
  deriving Repr

namespace Node

def construct (n : Node) : Construct := .ofKind n.kind

mutual

def size : Node → Nat
  | ⟨_, _, _, _, _, children⟩ => 1 + sizeAll children

def sizeAll : List Node → Nat
  | [] => 0
  | n :: rest => n.size + sizeAll rest

end

theorem size_le_sizeAll {n : Node} {nodes : List Node} (h : n ∈ nodes) :
    n.size ≤ sizeAll nodes := by
  induction nodes with
  | nil => cases h
  | cons first rest ih =>
    rw [sizeAll]
    cases h with
    | head => omega
    | tail _ h => have := ih h; omega

theorem size_child_lt {part whole : Node} (h : part ∈ whole.children) : part.size < whole.size := by
  obtain ⟨_, _, _, _, _, children⟩ := whole
  have : part.size ≤ sizeAll children := size_le_sizeAll h
  rw [size]
  omega

def at? : Node → List Nat → Option Node
  | n, [] => some n
  | n, position :: rest => n.children[position]?.bind fun child => child.at? rest

theorem at?_append (n : Node) (outer inner : List Nat) :
    n.at? (outer ++ inner) = (n.at? outer).bind fun between => between.at? inner := by
  induction outer generalizing n with
  | nil => rfl
  | cons position rest ih =>
    rw [List.cons_append, at?, at?]
    cases n.children[position]? with
    | none => rfl
    | some child => exact ih child

theorem size_le_of_at? {part whole : Node} {place : List Nat} (h : whole.at? place = some part) :
    part.size ≤ whole.size := by
  induction place generalizing whole with
  | nil =>
    cases h
    exact Nat.le_refl _
  | cons position rest ih =>
    obtain ⟨child, found, h⟩ := Option.bind_eq_some_iff.1 h
    exact Nat.le_trans (ih h) (Nat.le_of_lt (size_child_lt (List.mem_of_getElem? found)))

end Node

/-! ## Parts -/

/-- A node in another one: the other one itself, or a node below it. -/
structure Spot (whole : Node) where
  node : Node
  place : List Nat
  found : whole.at? place = some node

/-- A node below another one. -/
structure Part (whole : Node) extends Spot whole where
  /-- the kind of the node that holds it -/
  parent : String
  proper : place ≠ []

theorem Spot.size_le {whole : Node} (spot : Spot whole) : spot.node.size ≤ whole.size :=
  Node.size_le_of_at? spot.found

theorem Part.size_lt {whole : Node} (part : Part whole) : part.node.size < whole.size := by
  obtain ⟨⟨node, place, found⟩, parent, proper⟩ := part
  cases place with
  | nil => exact absurd rfl proper
  | cons position rest =>
    obtain ⟨child, isChild, found⟩ := Option.bind_eq_some_iff.1 found
    exact Nat.lt_of_le_of_lt (Node.size_le_of_at? found)
      (Node.size_child_lt (List.mem_of_getElem? isChild))

def Spot.self (n : Node) : Spot n := ⟨n, [], rfl⟩

def Spot.within {whole : Node} (outer : Part whole) (inner : Spot outer.node) : Spot whole where
  node := inner.node
  place := outer.place ++ inner.place
  found := by rw [Node.at?_append, outer.found, Option.bind_some, inner.found]

def Part.within {whole : Node} (outer : Part whole) (inner : Part outer.node) : Part whole where
  toSpot := inner.toSpot.within outer
  parent := inner.parent
  proper := List.append_ne_nil_of_left_ne_nil outer.proper _

namespace Node

theorem at?_of_mem_zipIdx {n : Node} {entry : Node × Nat} (h : entry ∈ n.children.zipIdx) :
    n.at? [entry.2] = some entry.1 := by
  rw [List.mem_zipIdx_iff_getElem?] at h
  rw [at?, h]
  rfl

def parts (n : Node) : List (Part n) :=
  n.children.zipIdx.attach.map fun entry =>
    { node := entry.val.1
      place := [entry.val.2]
      found := at?_of_mem_zipIdx entry.property
      parent := n.kind
      proper := List.cons_ne_nil _ _ }

def namedParts (n : Node) : List (Part n) :=
  n.parts.filter fun part => part.node.named

/-- The first child that fills a field. -/
def part? (n : Node) (field : String) : Option (Part n) :=
  n.parts.find? fun part => part.node.field = field

end Node

namespace Part

variable {whole : Node}

def namedParts (outer : Part whole) : List (Part whole) :=
  outer.node.namedParts.map outer.within

def part? (outer : Part whole) (field : String) : Option (Part whole) :=
  (outer.node.part? field).map outer.within

def construct (part : Part whole) : Construct := part.node.construct

def kind (part : Part whole) : String := part.node.kind

end Part

/-! ## Listings

A tree is stored as its nodes in pre-order, each with its depth.
-/

structure TreeRow where
  depth : Nat
  kind : String
  named : Bool
  field : String
  start : Nat
  stop : Nat
  deriving Repr

/-- Puts the node of a row before the trees that follow it; the deeper ones right after it are its
    children. -/
def TreeRow.attach (row : TreeRow) (later : List (Nat × Node)) : List (Nat × Node) :=
  let children := (later.takeWhile fun tree => row.depth < tree.1).map Prod.snd
  let rest := later.dropWhile fun tree => row.depth < tree.1
  (row.depth, ⟨row.kind, row.named, row.field, row.start, row.stop, children⟩) :: rest

def Node.ofRows? (rows : List TreeRow) : Option Node :=
  (rows.foldr TreeRow.attach []).head?.map Prod.snd

end LoadBearing
