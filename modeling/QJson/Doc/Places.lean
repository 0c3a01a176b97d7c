import QJson.Doc.Cursor

/-!
# Where the nodes of a document stand

A node of the parse tree is addressed by its list of child positions.  From the
tree alone one can compute at which byte and at which entry of the structural
index a node stands (`Tree.locate`), and hence the cursor that denotes it.
Distinct nodes have distinct cursors.
-/

namespace QJson.Doc

open Rfc8259

/-- A node with the byte its text starts at and the index entry its cursor
starts at. -/
structure Place where
  node : Tree
  pos : Nat
  ix : Nat

/-- A child of a container: its entry, the index position of the entry's first
marker, and the place of its value. -/
structure Child where
  entry : Entry
  keyIx : Nat
  pos : Nat
  ix : Nat

/-- The place of a child's value. -/
def Child.place (child : Child) : Place := ⟨child.entry.value, child.pos, child.ix⟩

/-- The index position of the separator behind a child. -/
def Child.sepIx (child : Child) : Nat := child.ix + child.entry.value.signs.length

/-- The children of a container whose entries start at byte `p` and index
position `ix`. -/
def entriesChildren (p ix : Nat) : Entries → List Child
  | .last name before value after =>
      [⟨⟨name, before, value, after⟩, ix, valueStart p name before,
        ix + (nameSigns name).length⟩]
  | .more name before value after rest =>
      ⟨⟨name, before, value, after⟩, ix, valueStart p name before,
        ix + (nameSigns name).length⟩ ::
        entriesChildren (separator p name before value after + 1)
          (ix + (nameSigns name).length + value.signs.length + 1) rest

/-- The children of a node. -/
def Place.children (place : Place) : List Child :=
  match place.node with
  | .node _ entries => entriesChildren (place.pos + 1) (place.ix + 1) entries
  | _ => []

/-- The place of the descendant at a list of child positions. -/
def Place.locate (place : Place) : List Nat → Option Place
  | [] => some place
  | i :: path =>
      match place.children[i]? with
      | some child => child.place.locate path
      | none => none

/-- `idx_end` of the cursor of a node at index position `ix`. -/
def lastIx (node : Tree) (ix : Nat) : Nat :=
  if node.signs.isEmpty then ix + 1 else ix + node.signs.length - 1

/-- The cursor of a node. -/
def Place.cursor (place : Place) : Cursor :=
  ⟨place.ix, lastIx place.node place.ix⟩

/-- The cursor stands for the node at `path`. -/
def Denotes (root : Place) (cur : Cursor) (path : List Nat) : Prop :=
  ∃ place, root.locate path = some place ∧ place.cursor = cur

theorem Place.locate_cons (place : Place) (i : Nat) (path : List Nat) :
    place.locate (i :: path) =
      (place.children[i]?).bind fun child => child.place.locate path := by
  rw [Place.locate]
  cases place.children[i]? <;> rfl

@[simp] theorem Place.locate_nil (place : Place) : place.locate [] = some place := by
  simp [Place.locate]

theorem Place.locate_append (place : Place) (left right : List Nat) :
    place.locate (left ++ right) =
      (place.locate left).bind fun inner => inner.locate right := by
  induction left generalizing place with
  | nil => simp
  | cons i left ih =>
      rw [List.cons_append, locate_cons, locate_cons]
      cases place.children[i]? with
      | none => rfl
      | some child => exact ih child.place

theorem entriesChildren_map_entry (entries : Entries) (p ix : Nat) :
    (entriesChildren p ix entries).map Child.entry = entries.toList := by
  match entries with
  | .last _ _ _ _ => rfl
  | .more _ _ _ _ rest =>
      simp [entriesChildren, Entries.toList, entriesChildren_map_entry rest]

theorem Place.children_map_entry (place : Place) :
    place.children.map Child.entry = place.node.children := by
  unfold Place.children Tree.children
  split
  · rename_i spelled
    rw [spelled]
    exact entriesChildren_map_entry _ _ _
  · rename_i other
    cases shape : place.node with
    | node kind entries => exact absurd shape (other kind entries)
    | _ => rfl

/-- The located node is the subtree at the path. -/
theorem Place.locate_node {place inner : Place} {path : List Nat}
    (found : place.locate path = some inner) :
    place.node.sub? path = some inner.node := by
  induction path generalizing place with
  | nil =>
      simp only [locate_nil, Option.some.injEq] at found
      simp [found]
  | cons i path ih =>
      rw [locate_cons] at found
      obtain ⟨child, at_, deeper⟩ := Option.bind_eq_some_iff.1 found
      have entry : place.node.children[i]? = some child.entry := by
        rw [← children_map_entry, List.getElem?_map, at_]
        rfl
      rw [Tree.sub?_cons, entry]
      exact ih deeper

/-! ## Distinct nodes have distinct index positions -/

theorem length_signs_node (kind : Kind) (entries : Entries) :
    (Rfc8259.Tree.node kind entries).signs.length = entries.signs.length + 2 := by
  simp [Tree.signs]

theorem entriesChildren_bounds (entries : Entries) (p ix : Nat) :
    (∀ child ∈ entriesChildren p ix entries,
      ix ≤ child.keyIx ∧ child.keyIx ≤ child.ix ∧
        child.sepIx ≤ ix + entries.signs.length) ∧
      (entriesChildren p ix entries).Pairwise fun left right =>
        left.sepIx < right.keyIx := by
  match entries with
  | .last name before value after =>
      constructor
      · simp [entriesChildren, Entries.signs, Child.sepIx]
        omega
      · simp [entriesChildren]
  | .more name before value after rest =>
      obtain ⟨inside, ordered⟩ := entriesChildren_bounds rest
        (separator p name before value after + 1)
        (ix + (nameSigns name).length + value.signs.length + 1)
      simp only [entriesChildren, Entries.signs, List.mem_cons, forall_eq_or_imp,
        List.pairwise_cons, List.length_append, List.length_cons]
      refine ⟨⟨?_, fun child member => ?_⟩, fun child member => ?_, ordered⟩
      · simp only [Child.sepIx]
        omega
      · have := inside child member
        omega
      · have := inside child member
        simp only [Child.sepIx] at this ⊢
        omega

theorem Place.children_bounds (place : Place) :
    (∀ child ∈ place.children,
      place.ix < child.keyIx ∧ child.keyIx ≤ child.ix ∧
        child.sepIx < place.ix + place.node.signs.length) ∧
      place.children.Pairwise fun left right => left.sepIx < right.keyIx := by
  cases shape : place.node with
  | node kind entries =>
      obtain ⟨inside, ordered⟩ :=
        entriesChildren_bounds entries (place.pos + 1) (place.ix + 1)
      simp only [Place.children, shape, length_signs_node]
      refine ⟨fun child member => ?_, ordered⟩
      have := inside child member
      omega
  | _ => simp [Place.children, shape]

/-- A descendant stands inside its ancestor. -/
theorem Place.locate_bounds {place inner : Place} {path : List Nat}
    (found : place.locate path = some inner) :
    place.ix ≤ inner.ix ∧ inner.ix ≤ place.ix + place.node.signs.length ∧
      (path ≠ [] → place.ix < inner.ix) := by
  induction path generalizing place with
  | nil =>
      simp only [locate_nil, Option.some.injEq] at found
      subst found
      simp
  | cons i path ih =>
      rw [locate_cons] at found
      obtain ⟨child, at_, deeper⟩ := Option.bind_eq_some_iff.1 found
      have inside := place.children_bounds.1 child (List.mem_of_getElem? at_)
      obtain ⟨low, high, -⟩ := ih deeper
      simp only [Child.place, Child.sepIx] at inside low high
      refine ⟨by omega, by omega, fun _ => by omega⟩

/-- An index position belongs to one node only. -/
theorem Place.path_unique {place left right : Place} {path path' : List Nat}
    (found : place.locate path = some left) (found' : place.locate path' = some right)
    (same : left.ix = right.ix) : path = path' := by
  induction path generalizing place path' with
  | nil =>
      simp only [locate_nil, Option.some.injEq] at found
      subst found
      by_contra different
      have := (locate_bounds found').2.2 (Ne.symm different)
      omega
  | cons i path ih =>
      cases path' with
      | nil =>
          simp only [locate_nil, Option.some.injEq] at found'
          subst found'
          have := (locate_bounds found).2.2 (by simp)
          omega
      | cons j path' =>
          rw [locate_cons] at found found'
          obtain ⟨child, at_, deeper⟩ := Option.bind_eq_some_iff.1 found
          obtain ⟨child', at_', deeper'⟩ := Option.bind_eq_some_iff.1 found'
          obtain ⟨inside, ordered⟩ := place.children_bounds
          have here := inside child (List.mem_of_getElem? at_)
          have here' := inside child' (List.mem_of_getElem? at_')
          obtain ⟨low, high, -⟩ := locate_bounds deeper
          obtain ⟨low', high', -⟩ := locate_bounds deeper'
          simp only [Child.place] at low high low' high'
          obtain ⟨small, rfl⟩ := List.getElem?_eq_some_iff.1 at_
          obtain ⟨small', rfl⟩ := List.getElem?_eq_some_iff.1 at_'
          have sameChild : i = j := by
            rcases Nat.lt_trichotomy i j with before | rfl | after
            · have := List.pairwise_iff_getElem.1 ordered i j small small' before
              simp only [Child.sepIx] at this
              omega
            · rfl
            · have := List.pairwise_iff_getElem.1 ordered j i small' small after
              simp only [Child.sepIx] at this
              omega
          subst sameChild
          rw [ih deeper deeper']

/-- A cursor denotes at most one node. -/
theorem Denotes.unique {root : Place} {cur : Cursor} {path path' : List Nat}
    (denotes : Denotes root cur path) (denotes' : Denotes root cur path') :
    path = path' := by
  obtain ⟨left, found, rfl⟩ := denotes
  obtain ⟨right, found', same⟩ := denotes'
  exact Place.path_unique found found' (congrArg Cursor.idxStart same).symm

end QJson.Doc
