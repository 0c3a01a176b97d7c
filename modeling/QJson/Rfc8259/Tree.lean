import QJson.Rfc8259.Token

/-!
# Parse trees of RFC 8259

A parse tree keeps everything its text shows: the spelling of every token and
the whitespace around it.  Hence `render` is a function, a text belongs to the
language exactly when some valid tree renders to it, and members of an object
stay in source order with duplicates.

An array and an object differ only in whether an entry carries a name, so both
are one constructor with a `Kind`; `Valid` asks for names exactly in objects.
-/

namespace QJson.Rfc8259

/-- The two containers. -/
inductive Kind where
  | arr
  | obj
  deriving DecidableEq, Repr

/-- `begin-array` or `begin-object`. -/
def Kind.opener : Kind → UInt8
  | .arr => 0x5B
  | .obj => 0x7B

/-- `end-array` or `end-object`. -/
def Kind.closer : Kind → UInt8
  | .arr => 0x5D
  | .obj => 0x7D

/-- The name of a member with the whitespace around its string, up to and with
the name separator: `before "body" after :`. -/
structure Name where
  before : Bytes
  body : Bytes
  after : Bytes
  deriving DecidableEq, Repr

/-- The text of a member name. -/
def Name.render (name : Name) : Bytes :=
  name.before ++ 0x22 :: (name.body ++ 0x22 :: (name.after ++ [0x3A]))

/-- The text of an optional name. -/
def nameText : Option Name → Bytes
  | none => []
  | some name => name.render

mutual
/-- `value` of RFC 8259 §3: a scalar token, a string, an empty container, or
a container with at least one entry. -/
inductive Tree where
  | scalar (token : Bytes)
  | str (body : Bytes)
  | empty (kind : Kind) (blank : Bytes)
  | node (kind : Kind) (entries : Entries)

/-- A non-empty comma-separated list of entries, each an optional name and a
value with the whitespace around it. -/
inductive Entries where
  | last (name : Option Name) (before : Bytes) (value : Tree) (after : Bytes)
  | more (name : Option Name) (before : Bytes) (value : Tree) (after : Bytes)
      (rest : Entries)
end

mutual
/-- The text of a value, without surrounding whitespace. -/
def Tree.render : Tree → Bytes
  | .scalar token => token
  | .str body => 0x22 :: (body ++ [0x22])
  | .empty kind blank => kind.opener :: (blank ++ [kind.closer])
  | .node kind entries => kind.opener :: (entries.render ++ [kind.closer])

/-- The text between the brackets of a non-empty container. -/
def Entries.render : Entries → Bytes
  | .last name before value after =>
      nameText name ++ (before ++ (value.render ++ after))
  | .more name before value after rest =>
      nameText name ++ (before ++ (value.render ++ (after ++ 0x2C :: rest.render)))
end

/-- Names occur exactly in objects, and are well-formed strings. -/
def nameValid : Kind → Option Name → Prop
  | .arr, none => True
  | .obj, some name => IsBlank name.before ∧ IsBody name.body ∧ IsBlank name.after
  | _, _ => False

mutual
/-- Every token of the tree is a token of the grammar and every gap is
whitespace. -/
def Tree.Valid : Tree → Prop
  | .scalar token => IsScalar token
  | .str body => IsBody body
  | .empty _ blank => IsBlank blank
  | .node kind entries => entries.Valid kind

/-- The entries of a container of the given kind are well formed. -/
def Entries.Valid (kind : Kind) : Entries → Prop
  | .last name before value after =>
      nameValid kind name ∧ IsBlank before ∧ value.Valid ∧ IsBlank after
  | .more name before value after rest =>
      nameValid kind name ∧ IsBlank before ∧ value.Valid ∧ IsBlank after ∧
        rest.Valid kind
end

mutual
/-- How many brackets are open at once inside the value. -/
def Tree.depth : Tree → Nat
  | .scalar _ => 0
  | .str _ => 0
  | .empty _ _ => 1
  | .node _ entries => entries.depth + 1

/-- The greatest depth among the entries. -/
def Entries.depth : Entries → Nat
  | .last _ _ value _ => value.depth
  | .more _ _ value _ rest => max value.depth rest.depth
end

/-- `JSON-text = ws value ws`: the tree is a parse tree of the whole buffer. -/
def Tree.Parses (tree : Tree) (buf : Bytes) : Prop :=
  tree.Valid ∧ ∃ before after, IsBlank before ∧ IsBlank after ∧
    buf = before ++ (tree.render ++ after)

/-- A buffer of the language, nested at most `maxDepth` brackets deep. -/
def IsText (maxDepth : Nat) (buf : Bytes) : Prop :=
  ∃ tree : Tree, tree.Parses buf ∧ tree.depth ≤ maxDepth

/-! ## Children -/

/-- One entry of a container. -/
structure Entry where
  name : Option Name
  before : Bytes
  value : Tree
  after : Bytes

/-- The entries in source order. -/
def Entries.toList : Entries → List Entry
  | .last name before value after => [⟨name, before, value, after⟩]
  | .more name before value after rest =>
      ⟨name, before, value, after⟩ :: rest.toList

/-- The entries of a value; a leaf has none. -/
def Tree.children : Tree → List Entry
  | .scalar _ => []
  | .str _ => []
  | .empty _ _ => []
  | .node _ entries => entries.toList

/-- The kind of a container. -/
def Tree.kind? : Tree → Option Kind
  | .scalar _ => none
  | .str _ => none
  | .empty kind _ => some kind
  | .node kind _ => some kind

/-- The subtree reached by a list of child positions. -/
def Tree.sub? (tree : Tree) : List Nat → Option Tree
  | [] => some tree
  | i :: path =>
      match tree.children[i]? with
      | some entry => entry.value.sub? path
      | none => none

@[simp] theorem Tree.sub?_nil (tree : Tree) : tree.sub? [] = some tree := by
  simp [Tree.sub?]

theorem Tree.sub?_cons (tree : Tree) (i : Nat) (path : List Nat) :
    tree.sub? (i :: path) =
      (tree.children[i]?).bind fun entry => entry.value.sub? path := by
  rw [Tree.sub?]
  cases tree.children[i]? <;> rfl

theorem Tree.sub?_append (tree : Tree) (left right : List Nat) :
    tree.sub? (left ++ right) =
      (tree.sub? left).bind fun inner => inner.sub? right := by
  induction left generalizing tree with
  | nil => simp
  | cons i left ih =>
      rw [List.cons_append, sub?_cons, sub?_cons]
      cases tree.children[i]? with
      | none => rfl
      | some entry => exact ih entry.value

/-! ## Validity and depth of children -/

theorem Entries.valid_of_mem {kind : Kind} {entries : Entries} {entry : Entry}
    (valid : entries.Valid kind) (member : entry ∈ entries.toList) :
    nameValid kind entry.name ∧ IsBlank entry.before ∧ entry.value.Valid ∧
      IsBlank entry.after := by
  match entries with
  | .last name before value after =>
      simp only [Entries.Valid] at valid
      simp only [toList, List.mem_singleton] at member
      subst member
      exact valid
  | .more name before value after rest =>
      simp only [Entries.Valid] at valid
      simp only [toList, List.mem_cons] at member
      rcases member with rfl | tail
      · exact ⟨valid.1, valid.2.1, valid.2.2.1, valid.2.2.2.1⟩
      · exact valid_of_mem valid.2.2.2.2 tail

theorem Entries.depth_le_of_mem {entries : Entries} {entry : Entry}
    (member : entry ∈ entries.toList) : entry.value.depth ≤ entries.depth := by
  match entries with
  | .last name before value after =>
      simp only [toList, List.mem_singleton] at member
      subst member
      simp [Entries.depth]
  | .more name before value after rest =>
      simp only [toList, List.mem_cons] at member
      simp only [Entries.depth]
      rcases member with rfl | tail
      · exact Nat.le_max_left _ _
      · exact (depth_le_of_mem tail).trans (Nat.le_max_right _ _)

theorem Tree.valid_of_sub? {tree inner : Tree} {path : List Nat}
    (valid : tree.Valid) (found : tree.sub? path = some inner) :
    inner.Valid ∧ inner.depth ≤ tree.depth := by
  induction path generalizing tree with
  | nil =>
      simp only [sub?_nil, Option.some.injEq] at found
      exact found ▸ ⟨valid, le_refl _⟩
  | cons i path ih =>
      rw [sub?_cons] at found
      obtain ⟨entry, child, reached⟩ := Option.bind_eq_some_iff.1 found
      have member : entry ∈ tree.children := List.mem_of_getElem? child
      cases tree with
      | scalar _ => simp [children] at member
      | str _ => simp [children] at member
      | empty _ _ => simp [children] at member
      | node kind entries =>
          simp only [Tree.Valid] at valid
          obtain ⟨-, -, childValid, -⟩ := entries.valid_of_mem valid member
          obtain ⟨innerValid, shallow⟩ := ih childValid reached
          refine ⟨innerValid, shallow.trans ?_⟩
          simp only [Tree.depth]
          exact (Entries.depth_le_of_mem member).trans (Nat.le_succ _)

theorem Tree.not_isBlank_render (tree : Tree) (valid : tree.Valid) :
    ¬ IsBlank tree.render := by
  intro blank
  cases tree with
  | scalar token =>
      simp only [Tree.Valid] at valid
      simp only [Tree.render] at blank
      obtain ⟨b, rest, rfl⟩ := List.exists_cons_of_ne_nil valid.ne_nil
      have ink := (valid.isInk b (by simp)).1
      rw [blank b (by simp)] at ink
      cases ink
  | str body => simp [Tree.render, isWs] at blank
  | empty kind _ => cases kind <;> simp [Tree.render, Kind.opener, isWs] at blank
  | node kind _ => cases kind <;> simp [Tree.render, Kind.opener, isWs] at blank

theorem Tree.render_ne_nil (tree : Tree) (valid : tree.Valid) : tree.render ≠ [] := by
  intro empty
  exact tree.not_isBlank_render valid (empty ▸ isBlank_nil)

theorem Entries.not_isBlank_render {kind : Kind} (entries : Entries)
    (valid : entries.Valid kind) : ¬ IsBlank entries.render := by
  intro blank
  cases entries with
  | last name before value after =>
      simp only [Entries.Valid] at valid
      simp only [Entries.render, isBlank_append] at blank
      exact value.not_isBlank_render valid.2.2.1 blank.2.2.1
  | more name before value after rest =>
      simp only [Entries.Valid] at valid
      simp only [Entries.render, isBlank_append] at blank
      exact value.not_isBlank_render valid.2.2.1 blank.2.2.1

end QJson.Rfc8259
