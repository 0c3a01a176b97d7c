import QJson.Doc.Walks

/-!
# Navigation against the parse tree

The abstract meaning of navigation is a function on parse trees: `Tree.select`
says which child a segment selects, `Tree.follow` where a path leads.  Over a
document that represents a tree, the calls on the cursor of a node return the
cursor of the child the tree function selects, whatever a sound skip cache
holds, and they keep the cache sound.
-/

namespace QJson.Doc

open Rfc8259 Validate

/-! ## The abstract navigation -/

/-- The JSON type of a value. -/
def nodeType : Tree → QjsonType
  | .scalar token =>
      if token = litTrue ∨ token = litFalse then .bool
      else if token = litNull then .null
      else .num
  | .str _ => .str
  | .empty .arr _ | .node .arr _ => .arr
  | .empty .obj _ | .node .obj _ => .obj

theorem kind_of_nodeType {tree : Tree} :
    (nodeType tree = .obj → tree.kind? = some .obj) ∧
      (nodeType tree = .arr → tree.kind? = some .arr) := by
  cases tree with
  | scalar token =>
      rw [nodeType]
      split
      · simp
      · split <;> simp
  | str body => simp [nodeType]
  | empty kind blank => cases kind <;> simp [nodeType, Tree.kind?]
  | node kind entries => cases kind <;> simp [nodeType, Tree.kind?]

/-- The position of the child a segment selects: the first member with the given
raw name, or the element with the given position. -/
def select (tree : Tree) : PathSeg → Except QjsonErr Nat
  | .key want =>
      if tree.kind? = some .obj then
        match tree.children.findIdx? fun entry =>
            entry.name.map Name.body == some want with
        | some i => .ok i
        | none => .error .notFound
      else .error .typeMismatch
  | .idx n =>
      if tree.kind? = some .arr then
        if n < tree.children.length then .ok n else .error .notFound
      else .error .typeMismatch

/-- Where a path of segments leads from a value. -/
def follow (tree : Tree) (path : Bytes) : Except QjsonErr (List Nat) :=
  match _ : pathNext path with
  | none => .ok []
  | some (.error error) => .error error
  | some (.ok (seg, rest)) =>
      match select tree seg with
      | .error error => .error error
      | .ok i =>
          match tree.children[i]? with
          | none => .error .notFound
          | some entry => (follow entry.value rest).map (i :: ·)
termination_by path.length
decreasing_by exact pathNext_shorter ‹_›

/-- A call returns the cursor of the node at the path the tree function gives, or
the same error. -/
def Returns (root : Place) (base : List Nat) (result : Rust QjsonErr Cursor)
    (meaning : Except QjsonErr (List Nat)) : Prop :=
  match meaning with
  | .ok path => ∃ cur, result = .ok cur ∧ Denotes root cur (base ++ path)
  | .error error => result = fail error

/-! ## Documents and the trees they represent -/

/-- The place of the root value. -/
def rootPlace (tree : Tree) (start : Nat) : Place := ⟨tree, start, 0⟩

/-- A document holds the text of a tree and its marks. -/
structure Represents (doc : Document) (tree : Tree) (start : Nat) : Prop where
  valid : tree.Valid
  text : ∃ before after, IsBlank before ∧ IsBlank after ∧
    doc.buf = before ++ (tree.render ++ after) ∧ start = before.length
  indices : doc.indices = tree.marks start ++ [u32Max]
  small : doc.buf.length < u32Max

/-- The same when anything may follow an array or an object, as long as it has no
marks. -/
structure Stands (doc : Document) (tree : Tree) (start : Nat) : Prop where
  valid : tree.Valid
  text : ∃ before after, IsBlank before ∧ (tree.kind? = none → IsBlank after) ∧
    doc.buf = before ++ (tree.render ++ after) ∧ start = before.length
  indices : doc.indices = tree.marks start ++ [u32Max]
  small : doc.buf.length < u32Max

theorem Represents.stands {doc : Document} {tree : Tree} {start : Nat}
    (rep : Represents doc tree start) : Stands doc tree start := by
  obtain ⟨before, after, beforeBlank, afterBlank, text, at_⟩ := rep.text
  exact ⟨rep.valid, ⟨before, after, beforeBlank, fun _ => afterBlank, text, at_⟩, rep.indices,
    rep.small⟩

theorem length_nameSigns_le (name : Option Name) :
    (nameSigns name).length ≤ (nameText name).length := by
  cases name with
  | none => simp [nameSigns]
  | some name =>
      simp only [nameSigns, nameText, Name.render, List.length_cons, List.length_append,
        List.length_nil]
      omega

mutual
theorem Tree.length_signs_le (tree : Tree) : tree.signs.length ≤ tree.render.length := by
  cases tree with
  | scalar token => simp [Tree.signs]
  | str body => simp [Tree.signs, Tree.render]
  | empty kind blank => simp [Tree.signs, Tree.render]
  | node kind entries =>
      have := Entries.length_signs_le entries
      simp only [Tree.signs, Tree.render, List.length_cons, List.length_append,
        List.length_nil]
      omega

theorem Entries.length_signs_le (entries : Entries) :
    entries.signs.length ≤ entries.render.length := by
  cases entries with
  | last name before value after =>
      have := Tree.length_signs_le value
      have := length_nameSigns_le name
      simp only [Entries.signs, Entries.render, List.length_append]
      omega
  | more name before value after rest =>
      have := Tree.length_signs_le value
      have := length_nameSigns_le name
      have := Entries.length_signs_le rest
      simp only [Entries.signs, Entries.render, List.length_append, List.length_cons]
      omega
end

section Represented

variable {doc : Document} {tree : Tree} {start : Nat} (rep : Stands doc tree start)
include rep

theorem Stands.length_indices :
    doc.indices.length = tree.signs.length + 1 ∧ doc.indices.length < 2 ^ 32 := by
  obtain ⟨before, after, -, -, text, -⟩ := rep.text
  have small := rep.small
  have marks := Tree.length_signs_le tree
  rw [text] at small
  simp only [List.length_append, u32Max] at small
  have length : doc.indices.length = tree.signs.length + 1 := by
    rw [rep.indices, List.length_append, Tree.length_marks]
    rfl
  exact ⟨length, by omega⟩

theorem Stands.sits : Sits doc (rootPlace tree start) := by
  obtain ⟨before, after, -, -, text, at_⟩ := rep.text
  exact ⟨rep.valid, ⟨before, after, text, at_⟩, ⟨[u32Max], by simp [rep.indices, rootPlace]⟩⟩

/-- Every node below the root is a child that stands in the document. -/
theorem Stands.locate {path : List Nat} {place : Place}
    (found : (rootPlace tree start).locate path = some place) :
    Sits doc place ∧ (path = [] ∧ place = rootPlace tree start ∨
      ∃ kind child sep p, ChildAt doc kind child sep p ∧ child.place = place) := by
  induction path using List.reverseRecOn generalizing place with
  | nil =>
      simp only [Place.locate_nil, Option.some.injEq] at found
      exact ⟨found ▸ rep.sits, .inl ⟨rfl, found.symm⟩⟩
  | append_singleton path i ih =>
      rw [Place.locate_append] at found
      obtain ⟨parent, parentAt, deeper⟩ := Option.bind_eq_some_iff.1 found
      obtain ⟨parentSits, -⟩ := ih parentAt
      rw [Place.locate_cons] at deeper
      obtain ⟨child, childAt, last⟩ := Option.bind_eq_some_iff.1 deeper
      simp only [Place.locate_nil, Option.some.injEq] at last
      have member := List.mem_of_getElem? childAt
      cases parent with
      | mk node pos ix =>
          cases node with
          | node kind entries =>
              obtain ⟨sep, p, at_⟩ := parentSits.entriesAt.childAt member
              exact ⟨last ▸ at_.sits, .inr ⟨kind, child, sep, p, at_, last⟩⟩
          | _ => simp [Place.children] at member

/-- The root cursor denotes the root value. -/
theorem Stands.root : Cursor.root doc = (rootPlace tree start).cursor := by
  obtain ⟨length, small⟩ := rep.length_indices
  have indices := rep.indices
  cases spelled : tree with
  | scalar token =>
      rw [spelled] at indices
      simp [Cursor.root, indices, Tree.marks, Place.cursor, rootPlace, lastIx, Tree.signs]
  | _ =>
      have reads := rep.sits.reads
      have two : 2 ≤ tree.signs.length := by simp [spelled, Tree.signs]
      obtain ⟨b, signs, signsEq⟩ := List.exists_cons_of_length_pos
        (by omega : 0 < tree.signs.length)
      simp only [rootPlace] at reads
      rw [signsEq] at reads
      obtain ⟨first, marks, marksEq, byte, -⟩ := exists_of_reads_cons reads
      have real := ne_u32Max_of_getElem? rep.small byte
      rw [← spelled]
      rw [marksEq] at indices
      have head : doc.indices.head? ≠ some u32Max := by
        rw [indices]
        simpa using real
      have wide : u32 doc.indices.length = doc.indices.length := u32_of_lt small
      have last : u32 (doc.indices.length + 2 ^ 32 - 2) = tree.signs.length - 1 := by
        unfold u32
        omega
      rw [Cursor.root, if_neg head, wide, if_neg (by omega), last]
      simp [Place.cursor, rootPlace, lastIx, signsEq]

end Represented

/-! ## The accessors at a node -/

section Accessors

variable {doc : Document} {tree : Tree} {start : Nat} {path : List Nat} {place : Place}

/-- The first byte of a scalar tells its type. -/
theorem scalarTypeAt_eq {token front tail : Bytes} (scalar : IsScalar token) {pos : Nat}
    (at_ : pos = front.length) (text : doc.buf = front ++ (token ++ tail)) :
    scalarTypeAt doc pos = .ok (nodeType (.scalar token)) := by
  obtain ⟨b, rest, rfl⟩ := List.exists_cons_of_ne_nil scalar.ne_nil
  have byte : doc.buf[pos]? = some b := by
    rw [text]
    exact getElem?_at at_
  rw [scalarTypeAt, byte]
  generalize spelled : b :: rest = token at scalar
  cases scalar with
  | true =>
      obtain ⟨rfl, rfl⟩ := List.cons.inj spelled
      rfl
  | false =>
      obtain ⟨rfl, rfl⟩ := List.cons.inj spelled
      rfl
  | null =>
      obtain ⟨rfl, rfl⟩ := List.cons.inj spelled
      rfl
  | number number =>
      obtain ⟨first, digits, rfl, numeric⟩ := number.exists_cons
      obtain ⟨rfl, rfl⟩ := List.cons.inj spelled
      have notT : b ≠ 0x74 := by
        rintro rfl
        exact absurd numeric (by decide)
      have notF : b ≠ 0x66 := by
        rintro rfl
        exact absurd numeric (by decide)
      have notN : b ≠ 0x6E := by
        rintro rfl
        exact absurd numeric (by decide)
      simp [nodeType, litTrue, litFalse, litNull, notT, notF, notN, numeric]

/-- Only the cursor of a scalar root is special. -/
theorem isRootScalarCursor_eq (rep : Stands doc tree start)
    (found : (rootPlace tree start).locate path = some place) :
    isRootScalarCursor doc place.cursor = true ↔
      ∃ token, place.node = .scalar token ∧ path = [] := by
  have lengths := rep.length_indices.1
  have bounds := Place.locate_bounds found
  constructor
  · intro special
    simp only [isRootScalarCursor, Place.cursor, Bool.and_eq_true, beq_iff_eq] at special
    have empty : tree.signs.length = 0 := by
      rw [special.2] at lengths
      simpa using lengths.symm
    have root : path = [] := by
      by_contra deeper
      have := bounds.2.2 deeper
      simp only [rootPlace] at this
      omega
    subst root
    simp only [Place.locate_nil, Option.some.injEq] at found
    subst found
    cases spelled : tree with
    | scalar token => exact ⟨token, by rw [rootPlace], rfl⟩
    | _ => simp [spelled, Tree.signs] at empty
  · rintro ⟨token, spelled, rfl⟩
    simp only [Place.locate_nil, Option.some.injEq] at found
    subst found
    simp only [rootPlace] at spelled
    have indices := rep.indices
    rw [spelled] at indices
    simp [isRootScalarCursor, Place.cursor, rootPlace, indices, Tree.marks]

/-- The byte under the cursor of a scalar below the root is a separator. -/
theorem scalar_lead (rep : Stands doc tree start)
    (found : (rootPlace tree start).locate path = some place) {token : Bytes}
    (spelled : place.node = .scalar token) (below : path ≠ []) :
    (∃ sepPos sep, doc.indices[place.ix]? = some sepPos ∧ doc.buf[sepPos]? = some sep ∧
      sep ≠ 0x7B ∧ sep ≠ 0x5B ∧ sep ≠ 0x22) ∧
      findScalarStart doc place.ix = .ok place.pos := by
  obtain ⟨-, ⟨rfl, -⟩ | ⟨kind, child, sep, p, at_, rfl⟩⟩ := rep.locate found
  · exact absurd rfl below
  · obtain ⟨sepPos, sepAt, sepByte⟩ := at_.sep_read
    have value : child.entry.value = .scalar token := spelled
    simp only [Child.sepIx, value, Tree.signs, List.length_nil, Nat.add_zero] at sepAt
    refine ⟨⟨sepPos, sep, sepAt, sepByte, ?_⟩, at_.findScalarStart⟩
    rcases at_.sepCases with rfl | rfl
    · decide
    · cases kind <;> decide

/-- The byte under the root cursor of a scalar root is past the buffer. -/
theorem scalar_root_lead (rep : Stands doc tree start)
    (found : (rootPlace tree start).locate [] = some place) {token : Bytes}
    (spelled : place.node = .scalar token) :
    doc.indices[place.ix]? = some u32Max ∧ doc.buf[u32Max]? = none := by
  simp only [Place.locate_nil, Option.some.injEq] at found
  subst found
  simp only [rootPlace] at spelled ⊢
  have indices := rep.indices
  rw [spelled] at indices
  have small := rep.small
  refine ⟨by simp [indices, Tree.marks], ?_⟩
  rw [List.getElem?_eq_none_iff]
  omega

theorem Sits.quote {body : Bytes} (sits : Sits doc place)
    (spelled : place.node = .str body) :
    doc.indices[place.ix]? = some place.pos ∧ doc.buf[place.pos]? = some 0x22 ∧
      doc.indices[place.ix + 1]? = some (place.pos + 1 + body.length) := by
  obtain ⟨more, marks⟩ := sits.marks
  have reads := sits.reads
  rw [spelled] at marks reads
  simp only [Tree.marks, Tree.signs, reads_cons, List.cons_append,
    List.nil_append] at marks reads
  exact ⟨getElem?_of_drop marks, reads.1, getElem?_of_drop
    (@drop_of_drop _ _ [place.pos] _ _ (place.ix + 1) marks rfl)⟩

/-- `type_of` returns the type of the node. -/
theorem typeOf_eq (rep : Stands doc tree start)
    (found : (rootPlace tree start).locate path = some place) :
    typeOf doc place.cursor = .ok (nodeType place.node) := by
  have sits := (rep.locate found).1
  have special := isRootScalarCursor_eq rep found
  obtain ⟨front, tail, text, at_⟩ := sits.text
  have valid := sits.valid
  cases spelled : place.node with
  | scalar token =>
      rw [spelled] at text valid
      simp only [Tree.Valid] at valid
      have here := scalarTypeAt_eq valid at_ text
      by_cases root : path = []
      · have flag := special.2 ⟨token, spelled, root⟩
        subst root
        simp only [Place.locate_nil, Option.some.injEq] at found
        subst found
        obtain ⟨before, after, beforeBlank, -, text, start_⟩ := rep.text
        simp only [rootPlace] at spelled here
        have begins : rootScalarStart doc = start := by
          rw [rootScalarStart, text, spelled, start_]
          exact skipWs_scalar valid beforeBlank
        rw [typeOf, if_pos flag, begins]
        exact here
      · have flag : ¬ isRootScalarCursor doc place.cursor = true := by
          rintro flag
          obtain ⟨-, -, empty⟩ := special.1 flag
          exact root empty
        obtain ⟨⟨sepPos, sep, sepAt, sepByte, notObj, notArr, notQuote⟩, begins⟩ :=
          scalar_lead rep found spelled root
        rw [typeOf, if_neg flag]
        simp only [Place.cursor, sepAt, okOr_some, ok_bind, getOr, sepByte, notQuote,
          notObj, notArr, if_false, begins, here]
  | str body =>
      have flag : ¬ isRootScalarCursor doc place.cursor = true := by
        rintro flag
        obtain ⟨token, other, -⟩ := special.1 flag
        rw [spelled] at other
        cases other
      obtain ⟨quoteAt, quote, -⟩ := sits.quote spelled
      rw [typeOf, if_neg flag]
      simp [Place.cursor, quoteAt, getOr, quote, nodeType]
  | empty kind blank =>
      have flag : ¬ isRootScalarCursor doc place.cursor = true := by
        rintro flag
        obtain ⟨token, other, -⟩ := special.1 flag
        rw [spelled] at other
        cases other
      obtain ⟨openerAt, opener, -, -⟩ := @Sits.brackets _ kind _ sits
        (by rw [spelled]; rfl)
      rw [typeOf, if_neg flag]
      cases kind <;> simp [Place.cursor, openerAt, getOr, opener, nodeType, Kind.opener]
  | node kind entries =>
      have flag : ¬ isRootScalarCursor doc place.cursor = true := by
        rintro flag
        obtain ⟨token, other, -⟩ := special.1 flag
        rw [spelled] at other
        cases other
      obtain ⟨openerAt, opener, -, -⟩ := @Sits.brackets _ kind _ sits
        (by rw [spelled]; rfl)
      rw [typeOf, if_neg flag]
      cases kind <;> simp [Place.cursor, openerAt, getOr, opener, nodeType, Kind.opener]

theorem leaf_lead (rep : Stands doc tree start)
    (found : (rootPlace tree start).locate path = some place)
    (leaf : place.node.kind? = none)
    (plain : ¬ isRootScalarCursor doc place.cursor = true) :
    ∃ pos b, doc.indices[place.ix]? = some pos ∧ doc.buf[pos]? = some b ∧
      b ≠ 0x7B ∧ b ≠ 0x5B := by
  have special := isRootScalarCursor_eq rep found
  cases spelled : place.node with
  | scalar token =>
      have below : path ≠ [] := fun root => plain (special.2 ⟨token, spelled, root⟩)
      obtain ⟨⟨sepPos, sep, sepAt, sepByte, notObj, notArr, -⟩, -⟩ :=
        scalar_lead rep found spelled below
      exact ⟨sepPos, sep, sepAt, sepByte, notObj, notArr⟩
  | str body =>
      obtain ⟨quoteAt, quote, -⟩ := (rep.locate found).1.quote spelled
      exact ⟨_, _, quoteAt, quote, by decide, by decide⟩
  | empty kind blank => rw [spelled] at leaf; cases leaf
  | node kind entries => rw [spelled] at leaf; cases leaf

theorem containerOpenerByte_eq (rep : Stands doc tree start)
    (found : (rootPlace tree start).locate path = some place) :
    containerOpenerByte doc place.cursor = place.node.kind?.map Kind.opener := by
  have sits := (rep.locate found).1
  cases shape : place.node.kind? with
  | some kind =>
      obtain ⟨openerAt, opener, -, -⟩ := sits.brackets shape
      cases kind <;>
        simp [containerOpenerByte, Place.cursor, openerAt, opener, Kind.opener]
  | none =>
      by_cases special : isRootScalarCursor doc place.cursor = true
      · obtain ⟨token, spelled, rfl⟩ := (isRootScalarCursor_eq rep found).1 special
        obtain ⟨sentinel, past⟩ := scalar_root_lead rep found spelled
        simp [containerOpenerByte, Place.cursor, sentinel, past]
      · obtain ⟨pos, b, posAt, byte, notObj, notArr⟩ := leaf_lead rep found shape special
        simp [containerOpenerByte, Place.cursor, posAt, byte, notObj, notArr]

theorem not_special_of_container (rep : Stands doc tree start)
    (found : (rootPlace tree start).locate path = some place) {kind : Kind}
    (container : place.node.kind? = some kind) :
    ¬ isRootScalarCursor doc place.cursor = true := by
  intro special
  obtain ⟨token, spelled, -⟩ := (isRootScalarCursor_eq rep found).1 special
  rw [spelled] at container
  cases container

theorem Sits.entries_of_container (sits : Sits doc place) {kind : Kind}
    (container : place.node.kind? = some kind) (some_ : place.node.children ≠ []) :
    ∃ entries, place.node = .node kind entries ∧
      EntriesAt doc kind entries (place.pos + 1) (place.ix + 1) ∧
      place.children = entriesChildren (place.pos + 1) (place.ix + 1) entries := by
  obtain ⟨node, pos, ix⟩ := place
  cases node with
  | scalar token => cases container
  | str body => cases container
  | empty inner blank => exact absurd rfl some_
  | node inner entries =>
      obtain rfl := Option.some.inj container
      exact ⟨entries, rfl, sits.entriesAt, rfl⟩

theorem lastIx_node (kind : Kind) (entries : Entries) (ix : Nat) :
    lastIx (.node kind entries) ix = ix + 1 + entries.signs.length := by
  simp only [lastIx, Tree.signs, List.isEmpty_cons, Bool.false_eq_true, if_false,
    List.length_cons, List.length_append, List.length_nil]
  omega

/-- The index positions of a container leave room for its entries. -/
theorem Sits.room {kind : Kind} {entries : Entries} (rep : Stands doc tree start)
    (found : (rootPlace tree start).locate path = some place)
    (spelled : place.node = .node kind entries) :
    place.ix + 1 + entries.signs.length < doc.indices.length ∧
      entries.toList.length ≤ doc.indices.length := by
  have sits := (rep.locate found).1
  obtain ⟨-, -, closerAt, last⟩ := @Sits.brackets _ kind _ sits (by rw [spelled]; rfl)
  have inside := (List.getElem?_eq_some_iff.1 closerAt).1
  have count := Entries.length_toList_le entries
  rw [last, spelled, length_signs_node] at inside
  constructor <;> omega

theorem cursorLen_eq (rep : Stands doc tree start)
    (found : (rootPlace tree start).locate path = some place) :
    cursorLen doc place.cursor =
      if place.node.kind?.isSome then .ok place.node.children.length
      else fail .typeMismatch := by
  have sits := (rep.locate found).1
  have small := rep.length_indices.2
  cases shape : place.node.kind? with
  | none =>
      by_cases special : isRootScalarCursor doc place.cursor = true
      · simp [cursorLen, special]
      · obtain ⟨pos, b, posAt, byte, notObj, notArr⟩ := leaf_lead rep found shape special
        simp [cursorLen, Place.cursor, atIdx_of_getElem? posAt, getOr, byte,
          notObj, notArr]
  | some kind =>
      have plain := not_special_of_container rep found shape
      obtain ⟨openerAt, opener, -, -⟩ := sits.brackets shape
      obtain ⟨openerByte, -⟩ := Kind.opener_cases kind
      have isOpener : ¬ (kind.opener ≠ 0x7B ∧ kind.opener ≠ 0x5B) := by
        rintro ⟨notObj, notArr⟩
        exact openerByte.elim notObj notArr
      have isObj : decide (kind.opener = 0x7B) = decide (kind = .obj) := by
        cases kind <;> rfl
      have guard := sits.isEmptyContainer shape
      rw [cursorLen, if_neg plain, show place.cursor.idxStart = place.ix from rfl,
        atIdx_of_getElem? openerAt, ok_bind, getOr, opener, okOr_some, ok_bind,
        if_neg isOpener, isObj]
      rw [show place.cursor.idxStart = place.ix from rfl] at guard
      rw [guard, ok_bind]
      by_cases empty : place.node.children = []
      · simp [empty]
      · obtain ⟨entries, spelled, at_, -⟩ := sits.entries_of_container shape empty
        obtain ⟨room, count⟩ := Sits.room rep found spelled
        have next : u32 (place.ix + 1) = place.ix + 1 := u32_of_lt (by omega)
        have walk := @EntriesAt.lenLoop _ _ _ _ _ at_ small place.cursor.idxEnd
          (doc.indices.length + 1) 0 (by omega) (by
            rw [Place.cursor, spelled, lastIx_node])
        rw [if_neg (by simpa using empty), next, walk, spelled]
        simp [Tree.children]

theorem nthObjectEntry_eq (rep : Stands doc tree start)
    (found : (rootPlace tree start).locate path = some place) (n : Nat) :
    nthObjectEntry doc place.cursor n =
      if place.node.kind? = some .obj then
        okOr .notFound ((place.children[n]?).map fun child => (child.keyIx, child.cursor))
      else fail .typeMismatch := by
  have sits := (rep.locate found).1
  have small := rep.length_indices.2
  cases shape : place.node.kind? with
  | none =>
      by_cases special : isRootScalarCursor doc place.cursor = true
      · simp [nthObjectEntry, special]
      · obtain ⟨pos, b, posAt, byte, notObj, -⟩ := leaf_lead rep found shape special
        simp [nthObjectEntry, Place.cursor, atIdx_of_getElem? posAt, getOr, byte,
          notObj]
  | some kind =>
      have plain := not_special_of_container rep found shape
      obtain ⟨openerAt, opener, -, -⟩ := sits.brackets shape
      have guard := sits.isEmptyContainer shape
      rw [nthObjectEntry, if_neg plain, show place.cursor.idxStart = place.ix from rfl,
        atIdx_of_getElem? openerAt, ok_bind, getOr, opener, okOr_some, ok_bind]
      rw [show place.cursor.idxStart = place.ix from rfl] at guard
      cases kind with
      | arr => simp [Kind.opener]
      | obj =>
          rw [if_neg (by simp [Kind.opener]), guard, ok_bind]
          by_cases empty : place.node.children = []
          · have none : place.children = [] := by
              rw [← List.map_eq_nil_iff (f := Child.entry), place.children_map_entry, empty]
            simp [empty, none, okOr]
          · obtain ⟨entries, spelled, at_, children⟩ :=
              sits.entries_of_container shape empty
            obtain ⟨room, count⟩ := Sits.room rep found spelled
            have next : u32 (place.ix + 1) = place.ix + 1 := u32_of_lt (by omega)
            have walk := @EntriesAt.nthEntryLoop _ _ _ _ at_ small place.cursor.idxEnd
              (doc.indices.length + 1) n 0 (by omega) (by
                rw [Place.cursor, spelled, lastIx_node]) (Nat.zero_le n)
            simp only [empty, decide_false, Bool.false_eq_true, if_false, next, walk,
              Nat.sub_zero, if_true, children]

end Accessors

end QJson.Doc
