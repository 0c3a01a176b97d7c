import QJson.Doc.Dispatch
import QJson.Doc.Resolve

/-!
# The accessors over whole sessions

A session makes calls on the root cursor and on the cursors that earlier calls
returned; all calls share the skip cache.  At every point of every session each
cursor denotes one node of the parse tree, and the accessors say of it what the
tree says.
-/

namespace QJson.Doc

open Rfc8259 Validate Scan

/-! ## Sessions -/

/-- The calls that return a cursor. -/
inductive Call where
  | resolve (path : Bytes)
  | key (name : Bytes)
  | idx (n : Nat)
  | nth (n : Nat)
  deriving DecidableEq, Repr

/-- The outcome of a call and the skip cache behind it. -/
def Call.run (doc : Document) (cache : SkipCache) (cur : Cursor) :
    Call → Rust QjsonErr Cursor × SkipCache
  | .resolve path => Doc.resolve doc cache cur path
  | .key name => resolveSingleKey doc cache cur name
  | .idx n => resolveSingleIdx doc cache cur n
  | .nth n =>
      match nthObjectEntry doc cur n with
      | .ok entry => (.ok entry.2, cache)
      | .error fault => (.error fault, cache)

/-- The cursors a session holds behind a call. -/
def gained (cursors : List Cursor) : Rust QjsonErr Cursor → List Cursor
  | .ok cur => cur :: cursors
  | .error _ => cursors

/-- The skip cache and the cursors at some point of a session. -/
inductive Session (doc : Document) : SkipCache → List Cursor → Prop where
  | start : Session doc SkipCache.new [Cursor.root doc]
  | call {cache : SkipCache} {cursors : List Cursor} {cur : Cursor} (call : Call) :
      Session doc cache cursors → cur ∈ cursors →
      Session doc (call.run doc cache cur).2 (gained cursors (call.run doc cache cur).1)

/-! ## What holds throughout a session -/

section Invariant

variable {doc : Document} {tree : Tree} {start : Nat}

/-- Calls on a node return cursors of nodes and keep the cache sound. -/
theorem Call.run_spec (rep : Stands doc tree start) {cache : SkipCache}
    (sound : CacheOk doc (rootPlace tree start) cache) {cur : Cursor}
    (denotes : ∃ path, Denotes (rootPlace tree start) cur path) (call : Call) :
    CacheOk doc (rootPlace tree start) (call.run doc cache cur).2 ∧
      ∀ next, (call.run doc cache cur).1 = .ok next →
        ∃ path, Denotes (rootPlace tree start) next path := by
  obtain ⟨path, place, found, rfl⟩ := denotes
  have returned {base : List Nat} {result : Rust QjsonErr Cursor}
      {meaning : Except QjsonErr (List Nat)}
      (returns : Returns (rootPlace tree start) base result meaning) :
      ∀ next, result = .ok next → ∃ path, Denotes (rootPlace tree start) next path := by
    intro next ok
    cases meaning with
    | ok below =>
        obtain ⟨cur, result, denotes⟩ := returns
        obtain rfl := Except.ok.inj (result.symm.trans ok)
        exact ⟨_, denotes⟩
    | error error =>
        rw [show result = fail error from returns] at ok
        cases ok
  cases call with
  | resolve text =>
      obtain ⟨returns, sound⟩ := resolve_returns rep text found sound
      exact ⟨sound, returned returns⟩
  | key name =>
      exact ⟨(step_eq rep found (.key name) sound).2,
        returned (step_returns rep found (.key name) sound)⟩
  | idx n =>
      exact ⟨(step_eq rep found (.idx n) sound).2,
        returned (step_returns rep found (.idx n) sound)⟩
  | nth n =>
      have entry := nthObjectEntry_eq rep found n
      simp only [Call.run]
      split
      · rename_i member spelled
        rw [spelled] at entry
        refine ⟨sound, fun next ok => ?_⟩
        obtain rfl := Except.ok.inj ok
        split at entry
        · cases child : place.children[n]? with
          | none => rw [child] at entry; cases entry
          | some found' =>
              rw [child] at entry
              obtain rfl := Except.ok.inj entry
              exact ⟨path ++ [n], _, Place.locate_child found child, rfl⟩
        · cases entry
      · exact ⟨sound, fun next ok => by cases ok⟩

/-- At every point of a session the cache is sound and every cursor denotes a
node. -/
theorem Session.invariant (rep : Stands doc tree start) {cache : SkipCache}
    {cursors : List Cursor} (session : Session doc cache cursors) :
    CacheOk doc (rootPlace tree start) cache ∧
      ∀ cur ∈ cursors, ∃ path, Denotes (rootPlace tree start) cur path := by
  induction session with
  | start =>
      refine ⟨CacheOk.new doc _, fun cur member => ?_⟩
      obtain rfl := List.mem_singleton.1 member
      exact ⟨[], _, Place.locate_nil _, rep.root.symm⟩
  | @call cache cursors cur call _ held ih =>
      obtain ⟨sound, denotes⟩ := ih
      obtain ⟨sound', denotes'⟩ := call.run_spec rep sound (denotes cur held)
      refine ⟨sound', fun next member => ?_⟩
      cases result : (call.run doc cache cur).1 with
      | ok returned =>
          rw [result] at member
          rcases List.mem_cons.1 member with rfl | old
          · exact denotes' _ result
          · exact denotes next old
      | error fault =>
          rw [result] at member
          exact denotes next member

end Invariant

/-! ## Agreement with the parse tree -/

/-- What the accessors say of a cursor is what the tree says of the node at
`path`.  The children in question are the members or elements in order, with their
raw names; no outcome is a panic. -/
structure Agrees (doc : Document) (root : Place) (cache : SkipCache) (cur : Cursor)
    (path : List Nat) (node : Tree) : Prop where
  subtree : root.node.sub? path = some node
  denotes : Denotes root cur path
  unique : ∀ path', Denotes root cur path' → path' = path
  type : typeOf doc cur = .ok (nodeType node)
  length : cursorLen doc cur =
    if node.kind?.isSome then .ok node.children.length else fail .typeMismatch
  key : ∀ name, Returns root path (resolveSingleKey doc cache cur name).1
    ((select node (.key name)).map ([·]))
  idx : ∀ n, Returns root path (resolveSingleIdx doc cache cur n).1
    ((select node (.idx n)).map ([·]))
  resolve : ∀ text, Returns root path (Doc.resolve doc cache cur text).1 (follow node text)
  nth : ∀ n, node.kind? = some .obj → ∀ entry, node.children[n]? = some entry →
    ∃ keyIx next name, nthObjectEntry doc cur n = .ok (keyIx, next) ∧
      Denotes root next (path ++ [n]) ∧ entry.name = some name ∧
      keyBytes doc keyIx = .ok name.body
  nthMissing : ∀ n, node.kind? = some .obj → node.children[n]? = none →
    nthObjectEntry doc cur n = fail .notFound
  nthMismatch : ∀ n, node.kind? ≠ some .obj →
    nthObjectEntry doc cur n = fail .typeMismatch

theorem agrees_of_locate {doc : Document} {tree : Tree} {start : Nat}
    (rep : Stands doc tree start) {cache : SkipCache}
    (sound : CacheOk doc (rootPlace tree start) cache) {path : List Nat} {place : Place}
    (found : (rootPlace tree start).locate path = some place) :
    Agrees doc (rootPlace tree start) cache place.cursor path place.node where
  subtree := Place.locate_node found
  denotes := ⟨place, found, rfl⟩
  unique path' denotes := Denotes.unique denotes ⟨place, found, rfl⟩
  type := typeOf_eq rep found
  length := cursorLen_eq rep found
  key name := step_returns rep found (.key name) sound
  idx n := step_returns rep found (.idx n) sound
  resolve text := (resolve_returns rep text found sound).1
  nth n container entry entryAt := by
    have walk := nthObjectEntry_eq rep found n
    rw [if_pos container] at walk
    rw [← place.children_map_entry, List.getElem?_map] at entryAt
    obtain ⟨child, childAt, rfl⟩ := Option.map_eq_some_iff.1 entryAt
    obtain ⟨sep, p, at_⟩ := (rep.locate found).1.children container child
      (List.mem_of_getElem? childAt)
    have named := at_.nameOk
    cases spelled : child.entry.name with
    | none => rw [spelled] at named; exact named.elim
    | some name =>
        rw [childAt] at walk
        exact ⟨child.keyIx, child.cursor, name, walk,
          ⟨child.place, Place.locate_child found childAt, rfl⟩, rfl,
          (at_.key_read spelled rep.length_indices.2).2⟩
  nthMissing n container missing := by
    have walk := nthObjectEntry_eq rep found n
    rw [← place.children_map_entry, List.getElem?_map, Option.map_eq_none_iff] at missing
    rw [if_pos container, missing] at walk
    exact walk
  nthMismatch n other := by
    rw [nthObjectEntry_eq rep found n, if_neg other]

theorem represents_of_parse (scanner : ScanPath) (strings : StringPath) {buf : Bytes}
    {opts : Options} (small : buf.length < u32Max) (eager : opts.isEager = true)
    {doc : Document}
    (ok : parseWithOptions (dispatch scanner strings) buf opts = .ok doc)
    {tree : Tree} (parses : tree.Parses buf) : ∃ start, Represents doc tree start := by
  obtain ⟨valid, before, after, beforeBlank, afterBlank, rfl⟩ := parses
  obtain ⟨-, -, rfl⟩ := ok_of_parse eager ok
  have scan := scanner.scan_parses valid beforeBlank afterBlank (small.trans (by decide))
  exact ⟨before.length, valid, ⟨before, after, beforeBlank, afterBlank, rfl, rfl⟩,
    by simp only [dispatch, scan], small⟩

/-- An accepted document has a parse tree. -/
theorem exists_parses (scanner : ScanPath) (strings : StringPath) {buf : Bytes}
    {opts : Options} (small : buf.length < u32Max) (eager : opts.isEager = true)
    {doc : Document}
    (ok : parseWithOptions (dispatch scanner strings) buf opts = .ok doc) :
    ∃ tree : Tree, tree.Parses buf := by
  obtain ⟨tree, before, after, valid, beforeBlank, afterBlank, split, -, -⟩ :=
    (parse_ok_iff scanner strings small eager).1 ok
  exact ⟨tree, valid, before, after, beforeBlank, afterBlank, split⟩

/-- The root cursor of an accepted document denotes the root of the parse tree; in every
session every cursor denotes exactly one node, and the accessors agree with the tree there. -/
theorem accessors_agree_with_tree (scanner : ScanPath) (strings : StringPath) (buf : Bytes)
    (opts : Options) (small : buf.length < 2 ^ 32 - 1) (eager : opts.isEager = true)
    (doc : Document)
    (ok : parseWithOptions (dispatch scanner strings) buf opts = .ok doc)
    (tree : Tree) (parses : tree.Parses buf) :
    ∃ start, Denotes (rootPlace tree start) (Cursor.root doc) [] ∧
      ∀ cache cursors, Session doc cache cursors → ∀ cur ∈ cursors,
        ∃ path node, Agrees doc (rootPlace tree start) cache cur path node := by
  obtain ⟨start, rep⟩ := represents_of_parse scanner strings small eager ok parses
  have rep := rep.stands
  refine ⟨start, ⟨_, Place.locate_nil _, rep.root.symm⟩, fun cache cursors session cur held => ?_⟩
  obtain ⟨sound, denotes⟩ := session.invariant rep
  obtain ⟨path, place, found, rfl⟩ := denotes cur held
  exact ⟨path, place.node, agrees_of_locate rep sound found⟩

/-- `{"a":[true]}` and its parse tree. -/
def memberText : Bytes :=
  [0x7B, 0x22, 0x61, 0x22, 0x3A, 0x5B, 0x74, 0x72, 0x75, 0x65, 0x5D, 0x7D]
@[inherit_doc memberText] def memberTree : Tree :=
  .node .obj (.last (some ⟨[], [0x61], []⟩) []
    (.node .arr (.last none [] (.scalar litTrue) [])) [])

theorem memberTree_parses : memberTree.Parses memberText := by
  have blank : IsBlank [] := by simp
  have body : IsBody [0x61] :=
    @IsBody.cons [0x61] _ (.plain (by decide) (by decide) (by decide)) (by decide) .nil
  exact ⟨⟨⟨blank, body, blank⟩, blank, ⟨trivial, blank, .true, blank⟩, blank⟩,
    [], [], blank, blank, rfl⟩

theorem accessors_agree_with_tree_member :
    ∃ start, Denotes (rootPlace memberTree start)
        (Cursor.root ⟨memberText, [0, 1, 3, 4, 5, 10, 11, u32Max], true⟩) [] ∧
      ∀ cache cursors, Session ⟨memberText, [0, 1, 3, 4, 5, 10, 11, u32Max], true⟩
          cache cursors → ∀ cur ∈ cursors,
        ∃ path node, Agrees ⟨memberText, [0, 1, 3, 4, 5, 10, 11, u32Max], true⟩
          (rootPlace memberTree start) cache cur path node :=
  accessors_agree_with_tree .scalar .scalar memberText Options.default (by decide)
    (by decide) ⟨memberText, [0, 1, 3, 4, 5, 10, 11, u32Max], true⟩ (by decide +kernel)
    memberTree memberTree_parses

end QJson.Doc
