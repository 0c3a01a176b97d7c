import QJson.Ffi.Reader
import QJson.Table.Programs

/-!
# What the library replies to the wrapper

The documents of a session were parsed eagerly, so a parse tree stands in each.  A call on
the cursor of a node is answered as the node says, whatever was called before, and changes
nothing but the mutable cells of the document.
-/

namespace QJson.Table

open Rfc8259 Validate Doc Decode Ffi Lua

/-- The parse trees of the documents, and where they start. -/
abbrev Forest := List (Tree × Nat)

/-- A node of a document. -/
def At (forest : Forest) (doc : Nat) (place : Place) : Prop :=
  ∃ tree start path, forest[doc]? = some (tree, start) ∧
    (rootPlace tree start).locate path = some place

/-- The trees stand in the documents, and the skip caches are sound. -/
structure Library {F : Type} (forest : Forest) (s : State F) : Prop where
  docs : s.docs.length = forest.length
  cells : s.cells.length = forest.length
  stands : ∀ (d : Nat) (doc : Document) (tree : Tree) (start : Nat), s.docs[d]? = some doc →
    forest[d]? = some (tree, start) → Stands doc tree start
  cache : ∀ (d : Nat) (doc : Document) (cells : Cells) (tree : Tree) (start : Nat),
    s.docs[d]? = some doc → s.cells[d]? = some cells → forest[d]? = some (tree, start) →
    CacheOk doc (rootPlace tree start) cells.cache

/-- The states differ in the cells of the documents and in `sz_a` and `sz_b` alone. -/
structure Quiet {F : Type} (s s' : State F) : Prop where
  docs : s'.docs = s.docs
  tables : s'.tables = s.tables
  origins : s'.origins = s.origins
  loops : s'.loops = s.loops
  settings : s'.settings = s.settings

theorem Quiet.refl {F : Type} (s : State F) : Quiet s s := ⟨rfl, rfl, rfl, rfl, rfl⟩

theorem Quiet.trans {F : Type} {s s' s'' : State F} (first : Quiet s s')
    (second : Quiet s' s'') : Quiet s s'' :=
  ⟨second.docs.trans first.docs, second.tables.trans first.tables,
    second.origins.trans first.origins, second.loops.trans first.loops,
    second.settings.trans first.settings⟩

section Calls

variable {F : Type} {forest : Forest} {s : State F} {d : Nat} {place : Place}

theorem At.child (at_ : At forest d place) {i : Nat} {child : Child}
    (here : place.children[i]? = some child) : At forest d child.place := by
  obtain ⟨tree, start, path, planted, found⟩ := at_
  exact ⟨tree, start, path ++ [i], planted, Place.locate_child found here⟩

/-- A cursor of a document stands for one node. -/
theorem At.unique {left right : Place} (here : At forest d left)
    (there : At forest d right) (same : left.cursor = right.cursor) : left = right := by
  obtain ⟨tree, start, path, planted, found⟩ := here
  obtain ⟨tree', start', path', planted', found'⟩ := there
  obtain ⟨rfl, rfl⟩ := Prod.mk.inj (Option.some.inj (planted.symm.trans planted'))
  obtain rfl := Place.path_unique found found' (congrArg Cursor.idxStart same)
  exact Option.some.inj (found.symm.trans found')

theorem Library.doc (lib : Library forest s) (at_ : At forest d place) :
    ∃ doc cells tree start path, s.docs[d]? = some doc ∧ s.cells[d]? = some cells ∧
      forest[d]? = some (tree, start) ∧ (rootPlace tree start).locate path = some place ∧
      Stands doc tree start ∧ CacheOk doc (rootPlace tree start) cells.cache := by
  obtain ⟨tree, start, path, planted, found⟩ := at_
  have inside := (List.getElem?_eq_some_iff.1 planted).1
  have docAt := List.getElem?_eq_getElem (lib.docs.symm ▸ inside : d < s.docs.length)
  have cellsAt := List.getElem?_eq_getElem (lib.cells.symm ▸ inside : d < s.cells.length)
  exact ⟨_, _, tree, start, path, docAt, cellsAt, planted, found,
    lib.stands d _ tree start docAt planted, lib.cache d _ _ tree start docAt cellsAt planted⟩

/-- A call that is answered on the tree. -/
def Replies (forest : Forest) (d : Nat) (place : Place)
    (run : Document → SkipCache → Located (Output F) × SkipCache) (answer : Answer F) : Prop :=
  ∀ doc tree start path cache, forest[d]? = some (tree, start) →
    (rootPlace tree start).locate path = some place → Stands doc tree start →
    CacheOk doc (rootPlace tree start) cache → Answers doc tree start (run doc cache) answer

/-- What an answer leads to behind `check`. -/
def Answer.Leads (answer : Answer F) (ok : Option (Output F) → Prop) (err : Prop) : Prop :=
  match answer with
  | .ok finding => ok (some finding.output)
  | .error (.notFound, _) => ok none
  | .error _ => err

variable {run : Document → SkipCache → Located (Output F) × SkipCache} {answer : Answer F}
  {err : State F → Prop}

theorem Library.wp_call (lib : Library forest s) (at_ : At forest d place)
    (replies : Replies forest d place run answer)
    {ok : Except QjsonErr (Output F) → State F → Prop}
    (next : ∀ s', Quiet s s' → Library forest s' → ok (Answer.reply answer) s') :
    Action.Wp (callLib d run) s ok err := by
  obtain ⟨doc, cells, tree, start, path, docAt, cellsAt, planted, found, rep, sound⟩ := lib.doc at_
  have answers := replies doc tree start path cells.cache planted found rep sound
  have seen := answers.meets.reply
  unfold Action.Wp callLib
  rw [docAt, cellsAt]
  simp only [seen]
  refine next _ ⟨rfl, rfl, rfl, rfl, rfl⟩ ⟨lib.docs, ?_, lib.stands, ?_⟩
  · rw [List.length_set, lib.cells]
  · intro e doc' cells' tree' start' docAt' cellsAt' planted'
    rw [List.getElem?_set] at cellsAt'
    split at cellsAt'
    · rename_i same
      subst same
      rw [if_pos (List.getElem?_eq_some_iff.1 cellsAt).1] at cellsAt'
      obtain rfl := Option.some.inj cellsAt'
      obtain rfl := Option.some.inj (docAt.symm.trans docAt')
      obtain ⟨rfl, rfl⟩ := Prod.mk.inj (Option.some.inj (planted.symm.trans planted'))
      exact answers.cache
    · exact lib.cache e doc' cells' tree' start' docAt' cellsAt' planted'

theorem Library.wp_access (lib : Library forest s) (at_ : At forest d place)
    (replies : Replies forest d place run answer) {expected : Option Expected}
    {ok : Option (Output F) → State F → Prop}
    (next : ∀ s', Quiet s s' → Library forest s' →
      Answer.Leads answer (fun output => ok output s') (err s')) :
    Action.Wp (access d expected run) s ok err := by
  rw [access, Action.wp_bind]
  refine lib.wp_call at_ replies fun s' quiet lib' => ?_
  have follows := next s' quiet lib'
  match answer with
  | .ok finding => exact follows
  | .error (code, offset) => cases code <;> exact follows

section Replies

variable {host : Host F} (validator : IsStringValidator host.validateString)

theorem leadNode_nil (place : Place) : leadNode place [] = .ok place := by
  rw [leadNode, @follow_nil place.node [] rfl]
  simp only [Place.locate_nil]

include validator in
theorem replies_getter (g : Getter) :
    Replies forest d place (fun doc cache => g.onCursor host doc cache place.cursor [])
      (readNode host.std place g) := by
  intro doc tree start path cache _ found rep sound
  simp only [Getter.onCursor_eq, onCursorPath]
  have answers := @answers_onPath F doc tree start rep (.value place.cursor) place.pos place path
    found (offsetBehind_node rep found) cache sound [] (fun cur => g.read host doc cur)
    (fun next => readNode host.std next g)
    fun next route below => Getter.read_meets rep below validator g
  rwa [leadNode_nil] at answers

theorem replies_field (key : Bytes) :
    Replies (F := F) forest d place (fun doc cache => qjsonCursorField doc cache place.cursor key)
      (answerFrom place.pos (pickNode place (.key key)) fun child => .ok (.node child)) :=
  fun _ _ _ _ _ _ found rep sound => answers_step rep found sound (.key key)

theorem replies_index (i : Nat) :
    Replies (F := F) forest d place (fun doc cache => qjsonCursorIndex doc cache place.cursor i)
      (if u32Max < i then .error (.invalidArg, noOffset)
      else answerFrom place.pos (pickNode place (.idx i)) fun child => .ok (.node child)) := by
  intro doc tree start path cache _ found rep sound
  simp only [qjsonCursorIndex]
  split
  · exact ⟨meets_fail rfl, sound⟩
  · exact answers_step rep found sound (.idx i)

theorem replies_bytes :
    Replies (F := F) forest d place (fun doc cache => (qjsonCursorBytes doc place.cursor, cache))
      (.ok (.plain (.range place.pos (place.pos + place.node.render.length)))) := by
  intro doc tree start path cache _ found rep sound
  refine ⟨?_, sound⟩
  change Meets doc _ (qjsonCursorBytes doc place.cursor : Located (Output F)) _
  rw [qjsonCursorBytes, cursorBytes_eq rep found]
  exact ⟨rfl, rfl, rfl⟩

theorem replies_iterInit (object : place.node.kind? = some .obj) :
    Replies (F := F) forest d place (fun doc cache => (qjsonIterInit doc place.cursor, cache))
      (.ok (.iter place)) := by
  intro doc tree start path cache _ found rep sound
  have answers := @answers_iterInit F doc tree start rep place path found
  rw [if_pos object] at answers
  exact ⟨answers, sound⟩

include validator in
theorem replies_iterNext (object : place.node.kind? = some .obj) (k : Nat) :
    Replies forest d place (fun doc cache => (qjsonIterNext host doc (iterPlace place k), cache))
      (match place.children[k]? with
      | some child => .ok (.next (keyText child) child.place place (k + 1))
      | none => .error (.notFound, noOffset)) := by
  intro doc tree start path cache _ found rep sound
  exact ⟨answers_iterNext rep validator found object k, sound⟩

end Replies

end Calls

end QJson.Table
