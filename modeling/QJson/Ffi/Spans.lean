import QJson.Ffi.Getters
import QJson.Rfc8259.Unique

/-!
# The bytes of a cursor

`qjson_cursor_bytes` returns the token of the node that the cursor stands for.  The token
is itself a text of the grammar, whose only parse tree is that node and which eager parsing
accepts under the same nesting limit.
-/

namespace QJson.Ffi

open Rfc8259 Validate Doc Decode

/-- The cursor is the one of the node; its bytes are the node's token, and they stand for
that node on their own. -/
structure Faithful (cpu : Dispatch) (opts : Options) (doc : Document) (cur : Cursor)
    (place : Place) : Prop where
  cursor : cur = place.cursor
  bytes : ∀ F : Type, (qjsonCursorBytes doc cur : Located (Output F)) =
    .ok (.range place.pos (place.pos + place.node.render.length))
  token : (doc.buf.drop place.pos).take place.node.render.length = place.node.render
  accepted : ∃ slice, parseWithOptions cpu place.node.render opts = .ok slice
  value : ∀ tree : Tree, tree.Parses place.node.render ↔ tree = place.node

theorem parses_render_iff {node : Tree} (valid : node.Valid) (tree : Tree) :
    tree.Parses node.render ↔ tree = node := by
  have own : node.Parses node.render :=
    ⟨valid, [], [], isBlank_nil, isBlank_nil, by simp⟩
  constructor
  · exact fun parses => parses.unique own
  · rintro rfl
    exact own

/-- In a document stands one tree. -/
theorem Stands.unique {doc : Document} {tree tree' : Tree} {start start' : Nat}
    (rep : Stands doc tree start) (rep' : Stands doc tree' start') :
    tree = tree' ∧ start = start' := by
  obtain ⟨before, after, beforeBlank, afterBlank, whole, rfl⟩ := rep.text
  obtain ⟨before', after', beforeBlank', afterBlank', whole', rfl⟩ := rep'.text
  obtain ⟨gaps, values⟩ := blank_cut beforeBlank beforeBlank' (Tree.starts rep.valid)
    (Tree.starts rep'.valid) (whole.symm.trans whole')
  exact ⟨(Tree.cut tree tree' rep.valid rep'.valid
    (fun leaf => stops_of_isBlank (afterBlank leaf))
    (fun leaf => stops_of_isBlank (afterBlank' leaf)) values).1, congrArg List.length gaps⟩

section Nodes

variable {scanner : ScanPath} {strings : StringPath} {opts : Options} {doc : Document}
  {tree : Tree} {start : Nat} {path : List Nat} {place : Place}

/-- The text of a node stands at its place. -/
theorem token_of_locate (rep : Stands doc tree start)
    (found : (rootPlace tree start).locate path = some place) :
    (doc.buf.drop place.pos).take place.node.render.length = place.node.render := by
  obtain ⟨front, tail, whole, at_⟩ := (rep.locate found).1.text
  rw [whole, at_, List.drop_left, List.take_left]

/-- The parse tree of an accepted document keeps the nesting limit. -/
theorem depth_le_of_parse {buf : Bytes} (small : buf.length < u32Max)
    (eager : opts.isEager = true)
    (parsed : parseWithOptions (dispatch scanner strings) buf opts = .ok doc)
    (parses : tree.Parses buf) : tree.depth ≤ opts.effectiveMaxDepth := by
  obtain ⟨tree', before, after, valid, beforeBlank, afterBlank, split, shallow, -⟩ :=
    (parse_ok_iff scanner strings small eager).1 parsed
  obtain rfl := parses.unique ⟨valid, before, after, beforeBlank, afterBlank, split⟩
  exact shallow

/-- The token of a node is accepted on its own. -/
theorem parse_token (rep : Stands doc tree start) (eager : opts.isEager = true)
    (shallow : tree.depth ≤ opts.effectiveMaxDepth)
    (found : (rootPlace tree start).locate path = some place) :
    parseWithOptions (dispatch scanner strings) place.node.render opts =
      .ok ⟨place.node.render, place.node.marks 0 ++ [u32Max], true⟩ := by
  have sits := (rep.locate found).1
  have inner := Tree.valid_of_sub? rep.valid (Place.locate_node found)
  have length : place.node.render.length ≤ doc.buf.length := by
    obtain ⟨front, tail, whole, -⟩ := sits.text
    simp only [whole, List.length_append]
    omega
  refine (parse_ok_iff scanner strings (Nat.lt_of_le_of_lt length rep.small) eager).2
    ⟨place.node, [], [], sits.valid, isBlank_nil, isBlank_nil, by simp, ?_, rfl⟩
  exact inner.2.trans shallow

theorem faithful_of_locate (rep : Stands doc tree start) (eager : opts.isEager = true)
    (shallow : tree.depth ≤ opts.effectiveMaxDepth)
    (found : (rootPlace tree start).locate path = some place) :
    Faithful (dispatch scanner strings) opts doc place.cursor place where
  cursor := rfl
  bytes F := by
    rw [qjsonCursorBytes, cursorBytes_eq rep found]
    rfl
  token := token_of_locate rep found
  accepted := ⟨_, parse_token rep eager shallow found⟩
  value := parses_render_iff (rep.locate found).1.valid

end Nodes

/-- In every state that programs lead to, the bytes of every cursor are faithful to the node
that it stands for. -/
theorem faithful_of_reached (scanner : ScanPath) (strings : StringPath) {F : Type}
    (std : StdFloat F) {buf : Bytes} {opts : Options} {doc : Document}
    (small : buf.length < u32Max) (eager : opts.isEager = true)
    (parsed : parseWithOptions (dispatch scanner strings) buf opts = .ok doc) :
    ∃ (tree : Tree) (start : Nat), tree.Parses buf ∧
      ∀ m, Reached ⟨strings.validate, std⟩ doc m → ∀ cur ∈ Cursor.root doc :: m.cursors,
        ∃ path place, (rootPlace tree start).locate path = some place ∧
          Faithful (dispatch scanner strings) opts doc cur place := by
  obtain ⟨tree, parses⟩ := exists_parses scanner strings small eager parsed
  obtain ⟨start, rep⟩ := stands_of_parse scanner strings small parsed parses
  have shallow := depth_le_of_parse small eager parsed parses
  refine ⟨tree, start, parses, fun m reached cur member => ?_⟩
  obtain ⟨path, place, found, rfl⟩ : ∃ path place,
      (rootPlace tree start).locate path = some place ∧ cur = place.cursor := by
    rcases List.mem_cons.1 member with rfl | held
    · exact ⟨[], _, Place.locate_nil _, rep.root⟩
    · obtain ⟨r, shows⟩ := reached.shows rep strings.isStringValidator
      rw [shows.cursors] at held
      obtain ⟨place, here, rfl⟩ := List.mem_map.1 held
      obtain ⟨path, found⟩ := shows.places place here
      exact ⟨path, place, found, rfl⟩
  exact ⟨path, place, found, faithful_of_locate rep eager shallow found⟩

end QJson.Ffi
