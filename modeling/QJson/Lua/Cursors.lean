import QJson.Ffi.Again
import QJson.Doc.Lazy

/-!
# Cursor objects of the Lua wrapper

`src/lua/qjson.lua`.  Every call that opens a cursor writes it to one box of the module,
`cur_box`, and the Cursor object it returns holds `cur_box[0]`, which is a reference into
the box and no copy of what is there.
-/

namespace QJson.Lua

open Rfc8259 Validate Doc Decode Ffi

/-! ## The module -/

/-- `qjson_cursor`: a document, by its position among the parsed ones, and a range of
its index. -/
structure QjsonCursor where
  doc : Nat
  cur : Cursor
  deriving DecidableEq, Repr

/-- The mutable cells of a document. -/
structure Cells where
  cache : SkipCache
  lastErrorOffset : Nat
  deriving DecidableEq, Repr

/-- A Cursor object: `_cur` refers to a `qjson_cursor[1]`, here by its position among the
boxes. -/
structure CursorObject where
  cur : Nat
  doc : Nat
  deriving DecidableEq, Repr

/-- `cur_box`. -/
def curBox : Nat := 0

/-- The boxes of the module, filled with zeroes at first, the cells of the parsed
documents, and the Cursor objects that were returned. -/
structure Module where
  cells : List Cells
  boxes : List (Option QjsonCursor)
  cursors : List CursorObject
  deriving DecidableEq, Repr

/-- The module with its documents parsed and nothing opened. -/
def Module.parsed (docs : List Document) : Module :=
  ⟨docs.map fun _ => ⟨SkipCache.new, noOffset⟩, [none], []⟩

/-- The third argument of `check_access`, for the text of its error. -/
inductive Expected where
  | type (value : QjsonType)
  | container
  deriving DecidableEq, Repr

/-- What the methods expect. -/
def expected : Getter → Option Expected
  | .getStr => some (.type .str)
  | .getI64 | .getU64 | .getF64 => some (.type .num)
  | .getBool => some (.type .bool)
  | .len => some .container
  | .typeof | .open => none

/-- What a method returns: a value, a new Cursor object, `nil`, or an error with the
parts of its text. -/
inductive Reply (F : Type) where
  | value (output : Output F)
  | cursor
  | nil
  | error (code : QjsonErr) (offset : Nat) (expected : Option Expected)
  deriving DecidableEq

/-- The methods of Doc and Cursor. -/
inductive Method where
  | docGet (doc : Nat) (getter : Getter) (path : Bytes)
  | docIsNull (doc : Nat) (path : Bytes)
  | cursorGet (slot : Nat) (getter : Getter) (path : Bytes)
  | cursorField (slot : Nat) (key : Bytes)
  | cursorIndex (slot : Nat) (i : Nat)
  deriving DecidableEq, Repr

section Steps

variable {F : Type} (host : Host F) (docs : List Document)

/-- A call of the library on a document; a cursor it returns goes to `cur_box`. -/
def Module.call (m : Module) (doc : Nat)
    (run : Document → SkipCache → Located (Output F) × SkipCache) :
    Except QjsonErr (Output F) × Module :=
  match docs[doc]?, m.cells[doc]? with
  | some document, some cells =>
      let result := run document cells.cache
      let cells := m.cells.set doc ⟨result.2, offsetBehind document result.1⟩
      match result.1 with
      | .ok (.cursor cur) =>
          (.ok (.cursor cur),
            { m with cells := cells, boxes := m.boxes.set curBox (some ⟨doc, cur⟩) })
      | outcome => (ffiCatch outcome, { m with cells := cells })
  | _, _ => (.error .invalidArg, m)

/-- A call of the library on the cursor in a box. -/
def Module.callBox (m : Module) (box : Nat)
    (run : Document → SkipCache → Cursor → Located (Output F) × SkipCache) :
    Except QjsonErr (Output F) × Module :=
  match (m.boxes[box]?).join with
  | some cursor => m.call docs cursor.doc fun document cache => run document cache cursor.cur
  | none => (.error .invalidArg, m)

/-- `qjson_doc_last_error_offset`. -/
def Module.lastErrorOffset (m : Module) (doc : Nat) : Nat :=
  ((m.cells[doc]?).map Cells.lastErrorOffset).getD noOffset

/-- `check_access` and the return of a method of a document or of a cursor in it. -/
def checkAccess (doc : Nat) (expected : Option Expected) :
    Except QjsonErr (Output F) × Module → Reply F × Module
  | (.ok (.cursor _), m) => (.cursor, { m with cursors := m.cursors ++ [⟨curBox, doc⟩] })
  | (.ok output, m) => (.value output, m)
  | (.error .notFound, m) => (.nil, m)
  | (.error code, m) => (.error code (m.lastErrorOffset doc) expected, m)

/-- A method call; `none` when there is no such object. -/
def Module.step (m : Module) : Method → Option (Reply F × Module)
  | .docGet doc getter path =>
      (docs[doc]?).map fun _ => checkAccess doc (expected getter)
        (m.call docs doc fun document cache => getter.onRoot host document cache path)
  | .docIsNull doc path =>
      (docs[doc]?).map fun _ => checkAccess doc none
        (m.call docs doc fun document cache => qjsonIsNull document cache path)
  | .cursorGet slot getter path =>
      (m.cursors[slot]?).map fun object => checkAccess object.doc (expected getter)
        (m.callBox docs object.cur fun document cache cur =>
          getter.onCursor host document cache cur path)
  | .cursorField slot key =>
      (m.cursors[slot]?).map fun object => checkAccess object.doc (some (.type .obj))
        (m.callBox docs object.cur fun document cache cur =>
          qjsonCursorField document cache cur key)
  | .cursorIndex slot i =>
      (m.cursors[slot]?).map fun object => checkAccess object.doc (some (.type .arr))
        (m.callBox docs object.cur fun document cache cur =>
          qjsonCursorIndex document cache cur i)

/-- The cursor that a Cursor object hands to the library. -/
def Module.handed (m : Module) (slot : Nat) : Option QjsonCursor :=
  (m.cursors[slot]?).bind fun object => (m.boxes[object.cur]?).join

end Steps

/-! ## How cursors are opened -/

/-- A call that opens a cursor from another. -/
inductive Hop where
  | path (text : Bytes)
  | key (name : Bytes)
  | idx (i : Nat)
  deriving DecidableEq, Repr

/-- Its method. -/
def Hop.method (slot : Nat) : Hop → Method
  | .path text => .cursorGet slot .open text
  | .key name => .cursorField slot name
  | .idx i => .cursorIndex slot i

/-- How a Cursor object was opened, from the document on, and the cursor that was found. -/
structure Opened where
  doc : Nat
  path : Bytes
  hops : List Hop
  cur : Cursor
  deriving DecidableEq, Repr

/-- The Cursor object that a method is called on. -/
def Method.slot? : Method → Option Nat
  | .docGet _ _ _ | .docIsNull _ _ => none
  | .cursorGet slot _ _ | .cursorField slot _ | .cursorIndex slot _ => some slot

/-- How the Cursor object that a method returns was opened. -/
def Method.record (opened : List Opened) (cur : Cursor) : Method → Option Opened
  | .docGet doc .open path => some ⟨doc, path, [], cur⟩
  | .cursorGet slot .open path =>
      (opened[slot]?).map fun o => { o with hops := o.hops ++ [.path path], cur := cur }
  | .cursorField slot key =>
      (opened[slot]?).map fun o => { o with hops := o.hops ++ [.key key], cur := cur }
  | .cursorIndex slot i =>
      (opened[slot]?).map fun o => { o with hops := o.hops ++ [.idx i], cur := cur }
  | _ => none

/-- What a reply adds to what was opened. -/
def gained {F : Type} (opened : List Opened) (method : Method) (reply : Reply F)
    (after : Module) : List Opened :=
  match reply, (after.boxes[curBox]?).join with
  | .cursor, some cursor => (method.record opened cursor.cur).toList
  | _, _ => []

section Sessions

variable {F : Type} (host : Host F) (docs : List Document)

/-- A method that opens a cursor, called for that. -/
def Module.opens (m : Module) (method : Method) : Option Module :=
  match m.step host docs method with
  | some (.cursor, after) => some after
  | _ => none

/-- Everything is opened once more, from the document on. -/
def Module.reopen (m : Module) (o : Opened) : Option Module :=
  o.hops.foldlM (fun m hop => m.opens host docs (hop.method (m.cursors.length - 1)))
    =<< m.opens host docs (.docGet o.doc .open o.path)

/-- The modules that allowed method calls lead to, and what was opened on the way. -/
inductive Session (allowed : List Opened → Method → Prop) : Module → List Opened → Prop where
  | start : Session allowed (Module.parsed docs) []
  | step {m after : Module} {opened : List Opened} {method : Method} {reply : Reply F} :
      Session allowed m opened → allowed opened method →
      m.step host docs method = some (reply, after) →
      Session allowed after (opened ++ gained opened method reply after)

/-- A Cursor object denotes the value it was opened on: opened afresh, a Cursor object
hands the same cursor to the library, and every method gives the same reply on both. -/
def Denotes (m : Module) (slot : Nat) (o : Opened) : Prop :=
  ∃ fresh, m.reopen host docs o = some fresh ∧
    m.handed slot = fresh.handed (fresh.cursors.length - 1) ∧
    (∀ getter path, (m.step host docs (.cursorGet slot getter path)).map Prod.fst =
      (fresh.step host docs (.cursorGet (fresh.cursors.length - 1) getter path)).map
        Prod.fst) ∧
    ∀ hop : Hop, (m.step host docs (hop.method slot)).map Prod.fst =
      (fresh.step host docs (hop.method (fresh.cursors.length - 1))).map Prod.fst

end Sessions

/-- The last call that opened a cursor led to the value that a Cursor object was opened
on, as the call that returned it did. -/
def IsCurrent (opened : List Opened) (slot : Nat) : Prop :=
  ∃ o last, opened[slot]? = some o ∧ opened.getLast? = some last ∧
    last.doc = o.doc ∧ last.cur = o.cur

/-- Cursor objects are used only as long as no later open has led elsewhere. -/
def InTurn (opened : List Opened) (method : Method) : Prop :=
  ∀ slot, method.slot? = some slot → IsCurrent opened slot

end QJson.Lua
