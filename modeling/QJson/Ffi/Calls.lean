import QJson.Decode.Numbers
import QJson.Decode.Strings
import QJson.Doc.Cursor
import Mathlib.Data.List.DropRight

/-!
# The exported accessors

The accessors of `src/ffi.rs` on non-null pointers.  Every call clears the error
offset of the document first; a call that fails leaves there the place that its
error names, which the model returns next to the code (`Located`).  The skip cache
is passed along, and a panic ends a call at once.
-/

namespace QJson.Ffi

open Rfc8259 Validate Doc Decode

/-- The string validator behind the dispatch cell and the standard library. -/
structure Host (F : Type) where
  validateString : Bytes → Rust QjsonErr Unit
  std : StdFloat F

/-- Where a failed call leaves the error offset of the document: at the start of the
value of a cursor, at a byte, or cleared. -/
inductive Site where
  | value (cur : Cursor)
  | byte (offset : Nat)
  | nowhere
  deriving DecidableEq, Repr

/-- The outcome of a call, its error with a place. -/
abbrev Located (α : Type) := Rust (QjsonErr × Site) α

/-- An error located at a site. -/
def reportAt {α : Type} (site : Site) : Rust QjsonErr α → Located α :=
  mapErr fun code => (code, site)

/-- `qjson_iter`. -/
structure Iter where
  idxCurrent : Nat
  idxEnd : Nat
  deriving DecidableEq, Repr

/-- `cursor_value_start_offset`.  An index in front of an index in range is in range,
so `find_scalar_start` does not panic here. -/
def cursorValueStartOffset (doc : Document) (cur : Cursor) : Option Nat :=
  if isRootScalarCursor doc cur then some (rootScalarStart doc)
  else
    match doc.indices[cur.idxStart]? with
    | none => none
    | some pos =>
        match doc.buf[pos]? with
        | none => none
        | some b =>
            if b = 0x22 ∨ b = 0x7B ∨ b = 0x5B then some pos
            else
              match findScalarStart doc cur.idxStart with
              | .ok p => some p
              | .error _ => none

/-! ## What is read at a cursor -/

/-- `while e > start && is_ws(buf[e - 1]) { e -= 1; }` -/
def trimBack (buf : Bytes) (start stop : Nat) : Rust QjsonErr Nat :=
  if start < stop ∧ buf.length < stop then .error .panic
  else .ok (start + (((buf.drop start).take (stop - start)).rdropWhile isWs).length)

/-- `scalar_byte_range`. -/
def scalarByteRange (doc : Document) (cur : Cursor) : Rust QjsonErr (Nat × Nat) := do
  let start ←
    if isRootScalarCursor doc cur then .ok (rootScalarStart doc)
    else findScalarStart doc cur.idxStart
  let stop ←
    if isRootScalarCursor doc cur then .ok doc.buf.length
    else atIdx doc.indices cur.idxStart
  if stop < start then fail .parseError
  else do
    let trimmed ← trimBack doc.buf start stop
    .ok (start, trimmed)

/-- `scalar_bytes`. -/
def scalarBytes (doc : Document) (cur : Cursor) : Rust QjsonErr Bytes := do
  let range ← scalarByteRange doc cur
  slice doc.buf range.1 range.2

/-- `number_bytes`. -/
def numberBytes (doc : Document) (cur : Cursor) : Rust QjsonErr Bytes := do
  let type ← typeOf doc cur
  if type = .num then scalarBytes doc cur else fail .typeMismatch

section Reads

variable {F : Type} (host : Host F) (doc : Document) (cur : Cursor)

/-- The decoding of the string with its quotes at the bytes `opening` and `closing`. -/
def decodeString (site : Site) (opening closing : Nat) : Located Bytes := do
  let span ← reportAt .nowhere (slice doc.buf (opening + 1) closing)
  reportAt site (decodeSpan host.validateString doc.eagerValidated span)

/-- The body of `qjson_get_str` behind the resolution of the path. -/
def strAt : Located Bytes := do
  let pos ← reportAt .nowhere (atIdx doc.indices cur.idxStart)
  if doc.buf[pos]? ≠ some 0x22 then reportAt (.value cur) (fail .typeMismatch)
  else do
    let closing ← reportAt .nowhere (atIdx doc.indices (u32 (cur.idxStart + 1)))
    decodeString host doc (.byte (pos + 1)) pos closing

/-- The bodies of `qjson_get_i64`, `qjson_get_u64` and `qjson_get_f64`. -/
def i64At : Rust QjsonErr Int := do
  let bytes ← numberBytes doc cur
  parseI64 bytes doc.eagerValidated

@[inherit_doc i64At] def u64At : Rust QjsonErr Int := do
  let bytes ← numberBytes doc cur
  parseU64 bytes doc.eagerValidated

@[inherit_doc i64At] def f64At : Rust QjsonErr F := do
  let bytes ← scalarBytes doc cur
  parseF64 host.std bytes doc.eagerValidated

/-- The body of `qjson_get_bool`. -/
def boolAt : Rust QjsonErr Bool := do
  let bytes ← scalarBytes doc cur
  if bytes = litTrue then .ok true
  else if bytes = litFalse then .ok false
  else fail .typeMismatch

/-- `qjson_cursor_bytes`. -/
def cursorBytes : Rust QjsonErr (Nat × Nat) :=
  if isRootScalarCursor doc cur then scalarByteRange doc cur
  else do
    let pos ← atIdx doc.indices cur.idxStart
    let lead ← getOr doc.buf pos
    if lead = 0x7B ∨ lead = 0x5B ∨ lead = 0x22 then do
      let stop ← atIdx doc.indices cur.idxEnd
      if doc.buf.length ≤ stop then fail .parseError else .ok (pos, stop + 1)
    else scalarByteRange doc cur

/-- `qjson_cursor_object_entry_at`. -/
def objectEntryAt (i : Nat) : Located (Bytes × Cursor) := do
  let entry ← reportAt (.value cur) (nthObjectEntry doc cur i)
  let opening ← reportAt .nowhere (atIdx doc.indices entry.1)
  let closing ← reportAt .nowhere (atIdx doc.indices (u32 (entry.1 + 1)))
  let key ← decodeString host doc (.byte opening) opening closing
  .ok (key, entry.2)

/-- `qjson_iter_init`. -/
def iterInit : Located Iter := do
  let pos ← reportAt .nowhere (atIdx doc.indices cur.idxStart)
  if doc.buf[pos]? ≠ some 0x7B then reportAt (.byte pos) (fail .typeMismatch)
  else do
    let empty ← reportAt .nowhere (isEmptyContainer doc cur.idxStart cur.idxEnd)
    .ok ⟨if empty then cur.idxEnd else u32 (cur.idxStart + 1), cur.idxEnd⟩

/-- The checks of `qjson_iter_next` on the marks of the key. -/
def iterKey (it : Iter) : Located (Nat × Nat) := do
  let opening ← reportAt .nowhere (atIdx doc.indices it.idxCurrent)
  let closing ← reportAt .nowhere (atIdx doc.indices (u32 (it.idxCurrent + 1)))
  let colon ← reportAt .nowhere (atIdx doc.indices (u32 (it.idxCurrent + 2)))
  if doc.buf[opening]? ≠ some 0x22 ∨ doc.buf[closing]? ≠ some 0x22 ∨
      doc.buf[colon]? ≠ some 0x3A then reportAt .nowhere (fail .parseError)
  else .ok (opening, closing)

/-- `qjson_iter_next`: the key, the cursor of the value and the iterator behind it. -/
def iterNext (it : Iter) : Located (Bytes × Cursor × Iter) :=
  if it.idxEnd ≤ it.idxCurrent then reportAt .nowhere (fail .notFound)
  else do
    let quotes ← iterKey doc it
    let valueIdxStart := u32 (it.idxCurrent + 3)
    let span ← reportAt .nowhere (findValueSpan doc valueIdxStart)
    let afterPos ← reportAt .nowhere (atIdx doc.indices span.2)
    let after ← reportAt .nowhere (getOr doc.buf afterPos)
    let key ← decodeString host doc (.byte quotes.1) quotes.1 quotes.2
    if after = 0x2C then
      .ok (key, ⟨valueIdxStart, span.1⟩, ⟨u32 (span.2 + 1), it.idxEnd⟩)
    else if after = 0x7D then .ok (key, ⟨valueIdxStart, span.1⟩, ⟨it.idxEnd, it.idxEnd⟩)
    else reportAt .nowhere (fail .parseError)

end Reads

/-! ## Calls on a path -/

/-- What a call returns through its out pointers. -/
inductive Output (F : Type) where
  | type (value : QjsonType)
  | flag (value : Bool)
  | count (value : Nat)
  | text (value : Bytes)
  | int (value : Int)
  | float (value : F)
  | range (start stop : Nat)
  | cursor (cur : Cursor)
  | entry (key : Bytes) (value : Cursor)
  | iter (it : Iter)
  | next (key : Bytes) (value : Cursor) (it : Iter)
  deriving DecidableEq

/-- The reads that the root path functions and the cursor path functions share. -/
inductive Getter where
  | typeof
  | len
  | getStr
  | getI64
  | getU64
  | getF64
  | getBool
  | open
  deriving DecidableEq, Repr

/-- What a getter reads at the cursor its path leads to. -/
def Getter.read {F : Type} (host : Host F) (doc : Document) (cur : Cursor) :
    Getter → Located (Output F)
  | .typeof => reportAt (.value cur) (typeOf doc cur) >>= fun t => .ok (.type t)
  | .len => reportAt (.value cur) (cursorLen doc cur) >>= fun n => .ok (.count n)
  | .getStr => strAt host doc cur >>= fun bytes => .ok (.text bytes)
  | .getI64 => reportAt (.value cur) (i64At doc cur) >>= fun n => .ok (.int n)
  | .getU64 => reportAt (.value cur) (u64At doc cur) >>= fun n => .ok (.int n)
  | .getF64 => reportAt (.value cur) (f64At host doc cur) >>= fun x => .ok (.float x)
  | .getBool => reportAt (.value cur) (boolAt doc cur) >>= fun b => .ok (.flag b)
  | .open => .ok (.cursor cur)

section Paths

variable {F : Type} (host : Host F) (doc : Document) (cache : SkipCache)

/-- `resolve_root_path` and the read behind it; a path that does not resolve leaves
the error offset cleared. -/
def onRootPath (path : Bytes) (getter : Getter) : Located (Output F) × SkipCache :=
  let resolved := resolve doc cache (Cursor.root doc) path
  (reportAt .nowhere resolved.1 >>= fun cur => getter.read host doc cur, resolved.2)

/-- `cur.resolve` and the read behind it; a path that does not resolve is reported at
the cursor it starts from. -/
def onCursorPath (cur : Cursor) (path : Bytes) (getter : Getter) :
    Located (Output F) × SkipCache :=
  let resolved := resolve doc cache cur path
  (reportAt (.value cur) resolved.1 >>= fun cur => getter.read host doc cur, resolved.2)

/-- The root path functions. -/
def qjsonTypeof (path : Bytes) := onRootPath host doc cache path .typeof
@[inherit_doc qjsonTypeof] def qjsonLen (path : Bytes) := onRootPath host doc cache path .len
@[inherit_doc qjsonTypeof] def qjsonGetStr (path : Bytes) :=
  onRootPath host doc cache path .getStr
@[inherit_doc qjsonTypeof] def qjsonGetI64 (path : Bytes) :=
  onRootPath host doc cache path .getI64
@[inherit_doc qjsonTypeof] def qjsonGetU64 (path : Bytes) :=
  onRootPath host doc cache path .getU64
@[inherit_doc qjsonTypeof] def qjsonGetF64 (path : Bytes) :=
  onRootPath host doc cache path .getF64
@[inherit_doc qjsonTypeof] def qjsonGetBool (path : Bytes) :=
  onRootPath host doc cache path .getBool
@[inherit_doc qjsonTypeof] def qjsonOpen (path : Bytes) := onRootPath host doc cache path .open

/-- The cursor path functions. -/
def qjsonCursorTypeof (cur : Cursor) (path : Bytes) :=
  onCursorPath host doc cache cur path .typeof
@[inherit_doc qjsonCursorTypeof] def qjsonCursorLen (cur : Cursor) (path : Bytes) :=
  onCursorPath host doc cache cur path .len
@[inherit_doc qjsonCursorTypeof] def qjsonCursorGetStr (cur : Cursor) (path : Bytes) :=
  onCursorPath host doc cache cur path .getStr
@[inherit_doc qjsonCursorTypeof] def qjsonCursorGetI64 (cur : Cursor) (path : Bytes) :=
  onCursorPath host doc cache cur path .getI64
@[inherit_doc qjsonCursorTypeof] def qjsonCursorGetU64 (cur : Cursor) (path : Bytes) :=
  onCursorPath host doc cache cur path .getU64
@[inherit_doc qjsonCursorTypeof] def qjsonCursorGetF64 (cur : Cursor) (path : Bytes) :=
  onCursorPath host doc cache cur path .getF64
@[inherit_doc qjsonCursorTypeof] def qjsonCursorGetBool (cur : Cursor) (path : Bytes) :=
  onCursorPath host doc cache cur path .getBool
@[inherit_doc qjsonCursorTypeof] def qjsonCursorOpen (cur : Cursor) (path : Bytes) :=
  onCursorPath host doc cache cur path .open

/-- `qjson_is_null`, which has no counterpart for cursors. -/
def qjsonIsNull (path : Bytes) : Located (Output F) × SkipCache :=
  let resolved := resolve doc cache (Cursor.root doc) path
  (reportAt .nowhere resolved.1 >>= fun cur =>
    reportAt (.value cur) (typeOf doc cur) >>= fun t => .ok (.flag (t == .null)), resolved.2)

/-- `qjson_cursor_field`. -/
def qjsonCursorField (cur : Cursor) (key : Bytes) : Located (Output F) × SkipCache :=
  let resolved := resolveSingleKey doc cache cur key
  (reportAt (.value cur) resolved.1 >>= fun child => .ok (.cursor child), resolved.2)

/-- `qjson_cursor_index`. -/
def qjsonCursorIndex (cur : Cursor) (i : Nat) : Located (Output F) × SkipCache :=
  if u32Max < i then (reportAt .nowhere (fail .invalidArg), cache)
  else
    let resolved := resolveSingleIdx doc cache cur i
    (reportAt (.value cur) resolved.1 >>= fun child => .ok (.cursor child), resolved.2)

/-- `qjson_cursor_bytes`. -/
def qjsonCursorBytes (cur : Cursor) : Located (Output F) :=
  reportAt .nowhere (cursorBytes doc cur) >>= fun range => .ok (.range range.1 range.2)

/-- `qjson_cursor_object_entry_at`. -/
def qjsonCursorObjectEntryAt (cur : Cursor) (i : Nat) : Located (Output F) :=
  objectEntryAt host doc cur i >>= fun entry => .ok (.entry entry.1 entry.2)

/-- `qjson_iter_init`. -/
def qjsonIterInit (cur : Cursor) : Located (Output F) :=
  iterInit doc cur >>= fun it => .ok (.iter it)

/-- `qjson_iter_next`. -/
def qjsonIterNext (it : Iter) : Located (Output F) :=
  iterNext host doc it >>= fun out => .ok (.next out.1 out.2.1 out.2.2)

end Paths

end QJson.Ffi
