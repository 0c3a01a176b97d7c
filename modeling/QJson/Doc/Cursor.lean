import QJson.Doc.Parse
import QJson.Doc.Path

/-!
# Cursors

`src/skip_cache.rs`, `src/cursor.rs` and the accessors of `src/doc.rs`.  A
cursor is a pair of positions in the structural index.  Every access to the
index or to the buffer goes through `atIdx` or `slice`, which panic out of
bounds, and index arithmetic wraps at 32 bits; the skip cache is passed along
explicitly and is returned by failed calls too.
-/

namespace QJson.Doc

open Rfc8259 Validate

/-! ## The skip cache -/

/-- `SkipSlot`. -/
structure SkipSlot where
  childStarts : List Nat
  childEnds : List Nat
  deriving DecidableEq, Repr

/-- `SkipCache`; the hash map is an association list. -/
structure SkipCache where
  slots : List SkipSlot
  byOpener : List (Nat × Nat)
  deriving DecidableEq, Repr

namespace SkipCache

/-- `SkipCache::new`. -/
def new : SkipCache := ⟨[⟨[], []⟩], []⟩

/-- `SkipCache::get`. -/
def get (cache : SkipCache) (openerIdx : Nat) : Option Nat :=
  cache.byOpener.lookup openerIdx

/-- `SkipCache::slot`. -/
def slot (cache : SkipCache) (n : Nat) : Rust QjsonErr SkipSlot :=
  atIdx cache.slots n

/-- `SkipCache::insert`. -/
def insert (cache : SkipCache) (openerIdx : Nat) (childStarts childEnds : List Nat) :
    SkipCache :=
  match cache.get openerIdx with
  | some slotN => { cache with slots := cache.slots.set slotN ⟨childStarts, childEnds⟩ }
  | none =>
      ⟨cache.slots ++ [⟨childStarts, childEnds⟩],
        (openerIdx, u32 cache.slots.length) :: cache.byOpener⟩

end SkipCache

/-! ## Cursors -/

/-- `Cursor`. -/
structure Cursor where
  idxStart : Nat
  idxEnd : Nat
  deriving DecidableEq, Repr

/-- `&buf[start .. stop]`. -/
def slice (buf : Bytes) (start stop : Nat) : Rust QjsonErr Bytes :=
  if start ≤ stop ∧ stop ≤ buf.length then .ok ((buf.drop start).take (stop - start))
  else .error .panic

/-- `*self.buf.get(pos).ok_or(QJSON_PARSE_ERROR)?`. -/
def getOr (buf : Bytes) (pos : Nat) : Rust QjsonErr UInt8 :=
  okOr .parseError buf[pos]?

/-- `Cursor::root`. -/
def Cursor.root (doc : Document) : Cursor :=
  if doc.indices.head? = some u32Max then ⟨0, 1⟩
  else if u32 doc.indices.length = 1 then ⟨0, 1⟩
  else ⟨0, u32 (u32 doc.indices.length + 2 ^ 32 - 2)⟩

/-- The brace-counting loop of `find_value_span` from index `k` on. -/
def spanLoop (buf : Bytes) (wantClose : UInt8) (k : Nat) (depth : Int) :
    List Nat → Rust QjsonErr (Nat × Nat)
  | [] => fail .parseError
  | cbPos :: rest =>
      if buf.length ≤ cbPos then fail .parseError
      else do
        let cb ← atIdx buf cbPos
        if cb = 0x7B ∨ cb = 0x5B then
          spanLoop buf wantClose (u32 (k + 1)) (depth + 1) rest
        else if cb = 0x7D ∨ cb = 0x5D then
          if depth - 1 = 0 then
            if cb ≠ wantClose then fail .parseError else .ok (k, u32 (k + 1))
          else spanLoop buf wantClose (u32 (k + 1)) (depth - 1) rest
        else spanLoop buf wantClose (u32 (k + 1)) depth rest

/-- `find_value_span`: `(cursor_end, skip_end)` of the value whose first marker
is at index `start`. -/
def findValueSpan (doc : Document) (start : Nat) : Rust QjsonErr (Nat × Nat) := do
  let pos ← atIdx doc.indices start
  let b ← getOr doc.buf pos
  if b = 0x7B ∨ b = 0x5B then
    spanLoop doc.buf (if b = 0x7B then 0x7D else 0x5D) (u32 (start + 1)) 1
      (doc.indices.drop (u32 (start + 1)))
  else if b = 0x22 then .ok (u32 (start + 1), u32 (start + 2))
  else .ok (u32 (start + 1), start)

/-- `container_opener_byte`. -/
def containerOpenerByte (doc : Document) (cur : Cursor) : Option UInt8 :=
  match doc.indices[cur.idxStart]? with
  | none => none
  | some pos =>
      match doc.buf[pos]? with
      | none => none
      | some b => if b = 0x7B ∨ b = 0x5B then some b else none

/-- The raw bytes of the key whose opening quote is at index `i`. -/
def keyBytes (doc : Document) (i : Nat) : Rust QjsonErr Bytes := do
  let keyOpen ← atIdx doc.indices i
  let keyClose ← atIdx doc.indices (u32 (i + 1))
  slice doc.buf (keyOpen + 1) keyClose

/-- `while p < stop && is_ws(buf[p]) { p += 1; }` -/
def skipGap (buf : Bytes) (p stop : Nat) : Rust QjsonErr Nat :=
  let q := p + (((buf.drop p).take (stop - p)).takeWhile isWs).length
  if q < stop ∧ buf.length ≤ q then .error .panic else .ok q

/-- The empty-container guard: the first byte behind the opener that is not
whitespace is the closer. -/
def isEmptyContainer (doc : Document) (start stop : Nat) : Rust QjsonErr Bool := do
  let openerPos ← atIdx doc.indices start
  let closerPos ← atIdx doc.indices stop
  let p ← skipGap doc.buf (openerPos + 1) closerPos
  .ok (p == closerPos)

/-- The match check of the slow path for the child at index `i`. -/
def childMatches (doc : Document) (isObj : Bool) (seg : PathSeg) (arrIdx i : Nat) :
    Rust QjsonErr Bool :=
  if isObj then do
    let keyOpen ← atIdx doc.indices i
    if doc.buf[keyOpen]? ≠ some 0x22 then fail .parseError
    else do
      let key ← keyBytes doc i
      .ok (seg == .key key)
  else .ok (seg == .idx arrIdx)

/-- The match check is made until there is a match. -/
def matchOnce (doc : Document) (isObj : Bool) (seg : PathSeg) (arrIdx i : Nat)
    (result : Option Cursor) : Rust QjsonErr Bool :=
  if result.isNone then childMatches doc isObj seg arrIdx i else .ok false

/-- `while i <= end` of the slow path; `fuel` bounds the rounds, and running out
of it counts as a panic. -/
def walkLoop (doc : Document) (isObj : Bool) (seg : PathSeg) (stop : Nat) :
    (fuel i arrIdx : Nat) → (starts ends : List Nat) → (result : Option Cursor) →
    Rust QjsonErr (SkipSlot × Option Cursor)
  | 0, _, _, _, _, _ => .error .panic
  | fuel + 1, i, arrIdx, starts, ends, result =>
      if i ≤ stop then do
        let valueIdxStart := if isObj then u32 (i + 3) else i
        let span ← findValueSpan doc valueIdxStart
        let matched ← matchOnce doc isObj seg arrIdx i result
        let result := if matched then some ⟨valueIdxStart, span.1⟩ else result
        let afterPos ← atIdx doc.indices span.2
        if doc.buf.length ≤ afterPos then
          .ok (⟨starts ++ [i], ends ++ [span.1]⟩, result)
        else do
          let b ← atIdx doc.buf afterPos
          if b = 0x2C then
            walkLoop doc isObj seg stop fuel (u32 (span.2 + 1)) (u32 (arrIdx + 1))
              (starts ++ [i]) (ends ++ [span.1]) result
          else if b = 0x7D ∨ b = 0x5D then
            .ok (⟨starts ++ [i], ends ++ [span.1]⟩, result)
          else fail .parseError
      else .ok (⟨starts, ends⟩, result)

/-- `resolve_in_known_children`, from the `k`-th child on. -/
def resolveInKnownChildren (doc : Document) (isObj : Bool) (seg : PathSeg) :
    (k : Nat) → List (Nat × Nat) → Rust QjsonErr Cursor
  | _, [] => fail .notFound
  | k, (i, cursorEnd) :: rest => do
      let matched ←
        if isObj then do
          let key ← keyBytes doc i
          .ok (seg == .key key)
        else .ok (seg == .idx (u32 k))
      if matched then .ok ⟨if isObj then u32 (i + 3) else i, cursorEnd⟩
      else resolveInKnownChildren doc isObj seg (k + 1) rest

/-- The fast path of `walk_children`. -/
def walkCached (doc : Document) (cache : SkipCache) (slotN : Nat) (isObj : Bool)
    (seg : PathSeg) : Rust QjsonErr Cursor := do
  let slot ← cache.slot slotN
  resolveInKnownChildren doc isObj seg 0 (slot.childStarts.zip slot.childEnds)

/-- The slow path of `walk_children`: the slot to cache and the match. -/
def walkUncached (doc : Document) (cur : Cursor) (isObj : Bool) (seg : PathSeg) :
    Rust QjsonErr (SkipSlot × Option Cursor) := do
  let empty ← isEmptyContainer doc cur.idxStart cur.idxEnd
  if empty then .ok (⟨[], []⟩, none)
  else
    walkLoop doc isObj seg cur.idxEnd (doc.indices.length + 1) (u32 (cur.idxStart + 1)) 0
      [] [] none

/-- `PathSeg::Key(_)`. -/
def PathSeg.isKey : PathSeg → Bool
  | .key _ => true
  | .idx _ => false

/-- `walk_children`. -/
def walkChildren (doc : Document) (cache : SkipCache) (cur : Cursor) (seg : PathSeg) :
    Rust QjsonErr Cursor × SkipCache :=
  match cache.get cur.idxStart with
  | some slotN => (walkCached doc cache slotN seg.isKey seg, cache)
  | none =>
      match walkUncached doc cur seg.isKey seg with
      | .error fault => (.error fault, cache)
      | .ok (slot, result) =>
          (okOr .notFound result,
            cache.insert cur.idxStart slot.childStarts slot.childEnds)

/-- `step`. -/
def step (doc : Document) (cache : SkipCache) (cur : Cursor) (seg : PathSeg) :
    Rust QjsonErr Cursor × SkipCache :=
  match containerOpenerByte doc cur with
  | none => (fail .typeMismatch, cache)
  | some openerByte =>
      match seg, decide (openerByte = 0x7B) with
      | .key _, true => walkChildren doc cache cur seg
      | .idx _, false => walkChildren doc cache cur seg
      | _, _ => (fail .typeMismatch, cache)

/-- `resolve_single_key`. -/
def resolveSingleKey (doc : Document) (cache : SkipCache) (cur : Cursor) (key : Bytes) :
    Rust QjsonErr Cursor × SkipCache :=
  step doc cache cur (.key key)

/-- `resolve_single_idx`. -/
def resolveSingleIdx (doc : Document) (cache : SkipCache) (cur : Cursor) (idx : Nat) :
    Rust QjsonErr Cursor × SkipCache :=
  step doc cache cur (.idx idx)

/-- `Cursor::resolve`. -/
def resolve (doc : Document) (cache : SkipCache) (cur : Cursor) (path : Bytes) :
    Rust QjsonErr Cursor × SkipCache :=
  match _ : pathNext path with
  | none => (.ok cur, cache)
  | some (.error error) => (fail error, cache)
  | some (.ok (seg, rest)) =>
      match step doc cache cur seg with
      | (.ok next, cache) => resolve doc cache next rest
      | (.error fault, cache) => (.error fault, cache)
termination_by path.length
decreasing_by exact pathNext_shorter ‹_›

/-! ## Accessors of a document -/

/-- `is_root_scalar_cursor`. -/
def isRootScalarCursor (doc : Document) (cur : Cursor) : Bool :=
  cur.idxStart == 0 && doc.indices == [u32Max]

/-- `root_scalar_start`. -/
def rootScalarStart (doc : Document) : Nat := skipWs doc.buf 0

/-- `scalar_type_at`. -/
def scalarTypeAt (doc : Document) (scalarStart : Nat) : Rust QjsonErr QjsonType :=
  match doc.buf[scalarStart]? with
  | none => fail .parseError
  | some b =>
      if b = 0x74 ∨ b = 0x66 then .ok .bool
      else if b = 0x6E then .ok .null
      else if b = 0x2D ∨ isDigit b then .ok .num
      else fail .parseError

/-- `find_scalar_start`. -/
def findScalarStart (doc : Document) (idx : Nat) : Rust QjsonErr Nat :=
  if idx = 0 then fail .parseError
  else do
    let prev ← atIdx doc.indices (idx - 1)
    .ok (skipWs doc.buf (prev + 1))

/-- `type_of`. -/
def typeOf (doc : Document) (cur : Cursor) : Rust QjsonErr QjsonType :=
  if isRootScalarCursor doc cur then scalarTypeAt doc (rootScalarStart doc)
  else do
    let pos ← okOr .parseError doc.indices[cur.idxStart]?
    let lead ← getOr doc.buf pos
    if lead = 0x22 then .ok .str
    else if lead = 0x7B then .ok .obj
    else if lead = 0x5B then .ok .arr
    else do
      let scalarStart ← findScalarStart doc cur.idxStart
      scalarTypeAt doc scalarStart

/-- The loop of `nth_object_entry`, at the entry `count` with key at index `i`. -/
def nthEntryLoop (doc : Document) (stop n : Nat) :
    (fuel i count : Nat) → Rust QjsonErr (Nat × Cursor)
  | 0, _, _ => .error .panic
  | fuel + 1, i, count => do
      let span ← findValueSpan doc (u32 (i + 3))
      if count = n then .ok (i, ⟨u32 (i + 3), span.1⟩)
      else do
        let afterPos ← atIdx doc.indices span.2
        if doc.buf.length ≤ afterPos then fail .parseError
        else do
          let b ← atIdx doc.buf afterPos
          if b = 0x2C then
            if u32 (span.2 + 1) > stop then fail .notFound
            else nthEntryLoop doc stop n fuel (u32 (span.2 + 1)) (count + 1)
          else if b = 0x7D then fail .notFound
          else fail .parseError

/-- `nth_object_entry`: the index of the key and the cursor of the value. -/
def nthObjectEntry (doc : Document) (cur : Cursor) (n : Nat) :
    Rust QjsonErr (Nat × Cursor) :=
  if isRootScalarCursor doc cur then fail .typeMismatch
  else do
    let pos ← atIdx doc.indices cur.idxStart
    let b ← getOr doc.buf pos
    if b ≠ 0x7B then fail .typeMismatch
    else do
      let empty ← isEmptyContainer doc cur.idxStart cur.idxEnd
      if empty then fail .notFound
      else
        nthEntryLoop doc cur.idxEnd n (doc.indices.length + 1) (u32 (cur.idxStart + 1)) 0

/-- The loop of `cursor_len`, at the child with first marker `i`. -/
def lenLoop (doc : Document) (isObj : Bool) (stop : Nat) :
    (fuel i count : Nat) → Rust QjsonErr Nat
  | 0, _, _ => .error .panic
  | fuel + 1, i, count => do
      let span ← findValueSpan doc (if isObj then u32 (i + 3) else i)
      let afterPos ← atIdx doc.indices span.2
      if doc.buf.length ≤ afterPos then fail .parseError
      else do
        let b ← atIdx doc.buf afterPos
        if b = 0x2C then
          if u32 (span.2 + 1) > stop then fail .parseError
          else lenLoop doc isObj stop fuel (u32 (span.2 + 1)) (count + 1)
        else if b = 0x7D ∨ b = 0x5D then .ok (count + 1)
        else fail .parseError

/-- `cursor_len`. -/
def cursorLen (doc : Document) (cur : Cursor) : Rust QjsonErr Nat :=
  if isRootScalarCursor doc cur then fail .typeMismatch
  else do
    let pos ← atIdx doc.indices cur.idxStart
    let b ← getOr doc.buf pos
    if b ≠ 0x7B ∧ b ≠ 0x5B then fail .typeMismatch
    else do
      let empty ← isEmptyContainer doc cur.idxStart cur.idxEnd
      if empty then .ok 0
      else
        lenLoop doc (b = 0x7B) cur.idxEnd (doc.indices.length + 1)
          (u32 (cur.idxStart + 1)) 0

end QJson.Doc
