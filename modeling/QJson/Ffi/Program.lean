import QJson.Ffi.Calls

/-!
# Programs of accessor calls

A caller holds the cursors and iterators that earlier calls returned and makes any
calls on them, in any order.  The calls share the skip cache and the error offset of
the document; `qjson_iter_next` advances the iterator it is called on in place.
-/

namespace QJson.Ffi

open Rfc8259 Validate Doc Decode

/-- The root of the document, or a cursor that is held. -/
inductive Handle where
  | root
  | cursor (slot : Nat)
  deriving DecidableEq, Repr

/-- A call; held cursors and iterators are named by their position. -/
inductive Access where
  | get (handle : Handle) (getter : Getter) (path : Bytes)
  | isNull (path : Bytes)
  | field (slot : Nat) (key : Bytes)
  | index (slot : Nat) (i : Nat)
  | bytes (slot : Nat)
  | entryAt (slot : Nat) (i : Nat)
  | iterInit (slot : Nat)
  | iterNext (slot : Nat)
  deriving DecidableEq, Repr

/-- The mutable cells of a document and what its caller holds. -/
structure Machine where
  cache : SkipCache
  lastErrorOffset : Nat
  cursors : List Cursor
  iters : List Iter
  deriving DecidableEq, Repr

/-- A document behind `qjson_parse_ex`. -/
def Machine.start : Machine := ⟨SkipCache.new, noOffset, [], []⟩

section Steps

variable {F : Type} (host : Host F) (doc : Document)

/-- The root path function of a getter. -/
def Getter.onRoot (cache : SkipCache) (path : Bytes) :
    Getter → Located (Output F) × SkipCache
  | .typeof => qjsonTypeof host doc cache path
  | .len => qjsonLen host doc cache path
  | .getStr => qjsonGetStr host doc cache path
  | .getI64 => qjsonGetI64 host doc cache path
  | .getU64 => qjsonGetU64 host doc cache path
  | .getF64 => qjsonGetF64 host doc cache path
  | .getBool => qjsonGetBool host doc cache path
  | .open => qjsonOpen host doc cache path

/-- The cursor path function of a getter. -/
def Getter.onCursor (cache : SkipCache) (cur : Cursor) (path : Bytes) :
    Getter → Located (Output F) × SkipCache
  | .typeof => qjsonCursorTypeof host doc cache cur path
  | .len => qjsonCursorLen host doc cache cur path
  | .getStr => qjsonCursorGetStr host doc cache cur path
  | .getI64 => qjsonCursorGetI64 host doc cache cur path
  | .getU64 => qjsonCursorGetU64 host doc cache cur path
  | .getF64 => qjsonCursorGetF64 host doc cache cur path
  | .getBool => qjsonCursorGetBool host doc cache cur path
  | .open => qjsonCursorOpen host doc cache cur path

/-- The outcome of a call and the skip cache behind it; `none` for a call on a null
pointer, that is a position that holds nothing. -/
def Machine.answer (m : Machine) : Access → Option (Located (Output F) × SkipCache)
  | .get .root getter path => some (getter.onRoot host doc m.cache path)
  | .get (.cursor slot) getter path =>
      m.cursors[slot]?.map fun cur => getter.onCursor host doc m.cache cur path
  | .isNull path => some (qjsonIsNull doc m.cache path)
  | .field slot key => m.cursors[slot]?.map fun cur => qjsonCursorField doc m.cache cur key
  | .index slot i => m.cursors[slot]?.map fun cur => qjsonCursorIndex doc m.cache cur i
  | .bytes slot => m.cursors[slot]?.map fun cur => (qjsonCursorBytes doc cur, m.cache)
  | .entryAt slot i =>
      m.cursors[slot]?.map fun cur => (qjsonCursorObjectEntryAt host doc cur i, m.cache)
  | .iterInit slot => m.cursors[slot]?.map fun cur => (qjsonIterInit doc cur, m.cache)
  | .iterNext slot => m.iters[slot]?.map fun it => (qjsonIterNext host doc it, m.cache)

/-- The iterator a call advances. -/
def Access.slot : Access → Nat
  | .iterNext slot => slot
  | _ => 0

/-- The caller keeps what a call returned. -/
def Machine.keep (m : Machine) (slot : Nat) : Output F → Machine
  | .cursor cur => { m with cursors := m.cursors ++ [cur] }
  | .entry _ cur => { m with cursors := m.cursors ++ [cur] }
  | .iter it => { m with iters := m.iters ++ [it] }
  | .next _ cur it => { m with cursors := m.cursors ++ [cur], iters := m.iters.set slot it }
  | _ => m

/-- The error offset behind a call: cleared, then set by a failure. -/
def offsetBehind {α : Type} (result : Located α) : Nat :=
  match result with
  | .error (.err (_, .value cur)) => (cursorValueStartOffset doc cur).getD noOffset
  | .error (.err (_, .byte offset)) => offset
  | _ => noOffset

/-- What the caller sees of a call: its output or its code.  `ffi_catch!` turns a panic
into `QJSON_OOM`. -/
def ffiCatch {α : Type} : Located α → Except QjsonErr α
  | .ok output => .ok output
  | .error (.err (code, _)) => .error code
  | .error .panic => .error .oom

/-- The machine behind a call. -/
def Machine.settle (m : Machine) (slot : Nat) (result : Located (Output F) × SkipCache) :
    Machine :=
  let settled :=
    { m with cache := result.2, lastErrorOffset := offsetBehind doc result.1 }
  match result.1 with
  | .ok output => settled.keep slot output
  | .error _ => settled

/-- A call; on a null pointer the error offset is not even cleared. -/
def Machine.step (m : Machine) (access : Access) : Except QjsonErr (Output F) × Machine :=
  match m.answer host doc access with
  | none => (.error .invalidArg, m)
  | some result => (ffiCatch result.1, m.settle doc access.slot result)

/-- What the caller sees of a program: the reply to each call and
`qjson_doc_last_error_offset` behind it. -/
def Machine.trace (m : Machine) : List Access → List (Except QjsonErr (Output F) × Nat)
  | [] => []
  | access :: program =>
      let reply := m.step host doc access
      (reply.1, reply.2.lastErrorOffset) :: reply.2.trace program

/-- The machines that programs lead to. -/
inductive Reached : Machine → Prop where
  | start : Reached Machine.start
  | step {m : Machine} (access : Access) :
      Reached m → Reached (m.step host doc access).2

end Steps

/-! ## What a call gains -/

/-- The cursor a call returns. -/
def Output.cursor? {F : Type} : Output F → Option Cursor
  | .cursor cur | .entry _ cur | .next _ cur _ => some cur
  | _ => none

/-- The iterator a call returns. -/
def Output.iter? {F : Type} : Output F → Option Iter
  | .iter it | .next _ _ it => some it
  | _ => none

section Gains

variable {F : Type} {host : Host F} {doc : Document} {m : Machine} {access : Access}

/-- A call on a null pointer changes nothing. -/
theorem Machine.step_none (null : m.answer host doc access = none) :
    m.step host doc access = (.error .invalidArg, m) := by
  rw [Machine.step, null]

theorem Machine.step_some {result : Located (Output F) × SkipCache}
    (answered : m.answer host doc access = some result) :
    m.step host doc access = (ffiCatch result.1, m.settle doc access.slot result) := by
  rw [Machine.step, answered]

@[simp] theorem Machine.settle_cache (slot : Nat) (result : Located (Output F) × SkipCache) :
    (m.settle doc slot result).cache = result.2 := by
  obtain ⟨result, cache⟩ := result
  cases result with
  | error fault => rfl
  | ok output => cases output <;> rfl

@[simp] theorem Machine.settle_lastErrorOffset (slot : Nat)
    (result : Located (Output F) × SkipCache) :
    (m.settle doc slot result).lastErrorOffset = offsetBehind doc result.1 := by
  obtain ⟨result, cache⟩ := result
  cases result with
  | error fault => rfl
  | ok output => cases output <;> rfl

theorem Machine.mem_settle_cursors {slot : Nat} {result : Located (Output F) × SkipCache}
    {cur : Cursor} (member : cur ∈ (m.settle doc slot result).cursors) :
    cur ∈ m.cursors ∨ ∃ output, result.1 = .ok output ∧ output.cursor? = some cur := by
  obtain ⟨result, cache⟩ := result
  cases result with
  | error fault => exact .inl member
  | ok output =>
      cases output with
      | cursor next | entry _ next | next _ next _ =>
          rcases List.mem_append.1 member with old | new
          · exact .inl old
          · obtain rfl := List.mem_singleton.1 new
            exact .inr ⟨_, rfl, rfl⟩
      | _ => exact .inl member

/-- Cursors stay held. -/
theorem Machine.settle_keeps {slot : Nat} {result : Located (Output F) × SkipCache}
    {cur : Cursor} (member : cur ∈ m.cursors) : cur ∈ (m.settle doc slot result).cursors := by
  obtain ⟨result, cache⟩ := result
  cases result with
  | error fault => exact member
  | ok output =>
      cases output with
      | cursor _ | entry _ _ | next _ _ _ => exact List.mem_append_left _ member
      | _ => exact member

theorem Machine.mem_settle_iters {slot : Nat} {result : Located (Output F) × SkipCache}
    {it : Iter} (member : it ∈ (m.settle doc slot result).iters) :
    it ∈ m.iters ∨ ∃ output, result.1 = .ok output ∧ output.iter? = some it := by
  obtain ⟨result, cache⟩ := result
  cases result with
  | error fault => exact .inl member
  | ok output =>
      cases output with
      | iter next =>
          rcases List.mem_append.1 member with old | new
          · exact .inl old
          · obtain rfl := List.mem_singleton.1 new
            exact .inr ⟨_, rfl, rfl⟩
      | next _ _ next =>
          rcases List.mem_or_eq_of_mem_set member with old | rfl
          · exact .inl old
          · exact .inr ⟨_, rfl, rfl⟩
      | _ => exact .inl member

theorem Getter.onRoot_eq (cache : SkipCache) (path : Bytes) (getter : Getter) :
    getter.onRoot host doc cache path = onRootPath host doc cache path getter := by
  cases getter <;> rfl

theorem Getter.onCursor_eq (cache : SkipCache) (cur : Cursor) (path : Bytes)
    (getter : Getter) :
    getter.onCursor host doc cache cur path = onCursorPath host doc cache cur path getter := by
  cases getter <;> rfl

end Gains

end QJson.Ffi
