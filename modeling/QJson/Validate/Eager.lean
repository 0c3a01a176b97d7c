import QJson.Rfc8259.Tree
import QJson.Validate.Number
import QJson.Validate.Strings

/-!
# The eager pass

`validate_eager_values_with_offset` of `src/validate/mod.rs`: one walk over the
structural index with a stack of context states.  The stack of the code is a
fixed buffer of 64 slots that spills into a vector; the walk is written over an
interface of stack operations, so that the code's stack and a plain list of
frames are two instances of it.  The last section proves the two instances
indistinguishable.
-/

namespace QJson.Validate

open Rfc8259

/-- `CtxKind`. -/
inductive CtxKind where
  | top
  | topDone
  | arrAfterOpen
  | arrAfterValue
  | arrAfterComma
  | objAfterOpen
  | objAfterKey
  | objAfterColon
  | objAfterValue
  | objAfterComma
  deriving DecidableEq, Repr

/-- `parent_after_value`. -/
def parentAfterValue : CtxKind → CtxKind
  | .top => .topDone
  | .arrAfterOpen => .arrAfterValue
  | .arrAfterComma => .arrAfterValue
  | .objAfterColon => .objAfterValue
  | other => other

/-- The states in which a value may start. -/
def CtxKind.expectsValue : CtxKind → Bool
  | .top | .arrAfterOpen | .arrAfterComma | .objAfterColon => true
  | _ => false

/-- The states in which the bracket may close. -/
def CtxKind.closes : Kind → CtxKind → Bool
  | .obj, .objAfterOpen | .obj, .objAfterValue => true
  | .arr, .arrAfterOpen | .arr, .arrAfterValue => true
  | _, _ => false

/-- The state behind an opening bracket. -/
def CtxKind.afterOpen : Kind → CtxKind
  | .arr => .arrAfterOpen
  | .obj => .objAfterOpen

/-- The arms of `,`, `:` and `"`: the state a token leads to, if it may stand
there. -/
def afterComma : CtxKind → Option CtxKind
  | .arrAfterValue => some .arrAfterComma
  | .objAfterValue => some .objAfterComma
  | _ => none
@[inherit_doc afterComma] def afterColon : CtxKind → Option CtxKind
  | .objAfterKey => some .objAfterColon
  | _ => none
@[inherit_doc afterComma] def afterString (cur : CtxKind) : Option CtxKind :=
  if cur = .objAfterOpen ∨ cur = .objAfterComma then some .objAfterKey
  else if cur.expectsValue then some (parentAfterValue cur)
  else none

/-- `validate_scalar`; the token is not empty. -/
def validateScalar (scalar : Bytes) : Except QjsonErr Unit :=
  match scalar with
  | [] => .error .parseError
  | b :: _ =>
      if b = 0x74 then if scalar = litTrue then .ok () else .error .parseError
      else if b = 0x66 then if scalar = litFalse then .ok () else .error .parseError
      else if b = 0x6E then if scalar = litNull then .ok () else .error .parseError
      else if b = 0x2D ∨ isDigit b ∨ b = 0x2B ∨ b = 0x2E then validateNumber scalar
      -- `NaN` and `Infinity`
      else if scalar = [0x4E, 0x61, 0x4E] ∨
          scalar = [0x49, 0x6E, 0x66, 0x69, 0x6E, 0x69, 0x74, 0x79] then
        validateNumber scalar
      else .error .parseError

/-- `consume_scalar_gap`: the state after the gap `[start, stop)`.  For an
inverted gap the trimming loops do not move, and the slice panics. -/
def consumeScalarGap (buf : Bytes) (start stop : Nat) (state : CtxKind) :
    Rust ParseError CtxKind :=
  if stop < start then
    if state.expectsValue then .error .panic else fail ⟨.parseError, start⟩
  else
    let gap := (buf.drop start).take (stop - start)
    let s := start + (gap.takeWhile isWs).length
    if trim gap = [] then .ok state
    else if ¬ state.expectsValue then fail ⟨.parseError, s⟩
    else
      match validateScalar (trim gap) with
      | .error code => fail ⟨code, s⟩
      | .ok () => .ok (parentAfterValue state)

/-! ## The walk -/

/-- The macros `push!`, `pop!`, `last_mut!` (read and written), `stack_len!`,
and the slot `stack_buf[0]`. -/
structure StackOps (σ : Type) where
  new : σ
  push : CtxKind → σ → σ
  pop : σ → Rust ParseError (Option CtxKind × σ)
  last : σ → Rust ParseError (Option CtxKind)
  setLast : CtxKind → σ → σ
  len : σ → Nat
  root : σ → CtxKind

section Walk

variable {σ : Type} (ops : StackOps σ) (validate : Bytes → Rust QjsonErr Unit)
  (buf : Bytes) (maxDepth : Nat)

/-- `last_mut!().unwrap()`. -/
def lastUnwrap (stack : σ) : Rust ParseError CtxKind := do
  match ← ops.last stack with
  | some cur => .ok cur
  | none => .error .panic

/-- `consume_scalar_gap(buf, start, stop, last_mut!().unwrap())?`. -/
def consumeGap (start stop : Nat) (stack : σ) : Rust ParseError σ := do
  let cur ← lastUnwrap ops stack
  let next ← consumeScalarGap buf start stop cur
  .ok (ops.setLast next stack)

/-- The arm of `{` and `[`. -/
def onOpener (kind : Kind) (pos : Nat) (stack : σ) : Rust ParseError σ := do
  let cur ← lastUnwrap ops stack
  if ¬ cur.expectsValue then fail ⟨.parseError, pos⟩
  else if ops.len (ops.setLast (parentAfterValue cur) stack) > maxDepth then
    fail ⟨.nestingTooDeep, pos⟩
  else
    .ok (ops.push (.afterOpen kind) (ops.setLast (parentAfterValue cur) stack))

/-- The arms of `}` and `]`. -/
def onCloser (kind : Kind) (pos : Nat) (stack : σ) : Rust ParseError σ := do
  let popped ← ops.pop stack
  let frame ← okOr ⟨.parseError, pos⟩ popped.1
  if ¬ frame.closes kind then fail ⟨.parseError, pos⟩
  else if ops.len popped.2 = 0 then fail ⟨.parseError, pos⟩
  else .ok popped.2

/-- The arms of `,`, `:` and `"`: replace the top state. -/
def onToken (after : CtxKind → Option CtxKind) (pos : Nat) (stack : σ) :
    Rust ParseError σ := do
  let cur ← okOr ⟨.parseError, pos⟩ (← ops.last stack)
  let next ← okOr ⟨.parseError, pos⟩ (after cur)
  .ok (ops.setLast next stack)

/-- The `match b` over structural characters other than the quotation mark. -/
def onStructural (b : UInt8) (pos : Nat) (stack : σ) : Rust ParseError σ :=
  if b = 0x7B then onOpener ops maxDepth .obj pos stack
  else if b = 0x5B then onOpener ops maxDepth .arr pos stack
  else if b = 0x7D then onCloser ops .obj pos stack
  else if b = 0x5D then onCloser ops .arr pos stack
  else if b = 0x2C then onToken ops afterComma pos stack
  else if b = 0x3A then onToken ops afterColon pos stack
  else fail ⟨.parseError, pos⟩

/-- The arm of `"`, with the closing quotation mark at `close`. -/
def onString (pos close : Nat) (stack : σ) : Rust ParseError σ :=
  if close ≤ pos ∨ buf.length ≤ close ∨ buf[close]? ≠ some 0x22 then
    fail ⟨.parseError, pos⟩
  else do
    mapErr (⟨·, pos⟩) (validate ((buf.drop (pos + 1)).take (close - (pos + 1))))
    onToken ops afterString pos stack

/-- The `while` loop over the remaining indices; it ends with `prev_end` and the
stack. -/
def eagerLoop : List Nat → (prevEnd : Nat) → σ → Rust ParseError (Nat × σ)
  | [], prevEnd, stack => .ok (prevEnd, stack)
  | pos :: rest, prevEnd, stack =>
      if pos = u32Max then .ok (prevEnd, stack)
      else do
        let b ← atIdx buf pos
        let stack ← consumeGap ops buf prevEnd pos stack
        if b = 0x22 then
          match rest with
          | [] => fail ⟨.parseError, pos⟩
          | close :: rest => do
              let stack ← onString ops validate buf pos close stack
              eagerLoop rest (close + 1) stack
        else do
          let stack ← onStructural ops maxDepth b pos stack
          eagerLoop rest (pos + 1) stack

/-- What follows the loop: the last gap and the check of the final stack. -/
def eagerFinish (prevEnd : Nat) (stack : σ) : Rust ParseError Unit := do
  let stack ← consumeGap ops buf prevEnd buf.length stack
  if ops.len stack ≠ 1 ∨ ops.root stack ≠ .topDone then
    fail ⟨.parseError, buf.length⟩
  else .ok ()

/-- The pass from a given index, gap start and stack on. -/
def eagerFrom (indices : List Nat) (prevEnd : Nat) (stack : σ) :
    Rust ParseError Unit := do
  let final ← eagerLoop ops validate buf maxDepth indices prevEnd stack
  eagerFinish ops buf final.1 final.2

end Walk

/-! ## One round of the walk -/

section Rounds

variable {σ : Type} (ops : StackOps σ) (validate : Bytes → Rust QjsonErr Unit)
  (buf : Bytes) (maxDepth : Nat)

@[simp] theorem eagerFrom_nil (prevEnd : Nat) (stack : σ) :
    eagerFrom ops validate buf maxDepth [] prevEnd stack =
      eagerFinish ops buf prevEnd stack := by
  simp [eagerFrom, eagerLoop, bind, Except.bind]

@[simp] theorem eagerFrom_sentinel (rest : List Nat) (prevEnd : Nat) (stack : σ) :
    eagerFrom ops validate buf maxDepth (u32Max :: rest) prevEnd stack =
      eagerFinish ops buf prevEnd stack := by
  simp [eagerFrom, eagerLoop, bind, Except.bind]

/-- A quotation mark: its partner is the next index. -/
theorem eagerFrom_quote {pos : Nat} (real : pos ≠ u32Max)
    (byte : buf[pos]? = some 0x22) (close : Nat) (rest : List Nat) (prevEnd : Nat)
    (stack : σ) :
    eagerFrom ops validate buf maxDepth (pos :: close :: rest) prevEnd stack = (do
      let stack ← consumeGap ops buf prevEnd pos stack
      let stack ← onString ops validate buf pos close stack
      eagerFrom ops validate buf maxDepth rest (close + 1) stack) := by
  simp only [eagerFrom, eagerLoop, if_neg real, atIdx_of_getElem? byte, if_true,
    ok_bind, bind_assoc]

/-- A quotation mark without a partner. -/
theorem eagerFrom_quote_nil {pos : Nat} (real : pos ≠ u32Max)
    (byte : buf[pos]? = some 0x22) (prevEnd : Nat) (stack : σ) :
    eagerFrom ops validate buf maxDepth [pos] prevEnd stack = (do
      let _ ← consumeGap ops buf prevEnd pos stack
      fail ⟨.parseError, pos⟩) := by
  simp only [eagerFrom, eagerLoop, if_neg real, atIdx_of_getElem? byte, if_true,
    ok_bind]
  cases consumeGap ops buf prevEnd pos stack <;> rfl

theorem eagerFrom_structural {pos : Nat} {b : UInt8} (real : pos ≠ u32Max)
    (byte : buf[pos]? = some b) (notQuote : b ≠ 0x22) (rest : List Nat)
    (prevEnd : Nat) (stack : σ) :
    eagerFrom ops validate buf maxDepth (pos :: rest) prevEnd stack = (do
      let stack ← consumeGap ops buf prevEnd pos stack
      let stack ← onStructural ops maxDepth b pos stack
      eagerFrom ops validate buf maxDepth rest (pos + 1) stack) := by
  cases rest <;>
    simp only [eagerFrom, eagerLoop, if_neg real, atIdx_of_getElem? byte,
      if_neg notQuote, ok_bind, bind_assoc]

/-- An index past the end of the buffer panics. -/
theorem eagerFrom_out {pos : Nat} (real : pos ≠ u32Max)
    (byte : buf[pos]? = none) (rest : List Nat) (prevEnd : Nat) (stack : σ) :
    eagerFrom ops validate buf maxDepth (pos :: rest) prevEnd stack =
      .error .panic := by
  cases rest <;> simp [eagerFrom, eagerLoop, real, atIdx, byte, bind, Except.bind]

end Rounds

/-! ## The stack of the code -/

/-- `STACK_CAP`. -/
def stackCap : Nat := 64

/-- `stack_buf`, `sp` and `fallback`. -/
structure CtxStack where
  stackBuf : List CtxKind
  sp : Nat
  fallback : Option (List CtxKind)
  deriving DecidableEq, Repr

namespace CtxStack

/-- `push!`. -/
def push (kind : CtxKind) (stack : CtxStack) : CtxStack :=
  if stack.sp < stackCap then
    { stack with stackBuf := stack.stackBuf.set stack.sp kind, sp := stack.sp + 1 }
  else
    let fb := stack.fallback.getD (stack.stackBuf.take stack.sp)
    { stack with sp := stackCap + (fb.length + 1), fallback := some (fb ++ [kind]) }

/-- `pop!`. -/
def pop (stack : CtxStack) : Rust ParseError (Option CtxKind × CtxStack) :=
  if stack.sp ≤ stackCap then
    if stack.sp = 0 then .ok (none, stack)
    else .ok (stack.stackBuf[stack.sp - 1]?, { stack with sp := stack.sp - 1 })
  else
    match stack.fallback with
    | none => .error .panic
    | some fb =>
        .ok (fb.getLast?, { stack with
          fallback := some fb.dropLast
          sp := if fb.dropLast.isEmpty then stackCap else stack.sp })

/-- `last_mut!`, read. -/
def last (stack : CtxStack) : Rust ParseError (Option CtxKind) :=
  if stack.sp ≤ stackCap then
    if stack.sp = 0 then .ok none else .ok stack.stackBuf[stack.sp - 1]?
  else
    match stack.fallback with
    | none => .error .panic
    | some fb => .ok fb.getLast?

/-- `last_mut!`, written. -/
def setLast (kind : CtxKind) (stack : CtxStack) : CtxStack :=
  if stack.sp ≤ stackCap then
    { stack with stackBuf := stack.stackBuf.set (stack.sp - 1) kind }
  else
    { stack with fallback := stack.fallback.map fun fb => fb.dropLast ++ [kind] }

/-- `stack_len!`. -/
def len (stack : CtxStack) : Nat :=
  if stack.sp ≤ stackCap then stack.sp else (stack.fallback.map List.length).getD 0

/-- The stack operations of the code. -/
def ops : StackOps CtxStack where
  new := ⟨List.replicate stackCap .top, 1, none⟩
  push := push
  pop := pop
  last := last
  setLast := setLast
  len := len
  root stack := stack.stackBuf.getD 0 .top

end CtxStack

/-- `validate_eager_values_with_offset`. -/
def validateEagerValues (validate : Bytes → Rust QjsonErr Unit) (buf : Bytes)
    (indices : List Nat) (maxDepth : Nat) : Rust ParseError Unit :=
  eagerFrom CtxStack.ops validate buf maxDepth indices 0 CtxStack.ops.new

/-! ## A plain list of frames -/

/-- The frames of the context stack, innermost first. -/
abbrev Frames := List CtxKind

/-- The stack operations on a plain list. -/
def frameOps : StackOps Frames where
  new := [.top]
  push kind frames := kind :: frames
  pop frames := .ok (frames.head?, frames.tail)
  last frames := .ok frames.head?
  setLast kind frames := kind :: frames.tail
  len frames := frames.length
  root frames := frames.getLast?.getD .top

/-! ## The two stacks are indistinguishable -/

/-- The outermost frame is the root context, and while it still waits for its
value nothing is open. -/
def Grounded (frames : Frames) : Prop :=
  frames = [.top] ∨ frames.getLast? = some .topDone

theorem Grounded.ne_nil {frames : Frames} (grounded : Grounded frames) :
    frames ≠ [] := by
  rcases grounded with rfl | last
  · simp
  · rintro rfl
    cases last

/-- Only the root context is a frame of its own. -/
theorem Grounded.cons_of_ne {frame : CtxKind} {frames : Frames}
    (grounded : Grounded (frame :: frames)) (notTop : frame ≠ .top)
    (notDone : frame ≠ .topDone) (next : CtxKind) :
    Grounded (next :: frames) ∧ Grounded frames := by
  rcases grounded with single | last
  · cases single
    exact absurd rfl notTop
  · cases frames with
    | nil => exact absurd (Option.some.inj last) notDone
    | cons inner frames =>
        rw [List.getLast?_cons_cons] at last
        exact ⟨.inr (by rw [List.getLast?_cons_cons, last]), .inr last⟩

/-- A stack of the code that holds the given frames: in the buffer, or spilled
behind a finished root context. -/
inductive Holds : CtxStack → Frames → Prop where
  | inline {stackBuf : List CtxKind} {frames : Frames} :
      stackBuf.length = stackCap → frames.length ≤ stackCap →
      stackBuf.take frames.length = frames.reverse →
      Holds ⟨stackBuf, frames.length, none⟩ frames
  | spilled {stackBuf : List CtxKind} {sp : Nat} {frames : Frames} :
      stackCap < sp → stackBuf.getD 0 .top = .topDone →
      frames.getLast? = some .topDone →
      Holds ⟨stackBuf, sp, some frames.reverse⟩ frames

/-- Outcomes that agree up to the representation of the stack. -/
def Agree : Rust ParseError CtxStack → Rust ParseError Frames → Prop
  | .ok stack, .ok frames => Holds stack frames ∧ Grounded frames
  | .error left, .error right => left = right
  | _, _ => False

section Agreement

variable {stack : CtxStack} {frame : CtxKind} {frames : Frames}

theorem Holds.last (holds : Holds stack (frame :: frames)) :
    stack.last = .ok (some frame) := by
  cases holds with
  | inline long small held =>
      simp only [List.length_cons] at small held ⊢
      have at_ : ∀ stackBuf : List CtxKind,
          stackBuf.take (frames.length + 1) = (frame :: frames).reverse →
          stackBuf[frames.length]? = some frame := by
        intro stackBuf held
        have := congrArg (·[frames.length]?) held
        simpa [List.getElem?_take] using this
      simp [CtxStack.last, small, at_ _ held]
  | spilled deep _ _ =>
      simp [CtxStack.last, Nat.not_le.2 deep]

theorem Holds.len (holds : Holds stack frames) : stack.len = frames.length := by
  cases holds with
  | inline _ small _ => simp [CtxStack.len, small]
  | spilled deep _ _ => simp [CtxStack.len, Nat.not_le.2 deep]

/-- Replacing the top frame; a finished root context stays finished. -/
theorem Holds.setLast (holds : Holds stack (frame :: frames)) {next : CtxKind}
    (keeps : frame = .topDone → next = .topDone) :
    Holds (stack.setLast next) (next :: frames) := by
  cases holds with
  | @inline stackBuf _ long small held =>
      simp only [List.length_cons] at small held ⊢
      simp only [CtxStack.setLast, small, if_true, Nat.add_sub_cancel]
      refine @Holds.inline _ (next :: frames) (by simpa using long) small ?_
      have front : stackBuf.take frames.length = frames.reverse := by
        have := congrArg (List.take frames.length) held
        simpa [List.take_take] using this
      rw [List.length_cons, List.take_add_one, List.take_set_of_le (le_refl _), front,
        List.getElem?_set_self (by omega)]
      simp
  | @spilled stackBuf sp _ deep root last =>
      simp only [CtxStack.setLast, Nat.not_le.2 deep, if_false, Option.map_some]
      have spelled : ((frame :: frames).reverse.dropLast ++ [next]) =
          (next :: frames).reverse := by simp
      rw [spelled]
      refine .spilled deep root ?_
      cases frames with
      | nil => exact congrArg some (keeps (Option.some.inj last))
      | cons inner frames =>
          rw [List.getLast?_cons_cons] at last ⊢
          exact last

theorem Holds.push (holds : Holds stack frames)
    (rooted : frames.getLast? = some .topDone) (next : CtxKind) :
    Holds (stack.push next) (next :: frames) := by
  have kept : (next :: frames).getLast? = some .topDone := by
    cases frames with
    | nil => cases rooted
    | cons inner frames => rwa [List.getLast?_cons_cons]
  cases holds with
  | @inline stackBuf _ long small held =>
      by_cases room : frames.length < stackCap
      · simp only [CtxStack.push, room, if_true]
        refine @Holds.inline _ (next :: frames) (by simpa using long) room ?_
        rw [List.length_cons, List.take_add_one, List.take_set_of_le (le_refl _), held,
          List.getElem?_set_self (by omega)]
        simp
      · simp only [CtxStack.push, room, if_false, Option.getD_none, held]
        have spelled : frames.reverse ++ [next] = (next :: frames).reverse := by simp
        rw [spelled]
        refine .spilled (by omega) ?_ kept
        cases stackBuf with
        | nil => cases long
        | cons b stackBuf =>
            have first := congrArg List.head? held
            rw [List.head?_reverse, rooted] at first
            cases frames with
            | nil => cases rooted
            | cons inner frames => simpa using first
  | @spilled stackBuf sp _ deep root last =>
      have full : ¬ sp < stackCap := by omega
      simp only [CtxStack.push, full, if_false, Option.getD_some]
      have spelled : frames.reverse ++ [next] = (next :: frames).reverse := by simp
      rw [spelled]
      exact .spilled (by omega) root kept

theorem Holds.exists_pop (holds : Holds stack (frame :: frames)) :
    ∃ rest, stack.pop = .ok (some frame, rest) := by
  have last := holds.last
  cases holds with
  | inline _ small _ =>
      simp only [List.length_cons] at small last ⊢
      simp only [CtxStack.last, small, if_true, Nat.succ_ne_zero, if_false,
        Nat.add_sub_cancel, Except.ok.injEq] at last
      simp only [CtxStack.pop, small, if_true, Nat.succ_ne_zero, if_false, last,
        Nat.add_sub_cancel]
      exact ⟨_, rfl⟩
  | spilled deep _ _ =>
      simp only [CtxStack.pop, Nat.not_le.2 deep, if_false, List.getLast?_reverse,
        List.head?_cons]
      exact ⟨_, rfl⟩

theorem Holds.pop (holds : Holds stack (frame :: frames)) (nonempty : frames ≠ []) :
    ∃ rest, stack.pop = .ok (some frame, rest) ∧ Holds rest frames := by
  have last := holds.last
  cases holds with
  | @inline stackBuf _ long small held =>
      simp only [List.length_cons] at small held last ⊢
      simp only [CtxStack.last, small, if_true, Nat.succ_ne_zero, if_false,
        Nat.add_sub_cancel, Except.ok.injEq] at last
      refine ⟨⟨stackBuf, frames.length, none⟩, ?_, .inline long (by omega) ?_⟩
      · simp only [CtxStack.pop, small, if_true, Nat.succ_ne_zero, if_false, last,
          Nat.add_sub_cancel]
      · have := congrArg (List.take frames.length) held
        simpa [List.take_take] using this
  | @spilled stackBuf sp _ deep root rooted =>
      refine ⟨⟨stackBuf, sp, some frames.reverse⟩, ?_, .spilled deep root ?_⟩
      · have kept : frames.isEmpty = false := by simpa using nonempty
        simp [CtxStack.pop, Nat.not_le.2 deep, kept]
      · cases frames with
        | nil => exact absurd rfl nonempty
        | cons inner frames => rwa [List.getLast?_cons_cons] at rooted

/-- A state that expects a value leaves a finished root context behind. -/
theorem Grounded.parentAfterValue (grounded : Grounded (frame :: frames))
    (expects : frame.expectsValue = true) :
    (parentAfterValue frame :: frames).getLast? = some .topDone := by
  rcases grounded with single | last
  · cases single
    rfl
  · cases frames with
    | nil =>
        obtain rfl := Option.some.inj last
        cases expects
    | cons inner frames => rwa [List.getLast?_cons_cons] at last ⊢

theorem consumeScalarGap_ok {buf : Bytes} {start stop : Nat} {state next : CtxKind}
    (ok : consumeScalarGap buf start stop state = .ok next) :
    next = state ∨ state.expectsValue = true ∧ next = parentAfterValue state := by
  unfold consumeScalarGap at ok
  split at ok
  · split at ok <;> cases ok
  · simp only at ok
    split at ok
    · exact .inl (Except.ok.inj ok).symm
    · split at ok
      · cases ok
      · rename_i expects
        split at ok
        · cases ok
        · exact .inr ⟨by simpa using expects, (Except.ok.inj ok).symm⟩

/-- Outcomes that agree continue alike when their continuations do. -/
theorem Agree.bind {left : Rust ParseError CtxStack} {right : Rust ParseError Frames}
    {β : Type} {f : CtxStack → Rust ParseError β} {g : Frames → Rust ParseError β}
    (agree : Agree left right)
    (next : ∀ stack frames, Holds stack frames → Grounded frames → f stack = g frames) :
    left >>= f = right >>= g := by
  match left, right, agree with
  | .ok stack, .ok frames, ⟨holds, grounded⟩ => exact next stack frames holds grounded
  | .error _, .error _, same => exact congrArg Except.error same

theorem Holds.root (holds : Holds stack frames) (nonempty : frames ≠ []) :
    CtxStack.ops.root stack = frameOps.root frames := by
  cases holds with
  | @inline stackBuf _ long _ held =>
      obtain ⟨front, frame, rfl⟩ := List.eq_nil_or_concat frames |>.resolve_left nonempty
      have first := congrArg List.head? held
      cases stackBuf with
      | nil => cases long
      | cons b stackBuf => simpa [CtxStack.ops, frameOps, List.concat_eq_append] using first
  | spilled _ root last =>
      show _ = frames.getLast?.getD .top
      rw [last]
      exact root

theorem Holds.lastUnwrap (holds : Holds stack (frame :: frames)) :
    Validate.lastUnwrap CtxStack.ops stack = .ok frame ∧
      Validate.lastUnwrap frameOps (frame :: frames) = .ok frame := by
  have last : CtxStack.ops.last stack = .ok (some frame) := holds.last
  exact ⟨by simp [Validate.lastUnwrap, last], rfl⟩

/-- A comma, a colon or a string steps over a value, or stands in a container. -/
theorem after_apart {after : CtxKind → Option CtxKind}
    (member : after ∈ [afterComma, afterColon, afterString]) {next : CtxKind}
    (token : after frame = some next) :
    frame.expectsValue = true ∧ next = parentAfterValue frame ∨
      frame ≠ .top ∧ frame ≠ .topDone := by
  simp only [List.mem_cons, List.not_mem_nil, or_false] at member
  rcases member with rfl | rfl | rfl
  · right
    constructor <;> rintro rfl <;> cases token
  · right
    constructor <;> rintro rfl <;> cases token
  · unfold afterString at token
    split at token
    · rename_i key
      right
      rcases key with rfl | rfl <;> simp
    · split at token
      · rename_i expects
        exact .inl ⟨expects, (Option.some.inj token).symm⟩
      · cases token

section Steps

variable (holds : Holds stack (frame :: frames)) (grounded : Grounded (frame :: frames))
include holds grounded

theorem consumeGap_agree (buf : Bytes) (start stop : Nat) :
    Agree (consumeGap CtxStack.ops buf start stop stack)
      (consumeGap frameOps buf start stop (frame :: frames)) := by
  obtain ⟨left, right⟩ := holds.lastUnwrap
  simp only [consumeGap, left, right, Bind.bind, Except.bind]
  cases gap : consumeScalarGap buf start stop frame with
  | error fault => rfl
  | ok next =>
      rcases consumeScalarGap_ok gap with rfl | ⟨expects, rfl⟩
      · exact ⟨holds.setLast id, grounded⟩
      · refine ⟨holds.setLast ?_, .inr (grounded.parentAfterValue expects)⟩
        rintro rfl
        cases expects

theorem onOpener_agree (maxDepth : Nat) (kind : Kind) (pos : Nat) :
    Agree (onOpener CtxStack.ops maxDepth kind pos stack)
      (onOpener frameOps maxDepth kind pos (frame :: frames)) := by
  obtain ⟨left, right⟩ := holds.lastUnwrap
  simp only [onOpener, left, right, Bind.bind, Except.bind]
  by_cases expects : frame.expectsValue = true
  · have rooted := grounded.parentAfterValue expects
    have parent := @Holds.setLast _ _ _ holds (parentAfterValue frame) (by
      rintro rfl
      cases expects)
    have len : CtxStack.ops.len (CtxStack.ops.setLast (parentAfterValue frame) stack) =
        frameOps.len (frameOps.setLast (parentAfterValue frame) (frame :: frames)) :=
      parent.len
    rw [len]
    simp only [expects, not_true, if_false]
    split
    · rfl
    · refine ⟨parent.push rooted _, .inr ?_⟩
      show (CtxKind.afterOpen kind :: parentAfterValue frame :: frames).getLast? = _
      rw [List.getLast?_cons_cons, rooted]
  · simp only [expects]
    rfl

theorem onToken_agree {after : CtxKind → Option CtxKind}
    (member : after ∈ [afterComma, afterColon, afterString]) (pos : Nat) :
    Agree (onToken CtxStack.ops after pos stack)
      (onToken frameOps after pos (frame :: frames)) := by
  have left : CtxStack.ops.last stack = .ok (some frame) := holds.last
  have right : frameOps.last (frame :: frames) = .ok (some frame) := rfl
  simp only [onToken, left, right, Bind.bind, Except.bind, okOr]
  cases token : after frame with
  | none => rfl
  | some next =>
      rcases after_apart member token with ⟨expects, rfl⟩ | ⟨notTop, notDone⟩
      · refine ⟨holds.setLast ?_, .inr (grounded.parentAfterValue expects)⟩
        rintro rfl
        cases expects
      · exact ⟨holds.setLast fun done => absurd done notDone,
          (grounded.cons_of_ne notTop notDone next).1⟩

theorem onCloser_agree (kind : Kind) (pos : Nat) :
    Agree (onCloser CtxStack.ops kind pos stack)
      (onCloser frameOps kind pos (frame :: frames)) := by
  have right : frameOps.pop (frame :: frames) = .ok (some frame, frames) := rfl
  by_cases root : frame = .top ∨ frame = .topDone
  · have refused : ¬ frame.closes kind = true := by
      rcases root with rfl | rfl <;> cases kind <;> simp [CtxKind.closes]
    have left : ∃ rest, CtxStack.ops.pop stack = .ok (some frame, rest) :=
      holds.exists_pop
    obtain ⟨rest, left⟩ := left
    simp only [onCloser, left, right, Bind.bind, Except.bind, okOr, refused]
    rfl
  · obtain ⟨notTop, notDone⟩ := not_or.1 root
    have outer := (grounded.cons_of_ne notTop notDone frame).2
    obtain ⟨rest, left, held⟩ := holds.pop outer.ne_nil
    have left : CtxStack.ops.pop stack = .ok (some frame, rest) := left
    have len : CtxStack.ops.len rest = frameOps.len frames := held.len
    simp only [onCloser, left, right, Bind.bind, Except.bind, okOr, len]
    split
    · rfl
    · split
      · rfl
      · exact ⟨held, outer⟩

theorem onStructural_agree (maxDepth : Nat) (b : UInt8) (pos : Nat) :
    Agree (onStructural CtxStack.ops maxDepth b pos stack)
      (onStructural frameOps maxDepth b pos (frame :: frames)) := by
  unfold onStructural
  split
  · exact onOpener_agree holds grounded maxDepth .obj pos
  split
  · exact onOpener_agree holds grounded maxDepth .arr pos
  split
  · exact onCloser_agree holds grounded .obj pos
  split
  · exact onCloser_agree holds grounded .arr pos
  split
  · exact onToken_agree holds grounded (by simp) pos
  split
  · exact onToken_agree holds grounded (by simp) pos
  · rfl

theorem onString_agree (validate : Bytes → Rust QjsonErr Unit) (buf : Bytes)
    (pos close : Nat) :
    Agree (onString CtxStack.ops validate buf pos close stack)
      (onString frameOps validate buf pos close (frame :: frames)) := by
  unfold onString
  split
  · rfl
  · cases mapErr (fun code => (⟨code, pos⟩ : ParseError))
        (validate ((buf.drop (pos + 1)).take (close - (pos + 1)))) with
    | error fault => rfl
    | ok _ =>
        exact onToken_agree holds grounded (by simp) pos

theorem eagerFinish_agree (buf : Bytes) (prevEnd : Nat) :
    eagerFinish CtxStack.ops buf prevEnd stack =
      eagerFinish frameOps buf prevEnd (frame :: frames) := by
  refine (consumeGap_agree holds grounded buf prevEnd buf.length).bind ?_
  intro stack frames holds grounded
  have len : CtxStack.ops.len stack = frameOps.len frames := holds.len
  rw [len, holds.root grounded.ne_nil]

end Steps

/-- The pass takes the same decisions on both stacks. -/
theorem eagerFrom_agree {validate : Bytes → Rust QjsonErr Unit} {buf : Bytes}
    {maxDepth : Nat} (indices : List Nat) :
    ∀ {prevEnd : Nat} {stack : CtxStack} {frames : Frames}, Holds stack frames →
      Grounded frames →
      eagerFrom CtxStack.ops validate buf maxDepth indices prevEnd stack =
        eagerFrom frameOps validate buf maxDepth indices prevEnd frames := by
  induction length : indices.length using Nat.strong_induction_on generalizing indices with
  | _ n ih =>
      subst length
      intro prevEnd stack frames holds grounded
      obtain ⟨frame, frames, rfl⟩ := List.exists_cons_of_ne_nil grounded.ne_nil
      match indices with
      | [] => simpa using eagerFinish_agree holds grounded buf prevEnd
      | pos :: rest =>
          by_cases real : pos = u32Max
          · subst real
            simpa using eagerFinish_agree holds grounded buf prevEnd
          · cases byte : buf[pos]? with
            | none => rw [eagerFrom_out _ _ _ _ real byte, eagerFrom_out _ _ _ _ real byte]
            | some b =>
                by_cases quote : b = 0x22
                · subst quote
                  match rest with
                  | [] =>
                      rw [eagerFrom_quote_nil _ _ _ _ real byte,
                        eagerFrom_quote_nil _ _ _ _ real byte]
                      exact (consumeGap_agree holds grounded buf prevEnd pos).bind
                        fun _ _ _ _ => rfl
                  | close :: rest =>
                      rw [eagerFrom_quote _ _ _ _ real byte,
                        eagerFrom_quote _ _ _ _ real byte]
                      refine (consumeGap_agree holds grounded buf prevEnd pos).bind ?_
                      intro stack frames holds grounded
                      obtain ⟨frame, frames, rfl⟩ :=
                        List.exists_cons_of_ne_nil grounded.ne_nil
                      refine (onString_agree holds grounded validate buf pos close).bind ?_
                      intro stack frames holds grounded
                      exact ih rest.length (by simp only [List.length_cons]; omega) rest
                        rfl holds grounded
                · rw [eagerFrom_structural _ _ _ _ real byte quote,
                    eagerFrom_structural _ _ _ _ real byte quote]
                  refine (consumeGap_agree holds grounded buf prevEnd pos).bind ?_
                  intro stack frames holds grounded
                  obtain ⟨frame, frames, rfl⟩ :=
                    List.exists_cons_of_ne_nil grounded.ne_nil
                  refine (onStructural_agree holds grounded maxDepth b pos).bind ?_
                  intro stack frames holds grounded
                  exact ih rest.length (by simp) rest rfl holds grounded

end Agreement

/-- The stack with the spill behaves like an unbounded list of frames. -/
theorem validateEagerValues_eq (validate : Bytes → Rust QjsonErr Unit) (buf : Bytes)
    (indices : List Nat) (maxDepth : Nat) :
    validateEagerValues validate buf indices maxDepth =
      eagerFrom frameOps validate buf maxDepth indices 0 [.top] := by
  refine eagerFrom_agree indices ?_ (.inl rfl)
  exact @Holds.inline _ [.top] (by simp) (by simp [stackCap]) (by decide)

end QJson.Validate
