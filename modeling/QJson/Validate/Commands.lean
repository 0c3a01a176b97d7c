import QJson.Validate.Eager

/-!
# The context stack is a stack

What the walk asks of its stack, macro by macro: each arm of the loop issues a few commands,
and the last arm may give up in between.  Whatever is issued from the root frame on, the array,
`sp` and the fallback vector answer like one plain list.
-/

namespace QJson.Validate

open Rfc8259

section Commands

/-- A use of a macro: `push!`, `pop!`, `last_mut!` read, `last_mut!` written and
`stack_len!`. -/
inductive Command where
  | push (kind : CtxKind)
  | pop
  | top
  | update (kind : CtxKind)
  | length

/-- What a macro returns. -/
inductive Answer where
  | done
  | frame (frame : Option CtxKind)
  | count (n : Nat)

variable {σ : Type} (ops : StackOps σ)

/-- A command on a stack. -/
def Command.ask : Command → σ → Rust ParseError (Answer × σ)
  | .push kind, stack => .ok (.done, ops.push kind stack)
  | .pop, stack => do
      let popped ← ops.pop stack
      .ok (.frame popped.1, popped.2)
  | .top, stack => do
      let cur ← ops.last stack
      .ok (.frame cur, stack)
  | .update kind, stack => .ok (.done, ops.setLast kind stack)
  | .length, stack => .ok (.count (ops.len stack), stack)

/-- Commands one after the other, with all answers. -/
def perform : List Command → σ → Rust ParseError (List Answer × σ)
  | [], stack => .ok ([], stack)
  | command :: rest, stack => do
      let first ← command.ask ops stack
      let others ← perform rest first.2
      .ok (first.1 :: others.1, others.2)

theorem perform_append {front back : List Command} {stack stack' stack'' : σ}
    {answers answers' : List Answer} (first : perform ops front stack = .ok (answers, stack'))
    (second : perform ops back stack' = .ok (answers', stack'')) :
    perform ops (front ++ back) stack = .ok (answers ++ answers', stack'') := by
  induction front generalizing stack answers with
  | nil =>
      obtain ⟨rfl, rfl⟩ := Prod.mk.inj (Except.ok.inj first)
      exact second
  | cons command rest ih =>
      rw [perform] at first
      cases asked : command.ask ops stack with
      | error fault =>
          rw [asked] at first
          cases first
      | ok answered =>
          rw [asked, ok_bind] at first
          cases performed : perform ops rest answered.2 with
          | error fault =>
              rw [performed] at first
              cases first
          | ok others =>
              rw [performed, ok_bind] at first
              obtain ⟨rfl, rfl⟩ := Prod.mk.inj (Except.ok.inj first)
              rw [List.cons_append, perform, asked, ok_bind, ih performed, ok_bind]
              rfl

end Commands

/-! ## What the walk issues -/

/-- The commands of an arm that goes on, from the frames in front of it to those behind it. -/
inductive Arm : Frames → List Command → Frames → Prop where
  /-- A gap without a scalar. -/
  | blank {cur : CtxKind} {frames : Frames} : Arm (cur :: frames) [.top] (cur :: frames)
  /-- A scalar in a gap, or a string as a value. -/
  | value {cur : CtxKind} {frames : Frames} : cur.expectsValue = true →
      Arm (cur :: frames) [.top, .update (parentAfterValue cur)] (parentAfterValue cur :: frames)
  /-- A comma, a colon or a key. -/
  | token {after : CtxKind → Option CtxKind} {cur next : CtxKind} {frames : Frames} :
      after ∈ [afterComma, afterColon, afterString] → after cur = some next →
      Arm (cur :: frames) [.top, .update next] (next :: frames)
  | opener {kind : Kind} {cur : CtxKind} {frames : Frames} : cur.expectsValue = true →
      Arm (cur :: frames)
        [.top, .update (parentAfterValue cur), .length, .push (.afterOpen kind)]
        (.afterOpen kind :: parentAfterValue cur :: frames)
  | closer {kind : Kind} {frame : CtxKind} {frames : Frames} : frame.closes kind = true →
      Arm (frame :: frames) [.pop, .length] frames

/-- The commands of an arm that returns an error. -/
inductive Refusal : Frames → List Command → Prop where
  | top {frames : Frames} : Refusal frames [.top]
  /-- The nesting is too deep. -/
  | opener {cur : CtxKind} {frames : Frames} : cur.expectsValue = true →
      Refusal (cur :: frames) [.top, .update (parentAfterValue cur), .length]
  /-- A bracket that does not close the innermost frame, which may be the root frame. -/
  | closer {frames : Frames} : Refusal frames [.pop]

/-- The sequences that the walk can issue. -/
inductive Issued : Frames → List Command → Prop where
  | stop {frames : Frames} : Issued frames []
  | arm {frames frames' : Frames} {front rest : List Command} : Arm frames front frames' →
      Issued frames' rest → Issued frames (front ++ rest)
  | refused {frames : Frames} {commands : List Command} : Refusal frames commands →
      Issued frames commands

/-! ## The answers agree -/

section Answers

variable {stack stack' : CtxStack} {frames frames' : Frames} {frame : CtxKind}
  {commands front rest : List Command}

/-- Both stacks give the same answers to some commands, and end up so. -/
def Answers (commands : List Command) (stack : CtxStack) (frames : Frames) (stack' : CtxStack)
    (frames' : Frames) : Prop :=
  ∃ answers, perform CtxStack.ops commands stack = .ok (answers, stack') ∧
    perform frameOps commands frames = .ok (answers, frames')

theorem Answers.nil (stack : CtxStack) (frames : Frames) :
    Answers [] stack frames stack frames :=
  ⟨[], rfl, rfl⟩

theorem Answers.append {stack'' : CtxStack} {frames'' : Frames}
    (first : Answers front stack frames stack' frames')
    (second : Answers rest stack' frames' stack'' frames'') :
    Answers (front ++ rest) stack frames stack'' frames'' := by
  obtain ⟨answers, left, right⟩ := first
  obtain ⟨answers', left', right'⟩ := second
  exact ⟨answers ++ answers', perform_append _ left left', perform_append _ right right'⟩

theorem Holds.top (holds : Holds stack (frame :: frames)) :
    Answers [.top] stack (frame :: frames) stack (frame :: frames) := by
  have last : CtxStack.ops.last stack = .ok (some frame) := holds.last
  refine ⟨[.frame (some frame)], ?_, rfl⟩
  simp only [perform, Command.ask, last, ok_bind]

theorem Answers.update (stack : CtxStack) (next : CtxKind) :
    Answers [.update next] stack (frame :: frames) (stack.setLast next) (next :: frames) :=
  ⟨[.done], rfl, rfl⟩

theorem Holds.length (holds : Holds stack frames) :
    Answers [.length] stack frames stack frames := by
  have len : CtxStack.ops.len stack = frames.length := holds.len
  refine ⟨[.count frames.length], ?_, rfl⟩
  simp only [perform, Command.ask, len, ok_bind]

theorem Answers.pushed (stack : CtxStack) (frames : Frames) (kind : CtxKind) :
    Answers [.push kind] stack frames (stack.push kind) (kind :: frames) :=
  ⟨[.done], rfl, rfl⟩

theorem Holds.popped (holds : Holds stack (frame :: frames)) (nonempty : frames ≠ []) :
    ∃ stack', Answers [.pop] stack (frame :: frames) stack' frames ∧ Holds stack' frames := by
  obtain ⟨stack', pop, holds'⟩ := holds.pop nonempty
  have pop : CtxStack.ops.pop stack = .ok (some frame, stack') := pop
  refine ⟨stack', ⟨[.frame (some frame)], ?_, rfl⟩, holds'⟩
  simp only [perform, Command.ask, pop, ok_bind]

/-- A frame that expects a value is left for one that does not. -/
theorem Holds.valued (holds : Holds stack (frame :: frames))
    (grounded : Grounded (frame :: frames)) (expects : frame.expectsValue = true) :
    Holds (stack.setLast (parentAfterValue frame)) (parentAfterValue frame :: frames) ∧
      (parentAfterValue frame :: frames).getLast? = some .topDone := by
  refine ⟨holds.setLast ?_, grounded.parentAfterValue expects⟩
  rintro rfl
  cases expects

theorem Arm.answers (arm : Arm frames commands frames') (holds : Holds stack frames)
    (grounded : Grounded frames) :
    ∃ stack', Answers commands stack frames stack' frames' ∧ Holds stack' frames' ∧
      Grounded frames' := by
  cases arm with
  | blank => exact ⟨stack, holds.top, holds, grounded⟩
  | value expects =>
      obtain ⟨holds', rooted⟩ := holds.valued grounded expects
      exact ⟨_, holds.top.append (Answers.update stack _), holds', .inr rooted⟩
  | @token after cur next frames member token =>
      -- Either a value is stepped over, or the frame is not the root.
      refine ⟨_, holds.top.append (Answers.update stack _), ?_⟩
      rcases after_apart member token with ⟨expects, rfl⟩ | ⟨notTop, notDone⟩
      · obtain ⟨holds', rooted⟩ := holds.valued grounded expects
        exact ⟨holds', .inr rooted⟩
      · exact ⟨holds.setLast fun done => absurd done notDone,
          (grounded.cons_of_ne notTop notDone next).1⟩
  | opener expects =>
      obtain ⟨holds', rooted⟩ := holds.valued grounded expects
      refine ⟨_, (holds.top.append (Answers.update stack _)).append
        (holds'.length.append (Answers.pushed _ _ _)), holds'.push rooted _, .inr ?_⟩
      rw [List.getLast?_cons_cons, rooted]
  | @closer kind frame frames closes =>
      have notRoot : frame ≠ .top ∧ frame ≠ .topDone := by
        constructor <;> rintro rfl <;> cases kind <;> cases closes
      have outer := (grounded.cons_of_ne notRoot.1 notRoot.2 frame).2
      obtain ⟨stack', popped, holds'⟩ := holds.popped outer.ne_nil
      exact ⟨stack', popped.append holds'.length, holds', outer⟩

/-- Whatever the walk issues, the answers agree; only behind the root frame there is nothing
left to agree on. -/
theorem Issued.answers (issued : Issued frames commands) (holds : Holds stack frames)
    (grounded : Grounded frames) :
    ∃ stack' frames', Answers commands stack frames stack' frames' ∧
      (frames' ≠ [] → Holds stack' frames') := by
  induction issued generalizing stack with
  | stop => exact ⟨stack, _, .nil stack _, fun _ => holds⟩
  | arm arm _ ih =>
      obtain ⟨stack₁, front, holds₁, grounded₁⟩ := arm.answers holds grounded
      obtain ⟨stack', frames', rest, holds'⟩ := ih holds₁ grounded₁
      exact ⟨stack', frames', front.append rest, holds'⟩
  | refused refusal =>
      obtain ⟨frame, frames, rfl⟩ := List.exists_cons_of_ne_nil grounded.ne_nil
      cases refusal with
      | top => exact ⟨stack, _, holds.top, fun _ => holds⟩
      | opener expects =>
          obtain ⟨holds', -⟩ := holds.valued grounded expects
          exact ⟨_, _, (holds.top.append (Answers.update stack _)).append holds'.length,
            fun _ => holds'⟩
      | closer =>
          by_cases nonempty : frames = []
          · subst nonempty
            obtain ⟨stack', pop⟩ := holds.exists_pop
            have pop : CtxStack.ops.pop stack = .ok (some frame, stack') := pop
            refine ⟨stack', [], ⟨[.frame (some frame)], ?_, rfl⟩, fun empty => absurd rfl empty⟩
            simp only [perform, Command.ask, pop, ok_bind]
          · obtain ⟨stack', popped, holds'⟩ := holds.popped nonempty
            exact ⟨stack', frames, popped, fun _ => holds'⟩

theorem Holds.setLast_self (holds : Holds stack (frame :: frames)) :
    stack.setLast frame = stack := by
  have last := holds.last
  cases holds with
  | inline _ small _ =>
      simp only [List.length_cons] at small last ⊢
      simp only [CtxStack.last, small, if_true, Nat.succ_ne_zero, if_false, Nat.add_sub_cancel,
        Except.ok.injEq] at last
      obtain ⟨inside, rfl⟩ := List.getElem?_eq_some_iff.1 last
      simp only [CtxStack.setLast, small, if_true, Nat.add_sub_cancel, List.set_getElem_self]
  | spilled deep _ _ => simp [CtxStack.setLast, Nat.not_le.2 deep]

end Answers

/-! ## The walk -/

section Walk

variable {stack stack' : CtxStack} {frames : Frames} {frame : CtxKind} {buf : Bytes}
  {validate : Bytes → Rust QjsonErr Unit} {maxDepth : Nat}

/-- A part of the walk that succeeds issues the commands of an arm. -/
def Steps (stack : CtxStack) (frames : Frames) (stack' : CtxStack) : Prop :=
  ∃ commands frames', Arm frames commands frames' ∧
    Answers commands stack frames stack' frames' ∧ Holds stack' frames' ∧ Grounded frames'

/-- The commands of an arm lead to one stack only. -/
theorem Arm.steps {frames frames' : Frames} {commands : List Command}
    (arm : Arm frames commands frames') (holds : Holds stack frames) (grounded : Grounded frames)
    (performed : (perform CtxStack.ops commands stack).map Prod.snd = .ok stack') :
    Steps stack frames stack' := by
  obtain ⟨stack'', ⟨answers, left, right⟩, holds', grounded'⟩ := arm.answers holds grounded
  rw [left] at performed
  obtain rfl := Except.ok.inj performed
  exact ⟨commands, frames', arm, ⟨answers, left, right⟩, holds', grounded'⟩

variable (holds : Holds stack (frame :: frames)) (grounded : Grounded (frame :: frames))
include holds grounded

theorem steps_consumeGap {start stop : Nat}
    (ok : consumeGap CtxStack.ops buf start stop stack = .ok stack') :
    Steps stack (frame :: frames) stack' := by
  have last : CtxStack.ops.last stack = .ok (some frame) := holds.last
  simp only [consumeGap, holds.lastUnwrap.1, ok_bind] at ok
  cases gap : consumeScalarGap buf start stop frame with
  | error fault =>
      rw [gap] at ok
      cases ok
  | ok next =>
      rw [gap] at ok
      obtain rfl := Except.ok.inj ok
      rcases consumeScalarGap_ok gap with rfl | ⟨expects, rfl⟩
      · have same : CtxStack.ops.setLast next stack = stack := holds.setLast_self
        rw [same]
        exact ⟨_, _, .blank, holds.top, holds, grounded⟩
      · refine (Arm.value expects).steps holds grounded ?_
        simp only [perform, Command.ask, last, ok_bind]
        rfl

theorem steps_onToken {after : CtxKind → Option CtxKind}
    (member : after ∈ [afterComma, afterColon, afterString]) {pos : Nat}
    (ok : onToken CtxStack.ops after pos stack = .ok stack') :
    Steps stack (frame :: frames) stack' := by
  have last : CtxStack.ops.last stack = .ok (some frame) := holds.last
  rw [onToken, last] at ok
  cases token : after frame with
  | none =>
      simp only [okOr, ok_bind, token] at ok
      cases ok
  | some next =>
      simp only [okOr, ok_bind, token] at ok
      obtain rfl := Except.ok.inj ok
      refine (Arm.token member token).steps holds grounded ?_
      simp only [perform, Command.ask, last, ok_bind]
      rfl

theorem steps_onString {pos close : Nat}
    (ok : onString CtxStack.ops validate buf pos close stack = .ok stack') :
    Steps stack (frame :: frames) stack' := by
  rw [onString] at ok
  split at ok
  · cases ok
  · cases read : mapErr (fun code => (⟨code, pos⟩ : ParseError))
        (validate ((buf.drop (pos + 1)).take (close - (pos + 1)))) with
    | error fault =>
        rw [read] at ok
        cases ok
    | ok _ =>
        rw [read, ok_bind] at ok
        exact steps_onToken holds grounded (by simp) ok

theorem steps_onOpener {kind : Kind} {pos : Nat}
    (ok : onOpener CtxStack.ops maxDepth kind pos stack = .ok stack') :
    Steps stack (frame :: frames) stack' := by
  have last : CtxStack.ops.last stack = .ok (some frame) := holds.last
  rw [onOpener, holds.lastUnwrap.1, ok_bind] at ok
  split at ok
  · cases ok
  · rename_i expects
    split at ok
    · cases ok
    · obtain rfl := Except.ok.inj ok
      refine (@Arm.opener kind _ _ (by simpa using expects)).steps holds grounded ?_
      simp only [perform, Command.ask, last, ok_bind]
      rfl

theorem steps_onCloser {kind : Kind} {pos : Nat}
    (ok : onCloser CtxStack.ops kind pos stack = .ok stack') :
    Steps stack (frame :: frames) stack' := by
  obtain ⟨rest, pop⟩ := holds.exists_pop
  have pop : CtxStack.ops.pop stack = .ok (some frame, rest) := pop
  rw [onCloser, pop] at ok
  simp only [okOr, ok_bind] at ok
  split at ok
  · cases ok
  · rename_i closes
    split at ok
    · cases ok
    · obtain rfl := Except.ok.inj ok
      refine (@Arm.closer kind _ _ (by simpa using closes)).steps holds grounded ?_
      simp only [perform, Command.ask, pop, ok_bind]
      rfl

theorem steps_onStructural {b : UInt8} {pos : Nat}
    (ok : onStructural CtxStack.ops maxDepth b pos stack = .ok stack') :
    Steps stack (frame :: frames) stack' := by
  rw [onStructural] at ok
  split at ok
  · exact steps_onOpener holds grounded ok
  split at ok
  · exact steps_onOpener holds grounded ok
  split at ok
  · exact steps_onCloser holds grounded ok
  split at ok
  · exact steps_onCloser holds grounded ok
  split at ok
  · exact steps_onToken holds grounded (by simp) ok
  split at ok
  · exact steps_onToken holds grounded (by simp) ok
  · cases ok

end Walk

/-- The part of the loop behind a step issues what it issues, and the commands of the step come
first. -/
theorem Steps.issued {stack stack₁ final : CtxStack} {frames : Frames}
    (steps : Steps stack frames stack₁)
    (rest : ∀ frames₁, Holds stack₁ frames₁ → Grounded frames₁ → ∃ commands answers,
      Issued frames₁ commands ∧ perform CtxStack.ops commands stack₁ = .ok (answers, final)) :
    ∃ commands answers, Issued frames commands ∧
      perform CtxStack.ops commands stack = .ok (answers, final) := by
  obtain ⟨front, frames₁, arm, ⟨answers, performed, -⟩, holds₁, grounded₁⟩ := steps
  obtain ⟨commands, answers', issued, performed'⟩ := rest frames₁ holds₁ grounded₁
  exact ⟨front ++ commands, answers ++ answers', .arm arm issued,
    perform_append _ performed performed'⟩

/-- The loop issues a sequence that leads to its stack. -/
theorem issued_of_eagerLoop {validate : Bytes → Rust QjsonErr Unit} {buf : Bytes}
    {maxDepth : Nat} (indices : List Nat) {prevEnd last : Nat} {stack final : CtxStack}
    {frames : Frames} (holds : Holds stack frames) (grounded : Grounded frames)
    (ok : eagerLoop CtxStack.ops validate buf maxDepth indices prevEnd stack =
      .ok (last, final)) :
    ∃ commands answers, Issued frames commands ∧
      perform CtxStack.ops commands stack = .ok (answers, final) := by
  induction length : indices.length using Nat.strong_induction_on
    generalizing indices prevEnd stack frames with
  | _ n ih =>
      subst length
      obtain ⟨frame, frames, rfl⟩ := List.exists_cons_of_ne_nil grounded.ne_nil
      match indices with
      | [] =>
          obtain ⟨-, rfl⟩ := Prod.mk.inj (Except.ok.inj ok)
          exact ⟨[], [], .stop, rfl⟩
      | pos :: rest =>
          rw [eagerLoop.eq_def] at ok
          simp only at ok
          split at ok
          · obtain ⟨-, rfl⟩ := Prod.mk.inj (Except.ok.inj ok)
            exact ⟨[], [], .stop, rfl⟩
          · obtain ⟨b, -, ok⟩ := bind_eq_ok_iff.1 ok
            obtain ⟨stack₁, gap, ok⟩ := bind_eq_ok_iff.1 ok
            refine (steps_consumeGap holds grounded gap).issued fun frames₁ holds₁ grounded₁ => ?_
            obtain ⟨frame₁, frames₁, rfl⟩ := List.exists_cons_of_ne_nil grounded₁.ne_nil
            split at ok
            · match rest with
              | [] => cases ok
              | close :: rest =>
                  obtain ⟨stack₂, string, ok⟩ := bind_eq_ok_iff.1 ok
                  exact (steps_onString holds₁ grounded₁ string).issued
                    fun frames₂ holds₂ grounded₂ =>
                      ih rest.length (by simp only [List.length_cons]; omega) rest holds₂ grounded₂
                        ok rfl
            · obtain ⟨stack₂, structural, ok⟩ := bind_eq_ok_iff.1 ok
              exact (steps_onStructural holds₁ grounded₁ structural).issued
                fun frames₂ holds₂ grounded₂ =>
                  ih rest.length (by simp) rest holds₂ grounded₂ ok rfl

/-- The stack of the code is a stack: to every sequence that the walk can issue from the root
frame on, it answers like one plain list, and where the root frame was not popped both have the
same top frame, length and root frame then.  The loop issues such a sequence, and the pass with
its final check comes to the same result on a plain list. -/
theorem ctx_stack_is_list :
    (∀ commands, Issued [.top] commands → ∃ answers stack frames,
      perform CtxStack.ops commands CtxStack.ops.new = .ok (answers, stack) ∧
      perform frameOps commands frameOps.new = .ok (answers, frames) ∧
      (frames ≠ [] → CtxStack.ops.last stack = frameOps.last frames ∧
        CtxStack.ops.len stack = frameOps.len frames ∧
        CtxStack.ops.root stack = frameOps.root frames)) ∧
    ∀ (validate : Bytes → Rust QjsonErr Unit) (buf : Bytes) (indices : List Nat)
      (maxDepth : Nat),
      (∀ prevEnd stack, eagerLoop CtxStack.ops validate buf maxDepth indices 0
          CtxStack.ops.new = .ok (prevEnd, stack) →
        ∃ commands answers, Issued [.top] commands ∧
          perform CtxStack.ops commands CtxStack.ops.new = .ok (answers, stack)) ∧
      validateEagerValues validate buf indices maxDepth =
        eagerFrom frameOps validate buf maxDepth indices 0 frameOps.new := by
  have start : Holds CtxStack.ops.new [.top] :=
    @Holds.inline _ [.top] (by simp) (by simp [stackCap]) (by decide)
  have rooted : Grounded [.top] := .inl rfl
  refine ⟨fun commands issued => ?_, fun validate buf indices maxDepth => ⟨?_, ?_⟩⟩
  · obtain ⟨stack, frames, ⟨answers, left, right⟩, holds⟩ := issued.answers start rooted
    refine ⟨answers, stack, frames, left, right, fun nonempty => ?_⟩
    have holds := holds nonempty
    obtain ⟨frame, frames, rfl⟩ := List.exists_cons_of_ne_nil nonempty
    exact ⟨holds.last, holds.len, holds.root nonempty⟩
  · intro prevEnd stack ok
    exact issued_of_eagerLoop indices start rooted ok
  · exact validateEagerValues_eq validate buf indices maxDepth

end QJson.Validate
