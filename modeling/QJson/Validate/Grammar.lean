import QJson.Validate.Runs

/-!
# Runs are parse trees

A run of the eager pass from the root context exists exactly over the texts of
the grammar.  A parse tree yields a run by induction on the tree, written with
the text that follows it so that runs compose.  Conversely the frames of a run
describe what may still follow: `Completes` is the language that closes one
frame and `Rest` the language of a whole stack, and every step of a run is a
rule of these languages read backwards.
-/

namespace QJson.Validate

open Rfc8259

/-- The state behind a complete entry, and behind the comma after it. -/
def CtxKind.afterValueOf : Kind → CtxKind
  | .arr => .arrAfterValue
  | .obj => .objAfterValue
@[inherit_doc CtxKind.afterValueOf] def CtxKind.afterCommaOf : Kind → CtxKind
  | .arr => .arrAfterComma
  | .obj => .objAfterComma

theorem expectsValue_parentAfterValue (cur : CtxKind) :
    (parentAfterValue cur).expectsValue = false := by
  cases cur <;> rfl

theorem afterComma_afterValueOf (kind : Kind) :
    afterComma (.afterValueOf kind) = some (.afterCommaOf kind) := by
  cases kind <;> rfl

theorem closes_afterValueOf (kind : Kind) :
    (CtxKind.afterValueOf kind).closes kind = true := by
  cases kind <;> rfl

theorem closes_afterOpen (kind : Kind) :
    (CtxKind.afterOpen kind).closes kind = true := by
  cases kind <;> rfl

/-! ## From trees to runs -/

section Completeness

variable {maxDepth : Nat} {cur : CtxKind} {frames : Frames} {rest : Bytes}

/-- Whitespace may stand in front of any run. -/
theorem Runs.prepend {blank : Bytes} (isBlank : IsBlank blank)
    (run : Runs maxDepth (cur :: frames) rest) :
    Runs maxDepth (cur :: frames) (blank ++ rest) := by
  cases run with
  | finish plain read =>
      exact .finish ((isPlain_append _ _).2 ⟨isBlank.isPlain, plain⟩) (read.prepend isBlank)
  | step plain read token tail =>
      rw [← List.append_assoc]
      exact .step ((isPlain_append _ _).2 ⟨isBlank.isPlain, plain⟩)
        (read.prepend isBlank) token tail

theorem Runs.token {frames frames' : Frames} {token : Bytes}
    (read : Token maxDepth (cur :: frames) token frames')
    (run : Runs maxDepth frames' rest) :
    Runs maxDepth (cur :: frames) (token ++ rest) :=
  .step isPlain_nil (.blank isBlank_nil) read run

/-- A scalar may stand in front of a run that waits for no value. -/
theorem Runs.scalar {token : Bytes} (expects : cur.expectsValue = true)
    (scalar : IsScalar token) (run : Runs maxDepth (parentAfterValue cur :: frames) rest) :
    Runs maxDepth (cur :: frames) (token ++ rest) := by
  have idle := expectsValue_parentAfterValue cur
  have tokenPlain : IsPlain token := fun b member => (scalar.isInk b member).2.1
  have joined {gap next} (read : Gap (parentAfterValue cur) gap next) :
      Gap cur (token ++ gap) next := by
    obtain ⟨blank, rfl⟩ := read.blank_of_not_expectsValue idle
    exact @Gap.scalar _ [] _ _ expects isBlank_nil scalar blank
  cases run with
  | finish plain read =>
      exact .finish ((isPlain_append _ _).2 ⟨tokenPlain, plain⟩) (joined read)
  | step plain read next tail =>
      rw [← List.append_assoc]
      exact .step ((isPlain_append _ _).2 ⟨tokenPlain, plain⟩) (joined read) next tail

/-- The name of an entry leads to a state that expects its value. -/
theorem Runs.name {kind : Kind} {name : Option Name} (valid : nameValid kind name)
    (start : cur = .afterOpen kind ∨ cur = .afterCommaOf kind) :
    ∃ value, value.expectsValue = true ∧ parentAfterValue value = .afterValueOf kind ∧
      ∀ {rest}, Runs maxDepth (value :: frames) rest →
        Runs maxDepth (cur :: frames) (nameText name ++ rest) := by
  match kind, name, valid with
  | .arr, none, _ =>
      refine ⟨cur, ?_, ?_, fun run => run⟩ <;> rcases start with rfl | rfl <;> rfl
  | .obj, some name, ⟨beforeBlank, body, afterBlank⟩ =>
      refine ⟨.objAfterColon, rfl, rfl, fun {rest} run => ?_⟩
      have colon : Runs maxDepth (.objAfterKey :: frames) ([0x3A] ++ rest) :=
        .token (.colon rfl) run
      have key : afterString cur = some .objAfterKey := by
        rcases start with rfl | rfl <;> rfl
      have quoted : Runs maxDepth (cur :: frames) _ :=
        .prepend beforeBlank (.token (.string key body) (.prepend afterBlank colon))
      simpa [nameText, Name.render] using quoted

mutual
/-- A value may stand in front of a run that waits for no value. -/
theorem Runs.tree {cur : CtxKind} {frames : Frames} {rest : Bytes} (tree : Tree)
    (valid : tree.Valid) (expects : cur.expectsValue = true)
    (shallow : tree.depth + frames.length ≤ maxDepth)
    (run : Runs maxDepth (parentAfterValue cur :: frames) rest) :
    Runs maxDepth (cur :: frames) (tree.render ++ rest) := by
  cases tree with
  | scalar token =>
      simp only [Tree.Valid] at valid
      rw [Tree.render]
      exact run.scalar expects valid
  | str body =>
      simp only [Tree.Valid] at valid
      rw [Tree.render]
      refine .token (.string ?_ valid) run
      cases cur <;> first | rfl | cases expects
  | empty kind blank =>
      simp only [Tree.Valid] at valid
      simp only [Tree.depth] at shallow
      have close : Runs maxDepth
          (.afterOpen kind :: parentAfterValue cur :: frames)
          (blank ++ ([kind.closer] ++ rest)) :=
        .prepend valid (.token (.closer kind (closes_afterOpen kind) (by simp)) run)
      have opened := Runs.token (.opener kind expects (by omega)) close
      simpa [Tree.render] using opened
  | node kind entries =>
      simp only [Tree.Valid] at valid
      simp only [Tree.depth] at shallow
      have inside := @Runs.entries _ (.afterOpen kind)
        (parentAfterValue cur :: frames) _ entries valid (.inl rfl)
        (by simp only [List.length_cons]; omega) (by simp) run
      have opened := Runs.token (.opener kind expects (by omega)) inside
      simpa [Tree.render] using opened

/-- The entries of a container and its closer may stand in front of a run of
the frames around it. -/
theorem Runs.entries {kind : Kind} {cur : CtxKind} {frames : Frames} {rest : Bytes}
    (entries : Entries) (valid : entries.Valid kind)
    (start : cur = .afterOpen kind ∨ cur = .afterCommaOf kind)
    (shallow : entries.depth + frames.length ≤ maxDepth) (nonempty : frames ≠ [])
    (run : Runs maxDepth frames rest) :
    Runs maxDepth (cur :: frames) (entries.render ++ kind.closer :: rest) := by
  cases entries with
  | last name before value after =>
      simp only [Entries.Valid] at valid
      obtain ⟨nameOk, beforeBlank, valueOk, afterBlank⟩ := valid
      simp only [Entries.depth] at shallow
      obtain ⟨state, expects, done, named⟩ :=
        @Runs.name maxDepth _ frames _ _ nameOk start
      have close : Runs maxDepth (.afterValueOf kind :: frames)
          (after ++ ([kind.closer] ++ rest)) :=
        .prepend afterBlank (.token (.closer kind (closes_afterValueOf kind) nonempty) run)
      rw [← done] at close
      have whole := named (Runs.prepend beforeBlank
        (Runs.tree value valueOk expects shallow close))
      simpa [Entries.render] using whole
  | more name before value after more =>
      simp only [Entries.Valid] at valid
      obtain ⟨nameOk, beforeBlank, valueOk, afterBlank, moreOk⟩ := valid
      simp only [Entries.depth] at shallow
      obtain ⟨state, expects, done, named⟩ :=
        @Runs.name maxDepth _ frames _ _ nameOk start
      have others := @Runs.entries _ (.afterCommaOf kind) _ _ more moreOk (.inr rfl)
        (by omega) nonempty run
      have comma : Runs maxDepth (.afterValueOf kind :: frames)
          (after ++ ([0x2C] ++ (more.render ++ kind.closer :: rest))) :=
        .prepend afterBlank (.token (.comma (afterComma_afterValueOf kind)) others)
      rw [← done] at comma
      have whole := named (Runs.prepend beforeBlank
        (Runs.tree value valueOk expects (by omega) comma))
      simpa [Entries.render] using whole
end

end Completeness

/-! ## From runs to trees -/

/-- The container closes. -/
def Closes (kind : Kind) (text : Bytes) : Prop :=
  ∃ blank, IsBlank blank ∧ text = blank ++ [kind.closer]

/-- Entries at most `budget` deep, and the container closes. -/
def Enters (budget : Nat) (kind : Kind) (text : Bytes) : Prop :=
  ∃ entries : Entries, entries.Valid kind ∧ entries.depth ≤ budget ∧
    text = entries.render ++ [kind.closer]

/-- Behind an entry: the container closes, or a comma and more entries. -/
def Follows (budget : Nat) (kind : Kind) (text : Bytes) : Prop :=
  Closes kind text ∨
    ∃ blank tail, IsBlank blank ∧ Enters budget kind tail ∧ text = blank ++ 0x2C :: tail

/-- Behind a colon: the value of a member, and what follows it. -/
def Valued (budget : Nat) (text : Bytes) : Prop :=
  ∃ (before : Bytes) (value : Tree) (tail : Bytes), IsBlank before ∧ value.Valid ∧
    value.depth ≤ budget ∧ Follows budget .obj tail ∧
    text = before ++ (value.render ++ tail)

/-- What completes the innermost container from a state on, up to and with its
closing bracket; its values are at most `budget` deep. -/
def Completes (budget : Nat) : CtxKind → Bytes → Prop
  | .top, _ => False
  | .topDone, _ => False
  | .arrAfterOpen, text => Closes .arr text ∨ Enters budget .arr text
  | .arrAfterValue, text => Follows budget .arr text
  | .arrAfterComma, text => Enters budget .arr text
  | .objAfterOpen, text => Closes .obj text ∨ Enters budget .obj text
  | .objAfterKey, text =>
      ∃ blank tail, IsBlank blank ∧ Valued budget tail ∧ text = blank ++ 0x3A :: tail
  | .objAfterColon, text => Valued budget text
  | .objAfterValue, text => Follows budget .obj text
  | .objAfterComma, text => Enters budget .obj text

/-- What may follow given frames at nesting limit `maxDepth`. -/
inductive Rest (maxDepth : Nat) : Frames → Bytes → Prop where
  | done {blank : Bytes} : IsBlank blank → Rest maxDepth [.topDone] blank
  | root {before after : Bytes} {value : Tree} : IsBlank before → value.Valid →
      value.depth ≤ maxDepth → IsBlank after →
      Rest maxDepth [.top] (before ++ (value.render ++ after))
  | frame {cur : CtxKind} {frames : Frames} {text rest : Bytes} :
      Completes (maxDepth - frames.length) cur text → Rest maxDepth frames rest →
      Rest maxDepth (cur :: frames) (text ++ rest)

section Soundness

variable {maxDepth budget : Nat} {cur : CtxKind} {frames : Frames} {kind : Kind}

theorem exists_prepend_name {name : Option Name} {blank before : Bytes}
    (isBlank : IsBlank blank) (valid : nameValid kind name)
    (beforeBlank : IsBlank before) :
    ∃ name' before', nameValid kind name' ∧ IsBlank before' ∧
      ∀ tail, nameText name' ++ (before' ++ tail) =
        blank ++ (nameText name ++ (before ++ tail)) := by
  match kind, name, valid with
  | .arr, none, _ =>
      exact ⟨none, blank ++ before, trivial,
        (isBlank_append _ _).2 ⟨isBlank, beforeBlank⟩, by simp [nameText]⟩
  | .obj, some name, ⟨nameBlank, body, afterBlank⟩ =>
      exact ⟨some { name with before := blank ++ name.before }, before,
        ⟨(isBlank_append _ _).2 ⟨isBlank, nameBlank⟩, body, afterBlank⟩, beforeBlank,
        by simp [nameText, Name.render]⟩

theorem Closes.prepend {blank text : Bytes} (isBlank : IsBlank blank)
    (closes : Closes kind text) : Closes kind (blank ++ text) := by
  obtain ⟨rest, restBlank, rfl⟩ := closes
  exact ⟨blank ++ rest, (isBlank_append _ _).2 ⟨isBlank, restBlank⟩, by simp⟩

/-- Whitespace in front of entries belongs to their first entry. -/
theorem Enters.prepend {blank text : Bytes} (isBlank : IsBlank blank)
    (enters : Enters budget kind text) : Enters budget kind (blank ++ text) := by
  obtain ⟨entries, valid, shallow, rfl⟩ := enters
  cases entries with
  | last name before value after =>
      simp only [Entries.Valid] at valid
      obtain ⟨nameOk, beforeBlank, valueOk, afterBlank⟩ := valid
      obtain ⟨name', before', nameOk', beforeBlank', spelled⟩ :=
        exists_prepend_name isBlank nameOk beforeBlank
      refine ⟨.last name' before' value after, ?_, by simpa [Entries.depth] using shallow, ?_⟩
      · simp only [Entries.Valid]
        exact ⟨nameOk', beforeBlank', valueOk, afterBlank⟩
      · simp only [Entries.render, ← List.append_assoc] at spelled ⊢
        rw [spelled]
  | more name before value after more =>
      simp only [Entries.Valid] at valid
      obtain ⟨nameOk, beforeBlank, valueOk, afterBlank, moreOk⟩ := valid
      obtain ⟨name', before', nameOk', beforeBlank', spelled⟩ :=
        exists_prepend_name isBlank nameOk beforeBlank
      refine ⟨.more name' before' value after more, ?_,
        by simpa [Entries.depth] using shallow, ?_⟩
      · simp only [Entries.Valid]
        exact ⟨nameOk', beforeBlank', valueOk, afterBlank, moreOk⟩
      · simp only [Entries.render, ← List.append_assoc] at spelled ⊢
        rw [spelled]

theorem Follows.prepend {blank text : Bytes} (isBlank : IsBlank blank)
    (follows : Follows budget kind text) : Follows budget kind (blank ++ text) := by
  rcases follows with closes | ⟨rest, tail, restBlank, enters, rfl⟩
  · exact .inl (closes.prepend isBlank)
  · exact .inr ⟨blank ++ rest, tail, (isBlank_append _ _).2 ⟨isBlank, restBlank⟩, enters,
      by simp⟩

theorem Valued.prepend {blank text : Bytes} (isBlank : IsBlank blank)
    (valued : Valued budget text) : Valued budget (blank ++ text) := by
  obtain ⟨before, value, tail, beforeBlank, valid, shallow, follows, rfl⟩ := valued
  exact ⟨blank ++ before, value, tail, (isBlank_append _ _).2 ⟨isBlank, beforeBlank⟩,
    valid, shallow, follows, by simp⟩

theorem Completes.prepend {blank text : Bytes} (isBlank : IsBlank blank)
    (completes : Completes budget cur text) : Completes budget cur (blank ++ text) := by
  cases cur with
  | top => exact completes
  | topDone => exact completes
  | arrAfterOpen => exact completes.imp (·.prepend isBlank) (·.prepend isBlank)
  | arrAfterValue => exact Follows.prepend isBlank completes
  | arrAfterComma => exact Enters.prepend isBlank completes
  | objAfterOpen => exact completes.imp (·.prepend isBlank) (·.prepend isBlank)
  | objAfterKey =>
      obtain ⟨rest, tail, restBlank, valued, rfl⟩ := completes
      exact ⟨blank ++ rest, tail, (isBlank_append _ _).2 ⟨isBlank, restBlank⟩, valued,
        by simp⟩
  | objAfterColon => exact Valued.prepend isBlank completes
  | objAfterValue => exact Follows.prepend isBlank completes
  | objAfterComma => exact Enters.prepend isBlank completes

theorem Rest.prepend {blank text : Bytes} (isBlank : IsBlank blank)
    (rest : Rest maxDepth (cur :: frames) text) :
    Rest maxDepth (cur :: frames) (blank ++ text) := by
  cases rest with
  | done after => exact .done ((isBlank_append _ _).2 ⟨isBlank, after⟩)
  | root before valid shallow after =>
      rw [← List.append_assoc]
      exact .root ((isBlank_append _ _).2 ⟨isBlank, before⟩) valid shallow after
  | frame completes outer =>
      rw [← List.append_assoc]
      exact .frame (completes.prepend isBlank) outer

theorem Follows.enters {name : Option Name} {before tail : Bytes} {value : Tree}
    (nameOk : nameValid kind name) (beforeBlank : IsBlank before) (valid : value.Valid)
    (shallow : value.depth ≤ budget) (follows : Follows budget kind tail) :
    Enters budget kind (nameText name ++ (before ++ (value.render ++ tail))) := by
  rcases follows with ⟨blank, isBlank, rfl⟩ |
    ⟨blank, tail, isBlank, ⟨more, moreOk, moreShallow, rfl⟩, rfl⟩
  · refine ⟨.last name before value blank, ?_, by simpa [Entries.depth], ?_⟩
    · simp only [Entries.Valid]
      exact ⟨nameOk, beforeBlank, valid, isBlank⟩
    · simp [Entries.render]
  · refine ⟨.more name before value blank more, ?_, ?_, ?_⟩
    · simp only [Entries.Valid]
      exact ⟨nameOk, beforeBlank, valid, isBlank, moreOk⟩
    · simp only [Entries.depth]
      exact max_le shallow moreShallow
    · simp [Entries.render]

theorem Completes.value {value : Tree} {text : Bytes} (expects : cur.expectsValue = true)
    (valid : value.Valid) (shallow : value.depth ≤ budget)
    (completes : Completes budget (parentAfterValue cur) text) :
    Completes budget cur (value.render ++ text) := by
  cases cur with
  | top => exact completes
  | arrAfterOpen =>
      exact .inr (@Follows.enters _ _ none [] _ _ trivial isBlank_nil valid
        shallow completes)
  | arrAfterComma =>
      exact @Follows.enters _ _ none [] _ _ trivial isBlank_nil valid
        shallow completes
  | objAfterColon =>
      exact ⟨[], value, text, isBlank_nil, valid, shallow, completes, rfl⟩
  | _ => cases expects

/-- A value in front of what follows it, over all frames. -/
theorem Rest.value {value : Tree} {text : Bytes} (expects : cur.expectsValue = true)
    (valid : value.Valid) (shallow : value.depth ≤ maxDepth - frames.length)
    (rest : Rest maxDepth (parentAfterValue cur :: frames) text) :
    Rest maxDepth (cur :: frames) (value.render ++ text) := by
  generalize stateEq : parentAfterValue cur = state at rest
  cases rest with
  | done blank =>
      obtain rfl : cur = .top := by
        cases cur <;>
          first | rfl | exact absurd stateEq (by decide) | exact absurd expects (by decide)
      exact @Rest.root _ [] _ _ isBlank_nil valid shallow blank
  | root _ _ _ _ => cases cur <;> exact absurd stateEq (by decide)
  | frame completes outer =>
      subst stateEq
      rw [← List.append_assoc]
      exact .frame (completes.value expects valid shallow) outer

theorem Rest.gap {next : CtxKind} {gap text : Bytes} (read : Gap cur gap next)
    (rest : Rest maxDepth (next :: frames) text) :
    Rest maxDepth (cur :: frames) (gap ++ text) := by
  cases read with
  | blank isBlank => exact rest.prepend isBlank
  | @scalar before token after expects beforeBlank scalar afterBlank =>
      have value : Rest maxDepth (cur :: frames)
          ((Tree.scalar token).render ++ (after ++ text)) :=
        .value expects (by simpa [Tree.Valid] using scalar) (by simp [Tree.depth])
          (rest.prepend afterBlank)
      simpa [Tree.render] using value.prepend beforeBlank

/-- What completes a container from its opening bracket on makes it a value. -/
theorem Completes.container {text : Bytes}
    (completes : Completes budget (.afterOpen kind) text) :
    ∃ tree : Tree, tree.Valid ∧ tree.depth ≤ budget + 1 ∧
      tree.render = kind.opener :: text := by
  have split : Closes kind text ∨ Enters budget kind text := by
    cases kind <;> exact completes
  rcases split with ⟨blank, isBlank, rfl⟩ | ⟨entries, valid, shallow, rfl⟩
  · exact ⟨.empty kind blank, by simpa [Tree.Valid], by simp [Tree.depth],
      by simp [Tree.render]⟩
  · exact ⟨.node kind entries, by simpa [Tree.Valid], by simpa [Tree.depth],
      by simp [Tree.render]⟩

/-- What completes an object from a key on, with the key in front. -/
theorem Completes.key {body text : Bytes}
    (key : cur = .objAfterOpen ∨ cur = .objAfterComma) (valid : IsBody body)
    (completes : Completes budget .objAfterKey text) :
    Completes budget cur (0x22 :: (body ++ 0x22 :: text)) := by
  obtain ⟨blank, tail, isBlank, valued, rfl⟩ := completes
  obtain ⟨before, value, tail, beforeBlank, valueOk, shallow, follows, rfl⟩ := valued
  have enters := @Follows.enters _ .obj (some ⟨[], body, blank⟩) _ _ _
    ⟨isBlank_nil, valid, isBlank⟩ beforeBlank valueOk shallow follows
  simp only [nameText, Name.render, List.nil_append, List.cons_append,
    List.append_assoc] at enters
  rcases key with rfl | rfl
  · exact .inr enters
  · exact enters

theorem Rest.token {frames' : Frames} {token text : Bytes}
    (read : Token maxDepth (cur :: frames) token frames')
    (rest : Rest maxDepth frames' text) :
    Rest maxDepth (cur :: frames) (token ++ text) := by
  cases read with
  | opener kind expects room =>
      generalize stateEq : CtxKind.afterOpen kind = state at rest
      cases rest with
      | frame completes outer =>
          subst stateEq
          obtain ⟨tree, valid, shallow, spelled⟩ := completes.container
          simp only [List.length_cons] at shallow
          have value := Rest.value expects valid (by omega) outer
          rwa [spelled] at value
  | closer kind closes _ =>
      have here : Closes kind [kind.closer] := ⟨[], isBlank_nil, rfl⟩
      refine .frame ?_ rest
      cases cur <;> cases kind <;>
        first | exact Or.inl here | cases closes
  | @comma _ next _ after =>
      cases rest with
      | done _ => cases cur <;> cases after
      | root _ _ _ _ => cases cur <;> cases after
      | @frame _ _ part rest completes outer =>
          rw [← List.append_assoc]
          refine .frame ?_ outer
          cases cur with
          | arrAfterValue =>
              obtain rfl := Option.some.inj after
              exact .inr ⟨[], part, isBlank_nil, completes, rfl⟩
          | objAfterValue =>
              obtain rfl := Option.some.inj after
              exact .inr ⟨[], part, isBlank_nil, completes, rfl⟩
          | _ => cases after
  | @colon _ next _ after =>
      cases cur with
      | objAfterKey =>
          obtain rfl := Option.some.inj after
          cases rest with
          | @frame _ _ part rest completes outer =>
              rw [← List.append_assoc]
              exact .frame ⟨[], part, isBlank_nil, completes, rfl⟩ outer
      | _ => cases after
  | @string _ next _ body after valid =>
      unfold afterString at after
      split at after
      · rename_i key
        obtain rfl := Option.some.inj after
        cases rest with
        | frame completes outer =>
            have joined := Rest.frame (completes.key key valid) outer
            simpa using joined
      · split at after
        · rename_i expects
          obtain rfl := Option.some.inj after
          have value : Rest maxDepth (cur :: frames) ((Tree.str body).render ++ text) :=
            .value expects (by simpa [Tree.Valid] using valid) (by simp [Tree.depth]) rest
          simpa [Tree.render] using value
        · cases after

/-- Whatever is read in a run is what may follow its frames. -/
theorem rest_of_runs {text : Bytes} (run : Runs maxDepth frames text) :
    Rest maxDepth frames text := by
  induction run with
  | @finish cur gap _ read =>
      rw [← List.append_nil gap]
      exact Rest.gap read (.done isBlank_nil)
  | step _ read token _ ih => exact Rest.gap read (ih.token token)

end Soundness

/-- The texts with a run from the root context are the texts of the grammar
within the nesting limit. -/
theorem runs_top_iff (maxDepth : Nat) (buf : Bytes) :
    Runs maxDepth [.top] buf ↔ IsText maxDepth buf := by
  constructor
  · intro run
    cases rest_of_runs run with
    | root beforeBlank valid shallow afterBlank =>
        exact ⟨_, ⟨valid, _, _, beforeBlank, afterBlank, rfl⟩, shallow⟩
    | frame completes _ => exact completes.elim
  · rintro ⟨tree, ⟨valid, before, after, beforeBlank, afterBlank, rfl⟩, shallow⟩
    have done : Runs maxDepth [parentAfterValue .top] after :=
      .finish afterBlank.isPlain (.blank afterBlank)
    exact .prepend beforeBlank (.tree tree valid rfl (by simpa using shallow) done)

end QJson.Validate
