import QJson.Validate.Eager

/-!
# Runs of the eager pass over a text

The eager pass reads a buffer through its structural index.  Here the same pass
is stated over the text alone: a run alternates gaps, which may hold a scalar
token, with structural tokens, which change the context frames.  Over any
structural index of the text the pass succeeds exactly when there is a run.
-/

namespace QJson.Validate

open Rfc8259

/-! ## Scalar tokens -/

theorem validateScalar_ok_iff (token : Bytes) :
    validateScalar token = .ok () ↔ IsScalar token := by
  constructor
  · intro ok
    cases token with
    | nil => cases ok
    | cons b rest =>
        unfold validateScalar at ok
        simp only at ok
        split at ok
        · split at ok
          · rename_i spelled
            exact spelled ▸ .true
          · cases ok
        split at ok
        · split at ok
          · rename_i spelled
            exact spelled ▸ .false
          · cases ok
        split at ok
        · split at ok
          · rename_i spelled
            exact spelled ▸ .null
          · cases ok
        split at ok
        · exact .number ((validateNumber_ok_iff _).1 ok)
        split at ok
        · exact .number ((validateNumber_ok_iff _).1 ok)
        · cases ok
  · intro scalar
    cases scalar with
    | true => rfl
    | false => rfl
    | null => rfl
    | number number =>
        have valid := (validateNumber_ok_iff _).2 number
        obtain ⟨b, rest, rfl, first⟩ := number.exists_cons
        have notT : b ≠ 0x74 := by
          rintro rfl
          exact absurd first (by decide)
        have notF : b ≠ 0x66 := by
          rintro rfl
          exact absurd first (by decide)
        have notN : b ≠ 0x6E := by
          rintro rfl
          exact absurd first (by decide)
        have numeric : b = 0x2D ∨ isDigit b = true ∨ b = 0x2B ∨ b = 0x2E :=
          first.imp_right .inl
        simp only [validateScalar, notT, notF, notN, numeric, if_true, if_false, valid]

/-! ## Gaps -/

/-- Reading the gap between two structural tokens: whitespace keeps the state, a
scalar token completes the value the state expects. -/
inductive Gap : CtxKind → Bytes → CtxKind → Prop where
  | blank {state : CtxKind} {gap : Bytes} : IsBlank gap → Gap state gap state
  | scalar {state : CtxKind} {before token after : Bytes} :
      state.expectsValue = true → IsBlank before → IsScalar token → IsBlank after →
      Gap state (before ++ token ++ after) (parentAfterValue state)

theorem trim_scalar {before token after : Bytes} (beforeBlank : IsBlank before)
    (scalar : IsScalar token) (afterBlank : IsBlank after) :
    trim (before ++ token ++ after) = token :=
  trim_blank_token_blank beforeBlank afterBlank fun b member =>
    (scalar.isInk b member).1

/-- `consume_scalar_gap` reads the gap it is given. -/
theorem consumeScalarGap_ok_iff {buf gap : Bytes} {start stop : Nat}
    {state next : CtxKind} (ordered : start ≤ stop)
    (cut : (buf.drop start).take (stop - start) = gap) :
    consumeScalarGap buf start stop state = .ok next ↔ Gap state gap next := by
  simp only [consumeScalarGap, Nat.not_lt.2 ordered, if_false, cut]
  constructor
  · intro ok
    split at ok
    · rename_i empty
      cases ok
      exact .blank ((trim_eq_nil_iff gap).1 empty)
    · split at ok
      · cases ok
      · rename_i expects
        split at ok
        · cases ok
        · rename_i valid
          cases ok
          obtain ⟨before, after, beforeBlank, afterBlank, split⟩ :=
            exists_blank_trim_blank gap
          rw [split]
          exact .scalar (by simpa using expects) beforeBlank
            ((validateScalar_ok_iff _).1 valid) afterBlank
  · intro read
    cases read with
    | blank blank => rw [if_pos ((trim_eq_nil_iff _).2 blank)]
    | scalar expects beforeBlank scalar afterBlank =>
        rw [trim_scalar beforeBlank scalar afterBlank, if_neg scalar.ne_nil,
          if_neg (by simpa using expects), (validateScalar_ok_iff _).2 scalar]

theorem Gap.no_slash {state next : CtxKind} {gap : Bytes} (read : Gap state gap next) :
    0x5C ∉ gap := by
  intro slash
  cases read with
  | blank blank => exact absurd (blank _ slash) (by decide)
  | scalar _ beforeBlank scalar afterBlank =>
      simp only [List.mem_append] at slash
      rcases slash with (inBefore | inToken) | inAfter
      · exact absurd (beforeBlank _ inBefore) (by decide)
      · exact (scalar.isInk _ inToken).2.2 rfl
      · exact absurd (afterBlank _ inAfter) (by decide)

/-- A state that expects no value reads only whitespace. -/
theorem Gap.blank_of_not_expectsValue {state next : CtxKind} {gap : Bytes}
    (read : Gap state gap next) (idle : state.expectsValue = false) :
    IsBlank gap ∧ next = state := by
  cases read with
  | blank blank => exact ⟨blank, rfl⟩
  | scalar expects _ _ _ => rw [idle] at expects; cases expects

theorem Gap.prepend {state next : CtxKind} {blank gap : Bytes}
    (isBlank : IsBlank blank) (read : Gap state gap next) :
    Gap state (blank ++ gap) next := by
  cases read with
  | blank rest => exact .blank ((isBlank_append _ _).2 ⟨isBlank, rest⟩)
  | scalar expects beforeBlank scalar afterBlank =>
      rw [← List.append_assoc, ← List.append_assoc]
      exact .scalar expects ((isBlank_append _ _).2 ⟨isBlank, beforeBlank⟩) scalar
        afterBlank

/-! ## Runs -/

/-- One structural token, with at most `maxDepth` brackets open. -/
inductive Token (maxDepth : Nat) : Frames → Bytes → Frames → Prop where
  | opener {cur : CtxKind} {frames : Frames} (kind : Kind) :
      cur.expectsValue = true → frames.length + 1 ≤ maxDepth →
      Token maxDepth (cur :: frames) [kind.opener]
        (.afterOpen kind :: parentAfterValue cur :: frames)
  | closer {cur : CtxKind} {frames : Frames} (kind : Kind) :
      cur.closes kind = true → frames ≠ [] →
      Token maxDepth (cur :: frames) [kind.closer] frames
  | comma {cur next : CtxKind} {frames : Frames} : afterComma cur = some next →
      Token maxDepth (cur :: frames) [0x2C] (next :: frames)
  | colon {cur next : CtxKind} {frames : Frames} : afterColon cur = some next →
      Token maxDepth (cur :: frames) [0x3A] (next :: frames)
  | string {cur next : CtxKind} {frames : Frames} {body : Bytes} :
      afterString cur = some next → IsBody body →
      Token maxDepth (cur :: frames) (0x22 :: (body ++ [0x22])) (next :: frames)

/-- A run over a text: gaps and tokens in turn, ending with the root value read
and nothing open. -/
inductive Runs (maxDepth : Nat) : Frames → Bytes → Prop where
  | finish {cur : CtxKind} {gap : Bytes} : IsPlain gap → Gap cur gap .topDone →
      Runs maxDepth [cur] gap
  | step {cur next : CtxKind} {frames frames' : Frames} {gap token rest : Bytes} :
      IsPlain gap → Gap cur gap next → Token maxDepth (next :: frames) token frames' →
      Runs maxDepth frames' rest →
      Runs maxDepth (cur :: frames) (gap ++ (token ++ rest))

theorem Token.ne_nil {maxDepth : Nat} {frames frames' : Frames} {token : Bytes}
    (read : Token maxDepth frames token frames') : frames' ≠ [] := by
  cases read with
  | closer _ _ nonempty => exact nonempty
  | _ => simp

/-- A token is a structural character or a quoted string. -/
theorem Token.shape {maxDepth : Nat} {frames frames' : Frames} {token : Bytes}
    (read : Token maxDepth frames token frames') :
    (∃ b, token = [b] ∧ isStructural b = true) ∨
      ∃ body, token = 0x22 :: (body ++ [0x22]) ∧ IsInert body := by
  cases read with
  | opener kind _ _ => exact .inl ⟨_, rfl, by cases kind <;> rfl⟩
  | closer kind _ _ => exact .inl ⟨_, rfl, by cases kind <;> rfl⟩
  | comma _ => exact .inl ⟨_, rfl, rfl⟩
  | colon _ => exact .inl ⟨_, rfl, rfl⟩
  | string _ body => exact .inr ⟨_, rfl, body.isInert⟩

section Inversion

variable {maxDepth : Nat} {cur : CtxKind} {frames : Frames} {gap rest : Bytes}

theorem runs_plain_iff (plain : IsPlain gap) :
    Runs maxDepth (cur :: frames) gap ↔ frames = [] ∧ Gap cur gap .topDone := by
  constructor
  · intro run
    cases run with
    | finish _ read => exact ⟨rfl, read⟩
    | step _ _ token _ =>
        rcases token.shape with ⟨b, rfl, structural⟩ | ⟨body, rfl, -⟩
        · exact absurd plain (not_plain_cut (isMark_of_isStructural structural))
        · exact absurd plain (not_plain_cut rfl)
  · rintro ⟨rfl, read⟩
    exact .finish plain read

theorem runs_mark_iff {b : UInt8} (plain : IsPlain gap)
    (structural : isStructural b = true) :
    Runs maxDepth (cur :: frames) (gap ++ b :: rest) ↔
      ∃ next, Gap cur gap next ∧ ∃ frames',
        Token maxDepth (next :: frames) [b] frames' ∧ Runs maxDepth frames' rest := by
  constructor
  · intro run
    generalize same : gap ++ b :: rest = text at run
    cases run with
    | finish plain' _ =>
        subst same
        exact absurd plain' (not_plain_cut (isMark_of_isStructural structural))
    | step plain' read token tail =>
        rcases token.shape with ⟨b', rfl, structural'⟩ | ⟨body, rfl, -⟩
        · obtain ⟨rfl, rfl, rfl⟩ := plain_cut plain plain'
            (isMark_of_isStructural structural) (isMark_of_isStructural structural') same
          exact ⟨_, read, _, token, tail⟩
        · obtain ⟨-, quote, -⟩ := plain_cut plain plain'
            (isMark_of_isStructural structural) rfl same
          exact absurd quote (isStructural_ne_quote structural)
  · rintro ⟨next, read, frames', token, tail⟩
    exact .step plain read token tail

theorem runs_string_iff {body : Bytes} (plain : IsPlain gap) (inert : IsInert body) :
    Runs maxDepth (cur :: frames) (gap ++ 0x22 :: (body ++ 0x22 :: rest)) ↔
      ∃ next, Gap cur gap next ∧ ∃ frames',
        Token maxDepth (next :: frames) (0x22 :: (body ++ [0x22])) frames' ∧
          Runs maxDepth frames' rest := by
  constructor
  · intro run
    generalize same : gap ++ 0x22 :: (body ++ 0x22 :: rest) = text at run
    cases run with
    | finish plain' _ =>
        subst same
        exact absurd plain' (not_plain_cut rfl)
    | step plain' read token tail =>
        rcases token.shape with ⟨b', rfl, structural'⟩ | ⟨body', rfl, inert'⟩
        · obtain ⟨-, quote, -⟩ := plain_cut plain plain' rfl
            (isMark_of_isStructural structural') same
          exact absurd quote.symm (isStructural_ne_quote structural')
        · simp only [List.cons_append, List.append_assoc, List.nil_append] at same
          obtain ⟨rfl, -, same⟩ := plain_cut plain plain' rfl rfl same
          obtain ⟨rfl, rfl⟩ := inert_cut inert inert' same
          exact ⟨_, read, _, token, tail⟩
  · rintro ⟨next, read, frames', token, tail⟩
    have run := Runs.step plain read token tail
    simpa using run

theorem not_runs_stray (plain : IsPlain gap) (slash : 0x5C ∈ gap) :
    ¬ Runs maxDepth (cur :: frames) (gap ++ 0x22 :: rest) := by
  intro run
  generalize same : gap ++ 0x22 :: rest = text at run
  cases run with
  | finish plain' _ =>
      subst same
      exact not_plain_cut rfl plain'
  | @step _ _ _ _ gap' _ _ plain' read token _ =>
      have cut : ∃ b' tail, isMark b' = true ∧ gap ++ 0x22 :: rest = gap' ++ b' :: tail := by
        rcases token.shape with ⟨b', rfl, structural⟩ | ⟨body, rfl, -⟩
        · exact ⟨b', _, isMark_of_isStructural structural, same⟩
        · exact ⟨0x22, _, rfl, same⟩
      obtain ⟨b', tail, mark, same⟩ := cut
      obtain ⟨rfl, -⟩ := plain_cut plain plain' rfl mark same
      exact read.no_slash slash

end Inversion

/-! ## The pass against runs -/

section Pass

variable {maxDepth pos : Nat} {cur : CtxKind} {frames frames' : Frames}

theorem lastUnwrap_frames :
    lastUnwrap frameOps (cur :: frames) = .ok cur := rfl

theorem onOpener_ok_iff (kind : Kind) :
    onOpener frameOps maxDepth kind pos (cur :: frames) = .ok frames' ↔
      cur.expectsValue = true ∧ frames.length + 1 ≤ maxDepth ∧
        .afterOpen kind :: parentAfterValue cur :: frames = frames' := by
  rw [onOpener, lastUnwrap_frames, ok_bind]
  cases expects : cur.expectsValue with
  | false => simp [fail]
  | true =>
      by_cases room : frames.length + 1 ≤ maxDepth
      · simp [frameOps, room, Nat.not_lt.2 room]
      · simp [frameOps, fail, room, Nat.lt_of_not_le room]

theorem onCloser_ok_iff (kind : Kind) :
    onCloser frameOps kind pos (cur :: frames) = .ok frames' ↔
      cur.closes kind = true ∧ frames ≠ [] ∧ frames = frames' := by
  cases closes : cur.closes kind with
  | false => simp [onCloser, frameOps, closes, fail]
  | true =>
      cases frames with
      | nil => simp [onCloser, frameOps, fail]
      | cons outer frames => simp [onCloser, frameOps, closes]

theorem onToken_ok_iff (after : CtxKind → Option CtxKind) :
    onToken frameOps after pos (cur :: frames) = .ok frames' ↔
      ∃ next, after cur = some next ∧ next :: frames = frames' := by
  cases token : after cur <;> simp [onToken, frameOps, token, okOr, fail]

theorem onStructural_ok_iff {b : UInt8} (structural : isStructural b = true) :
    onStructural frameOps maxDepth b pos (cur :: frames) = .ok frames' ↔
      Token maxDepth (cur :: frames) [b] frames' := by
  simp only [isStructural, Bool.or_eq_true, beq_iff_eq] at structural
  constructor
  · intro ok
    rcases structural with ((((rfl | rfl) | rfl) | rfl) | rfl) | rfl
    · obtain ⟨expects, room, rfl⟩ := (onOpener_ok_iff .obj).1 ok
      exact .opener .obj expects room
    · obtain ⟨closes, nonempty, rfl⟩ := (onCloser_ok_iff .obj).1 ok
      exact .closer .obj closes nonempty
    · obtain ⟨expects, room, rfl⟩ := (onOpener_ok_iff .arr).1 ok
      exact .opener .arr expects room
    · obtain ⟨closes, nonempty, rfl⟩ := (onCloser_ok_iff .arr).1 ok
      exact .closer .arr closes nonempty
    · obtain ⟨next, token, rfl⟩ := (onToken_ok_iff afterColon).1 ok
      exact .colon token
    · obtain ⟨next, token, rfl⟩ := (onToken_ok_iff afterComma).1 ok
      exact .comma token
  · intro read
    generalize same : [b] = token at read
    cases read with
    | opener kind expects room =>
        obtain rfl := (List.cons.inj same).1
        have step := (@onOpener_ok_iff _ pos _ _ _ kind).2 ⟨expects, room, rfl⟩
        cases kind <;> exact step
    | closer kind closes nonempty =>
        obtain rfl := (List.cons.inj same).1
        have step := (@onCloser_ok_iff pos _ _ _ kind).2 ⟨closes, nonempty, rfl⟩
        cases kind <;> exact step
    | comma token =>
        obtain rfl := (List.cons.inj same).1
        exact (onToken_ok_iff afterComma).2 ⟨_, token, rfl⟩
    | colon token =>
        obtain rfl := (List.cons.inj same).1
        exact (onToken_ok_iff afterColon).2 ⟨_, token, rfl⟩
    | string _ _ =>
        have length := congrArg List.length same
        simp at length

/-- A validator of spans between quotes, however it is implemented. -/
def IsStringValidator (validate : Bytes → Rust QjsonErr Unit) : Prop :=
  ∀ span, validate span = toRust (validateSpanScalar span)

theorem onString_ok_iff {validate : Bytes → Rust QjsonErr Unit}
    (validator : IsStringValidator validate) {buf body : Bytes}
    (inert : IsInert body)
    (cut : (buf.drop (pos + 1)).take body.length = body)
    (close : buf[pos + 1 + body.length]? = some 0x22) :
    onString frameOps validate buf pos (pos + 1 + body.length) (cur :: frames) =
        .ok frames' ↔
      Token maxDepth (cur :: frames) (0x22 :: (body ++ [0x22])) frames' := by
  have inside := (List.getElem?_eq_some_iff.1 close).1
  have found : ¬ (pos + 1 + body.length ≤ pos ∨ buf.length ≤ pos + 1 + body.length ∨
      buf[pos + 1 + body.length]? ≠ some 0x22) := by
    rw [close]
    simp only [ne_eq, not_true, or_false]
    omega
  have width : pos + 1 + body.length - (pos + 1) = body.length := by omega
  rw [onString, if_neg found, width, cut, validator]
  constructor
  · intro ok
    obtain ⟨_, valid, step⟩ := bind_eq_ok_iff.1 ok
    obtain ⟨next, token, rfl⟩ := (onToken_ok_iff afterString).1 step
    refine .string token (IsSpan.isBody ((validateSpanScalar_ok_iff body).1 ?_) inert)
    cases span : validateSpanScalar body with
    | ok _ => rfl
    | error code => rw [span] at valid; cases valid
  · intro read
    generalize same : 0x22 :: (body ++ [0x22]) = token at read
    have quoted : ∀ b : UInt8, 0x22 :: (body ++ [0x22]) ≠ [b] := by simp
    cases read with
    | opener _ _ _ => exact absurd same (quoted _)
    | closer _ _ _ => exact absurd same (quoted _)
    | comma _ => exact absurd same (quoted _)
    | colon _ => exact absurd same (quoted _)
    | string token valid =>
        have bodies := List.append_cancel_right (List.cons.inj same).2
        subst bodies
        have span := (validateSpanScalar_ok_iff body).2 valid.isSpan
        rw [span]
        exact (onToken_ok_iff afterString).2 ⟨_, token, rfl⟩

theorem consumeGap_ok_iff {buf gap : Bytes} {start stop : Nat} (ordered : start ≤ stop)
    (cut : (buf.drop start).take (stop - start) = gap) :
    consumeGap frameOps buf start stop (cur :: frames) = .ok frames' ↔
      ∃ next, Gap cur gap next ∧ next :: frames = frames' := by
  rw [consumeGap, lastUnwrap_frames, ok_bind, bind_eq_ok_iff]
  simp only [consumeScalarGap_ok_iff ordered cut, Except.ok.injEq]
  rfl

end Pass

theorem drop_take_append {front gap rest : Bytes} {start stop : Nat}
    (at_ : start = front.length) (upTo : stop = start + gap.length) :
    ((front ++ (gap ++ rest)).drop start).take (stop - start) = gap := by
  subst at_ upTo
  simp

/-- Over any structural index of the rest of the buffer, the pass succeeds
exactly when there is a run over that rest. -/
theorem eagerFrom_ok_iff {validate : Bytes → Rust QjsonErr Unit}
    (validator : IsStringValidator validate) {maxDepth i : Nat} {text : Bytes}
    {index : List Nat} (indexed : IsIndex text i index) :
    ∀ {front : Bytes} {frames : Frames}, i = front.length → frames ≠ [] →
      (front ++ text).length < u32Max →
      (eagerFrom frameOps validate (front ++ text) maxDepth (index ++ [u32Max]) i
          frames = .ok () ↔ Runs maxDepth frames text) := by
  induction indexed with
  | @plain gap i plain =>
      intro front frames start nonempty small
      obtain ⟨cur, frames, rfl⟩ := List.exists_cons_of_ne_nil nonempty
      rw [List.nil_append, eagerFrom_sentinel, eagerFinish, bind_eq_ok_iff,
        runs_plain_iff plain]
      have cut : ((front ++ gap).drop i).take ((front ++ gap).length - i) = gap := by
        subst start
        simp
      simp only [consumeGap_ok_iff (by simp [start]) cut]
      constructor
      · rintro ⟨frames', ⟨next, read, rfl⟩, ok⟩
        split at ok
        · cases ok
        · rename_i final
          simp only [frameOps, List.length_cons, ne_eq, Nat.add_eq_right, not_or,
            not_not, List.length_eq_zero_iff] at final
          obtain ⟨rfl, root⟩ := final
          exact ⟨rfl, by simpa [← root] using read⟩
      · rintro ⟨rfl, read⟩
        exact ⟨_, ⟨_, read, rfl⟩, rfl⟩
  | @mark gap b rest i index plain structural _ ih =>
      intro front frames start nonempty small
      obtain ⟨cur, frames, rfl⟩ := List.exists_cons_of_ne_nil nonempty
      simp only [List.length_append, List.length_cons] at small
      have byte : (front ++ (gap ++ b :: rest))[i + gap.length]? = some b := by
        subst start
        simp
      have shifted : front ++ (gap ++ b :: rest) = (front ++ gap ++ [b]) ++ rest := by
        simp
      rw [List.cons_append, eagerFrom_structural _ _ _ _ (by omega) byte
        (isStructural_ne_quote structural), bind_eq_ok_iff, runs_mark_iff plain structural]
      simp only [consumeGap_ok_iff (Nat.le_add_right i gap.length)
        (drop_take_append start rfl)]
      constructor
      · rintro ⟨frames', ⟨next, read, rfl⟩, ok⟩
        obtain ⟨frames', step, ok⟩ := bind_eq_ok_iff.1 ok
        have token := (onStructural_ok_iff structural).1 step
        refine ⟨next, read, frames', token, ?_⟩
        rw [shifted] at ok
        refine (ih (by simp [start]; omega) token.ne_nil ?_).1 ok
        simp
        omega
      · rintro ⟨next, read, frames', token, run⟩
        refine ⟨_, ⟨next, read, rfl⟩, bind_eq_ok_iff.2 ⟨frames', ?_, ?_⟩⟩
        · exact (onStructural_ok_iff structural).2 token
        · rw [shifted]
          refine (ih (by simp [start]; omega) token.ne_nil ?_).2 run
          simp
          omega
  | @string gap body rest i index plain inert _ ih =>
      intro front frames start nonempty small
      obtain ⟨cur, frames, rfl⟩ := List.exists_cons_of_ne_nil nonempty
      simp only [List.length_append, List.length_cons] at small
      have shifted : front ++ (gap ++ 0x22 :: (body ++ 0x22 :: rest)) =
          (front ++ gap ++ [0x22] ++ body ++ [0x22]) ++ rest := by
        simp
      have byte : (front ++ (gap ++ 0x22 :: (body ++ 0x22 :: rest)))[i + gap.length]? =
          some 0x22 := by
        subst start
        simp
      have close : (front ++ (gap ++ 0x22 :: (body ++ 0x22 :: rest)))[i + gap.length + 1 +
          body.length]? = some 0x22 := by
        have split : front ++ (gap ++ 0x22 :: (body ++ 0x22 :: rest)) =
            (front ++ gap ++ [0x22] ++ body) ++ 0x22 :: rest := by simp
        rw [split, List.getElem?_append_right (by simp [start]; omega)]
        have zero : i + gap.length + 1 + body.length -
            (front ++ gap ++ [0x22] ++ body).length = 0 := by simp [start]; omega
        rw [zero]
        rfl
      have cut : ((front ++ (gap ++ 0x22 :: (body ++ 0x22 :: rest))).drop
          (i + gap.length + 1)).take body.length = body := by
        have split : front ++ (gap ++ 0x22 :: (body ++ 0x22 :: rest)) =
            (front ++ gap ++ [0x22]) ++ (body ++ 0x22 :: rest) := by simp
        rw [split, List.drop_left' (by simp [start]; omega)]
        simp
      have string {maxDepth : Nat} {cur : CtxKind} {frames frames' : Frames} :=
        @onString_ok_iff maxDepth _ cur frames frames' _ validator _ _ inert cut close
      rw [List.cons_append, List.cons_append,
        eagerFrom_quote _ _ _ _ (by omega) byte, bind_eq_ok_iff,
        runs_string_iff plain inert]
      simp only [consumeGap_ok_iff (Nat.le_add_right i gap.length)
        (drop_take_append start rfl)]
      constructor
      · rintro ⟨frames', ⟨next, read, rfl⟩, ok⟩
        obtain ⟨frames', step, ok⟩ := bind_eq_ok_iff.1 ok
        have token := (@string maxDepth _ _ _).1 step
        refine ⟨next, read, frames', token, ?_⟩
        rw [shifted] at ok
        refine (ih (by simp [start]; omega) token.ne_nil ?_).1 ok
        simp
        omega
      · rintro ⟨next, read, frames', token, run⟩
        refine ⟨_, ⟨next, read, rfl⟩, bind_eq_ok_iff.2 ⟨frames', string.2 token, ?_⟩⟩
        rw [shifted]
        refine (ih (by simp [start]; omega) token.ne_nil ?_).2 run
        simp
        omega
  | @stray gap rest i index plain slash =>
      intro front frames start nonempty small
      obtain ⟨cur, frames, rfl⟩ := List.exists_cons_of_ne_nil nonempty
      simp only [List.length_append, List.length_cons] at small
      have byte : (front ++ (gap ++ 0x22 :: rest))[i + gap.length]? = some 0x22 := by
        subst start
        simp
      refine iff_of_false ?_ (not_runs_stray plain slash)
      have stuck : ∀ frames', consumeGap frameOps (front ++ (gap ++ 0x22 :: rest)) i
          (i + gap.length) (cur :: frames) ≠ .ok frames' := by
        intro frames' ok
        obtain ⟨next, read, -⟩ := (consumeGap_ok_iff (Nat.le_add_right i gap.length)
          (drop_take_append start rfl)).1 ok
        exact read.no_slash slash
      intro ok
      cases index with
      | nil =>
          rw [List.cons_append, List.nil_append,
            eagerFrom_quote _ _ _ _ (by omega) byte] at ok
          obtain ⟨frames', gapOk, -⟩ := bind_eq_ok_iff.1 ok
          exact stuck frames' gapOk
      | cons close index =>
          rw [List.cons_append, List.cons_append,
            eagerFrom_quote _ _ _ _ (by omega) byte] at ok
          obtain ⟨frames', gapOk, -⟩ := bind_eq_ok_iff.1 ok
          exact stuck frames' gapOk

end QJson.Validate
