import QJson.Source.Ends
import QJson.Validate.Codes
import QJson.Validate.Runs
import QJson.Validate.Trailing

/-!
# How the eager pass fails

Two error codes of a parse have one origin each: the eager pass reports
`QJSON_NESTING_TOO_DEEP` at opening brackets only, when there are as many frames as the limit
allows, and it never reports `QJSON_TRAILING_CONTENT`.
-/

namespace QJson.Validate

open Rfc8259

/-- An error of the grammar: neither the nesting limit nor trailing content. -/
def Ordinary (error : ParseError) : Prop :=
  error.code ≠ .nestingTooDeep ∧ error.code ≠ .trailingContent

theorem ordinary_parseError (offset : Nat) : Ordinary ⟨.parseError, offset⟩ :=
  ⟨by simp, by simp⟩

theorem validateScalar_error {scalar : Bytes} {code : QjsonErr}
    (failed : validateScalar scalar = .error code) :
    code = .parseError ∨ code = .invalidNumber := by
  have number : validateNumber scalar = .error code → code = .invalidNumber := by
    intro failed
    rcases validateNumber_cases scalar with ok | error
    · rw [ok] at failed
      cases failed
    · rw [error] at failed
      exact (Except.error.inj failed).symm
  cases scalar with
  | nil => exact .inl (Except.error.inj failed).symm
  | cons b rest =>
      unfold validateScalar at failed
      simp only at failed
      split at failed
      · split at failed <;> cases failed
        exact .inl rfl
      split at failed
      · split at failed <;> cases failed
        exact .inl rfl
      split at failed
      · split at failed <;> cases failed
        exact .inl rfl
      split at failed
      · exact .inr (number failed)
      split at failed
      · exact .inr (number failed)
      · exact .inl (Except.error.inj failed).symm

theorem IsStringValidator.error {validate : Bytes → Rust QjsonErr Unit}
    (validator : IsStringValidator validate) (span : Bytes) :
    Ends (fun _ => True) (fun code => code = .invalidUtf8 ∨ code = .invalidString)
      (validate span) := by
  rw [validator span]
  refine ends_toRust (fun _ _ => trivial) fun code failed => ?_
  obtain ⟨-, b, -, -, -, -, rfl⟩ := ((validateSpanScalar_exact span).2 code).1 failed
  by_cases high : 0x80 ≤ b
  · exact .inl (if_pos high)
  · exact .inr (if_neg high)

section Steps

variable {buf : Bytes} {frames : Frames}

theorem consumeScalarGap_ends (start stop : Nat) (state : CtxKind) :
    Ends (fun _ => True) Ordinary (consumeScalarGap buf start stop state) := by
  unfold consumeScalarGap
  split
  · split
    · exact ends_panic
    · exact ordinary_parseError _
  · dsimp only
    split
    · trivial
    · split
      · exact ordinary_parseError _
      · split
        · rename_i failed
          rcases validateScalar_error failed with rfl | rfl <;> exact ⟨by simp, by simp⟩
        · trivial

/-- A gap changes at most the innermost frame. -/
theorem consumeGap_ends (start stop : Nat) :
    Ends (fun next => next.length = frames.length) Ordinary
      (consumeGap frameOps buf start stop frames) := by
  cases frames with
  | nil => exact ends_panic
  | cons cur frames =>
      rw [consumeGap, lastUnwrap_frames, ok_bind]
      exact (consumeScalarGap_ends start stop cur).bind fun _ _ => rfl

theorem onToken_ends (after : CtxKind → Option CtxKind) (pos : Nat) :
    Ends (fun next => next.length = frames.length) Ordinary
      (onToken frameOps after pos frames) := by
  cases frames with
  | nil => exact ordinary_parseError pos
  | cons cur frames =>
      simp only [onToken, frameOps, ok_bind, List.head?_cons, okOr_some, List.tail_cons]
      exact (ends_okOr (ordinary_parseError pos) fun _ _ => trivial).then fun _ => rfl

theorem onString_ends {validate : Bytes → Rust QjsonErr Unit}
    (validator : IsStringValidator validate) (pos close : Nat) :
    Ends (fun next => next.length = frames.length) Ordinary
      (onString frameOps validate buf pos close frames) := by
  unfold onString
  split
  · exact ordinary_parseError pos
  · have span := validator.error ((buf.drop (pos + 1)).take (close - (pos + 1)))
    refine Ends.then (Ends.mapErr (span.mono (fun _ _ => trivial) fun code known => ?_))
      fun _ => onToken_ends afterString pos
    rcases known with rfl | rfl <;> exact ⟨by simp, by simp⟩

/-- A closing bracket removes a frame. -/
theorem onCloser_ends (kind : Kind) (pos : Nat) :
    Ends (fun next => next.length + 1 = frames.length) Ordinary
      (onCloser frameOps kind pos frames) := by
  cases frames with
  | nil => exact ordinary_parseError pos
  | cons cur frames =>
      simp only [onCloser, frameOps, ok_bind, List.head?_cons, okOr_some, List.tail_cons]
      split
      · exact ordinary_parseError pos
      · cases frames with
        | nil => exact ordinary_parseError pos
        | cons outer frames => rfl

/-- An opening bracket adds a frame while there is room for it. -/
theorem onOpener_ends {maxDepth : Nat} (kind : Kind) (pos : Nat) :
    Ends (fun next => next.length = frames.length + 1 ∧ frames.length ≤ maxDepth)
      (fun error => error.code ≠ .trailingContent ∧
        (error.code = .nestingTooDeep → error.offset = pos ∧ maxDepth < frames.length))
      (onOpener frameOps maxDepth kind pos frames) := by
  cases frames with
  | nil => exact ends_panic
  | cons cur frames =>
      rw [onOpener, lastUnwrap_frames, ok_bind]
      split
      · exact ⟨by simp, by simp⟩
      · split
        · rename_i full
          exact ⟨by simp, fun _ => ⟨rfl, full⟩⟩
        · rename_i room
          exact ⟨rfl, Nat.not_lt.1 room⟩

theorem onStructural_opener {maxDepth : Nat} (kind : Kind) (pos : Nat) :
    onStructural frameOps maxDepth kind.opener pos frames =
      onOpener frameOps maxDepth kind pos frames := by
  cases kind <;> rfl

theorem onStructural_closer {maxDepth : Nat} (kind : Kind) (pos : Nat) :
    onStructural frameOps maxDepth kind.closer pos frames =
      onCloser frameOps kind pos frames := by
  cases kind <;> rfl

/-- A separator changes at most the innermost frame. -/
theorem onStructural_separator_ends {maxDepth : Nat} {b : UInt8}
    (separator : b = 0x2C ∨ b = 0x3A) (pos : Nat) :
    Ends (fun next => next.length = frames.length) Ordinary
      (onStructural frameOps maxDepth b pos frames) := by
  rcases separator with rfl | rfl
  · exact onToken_ends afterComma pos
  · exact onToken_ends afterColon pos

/-- No structural character is trailing content. -/
theorem onStructural_ends {maxDepth : Nat} (b : UInt8) (pos : Nat) :
    Ends (fun _ => True) (fun error => error.code ≠ .trailingContent)
      (onStructural frameOps maxDepth b pos frames) := by
  have opener (kind : Kind) : Ends (fun _ => True) (fun error => error.code ≠ .trailingContent)
      (onOpener frameOps maxDepth kind pos frames) :=
    (onOpener_ends kind pos).mono (fun _ _ => trivial) fun _ fair => fair.1
  have closer (kind : Kind) : Ends (fun _ => True) (fun error => error.code ≠ .trailingContent)
      (onCloser frameOps kind pos frames) :=
    (onCloser_ends kind pos).mono (fun _ _ => trivial) fun _ fair => fair.2
  have token (after : CtxKind → Option CtxKind) :
      Ends (fun _ => True) (fun error => error.code ≠ .trailingContent)
        (onToken frameOps after pos frames) :=
    (onToken_ends after pos).mono (fun _ _ => trivial) fun _ fair => fair.2
  unfold onStructural
  split
  · exact opener .obj
  split
  · exact opener .arr
  split
  · exact closer .obj
  split
  · exact closer .arr
  split
  · exact token afterComma
  split
  · exact token afterColon
  · exact (ordinary_parseError pos).2

end Steps

/-! ## The whole pass -/

/-- The final check fails with an error of the grammar. -/
theorem eagerFinish_ends {buf : Bytes} {prevEnd : Nat} {frames : Frames} :
    Ends (fun _ => True) Ordinary (eagerFinish frameOps buf prevEnd frames) := by
  refine (consumeGap_ends prevEnd buf.length).bind fun next _ => ?_
  split
  · exact ordinary_parseError _
  · trivial

/-- Whatever index the eager pass is given, it does not report trailing content. -/
theorem eagerFrom_ends {validate : Bytes → Rust QjsonErr Unit}
    (validator : IsStringValidator validate) {buf : Bytes} {maxDepth : Nat}
    (indices : List Nat) :
    ∀ {prevEnd : Nat} {frames : Frames},
      Ends (fun _ => True) (fun error => error.code ≠ .trailingContent)
        (eagerFrom frameOps validate buf maxDepth indices prevEnd frames) := by
  induction length : indices.length using Nat.strong_induction_on generalizing indices with
  | _ n ih =>
      subst length
      intro prevEnd frames
      have finish : Ends (fun _ => True) (fun error => error.code ≠ .trailingContent)
          (eagerFinish frameOps buf prevEnd frames) :=
        eagerFinish_ends.mono (fun _ _ => trivial) fun _ fair => fair.2
      have gap (pos : Nat) : Ends (fun _ => True) (fun error => error.code ≠ .trailingContent)
          (consumeGap frameOps buf prevEnd pos frames) :=
        (consumeGap_ends prevEnd pos).mono (fun _ _ => trivial) fun _ fair => fair.2
      match indices with
      | [] => simpa using finish
      | pos :: rest =>
          by_cases real : pos = u32Max
          · subst real
            simpa using finish
          · cases byte : buf[pos]? with
            | none =>
                rw [eagerFrom_out _ _ _ _ real byte]
                exact ends_panic
            | some b =>
                by_cases quote : b = 0x22
                · subst quote
                  match rest with
                  | [] =>
                      rw [eagerFrom_quote_nil _ _ _ _ real byte]
                      exact (gap pos).then fun _ => (ordinary_parseError pos).2
                  | close :: rest =>
                      rw [eagerFrom_quote _ _ _ _ real byte]
                      refine (gap pos).then fun stack => Ends.then ?_ fun stack =>
                        ih rest.length (by simp only [List.length_cons]; omega) rest rfl
                      exact (onString_ends validator pos close).mono (fun _ _ => trivial)
                        fun _ fair => fair.2
                · rw [eagerFrom_structural _ _ _ _ real byte quote]
                  exact (gap pos).then fun stack => (onStructural_ends b pos).then fun stack =>
                    ih rest.length (by simp) rest rfl

/-! ## The trailing pass -/

theorem le_skipWs (buf : Bytes) (p : Nat) : p ≤ skipWs buf p := Nat.le_add_right ..

section Trailing

variable {buf : Bytes} {indices : List Nat} {bound first : Nat}

/-- The walk to the closing bracket ends at an index, or where it started. -/
theorem rootCloser_ends {depth : Int} {inStr : Bool} {closer : Nat} (started : bound ≤ closer)
    (above : ∀ i ∈ indices, bound ≤ i) :
    Ends (fun stop => bound ≤ stop) (fun _ => False)
      (rootCloser buf depth inStr closer indices) := by
  induction indices generalizing depth inStr with
  | nil => exact started
  | cons idx rest ih =>
      obtain ⟨here, above⟩ := List.forall_mem_cons.1 above
      rw [rootCloser]
      split
      · exact started
      · cases byte : buf[idx]? with
        | none =>
            rw [atIdx, byte]
            trivial
        | some b =>
            rw [atIdx_of_getElem? byte, ok_bind]
            split
            · exact ih above
            split
            · exact ih above
            split
            · exact ih above
            split
            · split
              · exact here
              · exact ih above
            · exact ih above

/-- The end of the root value is found without an error, behind the indices' bound. -/
theorem rootEnd_ends (started : bound ≤ first) (above : ∀ i ∈ indices, bound ≤ i) :
    Ends (fun stop => bound < stop) (fun _ => False) (rootEnd buf indices first) := by
  have beyond {p : Nat} (behind : bound ≤ p) : bound < skipWs buf (p + 1) := by
    have := le_skipWs buf (p + 1)
    omega
  have found {list : List Nat} (part : ∀ i ∈ list, i ∈ indices) :
      bound ≤ (list.find? (· ≠ u32Max)).getD first := by
    cases found : list.find? (· ≠ u32Max) with
    | none => exact started
    | some p => exact above p (part p (List.mem_of_find?_eq_some found))
  unfold rootEnd
  cases byte : buf[first]? with
  | none =>
      rw [atIdx, byte]
      trivial
  | some b =>
      rw [atIdx_of_getElem? byte, ok_bind]
      split
      · exact (rootCloser_ends started above).bind fun _ behind => beyond behind
      · split
        · exact beyond (found fun i => List.mem_of_mem_drop)
        · exact beyond (found fun i => List.mem_reverse.1)

/-- How the trailing pass fails on a text with marks: at the end of the root value, as it
determines it. -/
theorem validateTrailing_err {error : ParseError}
    (found : indices.find? (· ≠ u32Max) = some first)
    (failed : validateTrailing buf indices = .error (.err error)) :
    error.code = .trailingContent ∧ error.offset < buf.length ∧
      rootEnd buf indices first = .ok error.offset := by
  rw [validateTrailing, found] at failed
  rcases bind_eq_err_iff.1 failed with refused | ⟨stop, ended, failed⟩
  · exact ((rootEnd_ends (Nat.zero_le _) fun _ _ => Nat.zero_le _).of_err refused).elim
  · split at failed
    · rename_i inside
      cases failed
      exact ⟨rfl, inside, ended⟩
    · cases failed

/-- How the trailing pass fails on a text without marks: behind the first run of bytes that
are not whitespace. -/
theorem validateTrailing_err_plain {error : ParseError}
    (none : indices.find? (· ≠ u32Max) = none)
    (failed : validateTrailing buf indices = .error (.err error)) :
    error.code = .trailingContent ∧ error.offset < buf.length ∧
      skipWs buf 0 ≠ skipInk buf (skipWs buf 0) ∧
      error.offset = skipWs buf (skipInk buf (skipWs buf 0)) := by
  rw [validateTrailing, none] at failed
  dsimp only at failed
  split at failed
  · cases failed
  · rename_i moved
    split at failed
    · rename_i inside
      cases failed
      exact ⟨rfl, inside, moved, rfl⟩
    · cases failed

/-- The only error of the trailing pass. -/
theorem validateTrailing_code {error : ParseError}
    (failed : validateTrailing buf indices = .error (.err error)) :
    error.code = .trailingContent := by
  cases found : indices.find? (· ≠ u32Max) with
  | none => exact (validateTrailing_err_plain found failed).1
  | some first => exact (validateTrailing_err found failed).1

end Trailing

/-! ## The depth pass -/

/-- The only error of the depth pass. -/
theorem depthLoop_code {buf : Bytes} {maxDepth depth : Nat} (indices : List Nat) :
    Ends (fun _ => True) (fun error => error.code = .nestingTooDeep)
      (depthLoop buf maxDepth depth indices) := by
  induction indices generalizing depth with
  | nil => trivial
  | cons idx rest ih =>
      rw [depthLoop]
      split
      · trivial
      · cases byte : buf[idx]? with
        | none =>
            rw [atIdx, byte]
            trivial
        | some b =>
            rw [atIdx_of_getElem? byte, ok_bind]
            split
            · split
              · rfl
              · exact ih
            split
            · split
              · trivial
              · exact ih
            · exact ih

end QJson.Validate
