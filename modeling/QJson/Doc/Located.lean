import QJson.Doc.Positions
import QJson.Validate.Failures

/-!
# What the error of a parse says

A parse that fails gives a code and an offset.  In both modes, and whatever scanner and string
validator the crate picked, the offset is a position of the text where what the code says can
be seen, but for texts of whitespace, which have no offset.
-/

namespace QJson.Doc

open Rfc8259 Validate Scan

/-- The bytes that words begin with that are checked as numbers. -/
def beginsNumber (b : UInt8) : Bool :=
  b == 0x2D || isDigit b || b == 0x2B || b == 0x2E || b == 0x4E || b == 0x49

/-- A word ends here. -/
def endsWord (b : UInt8) : Bool := isWs b || isMark b

/-- What an error says of the text. -/
inductive Speaks (buf : Bytes) : ParseError → Prop where
  | blank : buf.all isWs = true → Speaks buf ⟨.parseError, noOffset⟩
  | unexpected {offset : Nat} : offset ≤ buf.length → Speaks buf ⟨.parseError, offset⟩
  | number {offset : Nat} {b : UInt8} {word rest : Bytes} :
      buf.drop offset = b :: (word ++ rest) → beginsNumber b = true →
      validateNumber (b :: word) = .error .invalidNumber →
      (∀ c ∈ rest.head?, endsWord c = true) → Speaks buf ⟨.invalidNumber, offset⟩
  | string {offset : Nat} {span rest : Bytes} {code : QjsonErr} :
      buf.drop offset = 0x22 :: (span ++ 0x22 :: rest) →
      validateSpanScalar span = .error code → Speaks buf ⟨code, offset⟩
  | nesting {offset : Nat} {kind : Kind} : buf[offset]? = some kind.opener →
      Speaks buf ⟨.nestingTooDeep, offset⟩
  | trailing {offset : Nat} {b : UInt8} : buf[offset]? = some b → isWs b = false →
      Speaks buf ⟨.trailingContent, offset⟩

/-- An entry of the index is the sentinel or the position of a mark. -/
def IsEntry (buf : Bytes) (i : Nat) : Prop :=
  i = u32Max ∨ ∃ b, buf[i]? = some b ∧ isMark b = true

section Steps

variable {buf : Bytes} {frames : Frames}

/-- The scalars that are checked as numbers. -/
theorem validateScalar_invalidNumber {b : UInt8} {word : Bytes}
    (failed : validateScalar (b :: word) = .error .invalidNumber) :
    beginsNumber b = true ∧ validateNumber (b :: word) = .error .invalidNumber := by
  unfold validateScalar at failed
  simp only at failed
  split at failed
  · split at failed <;> cases failed
  split at failed
  · split at failed <;> cases failed
  split at failed
  · split at failed <;> cases failed
  split at failed
  · rename_i numeric
    refine ⟨?_, failed⟩
    rcases numeric with rfl | digit | rfl | rfl
    · rfl
    · simp [beginsNumber, digit]
    · rfl
    · rfl
  split at failed
  · rename_i named
    refine ⟨?_, failed⟩
    rcases named with same | same
    · rw [(List.cons.inj same).1]
      rfl
    · rw [(List.cons.inj same).1]
      rfl
  · cases failed

/-- A gap, cut into whitespace, the scalar in it, and what follows. -/
theorem drop_gap {start stop : Nat} {gap : Bytes} (ordered : start ≤ stop)
    (cut : (buf.drop start).take (stop - start) = gap) :
    ∃ after, IsBlank after ∧ buf.drop (start + (gap.takeWhile isWs).length) =
      trim gap ++ (after ++ buf.drop stop) := by
  obtain ⟨after, blank, ending⟩ := exists_trimEnd_append (trimStart gap)
  refine ⟨after, blank, ?_⟩
  have whole : buf.drop start = gap.takeWhile isWs ++ (trimStart gap ++ buf.drop stop) := by
    have rest : (buf.drop start).drop (stop - start) = buf.drop stop := by
      rw [List.drop_drop, Nat.add_sub_cancel' ordered]
    rw [← List.append_assoc, takeWhile_append_trimStart, ← rest, ← cut, List.take_append_drop]
  rw [← List.drop_drop, whole, List.drop_left, trim, ← List.append_assoc, ← ending]

theorem consumeScalarGap_speaks {start stop : Nat} {state : CtxKind}
    (inside : start ≤ buf.length) (ends : ∀ b ∈ (buf.drop stop).head?, isMark b = true) :
    Ends (fun _ => True) (Speaks buf) (consumeScalarGap buf start stop state) := by
  unfold consumeScalarGap
  split
  · split
    · exact ends_panic
    · exact .unexpected inside
  · rename_i ordered
    dsimp only
    generalize cut : (buf.drop start).take (stop - start) = gap
    have ahead : start + (gap.takeWhile isWs).length ≤ buf.length := by
      have short := congrArg List.length cut
      have part := (List.takeWhile_prefix isWs (l := gap)).length_le
      rw [List.length_take, List.length_drop] at short
      omega
    split
    · trivial
    · rename_i word
      split
      · exact .unexpected ahead
      · split
        · rename_i code failed
          obtain ⟨b, letters, spelled⟩ := List.exists_cons_of_ne_nil word
          rcases validateScalar_error failed with rfl | rfl
          · exact .unexpected ahead
          · rw [spelled] at failed
            obtain ⟨begins, number⟩ := validateScalar_invalidNumber failed
            obtain ⟨after, blank, here⟩ := drop_gap (Nat.not_lt.1 ordered) cut
            rw [spelled] at here
            refine .number here begins number fun c first => ?_
            cases after with
            | nil =>
                have mark := ends c first
                simp [endsWord, mark]
            | cons d after =>
                obtain rfl := Option.some.inj first
                simp [endsWord, blank d List.mem_cons_self]
        · trivial

theorem consumeGap_speaks {start stop : Nat} (inside : start ≤ buf.length)
    (ends : ∀ b ∈ (buf.drop stop).head?, isMark b = true) :
    Ends (fun _ => True) (Speaks buf) (consumeGap frameOps buf start stop frames) := by
  cases frames with
  | nil => exact ends_panic
  | cons cur frames =>
      rw [consumeGap, lastUnwrap_frames, ok_bind]
      exact (consumeScalarGap_speaks inside ends).bind fun _ _ => trivial

theorem onToken_speaks (after : CtxKind → Option CtxKind) {pos : Nat} (inside : pos ≤ buf.length) :
    Ends (fun _ => True) (Speaks buf) (onToken frameOps after pos frames) := by
  cases frames with
  | nil => exact .unexpected inside
  | cons cur frames =>
      simp only [onToken, frameOps, ok_bind, List.head?_cons, okOr_some, List.tail_cons]
      exact (ends_okOr (.unexpected inside) fun _ _ => trivial).then fun _ => trivial

theorem onCloser_speaks (kind : Kind) {pos : Nat} (inside : pos ≤ buf.length) :
    Ends (fun _ => True) (Speaks buf) (onCloser frameOps kind pos frames) := by
  cases frames with
  | nil => exact .unexpected inside
  | cons cur frames =>
      simp only [onCloser, frameOps, ok_bind, List.head?_cons, okOr_some, List.tail_cons]
      split
      · exact .unexpected inside
      · cases frames with
        | nil => exact .unexpected inside
        | cons outer frames => trivial

theorem onOpener_speaks {maxDepth : Nat} {kind : Kind} {pos : Nat}
    (byte : buf[pos]? = some kind.opener) :
    Ends (fun _ => True) (Speaks buf) (onOpener frameOps maxDepth kind pos frames) := by
  have inside : pos ≤ buf.length := Nat.le_of_lt (List.getElem?_eq_some_iff.1 byte).1
  cases frames with
  | nil => exact ends_panic
  | cons cur frames =>
      rw [onOpener, lastUnwrap_frames, ok_bind]
      split
      · exact .unexpected inside
      · split
        · exact .nesting byte
        · trivial

theorem onStructural_speaks {maxDepth : Nat} {b : UInt8} {pos : Nat} (byte : buf[pos]? = some b) :
    Ends (fun _ => True) (Speaks buf) (onStructural frameOps maxDepth b pos frames) := by
  have inside : pos ≤ buf.length := Nat.le_of_lt (List.getElem?_eq_some_iff.1 byte).1
  unfold onStructural
  split
  · rename_i same
    subst same
    exact @onOpener_speaks buf frames maxDepth .obj pos byte
  split
  · rename_i same
    subst same
    exact @onOpener_speaks buf frames maxDepth .arr pos byte
  split
  · exact onCloser_speaks .obj inside
  split
  · exact onCloser_speaks .arr inside
  split
  · exact onToken_speaks afterComma inside
  split
  · exact onToken_speaks afterColon inside
  · exact .unexpected inside

theorem onString_speaks {validate : Bytes → Rust QjsonErr Unit}
    (validator : IsStringValidator validate) {pos : Nat} (byte : buf[pos]? = some 0x22)
    (close : Nat) :
    Ends (fun _ => close < buf.length) (Speaks buf)
      (onString frameOps validate buf pos close frames) := by
  obtain ⟨within, quote⟩ := List.getElem?_eq_some_iff.1 byte
  unfold onString
  split
  · exact .unexpected (Nat.le_of_lt within)
  · rename_i paired
    obtain ⟨behind, shut⟩ : pos < close ∧ buf[close]? = some 0x22 := by
      simp only [not_or, not_le, ne_eq, not_not] at paired
      exact ⟨paired.1, paired.2.2⟩
    obtain ⟨closed, quote'⟩ := List.getElem?_eq_some_iff.1 shut
    have here : buf.drop pos = 0x22 ::
        ((buf.drop (pos + 1)).take (close - (pos + 1)) ++ 0x22 :: buf.drop (close + 1)) := by
      have rest : (buf.drop (pos + 1)).drop (close - (pos + 1)) = buf.drop close := by
        rw [List.drop_drop, Nat.add_sub_cancel' behind]
      rw [List.drop_eq_getElem_cons within, quote, ← quote', ← List.drop_eq_getElem_cons closed,
        ← rest, List.take_append_drop]
    have token : Ends (fun _ => True) (Speaks buf) (onToken frameOps afterString pos frames) :=
      onToken_speaks afterString (Nat.le_of_lt within)
    refine Ends.then (Ends.mapErr ?_) fun _ =>
      token.mono (fun _ _ => closed) fun _ => id
    rw [validator]
    exact ends_toRust (fun _ _ => trivial) fun code failed => .string here failed

theorem eagerFinish_speaks {prevEnd : Nat} (inside : prevEnd ≤ buf.length) :
    Ends (fun _ => True) (Speaks buf) (eagerFinish frameOps buf prevEnd frames) := by
  have ends : ∀ b ∈ (buf.drop buf.length).head?, isMark b = true := by
    intro b none_
    rw [List.drop_length] at none_
    cases none_
  refine (consumeGap_speaks inside ends).then fun next => ?_
  split
  · exact .unexpected (Nat.le_refl _)
  · trivial

end Steps

/-! ## The passes -/

section Passes

variable {buf : Bytes}

theorem eagerFrom_speaks {validate : Bytes → Rust QjsonErr Unit}
    (validator : IsStringValidator validate) {maxDepth : Nat} (indices : List Nat) :
    ∀ {prevEnd : Nat} {frames : Frames}, prevEnd ≤ buf.length →
      (∀ i ∈ indices, IsEntry buf i) →
      Ends (fun _ => True) (Speaks buf)
        (eagerFrom frameOps validate buf maxDepth indices prevEnd frames) := by
  induction length : indices.length using Nat.strong_induction_on generalizing indices with
  | _ n ih =>
      subst length
      intro prevEnd frames inside entries
      match indices with
      | [] => simpa using eagerFinish_speaks inside
      | pos :: rest =>
          by_cases real : pos = u32Max
          · subst real
            simpa using eagerFinish_speaks inside
          · obtain ⟨b, byte, mark⟩ := (entries pos List.mem_cons_self).resolve_left real
            have within := (List.getElem?_eq_some_iff.1 byte).1
            have gap : Ends (fun _ => True) (Speaks buf)
                (consumeGap frameOps buf prevEnd pos frames) := by
              refine consumeGap_speaks inside fun c first => ?_
              rw [List.head?_drop, byte] at first
              exact Option.some.inj first ▸ mark
            by_cases quote : b = 0x22
            · subst quote
              match rest with
              | [] =>
                  rw [eagerFrom_quote_nil _ _ _ _ real byte]
                  exact gap.then fun _ => .unexpected (Nat.le_of_lt within)
              | close :: rest =>
                  rw [eagerFrom_quote _ _ _ _ real byte]
                  refine gap.then fun stack => (onString_speaks validator byte close).bind
                    fun stack closed => ?_
                  exact ih rest.length (by simp only [List.length_cons]; omega) rest rfl closed
                    fun i member => entries i
                      (List.mem_cons_of_mem _ (List.mem_cons_of_mem _ member))
            · rw [eagerFrom_structural _ _ _ _ real byte quote]
              refine gap.then fun stack => (onStructural_speaks byte).then fun stack => ?_
              exact ih rest.length (by simp) rest rfl within
                fun i member => entries i (List.mem_cons_of_mem _ member)

theorem depthLoop_speaks {maxDepth depth : Nat} (indices : List Nat) :
    Ends (fun _ => True) (Speaks buf) (depthLoop buf maxDepth depth indices) := by
  induction indices generalizing depth with
  | nil => trivial
  | cons idx rest ih =>
      rw [depthLoop]
      split
      · trivial
      · cases byte : buf[idx]? with
        | none =>
            rw [atIdx, byte]
            trivial
        | some b =>
            rw [atIdx_of_getElem? byte, ok_bind]
            split
            · rename_i opener
              split
              · rcases opener with rfl | rfl
                · exact @Speaks.nesting buf idx .obj byte
                · exact @Speaks.nesting buf idx .arr byte
              · exact ih
            split
            · split
              · trivial
              · exact ih
            · exact ih

/-- Behind whitespace there is something else. -/
theorem ink_of_skipWs {p : Nat} (inside : skipWs buf p < buf.length) :
    ∃ b, buf[skipWs buf p]? = some b ∧ isWs b = false := by
  have behind : buf.drop (skipWs buf p) = trimStart (buf.drop p) := by
    have split := takeWhile_append_trimStart (buf.drop p)
    rw [skipWs, ← List.drop_drop]
    nth_rewrite 2 [← split]
    exact List.drop_left
  have first := List.head?_dropWhile_not isWs (buf.drop p)
  rw [← trimStart, ← behind, List.head?_drop, List.getElem?_eq_getElem inside] at first
  exact ⟨_, List.getElem?_eq_getElem inside, first⟩

theorem validateTrailing_speaks {indices : List Nat} {error : ParseError}
    (failed : validateTrailing buf indices = .error (.err error)) : Speaks buf error := by
  obtain ⟨code, offset⟩ := error
  have spoken {p : Nat} (trailing : code = .trailingContent) (inside : offset < buf.length)
      (skipped : offset = skipWs buf p) : Speaks buf ⟨code, offset⟩ := by
    subst trailing skipped
    obtain ⟨b, byte, ink⟩ := ink_of_skipWs inside
    exact .trailing byte ink
  cases found : indices.find? (· ≠ u32Max) with
  | none =>
      obtain ⟨trailing, inside, -, skipped⟩ := validateTrailing_err_plain found failed
      exact spoken trailing inside skipped
  | some first =>
      obtain ⟨trailing, inside, ended⟩ := validateTrailing_err found failed
      obtain ⟨b, -, ended⟩ := bind_eq_ok_iff.1 ended
      split at ended
      · obtain ⟨closer, -, ended⟩ := bind_eq_ok_iff.1 ended
        exact spoken trailing inside (Except.ok.inj ended).symm
      split at ended
      · exact spoken trailing inside (Except.ok.inj ended).symm
      · exact spoken trailing inside (Except.ok.inj ended).symm

end Passes

/-! ## The scan -/

theorem entries_of_handsOver (scanner : ScanPath) {strings : StringPath} {buf : Bytes}
    (small : buf.length < u32Max) (handed : HandsOver (dispatch scanner strings) buf) :
    ∀ i ∈ ((dispatch scanner strings).scan buf).out ++ [u32Max], IsEntry buf i := by
  have width : buf.length < 2 ^ 32 := small.trans (by decide)
  have out : ((dispatch scanner strings).scan buf).out = (scanner.positions buf).map u32 := by
    cases scanner with
    | scalar =>
        have marks := (marks_of_handsOver .scalar width (.inl rfl) handed).2
        exact marks.trans (map_u32_marks outset width).symm
    | vector path =>
        have scan : ((dispatch (.vector path) strings).scan buf) = path.scan buf := rfl
        rw [scan, path.scan_eq, ScanOut.checked_out]
        exact laneScan_positions ..
  intro i member
  rcases List.mem_append.1 member with entry | sentinel
  · rw [out] at entry
    obtain ⟨j, position, rfl⟩ := List.mem_map.1 entry
    obtain ⟨k, b, same, byte, mark⟩ := (scanner.placed buf).mark j position
    obtain rfl : j = k := same.trans (Nat.zero_add k)
    have inside := (List.getElem?_eq_some_iff.1 byte).1
    rw [u32_of_lt (inside.trans width)]
    exact .inr ⟨b, byte, mark⟩
  · exact .inl (List.mem_singleton.1 sentinel)

section Failures

variable {buf : Bytes} {len : Nat}

theorem resume_ends (text : Bytes) (i : Nat) (inStr : Bool) :
    Ends (fun _ => True) (fun offset => offset = len)
      (scanEmitResumeFrom len text i inStr).result := by
  fun_induction scanEmitResumeFrom len text i inStr with
  | case1 i inStr => cases inStr <;> trivial
  | case2 => rfl
  | _ => assumption

theorem laneScan_ends (st : Lanes) (i k : Nat) (text : Bytes) :
    Ends (fun _ => True) (fun offset => offset = len) (laneScan len st i k text).result := by
  induction k generalizing st i text with
  | zero =>
      rw [laneScan_zero]
      split
      · split <;> trivial
      · exact resume_ends _ _ _
  | succ k ih =>
      cases text with
      | nil =>
          rw [laneScan]
          cases st.inStr <;> trivial
      | cons b text =>
          rw [laneScan]
          split
          · exact ih _ _ _
          · exact ih _ _ _

theorem brackets_ends (indices : List Nat) (inString : Bool) (stack : List UInt8) :
    Ends (fun _ => True) (fun offset => offset ≤ buf.length)
      (bracketsFrom buf indices inString stack) := by
  induction indices generalizing inString stack with
  | nil =>
      rw [bracketsFrom]
      split
      · trivial
      · exact Nat.le_refl _
  | cons pos indices ih =>
      rw [bracketsFrom]
      cases byte : buf[pos]? with
      | none =>
          rw [atIdx, byte]
          trivial
      | some b =>
          have inside := Nat.le_of_lt (List.getElem?_eq_some_iff.1 byte).1
          rw [atIdx_of_getElem? byte, ok_bind]
          repeat' split
          all_goals first
            | exact ih _ _
            | exact inside

end Failures

/-- The offset that a scan fails at. -/
theorem scan_error_le (scanner : ScanPath) {strings : StringPath} {buf : Bytes} {offset : Nat}
    (failed : ((dispatch scanner strings).scan buf).result = .error (.err offset)) :
    offset ≤ buf.length := by
  cases scanner with
  | scalar =>
      have failed : (scanAndValidate buf).result = .error (.err offset) := failed
      have scan := scanned_whole buf
      cases opened : (reading buf).opened with
      | none =>
          obtain ⟨k, inside, result, -⟩ := scan.mismatch opened
          rw [failed, Except.error.injEq, Fault.err.injEq] at result
          omega
      | some stack =>
          have result := (scan.matched stack opened).2
          rw [failed] at result
          split at result
          · cases result
          · rw [Except.error.injEq, Fault.err.injEq] at result
            exact Nat.le_of_eq result
  | vector path =>
      have failed : (path.scan buf).result = .error (.err offset) := failed
      rw [path.scan_eq, ScanOut.checked] at failed
      split at failed
      · rename_i emitted
        exact Nat.le_of_eq ((laneScan_ends _ _ _ _).of_err (emitted.trans failed))
      · exact (brackets_ends _ _ _).of_err failed

/-- Every error of a parse says what is the case. -/
theorem parse_speaks (scanner : ScanPath) (strings : StringPath) {buf : Bytes} (opts : Options)
    (small : buf.length < u32Max) :
    Ends (fun _ => True) (Speaks buf)
      (parseWithOptionsDetailed (dispatch scanner strings) buf opts) := by
  have eagerly (handed : HandsOver (dispatch scanner strings) buf) :
      Ends (fun _ => True) (Speaks buf) (validateEagerValues
        (dispatch scanner strings).validateString buf
        (((dispatch scanner strings).scan buf).out ++ [u32Max]) opts.effectiveMaxDepth) := by
    rw [validateEagerValues_eq]
    exact eagerFrom_speaks strings.isStringValidator _ (Nat.zero_le _)
      (entries_of_handsOver scanner small handed)
  unfold parseWithOptionsDetailed
  split
  · rename_i blank
    exact .blank blank
  · dsimp only
    split
    · trivial
    · rename_i offset scanned
      have located : Speaks buf ⟨.parseError, offset⟩ := .unexpected (scan_error_le scanner scanned)
      split
      · rename_i ended
        have handed : HandsOver (dispatch scanner strings) buf := .inr ⟨ended.1 ▸ scanned, ended.2⟩
        split
        · have pass := eagerly handed
          split
          · rename_i fault refused
            rw [refused] at pass
            cases fault <;> exact pass
          · exact located
        · exact (depthLoop_speaks _).then fun _ => located
      · exact located
    · rename_i scanned
      have trailing (error : ParseError) :=
        @validateTrailing_speaks buf (((dispatch scanner strings).scan buf).out ++ [u32Max]) error
      split
      · refine Ends.then ?_ fun _ => (eagerly (.inl scanned)).then fun _ => trivial
        cases refused : validateTrailing buf
            (((dispatch scanner strings).scan buf).out ++ [u32Max]) with
        | ok => trivial
        | error fault =>
            cases fault with
            | panic => trivial
            | err error => exact trailing error refused
      · exact (depthLoop_speaks _).then fun _ => trivial

end QJson.Doc
