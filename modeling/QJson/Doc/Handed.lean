import QJson.Doc.Lazy
import QJson.Source.Calm

/-!
# The index that is handed over

The passes behind the scan are given the index of a successful scan, or of one that failed
at the end of the buffer outside strings.  Without stray quotes that index lists the marks of
the text, and no closing bracket among them is mismatched, so that every prefix of it opens
at least as many brackets as it closes and the depth counter never drops below zero.
-/

namespace QJson.Doc

open Rfc8259 Validate Scan

/-! ## The marks that are emitted -/

section Emitted

variable {len : Nat} {buf front text : Bytes}

/-- The tail scanner pushes the marks of its text, in a string or outside. -/
theorem resume_out (i : Nat) (inStr : Bool) (opened : Option (List UInt8)) :
    (scanEmitResumeFrom len text i inStr).out =
      (Reading.marks ⟨false, inStr, opened⟩ i text).map u32 := by
  fun_induction scanEmitResumeFrom len text i inStr generalizing opened with
  | case1 => rfl
  | case2 => rfl
  | case3 c rest i ih => exact ih opened
  | case4 rest i _ ih => exact congrArg (u32 i :: ·) (ih opened)
  | case5 b rest i notSlash notQuote ih =>
      have next : Reading.step ⟨false, true, opened⟩ b = ⟨false, true, opened⟩ := by
        simp [Reading.step, notSlash, notQuote]
      rw [Reading.marks, next, ih opened]
      simp [Reading.sees, notQuote]
  | case6 rest i ih => exact congrArg (u32 i :: ·) (ih opened)
  | case7 b rest i notQuote structural ih =>
      have next : Reading.step ⟨false, false, opened⟩ b =
          ⟨false, false, Reading.brackets opened b⟩ := by simp [Reading.step, notQuote]
      rw [push_out, Reading.marks, next, ih (Reading.brackets opened b)]
      simp [Reading.sees, isMark, structural]
  | case8 b rest i notQuote blind ih =>
      have next : Reading.step ⟨false, false, opened⟩ b =
          ⟨false, false, Reading.brackets opened b⟩ := by simp [Reading.step, notQuote]
      rw [Reading.marks, next, ih (Reading.brackets opened b)]
      simp [Reading.sees, isMark, blind, notQuote]

/-- A quotation mark that is a mark opens or closes a string; nothing else does. -/
theorem step_inStr (r : Reading) (b : UInt8) :
    (r.step b).inStr = if r.sees b = true ∧ b = 0x22 then !r.inStr else r.inStr := by
  obtain ⟨esc, inStr, opened⟩ := r
  cases inStr with
  | false =>
      by_cases quote : b = 0x22
      · subst quote
        rfl
      · simp [Reading.step, quote]
  | true =>
      cases esc with
      | true => simp [Reading.step, Reading.sees]
      | false =>
          by_cases slash : b = 0x5C
          · simp [Reading.step, slash]
          · by_cases quote : b = 0x22
            · subst quote
              rfl
            · simp [Reading.step, slash, quote]

/-- The quotation marks among the marks tell whether the text ends inside a string. -/
theorem foldl_marks (r : Reading) (whole : buf = front ++ text) :
    (r.marks front.length text).foldl
        (fun inString idx => if buf[idx]? = some 0x22 then !inString else inString) r.inStr =
      (r.run text).inStr := by
  induction text generalizing r front with
  | nil => rfl
  | cons b text ih =>
      have tail := @ih (front ++ [b]) (r.step b) (by rw [whole]; simp)
      have byte : buf[front.length]? = some b := by
        rw [whole]
        exact getElem?_at rfl
      rw [List.length_append, List.length_singleton, step_inStr] at tail
      rw [Reading.marks, Reading.run_cons, ← tail]
      cases seen : r.sees b with
      | false => simp
      | true =>
          by_cases quote : b = 0x22
          · simp [byte, quote]
          · simp [byte, quote]

theorem map_u32_marks (r : Reading) (small : text.length < 2 ^ 32) :
    (r.marks 0 text).map u32 = r.marks 0 text := by
  refine (List.map_congr_left fun i member => ?_).trans (List.map_id _)
  have inside := Reading.le_of_mem_marks member
  rw [u32_of_lt, id]
  omega

end Emitted

/-! ## What is handed over -/

section Handed

variable {buf : Bytes} {strings : StringPath}

/-- Without stray quotes the index that is handed over lists the marks of the text, and no
closing bracket is mismatched. -/
theorem marks_of_handsOver (scanner : ScanPath) (small : buf.length < 2 ^ 32)
    (calm : scanner = .scalar ∨ ¬ HasStrayQuote buf)
    (handed : HandsOver (dispatch scanner strings) buf) :
    (reading buf).opened ≠ none ∧ (scanner.scan buf).out = outset.marks 0 buf := by
  have fused := fused_whole small
  have marks : (scanEmitResumeFrom buf.length buf 0 false).out = outset.marks 0 buf :=
    (resume_out 0 false _).trans (map_u32_marks _ small)
  cases scanner with
  | scalar =>
      cases opened : (reading buf).opened with
      | none =>
          obtain ⟨pos, inside, -, failed⟩ := fused.mismatch opened
          rcases handed with ok | ⟨ended, -⟩
          · exact absurd (failed.symm.trans ok) (by simp)
          · have same : pos = buf.length := by simpa using failed.symm.trans ended
            omega
      | some stack =>
          refine ⟨by simp, ?_⟩
          rw [ScanPath.scan, (fused.matched stack opened).2]
          exact marks
  | vector path =>
      have notStray := calm.resolve_left (by simp)
      have emitted := fused.emitted
      have out : (path.scan buf).out = outset.marks 0 buf := by
        rw [path.scan_of_not_stray notStray, ← marks, ScanOut.checked]
        split <;> rfl
      refine ⟨fun opened => ?_, out⟩
      obtain ⟨pos, inside, checked, -⟩ := fused.mismatch opened
      cases inStr : (reading buf).inStr with
      | true =>
          rw [inStr, if_pos rfl] at emitted
          have failed : (path.scan buf).result = .error (.err buf.length) := by
            rw [path.scan_of_not_stray notStray, ScanOut.checked, emitted]
          rcases handed with ok | ⟨-, outside⟩
          · exact absurd (failed.symm.trans ok) (by simp)
          · have inside : scanErrorEndedInsideString buf (path.scan buf).out = true := by
              rw [out, ← inStr]
              exact @foldl_marks buf [] buf outset rfl
            exact absurd (inside.symm.trans outside) (by simp)
      | false =>
          rw [inStr, if_neg (by simp)] at emitted
          have failed : (path.scan buf).result = .error (.err pos) := by
            rw [path.scan_of_not_stray notStray, ScanOut.checked, emitted]
            exact checked
          rcases handed with ok | ⟨ended, -⟩
          · exact absurd (failed.symm.trans ok) (by simp)
          · have same : pos = buf.length := by simpa using failed.symm.trans ended
            omega

end Handed

/-! ## Openers and closers -/

/-- The number of opening and of closing brackets among the bytes at given positions. -/
def openersAt (buf : Bytes) (indices : List Nat) : Nat :=
  indices.countP fun i => buf[i]? == some 0x7B || buf[i]? == some 0x5B
@[inherit_doc openersAt] def closersAt (buf : Bytes) (indices : List Nat) : Nat :=
  indices.countP fun i => buf[i]? == some 0x7D || buf[i]? == some 0x5D

section Counts

variable {buf : Bytes} {i limit : Nat} {indices : List Nat} {b : UInt8}

theorem openersAt_cons (byte : buf[i]? = some b) :
    openersAt buf (i :: indices) =
      openersAt buf indices + if b = 0x7B ∨ b = 0x5B then 1 else 0 := by
  simp [openersAt, List.countP_cons, byte]

theorem closersAt_cons (byte : buf[i]? = some b) :
    closersAt buf (i :: indices) =
      closersAt buf indices + if b = 0x7D ∨ b = 0x5D then 1 else 0 := by
  simp [closersAt, List.countP_cons, byte]

theorem foldl_brackets_none (signs : Bytes) : signs.foldl Reading.brackets none = none := by
  induction signs with
  | nil => rfl
  | cons b signs ih => exact ih

theorem length_of_brackets {stack next : List UInt8}
    (step : Reading.brackets (some stack) b = some next) :
    next.length + (if b = 0x7D ∨ b = 0x5D then 1 else 0) =
      stack.length + if b = 0x7B ∨ b = 0x5B then 1 else 0 := by
  have pop {top : UInt8} (popped : (if stack.head? = some top then some stack.tail else none) =
      some next) : next.length + 1 = stack.length := by
    split at popped
    · cases stack with
      | nil => simp_all
      | cons first stack => cases popped; rfl
    · cases popped
  rw [Reading.brackets, Option.bind_some] at step
  split at step
  · rename_i opener
    cases step
    rcases opener with rfl | rfl <;> rfl
  · rename_i notOpener
    rw [if_neg notOpener]
    split at step
    · rename_i closer
      rw [if_pos (.inl closer)]
      exact pop step
    · rename_i notBrace
      split at step
      · rename_i closer
        rw [if_pos (.inr closer)]
        exact pop step
      · rename_i notBracket
        cases step
        rw [if_neg (not_or.2 ⟨notBrace, notBracket⟩)]

/-- Along matched brackets no prefix closes more than it opens. -/
theorem closersAt_take_le {marks : List Nat} {signs : Bytes} {stack : List UInt8}
    (reads : Reads buf marks signs)
    (matched : signs.foldl Reading.brackets (some stack) ≠ none) (n : Nat) :
    closersAt buf (marks.take n) ≤ stack.length + openersAt buf (marks.take n) := by
  induction signs generalizing marks stack n with
  | nil =>
      obtain rfl : marks = [] := by simpa using reads.length_eq
      simp [closersAt]
  | cons b signs ih =>
      obtain ⟨i, marks, rfl, byte, reads⟩ := exists_of_reads_cons reads
      cases n with
      | zero => simp [closersAt]
      | succ n =>
          rw [List.foldl_cons] at matched
          rw [List.take_succ_cons, closersAt_cons byte, openersAt_cons byte]
          cases step : Reading.brackets (some stack) b with
          | none =>
              rw [step, foldl_brackets_none] at matched
              exact absurd rfl matched
          | some next =>
              rw [step] at matched
              have length := length_of_brackets step
              have tail := ih reads matched n
              omega

/-- The depth counter does not drop below zero where no prefix closes more than it opens. -/
theorem depthLoop_calm {depth : Nat} (inside : ∀ i ∈ indices, i < buf.length)
    (under : ∀ n, closersAt buf (indices.take n) ≤ depth + openersAt buf (indices.take n)) :
    Calm (fun _ => True) (depthLoop buf limit depth (indices ++ [u32Max])) := by
  induction indices generalizing depth with
  | nil => exact trivial
  | cons i indices ih =>
      obtain ⟨here, inside⟩ := List.forall_mem_cons.1 inside
      obtain ⟨b, byte⟩ : ∃ b, buf[i]? = some b := ⟨_, List.getElem?_eq_getElem here⟩
      have first := under 1
      have next (n : Nat) := under (n + 1)
      simp only [List.take_succ_cons, List.take_zero, closersAt_cons byte,
        openersAt_cons byte] at first next
      rw [List.cons_append, depthLoop]
      split
      · trivial
      · rw [atIdx_of_getElem? byte, ok_bind]
        by_cases opener : b = 0x7B ∨ b = 0x5B
        · rw [if_pos opener]
          have notCloser : ¬ (b = 0x7D ∨ b = 0x5D) := by
            rcases opener with rfl | rfl <;> decide
          split
          · trivial
          · refine ih inside fun n => ?_
            have := next n
            rw [if_pos opener, if_neg notCloser] at this
            omega
        · rw [if_neg opener]
          by_cases closer : b = 0x7D ∨ b = 0x5D
          · rw [if_neg opener, if_pos closer] at first
            have positive : depth ≠ 0 := by
              simp [closersAt, openersAt] at first
              omega
            rw [if_pos closer, if_neg positive]
            refine ih inside fun n => ?_
            have := next n
            rw [if_neg opener, if_pos closer] at this
            omega
          · rw [if_neg closer]
            refine ih inside fun n => ?_
            have := next n
            rw [if_neg opener, if_neg closer] at this
            omega

end Counts

/-! ## The depth counter -/

/-- Without stray quotes no prefix of an index that is handed over closes more brackets than
it opens, and the depth counter does not drop below zero. -/
theorem depth_never_underflows (scanner : ScanPath) (strings : StringPath) (buf : Bytes)
    (small : buf.length < 2 ^ 32) (calm : scanner = .scalar ∨ ¬ HasStrayQuote buf)
    (handed : HandsOver (dispatch scanner strings) buf) :
    (∀ n, closersAt buf (((scanner.scan buf).out ++ [u32Max]).take n) ≤
      openersAt buf (((scanner.scan buf).out ++ [u32Max]).take n)) ∧
    ∀ maxDepth, validateDepth buf ((scanner.scan buf).out ++ [u32Max]) maxDepth ≠
      .error .panic := by
  obtain ⟨matched, out⟩ := marks_of_handsOver scanner small calm handed
  have reads := Reading.reads_marks outset [] buf
  have folded : (outset.signs buf).foldl Reading.brackets (some []) ≠ none :=
    fun none => matched ((outset.opened_run buf).trans none)
  have under (n : Nat) := closersAt_take_le reads folded n
  rw [List.nil_append, List.length_nil] at under
  rw [out]
  constructor
  · intro n
    have past : buf[u32Max]? = none := by
      rw [List.getElem?_eq_none_iff]
      unfold u32Max
      omega
    have sentinel : closersAt buf [u32Max] = 0 := by simp [closersAt, past]
    have rest (k : Nat) : closersAt buf ([u32Max].take k) = 0 := by
      cases k with
      | zero => rfl
      | succ k =>
          rw [List.take_succ_cons, List.take_nil]
          exact sentinel
    have here := under n
    simp only [closersAt, openersAt, List.take_append, List.countP_append] at here rest ⊢
    rw [rest]
    omega
  · intro maxDepth
    refine calm_true_iff.1 (depthLoop_calm (fun i member => ?_) under)
    have := Reading.le_of_mem_marks member
    omega

/-- The bytes `\"}\"` and spaces up to a chunk of 64. -/
def maskedText : Bytes := [0x5C, 0x22, 0x7D, 0x5C, 0x22] ++ List.replicate 59 0x20

theorem depth_never_underflows_unclosed :
    (∀ n, closersAt [0x5B, 0x5B, 0x5D] ([0, 1, 2, u32Max].take n) ≤
      openersAt [0x5B, 0x5B, 0x5D] ([0, 1, 2, u32Max].take n)) ∧
    ∀ maxDepth, validateDepth [0x5B, 0x5B, 0x5D] [0, 1, 2, u32Max] maxDepth ≠
      .error .panic :=
  depth_never_underflows .scalar .scalar [0x5B, 0x5B, 0x5D] (by decide) (.inl rfl)
    (by unfold HandsOver; decide +kernel)

/-- The stray quotes hide the closing bracket from the pairing check, which the emitted index
lists all the same. -/
theorem not_depth_never_underflows :
    ¬ (∀ (scanner : ScanPath) (strings : StringPath) (buf : Bytes),
      HandsOver (dispatch scanner strings) buf →
      (∀ n, closersAt buf (((scanner.scan buf).out ++ [u32Max]).take n) ≤
        openersAt buf (((scanner.scan buf).out ++ [u32Max]).take n)) ∧
      ∀ maxDepth, validateDepth buf ((scanner.scan buf).out ++ [u32Max]) maxDepth ≠
        .error .panic) ∧
    (∀ path : VectorPath, path.scan maskedText = ⟨[1, 2, 4], .ok ()⟩) ∧
    parseWithOptionsDetailed (dispatch (.vector .avx2) .avx2) maskedText ⟨modeLazy, 0⟩ =
      .error .panic := by
  have scans (path : VectorPath) : path.scan maskedText = ⟨[1, 2, 4], .ok ()⟩ := by
    cases path <;> decide +kernel
  refine ⟨fun always => ?_, scans, by decide +kernel⟩
  have handed : HandsOver (dispatch (.vector .avx2) .avx2) maskedText :=
    .inl (congrArg ScanOut.result (scans .avx2))
  have first := (always (.vector .avx2) .avx2 maskedText handed).1 2
  rw [show (ScanPath.vector .avx2).scan maskedText = ⟨[1, 2, 4], .ok ()⟩ from scans .avx2]
    at first
  exact absurd first (by decide)

end QJson.Doc
