import QJson.Doc.Bounds
import QJson.Doc.Dispatch
import QJson.Scan.Skeleton

/-!
# Lazy parsing

In lazy mode `Document::parse_with_options` checks strings, brackets and the nesting
depth and nothing else.  What it accepts, and the index it keeps, can be read off the
structural skeleton of the text.
-/

namespace QJson.Doc

open Rfc8259 Validate Scan

/-! ## The depth pass -/

section Depth

variable {buf front text : Bytes} {limit : Nat}

/-- Along the marks of a text the depth pass counts the open brackets. -/
theorem depthLoop_marks {r : Reading} {stack : List UInt8} (whole : buf = front ++ text)
    (small : buf.length < u32Max) (opened : r.opened = some stack)
    (matched : (r.run text).opened ≠ none) (within : stack.length ≤ limit) :
    depthLoop buf limit stack.length (r.marks front.length text ++ [u32Max]) = .ok () ↔
      r.deepest text ≤ limit := by
  induction text generalizing r stack front with
  | nil =>
      have height : r.height = stack.length := by simp [Reading.height, opened]
      simp [Reading.marks, Reading.deepest, depthLoop, height, within]
  | cons b text ih =>
      have height : r.height = stack.length := by simp [Reading.height, opened]
      have byte : buf[front.length]? = some b := by
        rw [whole]
        exact getElem?_at rfl
      have tail := @ih (front ++ [b]) (r.step b)
      rw [List.length_append, List.length_singleton] at tail
      rw [Reading.run_cons] at matched
      rw [Reading.marks, Reading.deepest, Nat.max_le, height]
      cases seen : r.sees b with
      | false =>
          have same := Reading.step_blind seen
          rw [if_neg (by simp), List.nil_append,
            tail (by rw [whole]; simp) (same.trans opened) matched within]
          exact (and_iff_right within).symm
      | true =>
          have next := Reading.step_seen seen
          rw [opened] at next
          rw [if_pos rfl, List.cons_append, List.nil_append, List.cons_append, depthLoop,
            if_neg (ne_u32Max_of_getElem? small byte), atIdx_of_getElem? byte, ok_bind,
            and_iff_right within]
          by_cases quote : b = 0x22
          · subst quote
            rw [if_neg (by decide), if_neg (by decide)]
            exact tail (by rw [whole]; simp) next matched within
          have structural : isStructural b = true := by
            unfold Reading.sees at seen
            split at seen
            · simp [quote] at seen
            · simpa [isMark, quote] using seen
          rcases brackets_cases structural stack with
            ⟨kind, rfl, open_⟩ | ⟨kind, below, rfl, rfl, close⟩ | ⟨separator, same⟩ | none
          · rw [open_] at next
            rw [if_pos (Kind.opener_cases kind).1]
            by_cases room : stack.length + 1 ≤ limit
            · rw [if_neg (by omega)]
              exact tail (by rw [whole]; simp) next matched room
            · rw [if_pos (by omega)]
              refine iff_of_false (by simp [fail]) fun small => room ?_
              have above : (r.step kind.opener).height ≤
                  (r.step kind.opener).deepest text := by
                cases text with
                | nil => exact le_refl _
                | cons c text => exact le_max_left _ _
              rw [Reading.height, next] at above
              exact le_trans above small
          · rw [close] at next
            rw [if_neg (Kind.closer_cases kind).2.2, if_pos (Kind.closer_cases kind).1,
              if_neg (by simp)]
            refine tail (by rw [whole]; simp) next matched ?_
            rw [List.length_cons] at within
            omega
          · rw [same] at next
            have other : ¬ (b = 0x7B ∨ b = 0x5B) ∧ ¬ (b = 0x7D ∨ b = 0x5D) := by
              rcases separator with rfl | rfl <;> decide
            rw [if_neg other.1, if_neg other.2]
            exact tail (by rw [whole]; simp) next matched within
          · rw [none] at next
            exact absurd (Reading.run_none _ next text) matched

section Levels

variable {i depth : Nat} {rest : List Nat} (small : buf.length < u32Max)
include small

theorem depthLoop_skip {b : UInt8} (byte : buf[i]? = some b)
    (other : b = 0x22 ∨ b = 0x3A ∨ b = 0x2C) :
    depthLoop buf limit depth (i :: rest) = depthLoop buf limit depth rest := by
  rw [depthLoop, if_neg (ne_u32Max_of_getElem? small byte), atIdx_of_getElem? byte, ok_bind]
  rcases other with rfl | rfl | rfl <;> rfl

theorem depthLoop_open {kind : Kind} (byte : buf[i]? = some kind.opener)
    (room : depth + 1 ≤ limit) :
    depthLoop buf limit depth (i :: rest) = depthLoop buf limit (depth + 1) rest := by
  rw [depthLoop, if_neg (ne_u32Max_of_getElem? small byte), atIdx_of_getElem? byte, ok_bind,
    if_pos (Kind.opener_cases kind).1, if_neg (by omega)]

theorem depthLoop_deep {kind : Kind} (byte : buf[i]? = some kind.opener)
    (full : limit < depth + 1) :
    depthLoop buf limit depth (i :: rest) = fail ⟨.nestingTooDeep, i⟩ := by
  rw [depthLoop, if_neg (ne_u32Max_of_getElem? small byte), atIdx_of_getElem? byte, ok_bind,
    if_pos (Kind.opener_cases kind).1, if_pos full]

theorem depthLoop_close {kind : Kind} (byte : buf[i]? = some kind.closer) :
    depthLoop buf limit (depth + 1) (i :: rest) = depthLoop buf limit depth rest := by
  rw [depthLoop, if_neg (ne_u32Max_of_getElem? small byte), atIdx_of_getElem? byte, ok_bind,
    if_neg (Kind.closer_cases kind).2.2, if_pos (Kind.closer_cases kind).1, if_neg (by simp)]
  rfl

theorem depthLoop_nameSigns {marks : List Nat} {name : Option Name}
    (reads : Reads buf marks (nameSigns name)) :
    depthLoop buf limit depth (marks ++ rest) = depthLoop buf limit depth rest := by
  cases name with
  | none =>
      obtain rfl : marks = [] := by simpa [nameSigns] using reads.length_eq
      rfl
  | some name =>
      obtain ⟨first, marks, rfl, opens, reads⟩ := exists_of_reads_cons reads
      obtain ⟨second, marks, rfl, closes, reads⟩ := exists_of_reads_cons reads
      obtain ⟨third, marks, rfl, parts, reads⟩ := exists_of_reads_cons reads
      obtain rfl : marks = [] := by simpa using reads.length_eq
      simp only [List.cons_append, List.nil_append]
      rw [depthLoop_skip small opens (.inl rfl), depthLoop_skip small closes (.inl rfl),
        depthLoop_skip small parts (.inr (.inl rfl))]

end Levels

mutual
/-- Along the marks of a value the depth pass comes back to where it started, if the
value is not nested too deep. -/
theorem depthLoop_tree {depth : Nat} {marks rest : List Nat} (tree : Tree)
    (small : buf.length < u32Max) (reads : Reads buf marks tree.signs)
    (shallow : depth + tree.depth ≤ limit) :
    depthLoop buf limit depth (marks ++ rest) = depthLoop buf limit depth rest := by
  cases tree with
  | scalar token =>
      obtain rfl : marks = [] := by simpa [Tree.signs] using reads.length_eq
      rfl
  | str body =>
      obtain ⟨first, marks, rfl, opens, reads⟩ := exists_of_reads_cons reads
      obtain ⟨second, marks, rfl, closes, reads⟩ := exists_of_reads_cons reads
      obtain rfl : marks = [] := by simpa using reads.length_eq
      simp only [List.cons_append, List.nil_append]
      rw [depthLoop_skip small opens (.inl rfl), depthLoop_skip small closes (.inl rfl)]
  | empty kind blank =>
      obtain ⟨first, marks, rfl, opens, reads⟩ := exists_of_reads_cons reads
      obtain ⟨second, marks, rfl, closes, reads⟩ := exists_of_reads_cons reads
      obtain rfl : marks = [] := by simpa using reads.length_eq
      simp only [Tree.depth] at shallow
      simp only [List.cons_append, List.nil_append]
      rw [depthLoop_open small opens shallow, depthLoop_close small closes]
  | node kind entries =>
      simp only [Tree.signs] at reads
      simp only [Tree.depth] at shallow
      obtain ⟨first, inner, last, tail, rfl, opens, readsInner, closes, reads⟩ :=
        reads_nest reads
      obtain rfl : tail = [] := by simpa using reads.length_eq
      rw [List.cons_append, List.append_assoc, List.cons_append, List.nil_append,
        depthLoop_open small opens (by omega),
        depthLoop_entries entries small readsInner (by omega), depthLoop_close small closes]

theorem depthLoop_entries {depth : Nat} {marks rest : List Nat} (entries : Entries)
    (small : buf.length < u32Max) (reads : Reads buf marks entries.signs)
    (shallow : depth + entries.depth ≤ limit) :
    depthLoop buf limit depth (marks ++ rest) = depthLoop buf limit depth rest := by
  cases entries with
  | last name before value after =>
      simp only [Entries.signs] at reads
      simp only [Entries.depth] at shallow
      obtain ⟨nameMarks, marks, rfl, readsName, reads⟩ := reads_append_iff.1 reads
      rw [List.append_assoc, depthLoop_nameSigns small readsName,
        depthLoop_tree value small reads shallow]
  | more name before value after others =>
      simp only [Entries.signs] at reads
      simp only [Entries.depth] at shallow
      obtain ⟨nameMarks, marks, rfl, readsName, reads⟩ := reads_append_iff.1 reads
      obtain ⟨valueMarks, marks, rfl, readsValue, reads⟩ := reads_append_iff.1 reads
      obtain ⟨comma, marks, rfl, separates, reads⟩ := exists_of_reads_cons reads
      rw [List.append_assoc, List.append_assoc, List.cons_append,
        depthLoop_nameSigns small readsName,
        depthLoop_tree value small readsValue (by omega),
        depthLoop_skip small separates (.inr (.inr rfl)),
        depthLoop_entries others small reads (by omega)]
end

end Depth

/-! ## What lazy parsing accepts -/

section Lazy

variable {cpu : Dispatch} {buf : Bytes} {opts : Options}

/-- Lazy parsing succeeds when the scan and the depth pass do. -/
theorem lazy_ok_iff (lazy : opts.isEager = false) (doc : Document) :
    parseWithOptions cpu buf opts = .ok doc ↔
      ¬ IsBlank buf ∧ (cpu.scan buf).result = .ok () ∧
        validateDepth buf ((cpu.scan buf).out ++ [u32Max]) opts.effectiveMaxDepth = .ok () ∧
        doc = ⟨buf, (cpu.scan buf).out ++ [u32Max], false⟩ := by
  have blank : buf.all isWs = true ↔ IsBlank buf := List.all_eq_true
  rw [parseWithOptions_ok_iff, parseWithOptionsDetailed]
  simp only [lazy, Bool.false_eq_true, if_false]
  by_cases isBlank : IsBlank buf
  · rw [if_pos (blank.2 isBlank)]
    simp [fail, isBlank]
  · rw [if_neg (fun all => isBlank (blank.1 all))]
    split
    · rename_i panicked
      simp [panicked]
    · rename_i offset failed
      refine iff_of_false (fun ok => ?_) fun accepted => by simp [failed] at accepted
      split at ok
      · obtain ⟨-, -, ok⟩ := bind_eq_ok_iff.1 ok
        cases ok
      · cases ok
    · rename_i scanned
      rw [bind_eq_ok_iff]
      constructor
      · rintro ⟨⟨⟩, depth, ok⟩
        exact ⟨isBlank, scanned, depth, (Except.ok.inj ok).symm⟩
      · rintro ⟨-, -, depth, rfl⟩
        exact ⟨(), depth, rfl⟩

/-- What eager parsing accepts, lazy parsing accepts with the same index. -/
theorem lazy_of_eager (scanner : ScanPath) (strings : StringPath)
    (small : buf.length < u32Max) (eager : opts.isEager = true) {lazyOpts : Options}
    (lazy : lazyOpts.isEager = false) (limit : lazyOpts.maxDepth = opts.maxDepth)
    {doc : Document} (ok : parseWithOptions (dispatch scanner strings) buf opts = .ok doc) :
    parseWithOptions (dispatch scanner strings) buf lazyOpts =
      .ok ⟨buf, doc.indices, false⟩ := by
  obtain ⟨tree, before, after, valid, beforeBlank, afterBlank, split, shallow, spelled⟩ :=
    (parse_ok_iff scanner strings small eager).1 ok
  obtain ⟨scanned, -, whole⟩ := ok_of_parse eager ok
  have out : (scanner.scan buf).out ++ [u32Max] = tree.marks before.length ++ [u32Max] :=
    congrArg Document.indices (whole.symm.trans spelled)
  have ink : ¬ IsBlank buf := by
    rw [split]
    intro blank
    simp only [isBlank_append] at blank
    exact tree.not_isBlank_render valid blank.2.1
  have reads := tree.reads before after
  rw [← split] at reads
  have depth : validateDepth buf (tree.marks before.length ++ [u32Max])
      lazyOpts.effectiveMaxDepth = .ok () := by
    have same : lazyOpts.effectiveMaxDepth = opts.effectiveMaxDepth := by
      rw [Options.effectiveMaxDepth, limit, Options.effectiveMaxDepth]
    rw [validateDepth, same,
      depthLoop_tree tree small reads (by rw [Nat.zero_add]; exact shallow), depthLoop,
      if_pos rfl]
  refine (lazy_ok_iff lazy _).2 ⟨ink, scanned, ?_, ?_⟩
  · change validateDepth buf ((scanner.scan buf).out ++ [u32Max]) _ = _
    rw [out]
    exact depth
  · rw [whole]

/-- The scalar scan of a text without a mismatch. -/
theorem scalar_ok_iff :
    (scanAndValidate buf).result = .ok () ↔
      (reading buf).inStr = false ∧ Balanced (signs buf) := by
  have scan : Scanned buf.length 0 outset buf (scanAndValidate buf) := scanned
  constructor
  · intro ok
    cases opened : (reading buf).opened with
    | none =>
        obtain ⟨k, -, failed, -, -⟩ := scan.mismatch opened
        rw [ok] at failed
        cases failed
    | some stack =>
        have result := (scan.matched stack opened).2
        rw [ok] at result
        split at result
        · rename_i ended
          obtain ⟨inStr, rfl⟩ := ended
          exact ⟨inStr, (opened_eq_nil_iff inStr).1 opened⟩
        · cases result
  · rintro ⟨inStr, balanced⟩
    have result := (scan.matched [] ((opened_eq_nil_iff inStr).2 balanced)).2
    rw [if_pos ⟨inStr, rfl⟩] at result
    exact result

/-- What a successful scalar scan pushes. -/
theorem scalar_out (small : buf.length < u32Max)
    (ok : (scanAndValidate buf).result = .ok ()) :
    (scanAndValidate buf).out = outset.marks 0 buf ∧ (reading buf).opened = some [] := by
  have scan : Scanned buf.length 0 outset buf (scanAndValidate buf) := scanned
  obtain ⟨inStr, balanced⟩ := scalar_ok_iff.1 ok
  have opened := (opened_eq_nil_iff inStr).2 balanced
  refine ⟨(scan.matched [] opened).1.trans ?_, opened⟩
  refine (List.map_congr_left fun i member => ?_).trans (List.map_id _)
  have inside := Reading.le_of_mem_marks member
  rw [u32_of_lt, id]
  unfold u32Max at small
  omega

/-- Every scanner lists ascending positions. -/
theorem ScanPath.ascends (scanner : ScanPath) (small : buf.length < u32Max)
    (ok : (scanner.scan buf).result = .ok ()) :
    Ascends 0 buf.length (scanner.scan buf).out := by
  cases scanner with
  | vector path => exact path.ascends (small.trans (by decide))
  | scalar =>
      have out := (scalar_out small ok).1
      simp only [scan, out]
      refine ⟨Reading.marks_pairwise .., fun pos member => ?_⟩
      have inside := Reading.le_of_mem_marks member
      omega

/-- A document that parsing returns, in either mode, holds what the scan pushed. -/
theorem scanned_of_parse (scanner : ScanPath) (strings : StringPath) {doc : Document}
    (ok : parseWithOptions (dispatch scanner strings) buf opts = .ok doc) :
    doc = ⟨buf, (scanner.scan buf).out ++ [u32Max], opts.isEager⟩ ∧
      (scanner.scan buf).result = .ok () := by
  cases eager : opts.isEager with
  | true =>
      obtain ⟨scanned, -, rfl⟩ := ok_of_parse eager ok
      exact ⟨rfl, scanned⟩
  | false =>
      obtain ⟨-, scanned, -, rfl⟩ := (lazy_ok_iff eager doc).1 ok
      exact ⟨rfl, scanned⟩

/-- A document that parsing returns has a sound index. -/
theorem indexed_of_parse (scanner : ScanPath) (strings : StringPath)
    (small : buf.length < u32Max) {doc : Document}
    (ok : parseWithOptions (dispatch scanner strings) buf opts = .ok doc) :
    doc = ⟨buf, (scanner.scan buf).out ++ [u32Max], opts.isEager⟩ ∧
      (scanner.scan buf).result = .ok () ∧ Indexed doc (scanner.scan buf).out := by
  obtain ⟨rfl, scanned⟩ := scanned_of_parse scanner strings ok
  have ascends := scanner.ascends small scanned
  exact ⟨rfl, scanned, rfl, ascends.1, fun pos member => (ascends.2 pos member).2, small⟩

end Lazy

/-! ## The scalar scanner and the skeleton -/

/-- The first mismatch is where it is. -/
theorem isMismatchAt_unique {buf : Bytes} {i j : Nat} (left : IsMismatchAt buf i)
    (right : IsMismatchAt buf j) : i = j := by
  have later {i j : Nat} (left : IsMismatchAt buf i) (right : IsMismatchAt buf j) :
      ¬ i < j := by
    intro before
    refine right.1 ?_
    have split : buf.take j = buf.take (i + 1) ++ (buf.take j).drop (i + 1) := by
      have cut := List.take_append_drop (i + 1) (buf.take j)
      rw [List.take_take, Nat.min_eq_left before] at cut
      exact cut.symm
    rw [split, reading, Reading.run_append]
    exact Reading.run_none _ left.2 _
  have notBefore := later left right
  have notAfter := later right left
  omega

theorem scanned_whole (buf : Bytes) :
    Scanned buf.length 0 outset buf (scanAndValidate buf) := scanned

/-- A scan fails inside the buffer at the first mismatch and nowhere else. -/
theorem scalar_error_iff {buf : Bytes} {i : Nat} (inside : i < buf.length) :
    (scanAndValidate buf).result = .error (.err i) ↔ IsMismatchAt buf i := by
  have scan := scanned_whole buf
  cases opened : (reading buf).opened with
  | none =>
      obtain ⟨k, -, failed, before, behind⟩ := scan.mismatch opened
      rw [Nat.zero_add] at failed
      have here : IsMismatchAt buf k := ⟨before, behind⟩
      constructor
      · intro failed'
        rw [failed] at failed'
        cases failed'
        exact here
      · intro there
        rw [isMismatchAt_unique there here]
        exact failed
  | some stack =>
      refine iff_of_false (fun failed => ?_) fun mismatch => ?_
      · rw [(scan.matched stack opened).2] at failed
        split at failed
        · cases failed
        · cases failed
          omega
      · have none := Reading.run_none _ mismatch.2 (buf.drop (i + 1))
        rw [reading, ← Reading.run_append, List.take_append_drop] at none
        exact absurd (none.symm.trans opened) (by simp)

/-- A scan fails at the end of the buffer when no bracket mismatches and something is
left open. -/
theorem scalar_error_length_iff {buf : Bytes} :
    (scanAndValidate buf).result = .error (.err buf.length) ↔
      (∀ i < buf.length, ¬ IsMismatchAt buf i) ∧
        ((reading buf).inStr = true ∨ (reading buf).opened ≠ some []) := by
  have scan := scanned_whole buf
  cases opened : (reading buf).opened with
  | none =>
      obtain ⟨k, inside, failed, before, behind⟩ := scan.mismatch opened
      refine iff_of_false (fun failed' => ?_) fun clean =>
        clean.1 k inside ⟨before, behind⟩
      have same : buf.length = 0 + k := by simpa [failed'] using failed
      omega
  | some stack =>
      have result := (scan.matched stack opened).2
      have clean : ∀ i < buf.length, ¬ IsMismatchAt buf i := by
        intro i inside mismatch
        have failed := (scalar_error_iff inside).2 mismatch
        rw [result] at failed
        split at failed
        · cases failed
        · cases failed
          omega
      rw [result, and_iff_right clean]
      have final : outset.run buf = reading buf := rfl
      rw [final]
      cases inStr : (reading buf).inStr with
      | true => simp
      | false =>
          cases stack with
          | nil => simp
          | cons b stack => simp

/-- The scalar scanner computes the structural skeleton: it succeeds exactly on texts
that end outside strings with their brackets balanced, and pushes their marks; it
fails at the first mismatch, or else at the end.  Lazy parsing accepts what it
succeeds on, up to the nesting limit. -/
theorem scanAndValidate_skeleton (buf : Bytes) (small : buf.length < 2 ^ 32 - 1) :
    ((scanAndValidate buf).result = .ok () ↔
      (reading buf).inStr = false ∧ Balanced (signs buf)) ∧
    ((scanAndValidate buf).result = .ok () →
      (scanAndValidate buf).out.Pairwise (· < ·) ∧
        (∀ i, i ∈ (scanAndValidate buf).out ↔ IsMarkAt buf i) ∧
        Reads buf (scanAndValidate buf).out (signs buf)) ∧
    (∀ i < buf.length,
      (scanAndValidate buf).result = .error (.err i) ↔ IsMismatchAt buf i) ∧
    ((scanAndValidate buf).result = .error (.err buf.length) ↔
      (∀ i < buf.length, ¬ IsMismatchAt buf i) ∧
        ((reading buf).inStr = true ∨ (reading buf).opened ≠ some [])) ∧
    ((scanAndValidate buf).result = .ok () ∨
      ∃ i ≤ buf.length, (scanAndValidate buf).result = .error (.err i)) ∧
    ∀ (strings : StringPath) (opts : Options), opts.isEager = false →
      ((∃ doc, parseWithOptions (dispatch .scalar strings) buf opts = .ok doc) ↔
        ¬ IsBlank buf ∧ (scanAndValidate buf).result = .ok () ∧
          nesting buf ≤ opts.effectiveMaxDepth) := by
  refine ⟨scalar_ok_iff, fun ok => ?_, fun i inside => scalar_error_iff inside,
    scalar_error_length_iff, ?_, fun strings opts lazy => ?_⟩
  · rw [(scalar_out small ok).1]
    refine ⟨Reading.marks_pairwise .., fun i => ?_, Reading.reads_marks outset [] buf⟩
    rw [Reading.mem_marks_iff]
    simp only [Nat.zero_add, exists_and_left, exists_eq_left']
    rfl
  · have scan := scanned_whole buf
    cases opened : (reading buf).opened with
    | none =>
        obtain ⟨k, inside, failed, -, -⟩ := scan.mismatch opened
        exact .inr ⟨k, inside.le, by rw [failed, Nat.zero_add]⟩
    | some stack =>
        have result := (scan.matched stack opened).2
        split at result
        · exact .inl result
        · exact .inr ⟨_, le_refl _, result⟩
  · simp only [lazy_ok_iff lazy]
    have depth (ok : (scanAndValidate buf).result = .ok ()) :
        validateDepth buf ((scanAndValidate buf).out ++ [u32Max]) opts.effectiveMaxDepth =
          .ok () ↔ nesting buf ≤ opts.effectiveMaxDepth := by
      obtain ⟨out, opened⟩ := scalar_out small ok
      rw [out]
      exact @depthLoop_marks buf [] buf _ outset [] rfl small rfl
        (fun none => by rw [show (outset.run buf).opened = some [] from opened] at none
                        cases none)
        (Nat.zero_le _)
    constructor
    · rintro ⟨doc, ink, ok, shallow, -⟩
      exact ⟨ink, ok, (depth ok).1 shallow⟩
    · rintro ⟨ink, ok, shallow⟩
      exact ⟨_, ink, ok, (depth ok).2 shallow, rfl⟩

/-- `["]",1]` -/
theorem scanAndValidate_skeleton_array :
    (scanAndValidate [0x5B, 0x22, 0x5D, 0x22, 0x2C, 0x31, 0x5D]).out = [0, 1, 3, 4, 6] ∧
    ((scanAndValidate [0x5B, 0x22, 0x5D, 0x22, 0x2C, 0x31, 0x5D]).result = .ok () ↔
      (reading [0x5B, 0x22, 0x5D, 0x22, 0x2C, 0x31, 0x5D]).inStr = false ∧
        Balanced (signs [0x5B, 0x22, 0x5D, 0x22, 0x2C, 0x31, 0x5D])) :=
  ⟨by decide, (scanAndValidate_skeleton [0x5B, 0x22, 0x5D, 0x22, 0x2C, 0x31, 0x5D]
    (by decide)).1⟩

end QJson.Doc
