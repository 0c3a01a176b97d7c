import QJson.Doc.Parse
import QJson.Scan.Index

/-!
# Parsing does not depend on the CPU

The scanners may push different positions for malformed bytes, but any structural
index leads the eager pass to the same verdict, and a text of the grammar has no
stray quote, so that on accepted texts all scanners push the marks of the tree.
-/

namespace QJson.Doc

open Rfc8259 Validate Scan

/-- The scanners the dispatch chooses from. -/
inductive ScanPath where
  | scalar
  | vector (path : VectorPath)
  deriving DecidableEq, Repr

/-- The function behind a choice of scanner. -/
def ScanPath.scan : ScanPath → Bytes → ScanOut
  | .scalar => scanAndValidate
  | .vector path => path.scan

/-- The dispatch cells of a CPU. -/
def dispatch (scanner : ScanPath) (strings : StringPath) : Dispatch :=
  ⟨scanner.scan, strings.validate⟩

/-! ## Texts of the grammar have no stray quote -/

section Calm

variable {gap body : Bytes}

theorem calm_gap (plain : IsPlain gap) (noSlash : 0x5C ∉ gap) :
    Lanes.run ⟨false, false⟩ gap = ⟨false, false⟩ ∧
      Lanes.stray ⟨false, false⟩ gap = false := by
  induction gap with
  | nil => exact ⟨rfl, rfl⟩
  | cons b gap ih =>
      obtain ⟨noMark, tail⟩ := (isPlain_cons b gap).1 plain
      simp only [List.mem_cons, not_or] at noSlash
      have other : (b == 0x5C) = false := by simpa using Ne.symm noSlash.1
      have noQuote : (b == 0x22) = false := by
        simp only [isMark, Bool.or_eq_false_iff] at noMark
        exact noMark.2
      have next : Lanes.step ⟨false, false⟩ b = ⟨false, false⟩ := by
        simp [Lanes.step, other, noQuote]
      obtain ⟨state, calm⟩ := ih tail noSlash.2
      constructor
      · change Lanes.run (Lanes.step ⟨false, false⟩ b) gap = _
        rw [next, state]
      · rw [Lanes.stray, next, calm, noQuote]
        rfl

theorem calm_structural {b : UInt8} (structural : isStructural b = true) :
    Lanes.step ⟨false, false⟩ b = ⟨false, false⟩ := by
  have notQuote : (b == 0x22) = false := by simpa using isStructural_ne_quote structural
  have notSlash : (b == 0x5C) = false := by
    refine beq_eq_false_iff_ne.2 ?_
    rintro rfl
    exact absurd structural (by decide)
  simp [Lanes.step, notQuote, notSlash]

theorem calm_inert (inert : IsInert body) :
    Lanes.run ⟨false, true⟩ body = ⟨false, true⟩ ∧
      Lanes.stray ⟨false, true⟩ body = false := by
  induction inert with
  | nil => exact ⟨rfl, rfl⟩
  | @escape c body _ ih =>
      have second : Lanes.step (Lanes.step ⟨false, true⟩ 0x5C) c = ⟨false, true⟩ := by
        simp [Lanes.step]
      constructor
      · change Lanes.run (Lanes.step (Lanes.step ⟨false, true⟩ 0x5C) c) body = _
        rw [second, ih.1]
      · rw [Lanes.stray, Lanes.stray, second, ih.2]
        simp [Lanes.step]
  | @plain b body notSlash notQuote _ ih =>
      have noQuote : (b == 0x22) = false := by simpa using notQuote
      have noSlash : (b == 0x5C) = false := by simpa using notSlash
      have next : Lanes.step ⟨false, true⟩ b = ⟨false, true⟩ := by
        simp [Lanes.step, noQuote, noSlash]
      constructor
      · change Lanes.run (Lanes.step ⟨false, true⟩ b) body = _
        rw [next, ih.1]
      · rw [Lanes.stray, next, ih.2]
        simp

/-- A run reads no stray quote. -/
theorem not_stray_of_runs {maxDepth : Nat} {frames : Frames} {text : Bytes}
    (run : Runs maxDepth frames text) : Lanes.stray ⟨false, false⟩ text = false := by
  induction run with
  | finish plain read => exact (calm_gap plain read.no_slash).2
  | step plain read token _ ih =>
      obtain ⟨state, calm⟩ := calm_gap plain read.no_slash
      rw [Lanes.stray_append, calm, state, Bool.false_or, Lanes.stray_append]
      rcases token.shape with ⟨b, rfl, structural⟩ | ⟨body, rfl, inert⟩
      · have next := calm_structural structural
        have after : Lanes.run ⟨false, false⟩ [b] = ⟨false, false⟩ := next
        rw [after, ih, Lanes.stray, next]
        simp [Lanes.stray]
      · obtain ⟨inside, quiet⟩ := calm_inert inert
        have after : Lanes.run ⟨false, false⟩ (0x22 :: (body ++ [0x22])) =
            ⟨false, false⟩ := by
          change Lanes.run ⟨false, true⟩ (body ++ [0x22]) = _
          rw [Lanes.run_append, inside]
          rfl
        have none : Lanes.stray ⟨false, false⟩ (0x22 :: (body ++ [0x22])) = false := by
          change Lanes.stray ⟨false, true⟩ (body ++ [0x22]) = false
          rw [Lanes.stray_append, quiet, inside]
          rfl
        rw [after, none, ih, Bool.false_or]

end Calm

/-- On a text of the grammar a vector scanner does what the scalar one does. -/
theorem VectorPath.scan_of_isText (path : VectorPath) {maxDepth : Nat} {buf : Bytes}
    (small : buf.length < 2 ^ 32) (text : IsText maxDepth buf)
    (ok : (scanAndValidate buf).result = .ok ()) :
    path.scan buf = scanAndValidate buf := by
  have calm := not_stray_of_runs ((runs_top_iff maxDepth buf).2 text)
  have notStray : ¬ HasStrayQuote buf := by
    intro stray
    rw [← List.take_append_drop (blockEnd buf) buf, Lanes.stray_append,
      Bool.or_eq_false_iff] at calm
    rw [HasStrayQuote, calm.1] at stray
    cases stray
  obtain ⟨emitted, brackets, positions⟩ := ok_of_scalar_ok small ok
  have scalar : scanAndValidate buf = ⟨(scanAndValidate buf).out, .ok ()⟩ := by rw [← ok]
  rw [path.scan_of_not_stray notStray, scalar, positions, ScanOut.checked, emitted]
  simp only [brackets]

/-! ## What eager parsing accepts, with any scanner -/

theorem ScanPath.isIndex_of_ok (scanner : ScanPath) {buf : Bytes}
    (small : buf.length < 2 ^ 32) (ok : (scanner.scan buf).result = .ok ()) :
    IsIndex buf 0 (scanner.scan buf).out := by
  cases scanner with
  | scalar =>
      refine @isIndex_of_scanFrom_ok buf.length _ _ [] _ (by omega) ?_
      change scanAndValidate buf = ⟨(scanAndValidate buf).out, .ok ()⟩
      rw [← show (scanAndValidate buf).result = .ok () from ok]
  | vector path => exact path.isIndex_of_ok small ok

theorem ScanPath.scan_parses (scanner : ScanPath) {tree : Tree} {before after : Bytes}
    (valid : tree.Valid) (beforeBlank : IsBlank before) (afterBlank : IsBlank after)
    (small : (before ++ (tree.render ++ after)).length < 2 ^ 32) :
    scanner.scan (before ++ (tree.render ++ after)) =
      ⟨tree.marks before.length, .ok ()⟩ := by
  have scan := scanAndValidate_parses valid beforeBlank afterBlank small
  cases scanner with
  | scalar => exact scan
  | vector path =>
      rw [← scan]
      refine @VectorPath.scan_of_isText path tree.depth _ small ?_ (by rw [scan])
      exact ⟨tree, ⟨valid, before, after, beforeBlank, afterBlank, rfl⟩, Nat.le_refl _⟩

/-- Eager parsing succeeds exactly on the texts of the grammar, whatever functions
the dispatch cells hold, and the accepted document carries the marks of its tree. -/
theorem parse_ok_iff (scanner : ScanPath) (strings : StringPath) {buf : Bytes}
    {opts : Options} (small : buf.length < u32Max) (eager : opts.isEager = true)
    {doc : Document} :
    parseWithOptions (dispatch scanner strings) buf opts = .ok doc ↔
      ∃ (tree : Tree) (before after : Bytes), tree.Valid ∧ IsBlank before ∧
        IsBlank after ∧ buf = before ++ (tree.render ++ after) ∧
        tree.depth ≤ opts.effectiveMaxDepth ∧
        doc = ⟨buf, tree.marks before.length ++ [u32Max], true⟩ := by
  have pass {out : List Nat} (indexed : IsIndex buf 0 out) :
      validateEagerValues strings.validate buf (out ++ [u32Max]) opts.effectiveMaxDepth =
        .ok () ↔ IsText opts.effectiveMaxDepth buf := by
    rw [validateEagerValues_eq, ← runs_top_iff]
    exact @eagerFrom_ok_iff _ strings.isStringValidator _ _ _ _ indexed [] _ rfl
      (by simp)
      small
  have width : buf.length < 2 ^ 32 := small.trans (by decide)
  constructor
  · intro ok
    obtain ⟨scanned, valid, rfl⟩ := ok_of_parse eager ok
    obtain ⟨tree, ⟨treeValid, before, after, beforeBlank, afterBlank, rfl⟩, shallow⟩ :=
      (pass (scanner.isIndex_of_ok width scanned)).1 valid
    have scan := scanner.scan_parses treeValid beforeBlank afterBlank width
    exact ⟨tree, before, after, treeValid, beforeBlank, afterBlank, rfl, shallow,
      by simp only [dispatch, scan]⟩
  · rintro ⟨tree, before, after, valid, beforeBlank, afterBlank, rfl, shallow, rfl⟩
    have scan := scanner.scan_parses valid beforeBlank afterBlank width
    have indexed : IsIndex (before ++ (tree.render ++ after)) 0
        (tree.marks before.length) := by
      have index := scanner.isIndex_of_ok width (by rw [scan])
      rwa [scan] at index
    refine parse_of_ok eager ?_ scan
      (validateTrailing_parses valid beforeBlank afterBlank small)
      ((pass indexed).2 ⟨tree, ⟨valid, before, after, beforeBlank, afterBlank, rfl⟩, shallow⟩)
    intro blank
    simp only [isBlank_append] at blank
    exact tree.not_isBlank_render valid blank.2.1

/-- Eager parsing with the scalar scanner accepts exactly the texts of RFC 8259
within the nesting limit. -/
theorem parseWithOptions_accepts_rfc8259 (path : StringPath) (buf : Bytes)
    (opts : Options) (small : buf.length < 2 ^ 32 - 1) (eager : opts.isEager = true) :
    (∃ doc, parseWithOptions ⟨scanAndValidate, path.validate⟩ buf opts = .ok doc) ↔
      IsText opts.effectiveMaxDepth buf := by
  constructor
  · rintro ⟨doc, ok⟩
    obtain ⟨tree, before, after, valid, beforeBlank, afterBlank, split, shallow, -⟩ :=
      (parse_ok_iff .scalar path small eager).1 ok
    exact ⟨tree, ⟨valid, before, after, beforeBlank, afterBlank, split⟩, shallow⟩
  · rintro ⟨tree, ⟨valid, before, after, beforeBlank, afterBlank, split⟩, shallow⟩
    exact ⟨_, (parse_ok_iff .scalar path small eager).2
      ⟨tree, before, after, valid, beforeBlank, afterBlank, split, shallow, rfl⟩⟩

/-- `{"a":[true],"b":{"c":1},"a":2}` -/
def nestedText : Bytes :=
  [0x7B, 0x22, 0x61, 0x22, 0x3A, 0x5B, 0x74, 0x72, 0x75, 0x65, 0x5D, 0x2C, 0x22, 0x62, 0x22,
    0x3A, 0x7B, 0x22, 0x63, 0x22, 0x3A, 0x31, 0x7D, 0x2C, 0x22, 0x61, 0x22, 0x3A, 0x32, 0x7D]

/-- The document of `nestedText`. -/
def nestedDoc (eagerValidated : Bool) : Document :=
  ⟨nestedText, [0, 1, 3, 4, 5, 10, 11, 12, 14, 15, 16, 17, 19, 20, 22, 23, 24, 26, 27, 29,
    u32Max], eagerValidated⟩

theorem parseWithOptions_accepts_nested : IsText Options.default.effectiveMaxDepth nestedText :=
  (parseWithOptions_accepts_rfc8259 .scalar nestedText Options.default (by decide)
    (by decide)).1 ⟨nestedDoc true, by decide +kernel⟩

/-- Eager parsing under a vector scanner accepts what it accepts under the scalar
one, with the same structural index. -/
theorem parseWithOptions_vector_eq_scalar (path : VectorPath) (strings strings' : StringPath)
    (buf : Bytes) (opts : Options) (small : buf.length < 2 ^ 32 - 1)
    (eager : opts.isEager = true) (doc : Document) :
    parseWithOptions ⟨path.scan, strings.validate⟩ buf opts = .ok doc ↔
      parseWithOptions ⟨scanAndValidate, strings'.validate⟩ buf opts = .ok doc :=
  (parse_ok_iff (.vector path) strings small eager).trans
    (parse_ok_iff .scalar strings' small eager).symm

theorem parseWithOptions_vector_eq_scalar_across :
    parseWithOptions ⟨scanAvx2, validateSpanAvx2⟩ acrossText Options.default =
      .ok ⟨acrossText, [0, 1, 3, 4, 5, 76, 77, u32Max], true⟩ :=
  (parseWithOptions_vector_eq_scalar .avx2 .avx2 .scalar acrossText Options.default
    (by decide) (by decide) ⟨acrossText, [0, 1, 3, 4, 5, 76, 77, u32Max], true⟩).2
    (by decide +kernel)

end QJson.Doc
