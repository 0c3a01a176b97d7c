import QJson.Scan.Trees
import QJson.Validate.Grammar
import QJson.Validate.Trailing

/-!
# Parsing a document

`Document::parse_with_options_detailed` of `src/doc.rs`.  The two functions that
the crate picks at run time by the features of the CPU, the structural scanner
and the string validator, are a parameter.
-/

namespace QJson.Doc

open Rfc8259 Validate Scan

/-- What the dispatch cells `SCAN_FN` and `VALIDATE_FN` hold. -/
structure Dispatch where
  scan : Bytes → ScanOut
  validateString : Bytes → Rust QjsonErr Unit

/-- The parts of `Document` that parsing fixes. -/
structure Document where
  buf : Bytes
  indices : List Nat
  eagerValidated : Bool
  deriving DecidableEq, Repr

/-- `scan_error_ended_inside_string`. -/
def scanErrorEndedInsideString (buf : Bytes) (indices : List Nat) : Bool :=
  indices.foldl
    (fun inString idx => if buf[idx]? = some 0x22 then !inString else inString) false

/-- `Document::parse_with_options_detailed`. -/
def parseWithOptionsDetailed (cpu : Dispatch) (buf : Bytes) (opts : Options) :
    Rust ParseError Document :=
  if buf.all isWs then fail (ParseError.noOffset .parseError)
  else
    let maxDepth := opts.effectiveMaxDepth
    let indices := (cpu.scan buf).out ++ [u32Max]
    match (cpu.scan buf).result with
    | .error .panic => .error .panic
    | .error (.err offset) =>
        if offset = buf.length ∧
            scanErrorEndedInsideString buf (cpu.scan buf).out = false then
          if opts.isEager then
            match validateEagerValues cpu.validateString buf indices maxDepth with
            | .error fault => .error fault
            | .ok () => fail ⟨.parseError, offset⟩
          else do
            validateDepth buf indices maxDepth
            fail ⟨.parseError, offset⟩
        else fail ⟨.parseError, offset⟩
    | .ok () =>
        if opts.isEager then do
          validateTrailing buf indices
          validateEagerValues cpu.validateString buf indices maxDepth
          .ok ⟨buf, indices, opts.isEager⟩
        else do
          validateDepth buf indices maxDepth
          .ok ⟨buf, indices, opts.isEager⟩

/-- `Document::parse_with_options`. -/
def parseWithOptions (cpu : Dispatch) (buf : Bytes) (opts : Options) :
    Rust QjsonErr Document :=
  mapErr ParseError.code (parseWithOptionsDetailed cpu buf opts)

/-- The scanner hands its index over to the other passes: it succeeds, or it fails at the
end of the buffer and not inside a string. -/
def HandsOver (cpu : Dispatch) (buf : Bytes) : Prop :=
  (cpu.scan buf).result = .ok () ∨
    (cpu.scan buf).result = .error (.err buf.length) ∧
      scanErrorEndedInsideString buf (cpu.scan buf).out = false

/-- Where the error of a parse comes from. -/
inductive Origin (cpu : Dispatch) (buf : Bytes) (opts : Options) : ParseError → Prop where
  | blank : Origin cpu buf opts (.noOffset .parseError)
  | scan {offset : Nat} : (cpu.scan buf).result = .error (.err offset) →
      Origin cpu buf opts ⟨.parseError, offset⟩
  | trailing {error : ParseError} : opts.isEager = true → (cpu.scan buf).result = .ok () →
      validateTrailing buf ((cpu.scan buf).out ++ [u32Max]) = .error (.err error) →
      Origin cpu buf opts error
  | eager {error : ParseError} : opts.isEager = true → HandsOver cpu buf →
      validateEagerValues cpu.validateString buf ((cpu.scan buf).out ++ [u32Max])
        opts.effectiveMaxDepth = .error (.err error) → Origin cpu buf opts error
  | depth {error : ParseError} : opts.isEager = false → HandsOver cpu buf →
      validateDepth buf ((cpu.scan buf).out ++ [u32Max]) opts.effectiveMaxDepth =
        .error (.err error) → Origin cpu buf opts error

theorem origin_of_parse {cpu : Dispatch} {buf : Bytes} {opts : Options} {error : ParseError}
    (failed : parseWithOptionsDetailed cpu buf opts = .error (.err error)) :
    Origin cpu buf opts error := by
  unfold parseWithOptionsDetailed at failed
  split at failed
  · cases failed
    exact .blank
  · dsimp only at failed
    split at failed
    · cases failed
    · rename_i offset scanned
      split at failed
      · rename_i ended
        have handed : HandsOver cpu buf := .inr ⟨ended.1 ▸ scanned, ended.2⟩
        split at failed
        · rename_i eager
          split at failed
          · rename_i refused
            cases failed
            exact .eager eager handed refused
          · cases failed
            exact .scan scanned
        · rename_i lazy
          rcases bind_eq_err_iff.1 failed with refused | ⟨⟨⟩, -, failed⟩
          · exact .depth (Bool.eq_false_iff.2 lazy) handed refused
          · cases failed
            exact .scan scanned
      · cases failed
        exact .scan scanned
    · rename_i scanned
      split at failed
      · rename_i eager
        rcases bind_eq_err_iff.1 failed with refused | ⟨⟨⟩, -, failed⟩
        · exact .trailing eager scanned refused
        · rcases bind_eq_err_iff.1 failed with refused | ⟨⟨⟩, -, failed⟩
          · exact .eager eager (.inl scanned) refused
          · cases failed
      · rename_i lazy
        rcases bind_eq_err_iff.1 failed with refused | ⟨⟨⟩, -, failed⟩
        · exact .depth (Bool.eq_false_iff.2 lazy) (.inl scanned) refused
        · cases failed

/-- The string validators the dispatch chooses from. -/
inductive StringPath where
  | scalar
  | avx2
  | neon
  deriving DecidableEq, Repr

/-- The function behind a choice of string validator. -/
def StringPath.validate : StringPath → Bytes → Rust QjsonErr Unit
  | .scalar => fun span => toRust (validateSpanScalar span)
  | .avx2 => validateSpanAvx2
  | .neon => validateSpanNeon

theorem StringPath.isStringValidator (path : StringPath) :
    IsStringValidator path.validate := by
  cases path with
  | scalar => exact fun _ => rfl
  | avx2 => exact validateSpanAvx2_eq
  | neon => exact validateSpanNeon_eq

/-! ## What eager parsing accepts -/

section Eager

variable {cpu : Dispatch} {buf : Bytes} {opts : Options}

theorem parseWithOptions_ok_iff {doc : Document} :
    parseWithOptions cpu buf opts = .ok doc ↔
      parseWithOptionsDetailed cpu buf opts = .ok doc := by
  unfold parseWithOptions mapErr
  split <;> rename_i spelled <;> rw [spelled] <;> simp

/-- An accepted document passed the scan and the eager pass over its index. -/
theorem ok_of_parse (eager : opts.isEager = true) {doc : Document}
    (ok : parseWithOptions cpu buf opts = .ok doc) :
    (cpu.scan buf).result = .ok () ∧
      validateEagerValues cpu.validateString buf ((cpu.scan buf).out ++ [u32Max])
        opts.effectiveMaxDepth = .ok () ∧
      doc = ⟨buf, (cpu.scan buf).out ++ [u32Max], true⟩ := by
  have detailed := parseWithOptions_ok_iff.1 ok
  unfold parseWithOptionsDetailed at detailed
  simp only [eager, if_true] at detailed
  split at detailed
  · cases detailed
  · split at detailed
    · cases detailed
    · split at detailed
      · split at detailed <;> cases detailed
      · cases detailed
    · rename_i scanned
      obtain ⟨-, -, rest⟩ := bind_eq_ok_iff.1 detailed
      obtain ⟨⟨⟩, valid, final⟩ := bind_eq_ok_iff.1 rest
      exact ⟨scanned, valid, (Except.ok.inj final).symm⟩

theorem parse_of_ok (eager : opts.isEager = true) (notBlank : ¬ IsBlank buf)
    {out : List Nat} (scanned : cpu.scan buf = ⟨out, .ok ()⟩)
    (trailing : validateTrailing buf (out ++ [u32Max]) = .ok ())
    (valid : validateEagerValues cpu.validateString buf (out ++ [u32Max])
      opts.effectiveMaxDepth = .ok ()) :
    parseWithOptions cpu buf opts = .ok ⟨buf, out ++ [u32Max], true⟩ := by
  have ink : ¬ buf.all isWs = true := by
    rw [List.all_eq_true]
    exact notBlank
  simp [parseWithOptions, parseWithOptionsDetailed, ink, scanned, eager, trailing, valid]

end Eager

/-! ## The trailing pass on the grammar -/

section Trailing

variable {before after : Bytes}

theorem isWs_of_isScalar {token : Bytes} (scalar : IsScalar token) :
    ∀ b ∈ token, (!isWs b) = true := fun b member => by
  rw [(scalar.isInk b member).1]
  rfl

theorem skipWs_scalar {token : Bytes} (scalar : IsScalar token)
    (beforeBlank : IsBlank before) :
    skipWs (before ++ (token ++ after)) 0 = before.length := by
  obtain ⟨b, rest, rfl⟩ := List.exists_cons_of_ne_nil scalar.ne_nil
  have ink := isWs_of_isScalar scalar b (by simp)
  have run : (before ++ b :: (rest ++ after)).takeWhile isWs = before := by
    rw [List.takeWhile_append_of_pos beforeBlank,
      List.takeWhile_cons_of_neg (by simpa using ink), List.append_nil]
  rw [skipWs, List.drop_zero, List.cons_append, run, Nat.zero_add]

theorem skipInk_scalar {token : Bytes} (scalar : IsScalar token)
    (afterBlank : IsBlank after) :
    skipInk (before ++ (token ++ after)) before.length = (before ++ token).length := by
  have none : after.takeWhile (fun b => !isWs b) = [] := by
    cases after with
    | nil => rfl
    | cons b after =>
        rw [List.takeWhile_cons_of_neg]
        simpa using afterBlank b (by simp)
  rw [skipInk, List.drop_left, List.takeWhile_append_of_pos (isWs_of_isScalar scalar), none,
    List.append_nil, List.length_append]

theorem validateTrailing_scalar {token : Bytes} (scalar : IsScalar token)
    (beforeBlank : IsBlank before) (afterBlank : IsBlank after) :
    validateTrailing (before ++ (token ++ after)) [u32Max] = .ok () := by
  have start := @skipWs_scalar _ after _ scalar beforeBlank
  have stop := @skipInk_scalar before _ _ scalar afterBlank
  have rest := @skipWs_blank (before ++ token) _ afterBlank _ rfl
  rw [List.append_assoc] at rest
  have moved : before.length ≠ (before ++ token).length := by
    have := List.length_pos_iff.2 scalar.ne_nil
    simp only [List.length_append]
    omega
  have none : [u32Max].find? (fun i => decide (i ≠ u32Max)) = none := by simp
  rw [validateTrailing, none]
  simp only [start, stop, rest, moved, lt_irrefl, if_false]

/-- Once the end of the root value is known to be the last byte before trailing
whitespace, the pass succeeds. -/
theorem validateTrailing_of_rootEnd {text : Bytes} {marks : List Nat} {first p : Nat}
    (afterBlank : IsBlank after) (real : first ≠ u32Max)
    (end_ : rootEnd (text ++ after) (first :: marks) first =
      .ok (skipWs (text ++ after) p)) (last : p = text.length) :
    validateTrailing (text ++ after) (first :: marks) = .ok () := by
  have found : (first :: marks).find? (fun i => decide (i ≠ u32Max)) = some first := by
    simp [real]
  rw [validateTrailing, found]
  simp only [end_, ok_bind, skipWs_blank afterBlank last, lt_irrefl, if_false]

theorem validateTrailing_parses {tree : Tree} (valid : tree.Valid)
    (beforeBlank : IsBlank before) (afterBlank : IsBlank after)
    (small : (before ++ (tree.render ++ after)).length < u32Max) :
    validateTrailing (before ++ (tree.render ++ after))
      (tree.marks before.length ++ [u32Max]) = .ok () := by
  have reads := tree.reads before after
  cases shape : tree.kind? with
  | some kind =>
      obtain ⟨inner, signs, marksEq, signsEq, balanced⟩ :=
        tree.exists_brackets shape before.length
      rw [marksEq] at reads ⊢
      rw [signsEq] at reads
      obtain ⟨opening, reads⟩ := reads_cons.1 reads
      obtain ⟨left, right, split, readsInner, reads⟩ := reads_append_iff.1 reads
      obtain ⟨last, right, rfl, closing, readsNil⟩ := exists_of_reads_cons reads
      obtain rfl : right = [] := by simpa using readsNil.length_eq
      obtain ⟨rfl, lastEq⟩ := List.append_inj' split rfl
      obtain rfl : before.length + tree.render.length - 1 = last := by simpa using lastEq
      obtain ⟨opener, -⟩ := Kind.opener_cases kind
      have closer := @rootCloser_nest _ _ _ small kind balanced _ _ before.length [u32Max]
        opening readsInner closing
      rw [← List.append_assoc before] at small opening closer ⊢
      rw [List.cons_append, List.append_assoc inner, List.cons_append, List.nil_append]
      refine validateTrailing_of_rootEnd afterBlank (ne_u32Max_of_getElem? small opening)
        (p := before.length + tree.render.length - 1 + 1) ?_ ?_
      · rw [rootEnd, atIdx_of_getElem? opening, ok_bind, if_pos opener, closer, ok_bind]
      · have nonempty := List.length_pos_iff.2 (tree.render_ne_nil valid)
        simp only [List.length_append]
        omega
  | none =>
      cases tree with
      | scalar token =>
          simp only [Tree.Valid] at valid
          simpa [Tree.marks, Tree.render] using
            validateTrailing_scalar valid beforeBlank afterBlank
      | str body =>
          simp only [Tree.marks, Tree.signs, reads_cons] at reads
          obtain ⟨opening, closing, -⟩ := reads
          have realOpen := ne_u32Max_of_getElem? small opening
          have real := ne_u32Max_of_getElem? small closing
          rw [← List.append_assoc before] at opening ⊢
          refine validateTrailing_of_rootEnd afterBlank realOpen
            (p := before.length + 1 + body.length + 1) ?_ ?_
          · rw [rootEnd, atIdx_of_getElem? opening, ok_bind, if_neg (by decide), if_pos rfl]
            simp [real]
          · simp only [Tree.render, List.length_append, List.length_cons, List.length_nil]
            omega
      | empty kind blank => cases shape
      | node kind entries => cases shape

end Trailing

end QJson.Doc
