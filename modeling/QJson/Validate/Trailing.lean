import QJson.Rfc8259.Layout
import QJson.Source.Error

/-!
# Trailing content and depth

The two other passes of `src/validate/mod.rs` over the structural index:
`validate_trailing_with_offset`, which finds the end of the root value, and
`validate_depth_with_offset`, which lazy parsing runs instead of the eager pass.
-/

namespace QJson.Validate

open Rfc8259

/-- `while p < buf.len() && is_ws(buf[p]) { p += 1; }` -/
def skipWs (buf : Bytes) (p : Nat) : Nat :=
  p + ((buf.drop p).takeWhile isWs).length

/-- `while p < buf.len() && !is_ws(buf[p]) { p += 1; }` -/
def skipInk (buf : Bytes) (p : Nat) : Nat :=
  p + ((buf.drop p).takeWhile fun b => !isWs b).length

/-- The walk to the bracket that closes the root container. -/
def rootCloser (buf : Bytes) (depth : Int) (inStr : Bool) (closer : Nat) :
    List Nat → Rust ParseError Nat
  | [] => .ok closer
  | idx :: rest =>
      if idx = u32Max then .ok closer
      else do
        let b ← atIdx buf idx
        if b = 0x22 then rootCloser buf depth (!inStr) closer rest
        else if inStr then rootCloser buf depth inStr closer rest
        else if b = 0x7B ∨ b = 0x5B then rootCloser buf (depth + 1) inStr closer rest
        else if b = 0x7D ∨ b = 0x5D then
          if depth - 1 = 0 then .ok idx
          else rootCloser buf (depth - 1) inStr closer rest
        else rootCloser buf depth inStr closer rest

/-- `root_end`, for an index whose first entry is `first`. -/
def rootEnd (buf : Bytes) (indices : List Nat) (first : Nat) : Rust ParseError Nat := do
  let b ← atIdx buf first
  if b = 0x7B ∨ b = 0x5B then do
    let closer ← rootCloser buf 0 false first indices
    .ok (skipWs buf (closer + 1))
  else if b = 0x22 then
    .ok (skipWs buf (((indices.drop 1).find? (· ≠ u32Max)).getD first + 1))
  else
    .ok (skipWs buf ((indices.reverse.find? (· ≠ u32Max)).getD first + 1))

/-- `validate_trailing_with_offset`. -/
def validateTrailing (buf : Bytes) (indices : List Nat) : Rust ParseError Unit :=
  match indices.find? (· ≠ u32Max) with
  | none =>
      let start := skipWs buf 0
      let stop := skipInk buf start
      if start = stop then .ok ()
      else if skipWs buf stop < buf.length then
        fail ⟨.trailingContent, skipWs buf stop⟩
      else .ok ()
  | some first => do
      let stop ← rootEnd buf indices first
      if stop < buf.length then fail ⟨.trailingContent, stop⟩ else .ok ()

/-- The loop of `validate_depth_with_offset`.  The subtraction panics below zero, as where
overflow is checked; a release build wraps around. -/
def depthLoop (buf : Bytes) (maxDepth : Nat) (depth : Nat) :
    List Nat → Rust ParseError Unit
  | [] => .ok ()
  | idx :: rest =>
      if idx = u32Max then .ok ()
      else do
        let b ← atIdx buf idx
        if b = 0x7B ∨ b = 0x5B then
          if depth + 1 > maxDepth then fail ⟨.nestingTooDeep, idx⟩
          else depthLoop buf maxDepth (depth + 1) rest
        else if b = 0x7D ∨ b = 0x5D then
          if depth = 0 then .error .panic
          else depthLoop buf maxDepth (depth - 1) rest
        else depthLoop buf maxDepth depth rest

/-- `validate_depth_with_offset`. -/
def validateDepth (buf : Bytes) (indices : List Nat) (maxDepth : Nat) :
    Rust ParseError Unit :=
  depthLoop buf maxDepth 0 indices

/-! ## The end of the root value -/

section Trailing

variable {buf : Bytes} {marks : List Nat} {signs : Bytes}

/-- An index entry that is a byte of the buffer is not the sentinel. -/
theorem ne_u32Max_of_getElem? {i : Nat} {b : UInt8} (small : buf.length < u32Max)
    (byte : buf[i]? = some b) : i ≠ u32Max := by
  have := (List.getElem?_eq_some_iff.1 byte).1
  omega

theorem Kind.opener_cases (kind : Kind) :
    (kind.opener = 0x7B ∨ kind.opener = 0x5B) ∧ kind.opener ≠ 0x22 := by
  cases kind <;> decide

theorem Kind.closer_cases (kind : Kind) :
    (kind.closer = 0x7D ∨ kind.closer = 0x5D) ∧ kind.closer ≠ 0x22 ∧
      ¬ (kind.closer = 0x7B ∨ kind.closer = 0x5B) := by
  cases kind <;> decide

/-- Inside the root container the walk passes over balanced signs. -/
theorem rootCloser_balanced (small : buf.length < u32Max) (balanced : Balanced signs) :
    ∀ {marks : List Nat} {depth : Int} {closer : Nat} {rest : List Nat}, 0 < depth →
      Reads buf marks signs →
      rootCloser buf depth false closer (marks ++ rest) =
        rootCloser buf depth false closer rest := by
  induction balanced with
  | nil =>
      intro marks depth closer rest _ reads
      obtain rfl : marks = [] := by simpa using reads.length_eq
      rfl
  | @sep b signs sep _ ih =>
      intro marks depth closer rest positive reads
      obtain ⟨i, marks, rfl, byte, tail⟩ := exists_of_reads_cons reads
      rw [List.cons_append, rootCloser, if_neg (ne_u32Max_of_getElem? small byte),
        atIdx_of_getElem? byte, ok_bind]
      rcases sep with rfl | rfl <;> exact ih positive tail
  | @quotes signs _ ih =>
      intro marks depth closer rest positive reads
      obtain ⟨i, marks, rfl, opening, reads⟩ := exists_of_reads_cons reads
      obtain ⟨j, marks, rfl, closing, reads⟩ := exists_of_reads_cons reads
      rw [List.cons_append, List.cons_append, rootCloser,
        if_neg (ne_u32Max_of_getElem? small opening), atIdx_of_getElem? opening,
        ok_bind, if_pos rfl, rootCloser,
        if_neg (ne_u32Max_of_getElem? small closing), atIdx_of_getElem? closing,
        ok_bind, if_pos rfl]
      exact ih positive reads
  | @nest kind inner signs _ _ ihInner ih =>
      intro marks depth closer rest positive reads
      obtain ⟨i, left, j, marks, rfl, opening, readsInner, closing, reads⟩ :=
        reads_nest reads
      obtain ⟨opener, notQuote⟩ := Kind.opener_cases kind
      obtain ⟨closerByte, notQuote', notOpener⟩ := Kind.closer_cases kind
      have deeper : ¬ depth + 1 - 1 = 0 := by omega
      rw [List.cons_append, rootCloser, if_neg (ne_u32Max_of_getElem? small opening),
        atIdx_of_getElem? opening, ok_bind, if_neg notQuote, if_neg (by simp),
        if_pos opener, List.append_assoc, ihInner (by omega) readsInner,
        List.cons_append, rootCloser, if_neg (ne_u32Max_of_getElem? small closing),
        atIdx_of_getElem? closing, ok_bind, if_neg notQuote', if_neg (by simp),
        if_neg notOpener, if_pos closerByte, if_neg deeper, Int.add_sub_cancel]
      exact ih positive reads

theorem rootCloser_nest (small : buf.length < u32Max) (kind : Kind)
    (balanced : Balanced signs) {first last closer : Nat} {rest : List Nat}
    (opening : buf[first]? = some kind.opener) (reads : Reads buf marks signs)
    (closing : buf[last]? = some kind.closer) :
    rootCloser buf 0 false closer (first :: (marks ++ last :: rest)) = .ok last := by
  obtain ⟨opener, notQuote⟩ := Kind.opener_cases kind
  obtain ⟨closerByte, notQuote', notOpener⟩ := Kind.closer_cases kind
  rw [rootCloser, if_neg (ne_u32Max_of_getElem? small opening),
    atIdx_of_getElem? opening, ok_bind, if_neg notQuote, if_neg (by simp),
    if_pos opener, rootCloser_balanced small balanced (by omega) reads, rootCloser,
    if_neg (ne_u32Max_of_getElem? small closing), atIdx_of_getElem? closing, ok_bind,
    if_neg notQuote', if_neg (by simp), if_neg notOpener, if_pos closerByte, if_pos (by omega)]

/-- Behind the root value only whitespace is left to skip. -/
theorem skipWs_blank {front after : Bytes} (afterBlank : IsBlank after) {p : Nat}
    (at_ : p = front.length) : skipWs (front ++ after) p = (front ++ after).length := by
  subst at_
  have whole : after.takeWhile isWs = after :=
    List.takeWhile_eq_self_iff.2 afterBlank
  simp [skipWs, whole]

end Trailing

end QJson.Validate
