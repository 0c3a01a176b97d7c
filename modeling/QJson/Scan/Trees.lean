import QJson.Rfc8259.Layout
import QJson.Scan.Scalar

/-!
# The scalar scanner over parse trees

On the text of a parse tree the scanner pushes the marks of the tree and leaves
the bracket stack as it found it.
-/

namespace QJson.Scan

open Rfc8259

/-- A scan that pushes several positions first. -/
def ScanOut.pushAll (marks : List Nat) (scan : ScanOut) : ScanOut :=
  { scan with out := marks.map u32 ++ scan.out }

@[simp] theorem pushAll_nil (scan : ScanOut) : scan.pushAll [] = scan := rfl

@[simp] theorem pushAll_cons (i : Nat) (marks : List Nat) (scan : ScanOut) :
    scan.pushAll (i :: marks) = (scan.pushAll marks).push i := rfl

@[simp] theorem pushAll_append (left right : List Nat) (scan : ScanOut) :
    scan.pushAll (left ++ right) = (scan.pushAll right).pushAll left := by
  simp [ScanOut.pushAll]

section Trees

variable {len : Nat} {stack : List UInt8}

theorem scanFrom_opener (kind : Kind) (rest : Bytes) (i : Nat) :
    scanAndValidateFrom len (kind.opener :: rest) i false stack =
      (scanAndValidateFrom len rest (i + 1) false (kind.opener :: stack)).push i := by
  cases kind <;> simp [scanFrom_outside, Kind.opener]

/-- A closing bracket that matches is pushed. -/
theorem scanFrom_closer (kind : Kind) (rest : Bytes) (i : Nat) :
    scanAndValidateFrom len (kind.closer :: rest) i false (kind.opener :: stack) =
      (scanAndValidateFrom len rest (i + 1) false stack).push i := by
  cases kind <;> simp [scanFrom_outside, Kind.opener, Kind.closer]

theorem scanFrom_separator {b : UInt8} (sep : b = 0x2C ∨ b = 0x3A) (rest : Bytes)
    (i : Nat) :
    scanAndValidateFrom len (b :: rest) i false stack =
      (scanAndValidateFrom len rest (i + 1) false stack).push i := by
  rcases sep with rfl | rfl <;> simp [scanFrom_outside]

theorem scanFrom_name {kind : Kind} {name : Option Name} (valid : nameValid kind name)
    (rest : Bytes) (i : Nat) :
    scanAndValidateFrom len (nameText name ++ rest) i false stack =
      (scanAndValidateFrom len rest (i + (nameText name).length) false stack).pushAll
        (nameMarks i name) := by
  match kind, name, valid with
  | .arr, none, _ => simp [nameText, nameMarks]
  | .obj, some name, ⟨beforeBlank, body, afterBlank⟩ =>
      have split : nameText (some name) ++ rest = name.before ++ 0x22 :: (name.body ++
          0x22 :: (name.after ++ 0x3A :: rest)) := by simp [nameText, Name.render]
      rw [split, scanFrom_plain beforeBlank.isPlain, scanFrom_string body.isInert,
        scanFrom_plain afterBlank.isPlain, scanFrom_separator (.inr rfl)]
      simp only [nameMarks, nameText, Name.render, pushAll_cons, pushAll_nil]
      congr 4
      simp only [List.length_append, List.length_cons, List.length_nil]
      omega

mutual
/-- The scanner over the text of a value. -/
theorem Tree.scan (tree : Tree) (valid : tree.Valid) (stack : List UInt8) (rest : Bytes)
    (i : Nat) :
    scanAndValidateFrom len (tree.render ++ rest) i false stack =
      (scanAndValidateFrom len rest (i + tree.render.length) false stack).pushAll
        (tree.marks i) := by
  cases tree with
  | scalar token =>
      simp only [Tree.Valid] at valid
      exact scanFrom_plain fun b member => (valid.isInk b member).2.1
  | str body =>
      simp only [Tree.Valid] at valid
      have split : (Tree.str body).render ++ rest =
          0x22 :: (body ++ 0x22 :: rest) := by simp [Tree.render]
      rw [split, scanFrom_string valid.isInert]
      simp only [Tree.marks, Tree.render, pushAll_cons, pushAll_nil]
      congr 3
      simp only [List.length_append, List.length_cons, List.length_nil]
      omega
  | empty kind blank =>
      simp only [Tree.Valid] at valid
      have split : (Tree.empty kind blank).render ++ rest =
          kind.opener :: (blank ++ kind.closer :: rest) := by simp [Tree.render]
      rw [split, scanFrom_opener, scanFrom_plain valid.isPlain, scanFrom_closer]
      simp only [Tree.marks, Tree.render, pushAll_cons, pushAll_nil]
      congr 3
      simp only [List.length_append, List.length_cons, List.length_nil]
      omega
  | node kind entries =>
      simp only [Tree.Valid] at valid
      have split : (Rfc8259.Tree.node kind entries).render ++ rest =
          kind.opener :: (entries.render ++ kind.closer :: rest) := by
        simp [Tree.render]
      rw [split, scanFrom_opener, Entries.scan entries valid, scanFrom_closer]
      simp only [Tree.marks, Tree.render, pushAll_cons, pushAll_append, pushAll_nil]
      congr 4
      simp only [List.length_append, List.length_cons, List.length_nil]
      omega

/-- The scanner over the text between brackets. -/
theorem Entries.scan {kind : Kind} (entries : Entries) (valid : entries.Valid kind)
    (stack : List UInt8) (rest : Bytes) (i : Nat) :
    scanAndValidateFrom len (entries.render ++ rest) i false stack =
      (scanAndValidateFrom len rest (i + entries.render.length) false stack).pushAll
        (entries.marks i) := by
  cases entries with
  | last name before value after =>
      simp only [Entries.Valid] at valid
      obtain ⟨nameOk, beforeBlank, valueOk, afterBlank⟩ := valid
      simp only [Entries.render, List.append_assoc]
      rw [scanFrom_name nameOk, scanFrom_plain beforeBlank.isPlain,
        Tree.scan value valueOk, scanFrom_plain afterBlank.isPlain]
      simp only [Entries.marks, pushAll_append, valueStart]
      congr 3
      simp only [List.length_append]
      omega
  | more name before value after more =>
      simp only [Entries.Valid] at valid
      obtain ⟨nameOk, beforeBlank, valueOk, afterBlank, moreOk⟩ := valid
      simp only [Entries.render, List.append_assoc, List.cons_append]
      rw [scanFrom_name nameOk, scanFrom_plain beforeBlank.isPlain,
        Tree.scan value valueOk, scanFrom_plain afterBlank.isPlain,
        scanFrom_separator (.inl rfl), Entries.scan more moreOk]
      simp only [Entries.marks, pushAll_append, pushAll_cons, valueStart, separator]
      congr 5
      simp only [List.length_append, List.length_cons]
      omega
end

end Trees

/-- On a text of the grammar the scanner succeeds with the marks of the tree. -/
theorem scanAndValidate_parses {tree : Tree} {before after : Bytes} (valid : tree.Valid)
    (beforeBlank : IsBlank before) (afterBlank : IsBlank after)
    (small : (before ++ (tree.render ++ after)).length < 2 ^ 32) :
    scanAndValidate (before ++ (tree.render ++ after)) =
      ⟨tree.marks before.length, .ok ()⟩ := by
  have finish (i : Nat) : scanAndValidateFrom
      (before ++ (tree.render ++ after)).length after i false [] = ⟨[], .ok ()⟩ := by
    have scan := @scanFrom_plain ((before ++ (tree.render ++ after)).length) i [] _ []
      afterBlank.isPlain
    rw [List.append_nil] at scan
    rw [scan]
    simp [scanAndValidateFrom]
  have same : (tree.marks before.length).map u32 = tree.marks before.length := by
    refine (List.map_congr_left fun i member => ?_).trans (List.map_id _)
    have inside := tree.marks_lt before.length i member
    simp only [List.length_append] at small
    exact u32_of_lt (by omega)
  rw [scanAndValidate, scanFrom_plain beforeBlank.isPlain, Tree.scan tree valid, finish]
  simp [ScanOut.pushAll, same]

end QJson.Scan
