import Mathlib.Data.List.Basic
import Mathlib.Data.List.TakeWhile
import Mathlib.Tactic.Common

/-!
# Bytes and byte classes of RFC 8259

A JSON text is a finite list of bytes.  This module fixes the byte classes the
grammar speaks about (whitespace, structural characters, digits, hexadecimal
digits) and the two whitespace trims, with the decompositions later modules use
to cut a text at its first interesting byte.
-/

namespace QJson.Rfc8259

/-- A finite byte string. -/
abbrev Bytes := List UInt8

instance : LawfulBEq Bytes := inferInstance

/-- `ws` of RFC 8259 §2: space, horizontal tab, line feed, carriage return. -/
def isWs (b : UInt8) : Bool :=
  b == 0x20 || b == 0x09 || b == 0x0A || b == 0x0D

/-- The six structural characters of RFC 8259 §2. -/
def isStructural (b : UInt8) : Bool :=
  b == 0x7B || b == 0x7D || b == 0x5B || b == 0x5D || b == 0x3A || b == 0x2C

/-- A structural character or a quotation mark: the bytes a structural index
lists when they stand outside strings. -/
def isMark (b : UInt8) : Bool :=
  isStructural b || b == 0x22

/-- An ASCII decimal digit. -/
def isDigit (b : UInt8) : Bool :=
  0x30 ≤ b && b ≤ 0x39

/-- The value of a hexadecimal digit, in either case. -/
def hexVal (b : UInt8) : Option Nat :=
  if 0x30 ≤ b ∧ b ≤ 0x39 then some (b.toNat - 0x30)
  else if 0x61 ≤ b ∧ b ≤ 0x66 then some (b.toNat - 0x61 + 10)
  else if 0x41 ≤ b ∧ b ≤ 0x46 then some (b.toNat - 0x41 + 10)
  else none

/-- Every byte of the text is whitespace. -/
def IsBlank (text : Bytes) : Prop :=
  ∀ b ∈ text, isWs b = true

/-- No byte of the text is a structural character or a quotation mark. -/
def IsPlain (text : Bytes) : Prop :=
  ∀ b ∈ text, isMark b = false

instance (text : Bytes) : Decidable (IsBlank text) :=
  inferInstanceAs (Decidable (∀ b ∈ text, isWs b = true))

instance (text : Bytes) : Decidable (IsPlain text) :=
  inferInstanceAs (Decidable (∀ b ∈ text, isMark b = false))

@[simp] theorem isBlank_nil : IsBlank [] := by simp [IsBlank]

@[simp] theorem isBlank_cons (b : UInt8) (text : Bytes) :
    IsBlank (b :: text) ↔ isWs b = true ∧ IsBlank text := by
  simp [IsBlank]

@[simp] theorem isBlank_append (left right : Bytes) :
    IsBlank (left ++ right) ↔ IsBlank left ∧ IsBlank right := by
  simp [IsBlank, or_imp, forall_and]

@[simp] theorem isPlain_nil : IsPlain [] := by simp [IsPlain]

@[simp] theorem isPlain_cons (b : UInt8) (text : Bytes) :
    IsPlain (b :: text) ↔ isMark b = false ∧ IsPlain text := by
  simp [IsPlain]

@[simp] theorem isPlain_append (left right : Bytes) :
    IsPlain (left ++ right) ↔ IsPlain left ∧ IsPlain right := by
  simp [IsPlain, or_imp, forall_and]

theorem isWs_cases {b : UInt8} (ws : isWs b = true) :
    b = 0x20 ∨ b = 0x09 ∨ b = 0x0A ∨ b = 0x0D := by
  simpa [isWs, or_assoc] using ws

theorem isMark_cases {b : UInt8} (mark : isMark b = true) :
    b = 0x7B ∨ b = 0x7D ∨ b = 0x5B ∨ b = 0x5D ∨ b = 0x3A ∨ b = 0x2C ∨
      b = 0x22 := by
  simpa [isMark, isStructural, or_assoc] using mark

theorem isMark_of_isWs {b : UInt8} (ws : isWs b = true) : isMark b = false := by
  rcases isWs_cases ws with rfl | rfl | rfl | rfl <;> decide

theorem IsBlank.isPlain {text : Bytes} (blank : IsBlank text) : IsPlain text :=
  fun b member => isMark_of_isWs (blank b member)

/-! ## Trimming -/

/-- Drop leading whitespace. -/
def trimStart (text : Bytes) : Bytes := text.dropWhile isWs

/-- Drop trailing whitespace. -/
def trimEnd (text : Bytes) : Bytes := (text.reverse.dropWhile isWs).reverse

/-- Drop whitespace on both sides. -/
def trim (text : Bytes) : Bytes := trimEnd (trimStart text)

/-- A text is its leading whitespace followed by what `trimStart` keeps. -/
theorem takeWhile_append_trimStart (text : Bytes) :
    text.takeWhile isWs ++ trimStart text = text :=
  List.takeWhile_append_dropWhile

theorem isBlank_takeWhile (text : Bytes) : IsBlank (text.takeWhile isWs) :=
  fun _ member => List.mem_takeWhile_imp member

theorem trimStart_append_blank {blank text : Bytes} (isBlank : IsBlank blank) :
    trimStart (blank ++ text) = trimStart text := by
  induction blank with
  | nil => rfl
  | cons b blank ih =>
      obtain ⟨ws, rest⟩ := (isBlank_cons b blank).1 isBlank
      simpa [trimStart, ws] using ih rest

theorem trimStart_of_not_isWs {b : UInt8} {text : Bytes} (ink : isWs b = false) :
    trimStart (b :: text) = b :: text := by
  simp [trimStart, ink]

theorem trimEnd_append_blank {text blank : Bytes} (isBlank : IsBlank blank) :
    trimEnd (text ++ blank) = trimEnd text := by
  have reversed : IsBlank blank.reverse := fun b member =>
    isBlank b (List.mem_reverse.1 member)
  have dropped := @trimStart_append_blank _ text.reverse reversed
  simp only [trimStart] at dropped
  simp [trimEnd, dropped]

theorem trimEnd_concat_of_not_isWs {b : UInt8} {text : Bytes}
    (ink : isWs b = false) : trimEnd (text ++ [b]) = text ++ [b] := by
  simp [trimEnd, ink]

/-- What `trimEnd` drops is whitespace. -/
theorem exists_trimEnd_append (text : Bytes) :
    ∃ blank, IsBlank blank ∧ text = trimEnd text ++ blank := by
  refine ⟨(text.reverse.takeWhile isWs).reverse, ?_, ?_⟩
  · intro b member
    exact isBlank_takeWhile _ b (List.mem_reverse.1 member)
  · have split := congrArg List.reverse
      (takeWhile_append_trimStart text.reverse)
    rw [List.reverse_append, List.reverse_reverse] at split
    exact split.symm

/-- A text is blank, its trim, and blank again. -/
theorem exists_blank_trim_blank (text : Bytes) :
    ∃ before after, IsBlank before ∧ IsBlank after ∧
      text = before ++ trim text ++ after := by
  obtain ⟨after, afterBlank, split⟩ := exists_trimEnd_append (trimStart text)
  refine ⟨text.takeWhile isWs, after, isBlank_takeWhile text, afterBlank, ?_⟩
  calc
    text = text.takeWhile isWs ++ trimStart text :=
      (takeWhile_append_trimStart text).symm
    _ = text.takeWhile isWs ++ (trim text ++ after) := by
      rw [trim, ← split]
    _ = text.takeWhile isWs ++ trim text ++ after := by
      rw [List.append_assoc]

theorem trim_eq_nil_iff (text : Bytes) : trim text = [] ↔ IsBlank text := by
  constructor
  · intro empty
    obtain ⟨before, after, beforeBlank, afterBlank, split⟩ :=
      exists_blank_trim_blank text
    rw [split, empty]
    simp [beforeBlank, afterBlank]
  · intro blank
    have start := @trimStart_append_blank _ [] blank
    rw [List.append_nil] at start
    rw [trim, start]
    rfl

/-- Trimming a token that starts and ends with ink inside whitespace gives the
token back. -/
theorem trim_blank_token_blank {before token after : Bytes}
    (beforeBlank : IsBlank before) (afterBlank : IsBlank after)
    (ink : ∀ b ∈ token, isWs b = false) :
    trim (before ++ token ++ after) = token := by
  rw [List.append_assoc, trim, trimStart_append_blank beforeBlank]
  cases token with
  | nil =>
      have emptyTrim := (trim_eq_nil_iff after).2 afterBlank
      simpa [trim] using emptyTrim
  | cons b rest =>
      rw [List.cons_append, trimStart_of_not_isWs (ink b (by simp)),
        ← List.cons_append, trimEnd_append_blank afterBlank]
      obtain ⟨front, last, spelled⟩ :=
        List.eq_nil_or_concat (b :: rest) |>.resolve_left (by simp)
      rw [spelled, List.concat_eq_append]
      exact trimEnd_concat_of_not_isWs (ink last (by simp [spelled]))

/-! ## Cutting at the first mark -/

/-- A text is plain, or splits at its first mark. -/
theorem isPlain_or_exists_mark (text : Bytes) :
    IsPlain text ∨ ∃ gap b rest, text = gap ++ b :: rest ∧ IsPlain gap ∧
      isMark b = true := by
  induction text with
  | nil => simp
  | cons b rest ih =>
      cases mark : isMark b with
      | true => exact .inr ⟨[], b, rest, rfl, isPlain_nil, mark⟩
      | false =>
          rcases ih with plain | ⟨gap, c, tail, split, plain, markC⟩
          · exact .inl ((isPlain_cons b rest).2 ⟨mark, plain⟩)
          · refine .inr ⟨b :: gap, c, tail, by simp [split], ?_, markC⟩
            exact (isPlain_cons b gap).2 ⟨mark, plain⟩

/-- A text is cut where a class of bytes ends in one way only. -/
theorem cut_unique {α : Type} {p : α → Prop} {gap gap' rest rest' : List α}
    (inside : ∀ x ∈ gap, p x) (inside' : ∀ x ∈ gap', p x)
    (stops : ∀ x tail, rest = x :: tail → ¬ p x)
    (stops' : ∀ x tail, rest' = x :: tail → ¬ p x)
    (same : gap ++ rest = gap' ++ rest') : gap = gap' ∧ rest = rest' := by
  induction gap generalizing gap' with
  | nil =>
      cases gap' with
      | nil => exact ⟨rfl, same⟩
      | cons x gap' => exact absurd (inside' x List.mem_cons_self) (stops x _ same)
  | cons x gap ih =>
      cases gap' with
      | nil => exact absurd (inside x List.mem_cons_self) (stops' x _ same.symm)
      | cons y gap' =>
          obtain ⟨rfl, tails⟩ := List.cons.inj same
          obtain ⟨rfl, rests⟩ := ih (fun z member => inside z (List.mem_cons_of_mem x member))
            (fun z member => inside' z (List.mem_cons_of_mem x member)) tails
          exact ⟨rfl, rests⟩

theorem getElem?_at {front rest : Bytes} {b : UInt8} {i : Nat} (at_ : i = front.length) :
    (front ++ b :: rest)[i]? = some b := by
  subst at_
  simp

end QJson.Rfc8259
