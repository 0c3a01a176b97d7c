import Mathlib.Data.List.Basic
import QJson.Rfc8259.Token

/-!
# UTF-8 and characters

The multi-byte sequences of RFC 3629 are the encodings of the characters from `U+0080` on,
and a text is valid UTF-8 when it is the encoding of a list of characters.
-/

namespace QJson.Rfc8259

/-- Valid UTF-8: the encoding of a list of characters. -/
def IsUtf8 (text : Bytes) : Prop :=
  ∃ chars : List Char, text = chars.flatMap String.utf8EncodeChar

theorem IsUtf8.nil : IsUtf8 [] := ⟨[], rfl⟩

theorem isUtf8_encode (c : Char) : IsUtf8 (String.utf8EncodeChar c) := ⟨[c], by simp⟩

theorem IsUtf8.append {left right : Bytes} (validLeft : IsUtf8 left)
    (validRight : IsUtf8 right) : IsUtf8 (left ++ right) := by
  obtain ⟨chars, rfl⟩ := validLeft
  obtain ⟨others, rfl⟩ := validRight
  exact ⟨chars ++ others, by simp⟩

/-- The number of a character made from a scalar value. -/
theorem toNat_ofNat {v : Nat} (scalar : v.isValidChar) : (Char.ofNat v).val.toNat = v := by
  rw [Char.ofNat, dif_pos scalar]
  rfl

/-- Scalar values: everything up to `U+10FFFF` that is no surrogate. -/
theorem isValidChar_iff {v : Nat} :
    v.isValidChar ↔ v < 0xD800 ∨ 0xDFFF < v ∧ v < 0x110000 := Iff.rfl

/-- A byte made from a number, compared with a byte. -/
theorem le_ofNat {b : UInt8} {v : Nat} (small : v < 256) : b ≤ UInt8.ofNat v ↔ b.toNat ≤ v := by
  rw [UInt8.le_iff_toNat_le, UInt8.toNat_ofNat', Nat.mod_eq_of_lt small]

theorem ofNat_le {b : UInt8} {v : Nat} (small : v < 256) : UInt8.ofNat v ≤ b ↔ v ≤ b.toNat := by
  rw [UInt8.le_iff_toNat_le, UInt8.toNat_ofNat', Nat.mod_eq_of_lt small]

/-- A byte of six payload bits is a continuation byte. -/
theorem isTail_ofNat (v : Nat) : IsTail (UInt8.ofNat (v % 64 + 0x80)) := by
  have small : v % 64 + 0x80 < 256 := by omega
  refine ⟨(le_ofNat small).2 ?_, (ofNat_le small).2 ?_⟩
  · change 0x80 ≤ _
    omega
  · change _ ≤ 0xBF
    omega

/-! ## The encoding of a character -/

/-- From `U+0080` on a character is encoded as a multi-byte sequence. -/
theorem isUtf8Multi_encode (c : Char) (high : 0x80 ≤ c.val.toNat) :
    IsUtf8Multi (String.utf8EncodeChar c) := by
  have scalar : c.val.toNat < 0xD800 ∨ 0xDFFF < c.val.toNat ∧ c.val.toNat < 0x110000 :=
    isValidChar_iff.1 c.valid
  unfold String.utf8EncodeChar
  generalize c.val.toNat = v at high scalar
  simp only
  rw [if_neg (by omega)]
  by_cases two : v ≤ 0x7ff
  · rw [if_pos two]
    have byte : v / 64 % 0x20 + 0xc0 < 256 := by omega
    refine .two ((le_ofNat byte).2 ?_) ((ofNat_le byte).2 ?_) (isTail_ofNat v)
    · change 0xC2 ≤ _
      omega
    · change _ ≤ 0xDF
      omega
  rw [if_neg two]
  by_cases three : v ≤ 0xffff
  · rw [if_pos three]
    have byte : v / 4096 % 0x10 + 0xe0 < 256 := by omega
    have second : v / 64 % 0x40 + 0x80 < 256 := by omega
    by_cases first : v / 4096 = 0
    · rw [first]
      refine .e0 ((le_ofNat second).2 ?_) ((ofNat_le second).2 ?_) (isTail_ofNat v)
      · change 0xA0 ≤ _
        omega
      · change _ ≤ 0xBF
        omega
    by_cases last : v / 4096 = 13
    · rw [last]
      refine .ed ((le_ofNat second).2 ?_) ((ofNat_le second).2 ?_) (isTail_ofNat v)
      · change 0x80 ≤ _
        omega
      · change _ ≤ 0x9F
        omega
    refine .three ((le_ofNat byte).2 ?_) ((ofNat_le byte).2 ?_) ?_ (isTail_ofNat _)
      (isTail_ofNat v)
    · change 0xE1 ≤ _
      omega
    · change _ ≤ 0xEF
      omega
    · intro same
      have same := congrArg UInt8.toNat same
      rw [UInt8.toNat_ofNat', Nat.mod_eq_of_lt byte] at same
      change _ = 0xED at same
      omega
  · rw [if_neg three]
    have byte : v / 262144 % 0x08 + 0xf0 < 256 := by omega
    have second : v / 4096 % 0x40 + 0x80 < 256 := by omega
    by_cases first : v / 262144 = 0
    · rw [first]
      refine .f0 ((le_ofNat second).2 ?_) ((ofNat_le second).2 ?_) (isTail_ofNat _)
        (isTail_ofNat v)
      · change 0x90 ≤ _
        omega
      · change _ ≤ 0xBF
        omega
    by_cases last : v / 262144 = 4
    · rw [last]
      refine .f4 ((le_ofNat second).2 ?_) ((ofNat_le second).2 ?_) (isTail_ofNat _)
        (isTail_ofNat v)
      · change 0x80 ≤ _
        omega
      · change _ ≤ 0x8F
        omega
    refine .four ((le_ofNat byte).2 ?_) ((ofNat_le byte).2 ?_) (isTail_ofNat _)
      (isTail_ofNat _) (isTail_ofNat v)
    · change 0xF1 ≤ _
      omega
    · change _ ≤ 0xF3
      omega

/-- A continuation byte is `0x80` and six payload bits. -/
theorem IsTail.bounds {b : UInt8} (tail : IsTail b) : 0x80 ≤ b.toNat ∧ b.toNat ≤ 0xBF :=
  ⟨UInt8.le_iff_toNat_le.1 tail.1, UInt8.le_iff_toNat_le.1 tail.2⟩

theorem eq_ofNat {b : UInt8} {v : Nat} (same : b.toNat = v) : b = UInt8.ofNat v := by
  rw [← same, UInt8.ofNat_toNat]

theorem encode_two {a b : UInt8} (lead : 0xC2 ≤ a.toNat ∧ a.toNat ≤ 0xDF) (tail : IsTail b) :
    ∃ c : Char, 0x80 ≤ c.val.toNat ∧ [a, b] = String.utf8EncodeChar c := by
  have bounds := tail.bounds
  have scalar : ((a.toNat - 0xC0) * 64 + (b.toNat - 0x80)).isValidChar :=
    isValidChar_iff.2 (.inl (by omega))
  have value := toNat_ofNat scalar
  refine ⟨Char.ofNat _, by rw [value]; omega, ?_⟩
  unfold String.utf8EncodeChar
  simp only [value]
  rw [if_neg (by omega), if_pos (by omega), ← @eq_ofNat a _ (by omega),
    ← @eq_ofNat b _ (by omega)]

/-- Three bytes are the encoding of their payload, if it is no shorter character and no
surrogate. -/
theorem encode_three {a b c : UInt8} (lead : 0xE0 ≤ a.toNat ∧ a.toNat ≤ 0xEF)
    (tailB : IsTail b) (tailC : IsTail c) (long : a.toNat = 0xE0 → 0xA0 ≤ b.toNat)
    (noSurrogate : a.toNat = 0xED → b.toNat ≤ 0x9F) :
    ∃ char : Char, 0x80 ≤ char.val.toNat ∧ [a, b, c] = String.utf8EncodeChar char := by
  have boundsB := tailB.bounds
  have boundsC := tailC.bounds
  have scalar : ((a.toNat - 0xE0) * 4096 + (b.toNat - 0x80) * 64 +
      (c.toNat - 0x80)).isValidChar := isValidChar_iff.2 (by omega)
  have value := toNat_ofNat scalar
  refine ⟨Char.ofNat _, by rw [value]; omega, ?_⟩
  unfold String.utf8EncodeChar
  simp only [value]
  rw [if_neg (by omega), if_neg (by omega), if_pos (by omega), ← @eq_ofNat a _ (by omega),
    ← @eq_ofNat b _ (by omega), ← @eq_ofNat c _ (by omega)]

/-- Four bytes are the encoding of their payload, if it is no shorter character and none
above `U+10FFFF`. -/
theorem encode_four {a b c d : UInt8} (lead : 0xF0 ≤ a.toNat ∧ a.toNat ≤ 0xF4)
    (tailB : IsTail b) (tailC : IsTail c) (tailD : IsTail d)
    (long : a.toNat = 0xF0 → 0x90 ≤ b.toNat) (below : a.toNat = 0xF4 → b.toNat ≤ 0x8F) :
    ∃ char : Char, 0x80 ≤ char.val.toNat ∧ [a, b, c, d] = String.utf8EncodeChar char := by
  have boundsB := tailB.bounds
  have boundsC := tailC.bounds
  have boundsD := tailD.bounds
  have scalar : ((a.toNat - 0xF0) * 262144 + (b.toNat - 0x80) * 4096 +
      (c.toNat - 0x80) * 64 + (d.toNat - 0x80)).isValidChar := isValidChar_iff.2 (by omega)
  have value := toNat_ofNat scalar
  refine ⟨Char.ofNat _, by rw [value]; omega, ?_⟩
  unfold String.utf8EncodeChar
  simp only [value]
  rw [if_neg (by omega), if_neg (by omega), if_neg (by omega), ← @eq_ofNat a _ (by omega),
    ← @eq_ofNat b _ (by omega), ← @eq_ofNat c _ (by omega), ← @eq_ofNat d _ (by omega)]

/-- The multi-byte sequences are the encodings of the characters from `U+0080` on. -/
theorem isUtf8Multi_iff (text : Bytes) :
    IsUtf8Multi text ↔
      ∃ c : Char, 0x80 ≤ c.val.toNat ∧ text = String.utf8EncodeChar c := by
  constructor
  · intro multi
    have num {low high : UInt8} (le : low ≤ high) : low.toNat ≤ high.toNat :=
      UInt8.le_iff_toNat_le.1 le
    cases multi with
    | two low high tail => exact encode_two ⟨num low, num high⟩ tail
    | e0 low high tail =>
        exact encode_three (by decide) ⟨UInt8.le_trans (by decide) low, high⟩ tail
          (fun _ => num low) nofun
    | ed low high tail =>
        exact encode_three (by decide) ⟨low, UInt8.le_trans high (by decide)⟩ tail
          nofun fun _ => num high
    | @three a b c low high notED tailB tailC =>
        have above : 0xE1 ≤ a.toNat := num low
        refine encode_three ⟨by omega, num high⟩ tailB tailC (fun same => by omega)
          fun same => absurd (UInt8.toNat_inj.1 same) notED
    | f0 low high tailC tailD =>
        exact encode_four (by decide) ⟨UInt8.le_trans (by decide) low, high⟩ tailC tailD
          (fun _ => num low) nofun
    | f4 low high tailC tailD =>
        exact encode_four (by decide) ⟨low, UInt8.le_trans high (by decide)⟩ tailC tailD
          nofun fun _ => num high
    | @four a b c d low high tailB tailC tailD =>
        have above : 0xF1 ≤ a.toNat := num low
        have below : a.toNat ≤ 0xF3 := num high
        exact encode_four ⟨by omega, by omega⟩ tailB tailC tailD (fun same => by omega)
          fun same => by omega
  · rintro ⟨c, high, rfl⟩
    exact isUtf8Multi_encode c high

theorem IsUtf8Multi.isUtf8 {text : Bytes} (multi : IsUtf8Multi text) : IsUtf8 text := by
  obtain ⟨c, -, rfl⟩ := (isUtf8Multi_iff text).1 multi
  exact isUtf8_encode c

/-- A character below `U+0080` is encoded as itself. -/
theorem encode_ascii {b : UInt8} (ascii : b < 0x80) :
    String.utf8EncodeChar (Char.ofNat b.toNat) = [b] := by
  have small : b.toNat < 0x80 := UInt8.lt_iff_toNat_lt.1 ascii
  have value := toNat_ofNat (isValidChar_iff.2 (.inl (small.trans (by decide))))
  unfold String.utf8EncodeChar
  simp only [value]
  rw [if_pos (by omega), UInt8.ofNat_toNat]

theorem isUtf8_ascii {b : UInt8} (ascii : b < 0x80) : IsUtf8 [b] :=
  encode_ascii ascii ▸ isUtf8_encode _

end QJson.Rfc8259
