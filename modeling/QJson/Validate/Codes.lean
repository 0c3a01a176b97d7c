import QJson.Validate.Strings

/-!
# Where the string validator stops

Every span is a run of characters, and either ends with it or goes on with an element that
no character begins.  The validator steps over the run; its error code tells the first byte
of that element.
-/

namespace QJson.Validate

open Rfc8259

/-- No character begins at these bytes. -/
def Stuck (span : Bytes) : Prop :=
  ∀ piece tail, span = piece ++ tail → ¬ IsPiece piece

/-- A span is a run of characters up to its end, or up to an element that no character
begins. -/
theorem isSpan_or_stuck (span : Bytes) :
    IsSpan span ∨ ∃ done b rest, span = done ++ b :: rest ∧ IsSpan done ∧ Stuck (b :: rest) := by
  induction length : span.length using Nat.strong_induction_on generalizing span with
  | _ n ih =>
      subst length
      cases span with
      | nil => exact .inl .nil
      | cons b rest =>
          by_cases stuck : Stuck (b :: rest)
          · exact .inr ⟨[], b, rest, rfl, .nil, stuck⟩
          · simp only [Stuck, not_forall, not_not] at stuck
            obtain ⟨piece, tail, split, valid⟩ := stuck
            have shorter : tail.length < (b :: rest).length := by
              rw [split, List.length_append]
              have := List.length_pos_iff.2 valid.ne_nil
              omega
            rw [split]
            rcases ih tail.length shorter tail rfl with
              whole | ⟨done, c, left, rfl, run, stuck⟩
            · exact .inl (.cons valid whole)
            · exact .inr ⟨piece ++ done, c, left, (List.append_assoc ..).symm,
                .cons valid run, stuck⟩

/-- The validator steps over a run of characters. -/
theorem validateSpanScalar_append {done : Bytes} (run : IsSpan done) (rest : Bytes) :
    validateSpanScalar (done ++ rest) = validateSpanScalar rest := by
  induction run with
  | nil => rfl
  | cons piece _ ih => rw [List.append_assoc, validateSpanScalar_piece _ piece, ih]

/-! ## Error codes -/

theorem parseHex4From_error {v : Nat} {bytes : Bytes} {code : QjsonErr}
    (failed : parseHex4From v bytes = .error code) : code = .invalidString := by
  induction bytes generalizing v with
  | nil => cases failed
  | cons h rest ih =>
      rw [parseHex4From] at failed
      cases digit : hexVal h with
      | none =>
          rw [digit] at failed
          exact (Except.error.inj failed).symm
      | some d =>
          rw [digit] at failed
          exact ih failed

theorem validateLow_error {span : Bytes} {code : QjsonErr}
    (failed : validateLow span = .error code) : code = .invalidString := by
  unfold validateLow at failed
  split at failed
  · exact (Except.error.inj failed).symm
  · split at failed
    · rename_i digits
      exact Except.error.inj failed ▸ parseHex4From_error digits
    · split at failed
      · exact (Except.error.inj failed).symm
      · cases failed

/-- An escape fails with `QJSON_INVALID_STRING`. -/
theorem validateEscape_error {span : Bytes} {code : QjsonErr}
    (failed : validateEscape span = .error code) : code = .invalidString := by
  cases span with
  | nil => exact (Except.error.inj failed).symm
  | cons b rest =>
      rw [validateEscape] at failed
      split at failed
      · cases failed
      · split at failed
        · unfold validateUnicode at failed
          split at failed
          · exact (Except.error.inj failed).symm
          · split at failed
            · rename_i digits
              exact Except.error.inj failed ▸ parseHex4From_error digits
            · split at failed
              · exact validateLow_error failed
              · split at failed
                · exact (Except.error.inj failed).symm
                · cases failed
        · exact (Except.error.inj failed).symm

/-- A sequence fails with `QJSON_INVALID_UTF8`. -/
theorem validateUtf8Sequence_error {lead : UInt8} {rest : Bytes} {code : QjsonErr}
    (failed : validateUtf8Sequence lead rest = .error code) : code = .invalidUtf8 := by
  unfold validateUtf8Sequence at failed
  split at failed
  · unfold validateUtf8Two at failed
    split at failed
    · split at failed <;> cases failed
      rfl
    · exact (Except.error.inj failed).symm
  · split at failed
    · unfold validateUtf8Three at failed
      split at failed
      · split at failed
        · exact (Except.error.inj failed).symm
        · split at failed <;> cases failed
          rfl
      · exact (Except.error.inj failed).symm
    · split at failed
      · unfold validateUtf8Four at failed
        split at failed
        · split at failed
          · exact (Except.error.inj failed).symm
          · split at failed
            · exact (Except.error.inj failed).symm
            · split at failed <;> cases failed
              rfl
        · exact (Except.error.inj failed).symm
      · exact (Except.error.inj failed).symm

/-- At an element that no character begins the validator fails. -/
theorem validateSpanScalar_stuck {b : UInt8} {rest : Bytes} (stuck : Stuck (b :: rest)) :
    validateSpanScalar (b :: rest) =
      .error (if 0x80 ≤ b then .invalidUtf8 else .invalidString) := by
  rw [validateSpanScalar]
  by_cases ascii : b < 0x80
  · rw [if_pos ascii, if_neg (UInt8.not_le.2 ascii)]
    by_cases control : b < 0x20
    · rw [if_pos control]
    · rw [if_neg control]
      by_cases slash : b = 0x5C
      · rw [if_pos slash]
        split
        · rename_i failed
          rw [validateEscape_error failed]
        · rename_i left ok
          obtain ⟨piece, rfl, valid⟩ := validateEscape_ok ok
          exact absurd valid (stuck (0x5C :: piece) left (by rw [slash]; rfl))
      · exact absurd (.plain (UInt8.not_lt.1 control) ascii slash) (stuck [b] rest rfl)
  · rw [if_neg ascii, if_pos (UInt8.not_lt.1 ascii)]
    split
    · rename_i failed
      rw [validateUtf8Sequence_error failed]
    · rename_i left ok
      obtain ⟨piece, rfl, multi⟩ := validateUtf8Sequence_ok ok
      exact absurd (.utf8 multi) (stuck (b :: piece) left rfl)

/-- The validator accepts exactly the concatenations of characters, and otherwise fails
with a code that tells the first byte of the first element no character begins. -/
theorem validateSpanScalar_exact (span : Bytes) :
    (validateSpanScalar span = .ok () ↔ IsSpan span) ∧
      ∀ code, validateSpanScalar span = .error code ↔
        ∃ done b rest, span = done ++ b :: rest ∧ IsSpan done ∧ Stuck (b :: rest) ∧
          code = if 0x80 ≤ b then .invalidUtf8 else .invalidString := by
  refine ⟨validateSpanScalar_ok_iff span, fun code => ⟨fun failed => ?_, ?_⟩⟩
  · rcases isSpan_or_stuck span with whole | ⟨done, b, rest, rfl, run, stuck⟩
    · rw [(validateSpanScalar_ok_iff span).2 whole] at failed
      cases failed
    · rw [validateSpanScalar_append run, validateSpanScalar_stuck stuck] at failed
      exact ⟨done, b, rest, rfl, run, stuck, (Except.error.inj failed).symm⟩
  · rintro ⟨done, b, rest, rfl, run, stuck, rfl⟩
    rw [validateSpanScalar_append run, validateSpanScalar_stuck stuck]

end QJson.Validate
