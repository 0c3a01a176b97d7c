import QJson.Rfc8259.Token
import QJson.Source.Error

/-!
# Number validation

`src/validate/number.rs`.  The cursor `i` of `validate_number` only moves
forward, so each phase takes the bytes from `i` on and returns those after the
part it consumed.
-/

namespace QJson.Validate

open Rfc8259

/-- `while let Some(&c) = bytes.get(i) { if !c.is_ascii_digit() { break; } i += 1; }` -/
def skipDigits (rest : Bytes) : Bytes := rest.dropWhile isDigit

/-- `int`: a single zero, or a nonzero digit and the digits after it. -/
def numberInt : Bytes → Except QjsonErr Bytes
  | 0x30 :: rest => .ok rest
  | b :: rest =>
      if 0x31 ≤ b ∧ b ≤ 0x39 then .ok (skipDigits rest)
      else .error .invalidNumber
  | [] => .error .invalidNumber

/-- One or more digits: an error when `i` did not move. -/
def numberDigits (digits : Bytes) : Except QjsonErr Bytes :=
  if (skipDigits digits).length = digits.length then .error .invalidNumber
  else .ok (skipDigits digits)

/-- Optional `frac`. -/
def numberFrac (rest : Bytes) : Except QjsonErr Bytes :=
  if rest.head? = some 0x2E then numberDigits rest.tail else .ok rest

/-- The optional sign of an exponent, then its digits. -/
def numberSigned (signed : Bytes) : Except QjsonErr Bytes :=
  if signed.head? = some 0x2B ∨ signed.head? = some 0x2D then
    numberDigits signed.tail
  else numberDigits signed

/-- Optional `exp`. -/
def numberExp (rest : Bytes) : Except QjsonErr Bytes :=
  if rest.head? = some 0x65 ∨ rest.head? = some 0x45 then
    numberSigned rest.tail
  else .ok rest

/-- `validate_number`. -/
def validateNumber (bytes : Bytes) : Except QjsonErr Unit := do
  let rest := if bytes.head? = some 0x2D then bytes.tail else bytes
  let rest ← numberInt rest
  let rest ← numberFrac rest
  let rest ← numberExp rest
  if rest ≠ [] then .error .invalidNumber
  .ok ()

/-! ## The phases against the productions -/

/-- The next byte, if any, is not a digit: where a run of digits ends. -/
def StopsDigits (rest : Bytes) : Prop :=
  ∀ b, rest.head? = some b → isDigit b = false

theorem skipDigits_append {digits rest : Bytes}
    (all : ∀ d ∈ digits, isDigit d = true) (stops : StopsDigits rest) :
    skipDigits (digits ++ rest) = rest := by
  induction digits with
  | nil =>
      cases rest with
      | nil => rfl
      | cons b rest => simp [skipDigits, stops b rfl]
  | cons d digits ih =>
      have digit := all d (by simp)
      have tail := ih fun e member => all e (List.mem_cons_of_mem d member)
      simpa [skipDigits, digit] using tail

/-- What `skipDigits` leaves, and the digits it dropped. -/
theorem exists_digits_append_skipDigits (text : Bytes) :
    ∃ digits, (∀ d ∈ digits, isDigit d = true) ∧
      text = digits ++ skipDigits text :=
  ⟨text.takeWhile isDigit, fun _ member => List.mem_takeWhile_imp member,
    List.takeWhile_append_dropWhile.symm⟩

theorem numberDigits_append {digits rest : Bytes} (isDigits : IsDigits digits)
    (stops : StopsDigits rest) :
    numberDigits (digits ++ rest) = .ok rest := by
  have nonempty : digits.length ≠ 0 := by simpa using isDigits.1
  rw [numberDigits, skipDigits_append isDigits.2 stops, if_neg]
  simp only [List.length_append]
  omega

theorem exists_of_numberDigits {text rest : Bytes}
    (ok : numberDigits text = .ok rest) :
    ∃ digits, IsDigits digits ∧ text = digits ++ rest := by
  unfold numberDigits at ok
  split at ok
  · cases ok
  · rename_i moved
    injection ok with restEq
    obtain ⟨digits, all, split⟩ := exists_digits_append_skipDigits text
    rw [restEq] at split moved
    refine ⟨digits, ⟨?_, all⟩, split⟩
    rintro rfl
    exact moved (by rw [split, List.nil_append])

theorem numberInt_append {int rest : Bytes} (isInt : IsInt int)
    (stops : StopsDigits rest) : numberInt (int ++ rest) = .ok rest := by
  cases isInt with
  | zero => rfl
  | @nonzero b digits first notZero all =>
      have range : 0x31 ≤ b ∧ b ≤ 0x39 := by
        simp only [isDigit, Bool.and_eq_true, decide_eq_true_eq] at first
        refine ⟨?_, first.2⟩
        have low := UInt8.le_iff_toNat_le.1 first.1
        have distinct : b.toNat ≠ 0x30 := fun equal =>
          notZero (UInt8.toNat_inj.1 equal)
        exact UInt8.le_iff_toNat_le.2 (by simp at low ⊢; omega)
      rw [List.cons_append, numberInt, if_pos range, skipDigits_append all stops]
      exact notZero

theorem exists_of_numberInt {text rest : Bytes} (ok : numberInt text = .ok rest) :
    ∃ int, IsInt int ∧ text = int ++ rest := by
  unfold numberInt at ok
  split at ok
  · injection ok with restEq
    exact ⟨[0x30], .zero, by simp [restEq]⟩
  · rename_i b tail notZero
    split at ok
    · rename_i range
      injection ok with restEq
      obtain ⟨digits, all, split⟩ := exists_digits_append_skipDigits tail
      rw [restEq] at split
      refine ⟨b :: digits, .nonzero ?_ notZero all, by rw [List.cons_append, ← split]⟩
      have low : (0x30 : UInt8) ≤ b := UInt8.le_trans (by decide) range.1
      simp [isDigit, low, range.2]
    · cases ok
  · cases ok

theorem numberFrac_append {frac rest : Bytes} (isFrac : IsFrac frac)
    (stops : StopsDigits rest) (noDot : rest.head? ≠ some 0x2E) :
    numberFrac (frac ++ rest) = .ok rest := by
  cases isFrac with
  | none => simp [numberFrac, noDot]
  | some digits =>
      simpa [numberFrac] using numberDigits_append digits stops

theorem exists_of_numberFrac {text rest : Bytes}
    (ok : numberFrac text = .ok rest) :
    ∃ frac, IsFrac frac ∧ text = frac ++ rest := by
  unfold numberFrac at ok
  split at ok
  · rename_i dot
    obtain ⟨digits, isDigits, split⟩ := exists_of_numberDigits ok
    refine ⟨0x2E :: digits, .some isDigits, ?_⟩
    rw [List.cons_append, ← split]
    exact List.eq_cons_of_mem_head? dot |>.trans (by simp)
  · injection ok with restEq
    exact ⟨[], .none, by simp [restEq]⟩

theorem numberExp_of_isExp {exp : Bytes} (isExp : IsExp exp) :
    numberExp exp = .ok [] := by
  cases isExp with
  | none => simp [numberExp]
  | @some e sign digits letter isSign isDigits =>
      have parsed := @numberDigits_append _ [] isDigits (by simp [StopsDigits])
      rw [List.append_nil] at parsed
      have letterHead : some e = some 0x65 ∨ some e = some (0x45 : UInt8) := by
        simpa using letter
      simp only [numberExp, List.head?_cons, letterHead, if_true, List.tail_cons]
      cases isSign with
      | none =>
          rw [List.nil_append, numberSigned]
          split
          · rename_i signed
            have digitHead : ∀ b, digits.head? = some b → isDigit b = true :=
              fun b head => isDigits.2 b (List.mem_of_mem_head? head)
            rcases signed with head | head <;>
              exact absurd (digitHead _ head) (by decide)
          · exact parsed
      | plus => simpa [numberSigned] using parsed
      | minus => simpa [numberSigned] using parsed

theorem exists_of_numberExp {text : Bytes} (ok : numberExp text = .ok []) :
    IsExp text := by
  unfold numberExp at ok
  split at ok
  · rename_i letter
    obtain ⟨e, isLetter, headEq⟩ :
        ∃ e, (e = 0x65 ∨ e = 0x45) ∧ text = e :: text.tail := by
      rcases letter with head | head
      · exact ⟨_, .inl rfl, List.eq_cons_of_mem_head? head⟩
      · exact ⟨_, .inr rfl, List.eq_cons_of_mem_head? head⟩
    rw [headEq]
    unfold numberSigned at ok
    split at ok
    · rename_i signed
      obtain ⟨digits, isDigits, split⟩ := exists_of_numberDigits ok
      rw [List.append_nil] at split
      rcases signed with head | head
      · rw [List.eq_cons_of_mem_head? head, split]
        exact @IsExp.some _ [0x2B] _ isLetter .plus isDigits
      · rw [List.eq_cons_of_mem_head? head, split]
        exact @IsExp.some _ [0x2D] _ isLetter .minus isDigits
    · obtain ⟨digits, isDigits, split⟩ := exists_of_numberDigits ok
      rw [List.append_nil] at split
      rw [split]
      exact @IsExp.some _ [] _ isLetter .none isDigits
  · injection ok with restEq
    rw [restEq]
    exact .none

theorem IsExp.stopsDigits {exp : Bytes} (isExp : IsExp exp) :
    StopsDigits exp ∧ exp.head? ≠ some 0x2E := by
  cases isExp with
  | none => simp [StopsDigits]
  | some letter _ _ =>
      rcases letter with rfl | rfl <;> simp [StopsDigits] <;> decide

theorem IsFrac.stopsDigits_append {frac exp : Bytes} (isFrac : IsFrac frac)
    (isExp : IsExp exp) : StopsDigits (frac ++ exp) := by
  cases isFrac with
  | none => exact (IsExp.stopsDigits isExp).1
  | some _ => simp [StopsDigits]; decide

/-- Number validation accepts exactly the `number` production. -/
theorem validateNumber_ok_iff (bytes : Bytes) :
    validateNumber bytes = .ok () ↔ IsNumber bytes := by
  constructor
  · intro ok
    unfold validateNumber at ok
    obtain ⟨minus, isMinus, split⟩ : ∃ minus : Bytes,
        (minus = [] ∨ minus = [0x2D]) ∧
        bytes = minus ++
          (if bytes.head? = some 0x2D then bytes.tail else bytes) := by
      by_cases head : bytes.head? = some 0x2D
      · refine ⟨[0x2D], .inr rfl, ?_⟩
        rw [if_pos head]
        exact List.eq_cons_of_mem_head? head
      · exact ⟨[], .inl rfl, by rw [if_neg head, List.nil_append]⟩
    rw [split]
    generalize (if bytes.head? = some 0x2D then bytes.tail else bytes) = rest at ok
    simp only [bind, Except.bind] at ok
    split at ok
    · cases ok
    rename_i afterInt intOk
    split at ok
    · cases ok
    rename_i afterFrac fracOk
    split at ok
    · cases ok
    rename_i afterExp expOk
    split at ok
    · cases ok
    rename_i empty
    rw [ne_eq, not_not] at empty
    subst empty
    obtain ⟨int, isInt, rfl⟩ := exists_of_numberInt intOk
    obtain ⟨frac, isFrac, rfl⟩ := exists_of_numberFrac fracOk
    have isExp := exists_of_numberExp expOk
    simpa [List.append_assoc] using IsNumber.mk isMinus isInt isFrac isExp
  · rintro ⟨isMinus, isInt, isFrac, isExp⟩
    rename_i minus int frac exp
    have rest : (if (minus ++ int ++ frac ++ exp).head? = some 0x2D then
          (minus ++ int ++ frac ++ exp).tail else minus ++ int ++ frac ++ exp) =
        int ++ (frac ++ exp) := by
      rcases isMinus with rfl | rfl
      · rw [if_neg]
        · simp [List.append_assoc]
        · cases isInt with
          | zero => simp
          | nonzero first _ _ =>
              simp only [List.nil_append, List.cons_append, List.head?_cons,
                Option.some.injEq]
              rintro rfl
              exact absurd first (by decide)
      · simp [List.append_assoc]
    obtain ⟨stops, noDot⟩ := IsExp.stopsDigits isExp
    simp only [validateNumber, rest, bind, Except.bind,
      numberInt_append isInt (IsFrac.stopsDigits_append isFrac isExp),
      numberFrac_append isFrac stops noDot, numberExp_of_isExp isExp]
    rfl

/-- The only error of number validation. -/
theorem validateNumber_cases (bytes : Bytes) :
    validateNumber bytes = .ok () ∨ validateNumber bytes = .error .invalidNumber := by
  unfold validateNumber
  generalize (if bytes.head? = some 0x2D then bytes.tail else bytes) = rest
  have digits : ∀ text, (∃ r, numberDigits text = .ok r) ∨
      numberDigits text = .error .invalidNumber := by
    intro text
    unfold numberDigits
    split <;> simp
  simp only [bind, Except.bind]
  have int : (∃ r, numberInt rest = .ok r) ∨
      numberInt rest = .error .invalidNumber := by
    unfold numberInt
    split
    · simp
    · split <;> simp
    · simp
  rcases int with ⟨afterInt, intOk⟩ | failed
  · have frac : (∃ r, numberFrac afterInt = .ok r) ∨
        numberFrac afterInt = .error .invalidNumber := by
      unfold numberFrac
      split
      · exact digits _
      · simp
    rcases frac with ⟨afterFrac, fracOk⟩ | failed
    · have exp : (∃ r, numberExp afterFrac = .ok r) ∨
          numberExp afterFrac = .error .invalidNumber := by
        unfold numberExp
        split
        · unfold numberSigned
          split <;> exact digits _
        · simp
      rcases exp with ⟨afterExp, expOk⟩ | failed
      · simp only [intOk, fracOk, expOk]
        split
        · exact .inr rfl
        · exact .inl rfl
      · exact .inr (by simp only [intOk, fracOk, failed])
    · exact .inr (by simp only [intOk, failed])
  · exact .inr (by simp only [failed])

/-- Number validation accepts the `number` production and nothing else, and refuses with one
code. -/
theorem validateNumber_exact (bytes : Bytes) :
    (validateNumber bytes = .ok () ↔ IsNumber bytes) ∧
      (validateNumber bytes = .error .invalidNumber ↔ ¬ IsNumber bytes) := by
  refine ⟨validateNumber_ok_iff bytes, ?_⟩
  rw [← validateNumber_ok_iff]
  rcases validateNumber_cases bytes with accepted | refused
  · rw [accepted]
    exact iff_of_false nofun fun refused => refused rfl
  · rw [refused]
    exact iff_of_true rfl nofun

end QJson.Validate
