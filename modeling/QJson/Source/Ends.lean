import QJson.Source.Error

/-!
# How a call ends

`Ends good fair outcome` says that what a call returns is `good` and that the error it fails
with is `fair`; it says nothing about panics, which are the subject of `Calm`.  Like calmness
it is proved along the definition of a function.
-/

namespace QJson

variable {ε δ α β : Type}

/-- A value that the call returns is good, an error it fails with is fair. -/
def Ends (good : α → Prop) (fair : ε → Prop) : Rust ε α → Prop
  | .ok value => good value
  | .error (.err error) => fair error
  | .error .panic => True

section Rules

variable {good : α → Prop} {good' : β → Prop} {fair : ε → Prop}

@[simp] theorem ends_ok (value : α) : Ends good fair (.ok value : Rust ε α) ↔ good value := Iff.rfl

@[simp] theorem ends_err (error : ε) :
    Ends good fair (.error (.err error) : Rust ε α) ↔ fair error := Iff.rfl

@[simp] theorem ends_panic : Ends good fair (.error .panic : Rust ε α) := trivial

@[simp] theorem ends_fail (error : ε) : Ends good fair (fail error : Rust ε α) ↔ fair error :=
  Iff.rfl

theorem Ends.bind {outcome : Rust ε α} {f : α → Rust ε β} (first : Ends good fair outcome)
    (then_ : ∀ value, good value → Ends good' fair (f value)) :
    Ends good' fair (outcome >>= f) := by
  cases outcome with
  | ok value => exact then_ value first
  | error fault =>
      cases fault with
      | err error => exact first
      | panic => trivial

/-- A sequence whose first part may return anything. -/
theorem Ends.then {outcome : Rust ε α} {f : α → Rust ε β}
    (first : Ends (fun _ => True) fair outcome) (then_ : ∀ value, Ends good' fair (f value)) :
    Ends good' fair (outcome >>= f) :=
  first.bind fun value _ => then_ value

theorem Ends.mono {good good' : α → Prop} {fair fair' : ε → Prop} {outcome : Rust ε α}
    (ends : Ends good fair outcome) (values : ∀ value, good value → good' value)
    (errors : ∀ error, fair error → fair' error) : Ends good' fair' outcome := by
  cases outcome with
  | ok value => exact values value ends
  | error fault =>
      cases fault with
      | err error => exact errors error ends
      | panic => trivial

theorem Ends.mapErr {fair : δ → Prop} {f : ε → δ} {outcome : Rust ε α}
    (ends : Ends good (fun error => fair (f error)) outcome) :
    Ends good fair (mapErr f outcome) := by
  cases outcome with
  | ok value => exact ends
  | error fault =>
      cases fault with
      | err error => exact ends
      | panic => trivial

theorem ends_okOr {error : ε} {value? : Option α} (refused : fair error)
    (returns : ∀ value, value? = some value → good value) :
    Ends good fair (okOr error value?) := by
  cases value? with
  | none => exact refused
  | some value => exact returns value rfl

theorem ends_toRust {result : Except ε α} (returns : ∀ value, result = .ok value → good value)
    (fails : ∀ error, result = .error error → fair error) :
    Ends good fair (toRust result) := by
  cases result with
  | ok value => exact returns value rfl
  | error error => exact fails error rfl

theorem Ends.of_ok {outcome : Rust ε α} {value : α} (ends : Ends good fair outcome)
    (ok : outcome = .ok value) : good value := by
  rw [ok] at ends
  exact ends

theorem Ends.of_err {outcome : Rust ε α} {error : ε} (ends : Ends good fair outcome)
    (failed : outcome = .error (.err error)) : fair error := by
  rw [failed] at ends
  exact ends

end Rules

end QJson
