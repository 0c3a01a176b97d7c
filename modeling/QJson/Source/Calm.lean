import QJson.Source.Error

/-!
# Outcomes without a panic

`Calm good outcome` says that a call does not panic and that what it returns is
`good`.  A sequence of calls is calm when each of its parts is, so that absence of
panics is proved along the definition of a function.
-/

namespace QJson

variable {ε δ α β : Type}

/-- The call does not panic, and a value it returns is good. -/
def Calm (good : α → Prop) : Rust ε α → Prop
  | .ok value => good value
  | .error (.err _) => True
  | .error .panic => False

section Rules

variable {good : α → Prop} {good' : β → Prop}

@[simp] theorem calm_ok (value : α) : Calm good (.ok value : Rust ε α) ↔ good value := Iff.rfl

@[simp] theorem calm_err (error : ε) : Calm good (.error (.err error) : Rust ε α) := trivial

@[simp] theorem not_calm_panic : ¬ Calm good (.error .panic : Rust ε α) := id

@[simp] theorem calm_fail (error : ε) : Calm good (fail error : Rust ε α) := trivial

theorem Calm.bind {outcome : Rust ε α} {f : α → Rust ε β} (first : Calm good outcome)
    (then_ : ∀ value, good value → Calm good' (f value)) : Calm good' (outcome >>= f) := by
  cases outcome with
  | ok value => exact then_ value first
  | error fault =>
      cases fault with
      | err error => trivial
      | panic => exact first.elim

theorem Calm.mono {good good' : α → Prop} {outcome : Rust ε α} (calm : Calm good outcome)
    (implies : ∀ value, good value → good' value) : Calm good' outcome := by
  cases outcome with
  | ok value => exact implies value calm
  | error fault =>
      cases fault with
      | err error => trivial
      | panic => exact calm.elim

theorem Calm.mapErr {f : ε → δ} {outcome : Rust ε α} (calm : Calm good outcome) :
    Calm good (mapErr f outcome) := by
  cases outcome with
  | ok value => exact calm
  | error fault =>
      cases fault with
      | err error => trivial
      | panic => exact calm.elim

theorem Calm.of_ok {outcome : Rust ε α} {value : α} (calm : Calm good outcome)
    (ok : outcome = .ok value) : good value := by
  rw [ok] at calm
  exact calm

theorem Calm.returns {outcome : Rust ε α} (calm : Calm good outcome) :
    Calm (fun value => outcome = .ok value ∧ good value) outcome := by
  cases outcome with
  | ok value => exact ⟨rfl, calm⟩
  | error fault =>
      cases fault with
      | err error => trivial
      | panic => exact calm.elim

theorem calm_true_iff {outcome : Rust ε α} :
    Calm (fun _ => True) outcome ↔ outcome ≠ .error .panic := by
  rcases outcome with (_ | _) | _ <;> simp [Calm]

theorem calm_okOr {error : ε} {value? : Option α}
    (returns : ∀ value, value? = some value → good value) :
    Calm good (okOr error value?) := by
  cases value? with
  | none => trivial
  | some value => exact returns value rfl

theorem calm_toRust {result : Except ε α} (returns : ∀ value, result = .ok value → good value) :
    Calm good (toRust result) := by
  cases result with
  | ok value => exact returns value rfl
  | error error => trivial

end Rules

theorem calm_atIdx {list : List α} {i : Nat} (inside : i < list.length) :
    Calm (fun value => list[i]? = some value) (atIdx list i : Rust ε α) := by
  rw [atIdx_of_getElem? (List.getElem?_eq_getElem inside)]
  exact List.getElem?_eq_getElem inside

end QJson
