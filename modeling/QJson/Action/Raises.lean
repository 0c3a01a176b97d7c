import QJson.Action.Basic

/-!
# What an action raises

`Wp` does not look at the error that is raised.  `Throws` does, and what it needs to know of
the states between two actions it takes from `Wp`.
-/

namespace QJson.Action

variable {σ ε α β : Type}

/-- Every error that an action raises is of a kind. -/
def Throws (kind : ε → Prop) (action : Action σ ε α) (s : σ) : Prop :=
  ∀ error s', action s = (.error error, s') → kind error

section Rules

variable {action : Action σ ε α} {next : α → Action σ ε β} {s : σ} {kind kind' : ε → Prop}

theorem throws_pure (v : α) : Throws kind (pure v : Action σ ε α) s := by
  intro error s' ran
  cases ran

theorem throws_get : Throws kind (get : Action σ ε σ) s := by
  intro error s' ran
  cases ran

theorem throws_modify (change : σ → σ) :
    Throws kind (modify change : Action σ ε Unit) s := by
  intro error s' ran
  cases ran

theorem throws_raise {error : ε} (good : kind error) :
    Throws kind (raise error : Action σ ε α) s := by
  intro other s' ran
  cases ran
  exact good

theorem Throws.mono (throws : Throws kind action s) (weaker : ∀ error, kind error → kind' error) :
    Throws kind' action s :=
  fun error s' ran => weaker error (throws error s' ran)

theorem Wp.throws {ok : α → σ → Prop} (wp : Wp action s ok fun _ => False) :
    Throws kind action s := by
  intro error s' ran
  unfold Wp at wp
  rw [ran] at wp
  exact wp.elim

theorem Throws.bind (first : Throws kind action s)
    (second : ∀ v s', action s = (.ok v, s') → Throws kind (next v) s') :
    Throws kind (action >>= next) s := by
  intro error s' ran
  rw [bind_apply] at ran
  rcases here : action s with ⟨result, between⟩
  rw [here] at ran
  cases result with
  | ok v => exact second v between here error s' ran
  | error raised =>
      obtain ⟨same, -⟩ := Prod.mk.inj ran
      exact Except.error.inj same ▸ first _ _ here

theorem Throws.bind_wp {ok : α → σ → Prop} {err : σ → Prop} (first : Throws kind action s)
    (wp : Wp action s ok err) (second : ∀ v s', ok v s' → Throws kind (next v) s') :
    Throws kind (action >>= next) s :=
  first.bind fun v s' ran => second v s' (wp.returned ran)

theorem throws_foldlM {body : β → α → Action σ ε β} (good : σ → Prop) {list : List α}
    (step : ∀ x ∈ list, ∀ acc s, good s → Throws kind (body acc x) s ∧
      Wp (body acc x) s (fun _ s' => good s') fun _ => True)
    {acc : β} {s : σ} (start : good s) : Throws kind (list.foldlM body acc) s := by
  induction list generalizing acc s with
  | nil => exact throws_pure acc
  | cons x rest ih =>
      obtain ⟨throws, kept⟩ := step x List.mem_cons_self acc s start
      rw [List.foldlM_cons]
      exact throws.bind_wp kept fun acc' s' good' =>
        ih (fun y member => step y (List.mem_cons_of_mem x member)) good'

theorem bind_of_error {error : ε} {s' : σ} (ran : action s = (.error error, s')) :
    (action >>= next) s = (.error error, s') := by
  rw [bind_apply, ran]

theorem bind_of_ok {v : α} {s' : σ} (ran : action s = (.ok v, s')) :
    (action >>= next) s = next v s' := by
  rw [bind_apply, ran]

end Rules

/-! ## Both ends at once -/

/-- What an action leads to: `ok` holds when it returns, `err` of the error that it raises. -/
def Outcome (action : Action σ ε α) (s : σ) (ok : α → σ → Prop) (err : ε → Prop) : Prop :=
  match action s with
  | (.ok value, s') => ok value s'
  | (.error error, _) => err error

section Outcome

variable {action : Action σ ε α} {next : α → Action σ ε β} {s : σ} {err err' : ε → Prop}
  {ok ok' : α → σ → Prop}

theorem outcome_pure {v : α} (good : ok v s) : Outcome (pure v) s ok err := good

theorem Wp.outcome {fails : σ → Prop} (wp : Wp action s ok fails) (throws : Throws err action s) :
    Outcome action s ok err := by
  unfold Outcome
  unfold Wp at wp
  rcases ran : action s with ⟨result, s'⟩
  rw [ran] at wp
  cases result with
  | ok v => exact wp
  | error error => exact throws error s' ran

theorem Outcome.wp (outcome : Outcome action s ok err) : Wp action s ok fun _ => True := by
  unfold Outcome at outcome
  unfold Wp
  rcases ran : action s with ⟨result, s'⟩
  rw [ran] at outcome
  cases result with
  | ok v => exact outcome
  | error error => trivial

theorem Outcome.cases (outcome : Outcome action s ok err) :
    (∃ v s', action s = (.ok v, s') ∧ ok v s') ∨ ∃ error s', action s = (.error error, s') ∧
      err error := by
  unfold Outcome at outcome
  rcases ran : action s with ⟨result, s'⟩
  rw [ran] at outcome
  cases result with
  | ok v => exact .inl ⟨v, s', rfl, outcome⟩
  | error error => exact .inr ⟨error, s', rfl, outcome⟩

theorem Outcome.mono (outcome : Outcome action s ok err) (returns : ∀ v s', ok v s' → ok' v s')
    (raises : ∀ error, err error → err' error) : Outcome action s ok' err' := by
  unfold Outcome at outcome ⊢
  rcases ran : action s with ⟨result, s'⟩
  rw [ran] at outcome
  cases result with
  | ok v => exact returns v s' outcome
  | error error => exact raises error outcome

theorem Outcome.bind {ok' : β → σ → Prop} (first : Outcome action s ok err)
    (second : ∀ v s', ok v s' → Outcome (next v) s' ok' err) :
    Outcome (action >>= next) s ok' err := by
  unfold Outcome at first
  rcases ran : action s with ⟨result, s'⟩
  rw [ran] at first
  cases result with
  | ok v =>
      have after := second v s' first
      unfold Outcome at after ⊢
      rwa [bind_of_ok ran]
  | error error =>
      unfold Outcome
      rwa [bind_of_error ran]

theorem outcome_get {next : σ → Action σ ε β} {ok' : β → σ → Prop}
    (rest : Outcome (next s) s ok' err) : Outcome (get >>= next) s ok' err :=
  rest

/-- A loop over a list, with an invariant that says what was worked off. -/
theorem outcome_foldlM {body : β → α → Action σ ε β} (good : List α → σ → Prop) {list : List α}
    (step : ∀ (done : List α) (x : α) (acc : β) (s : σ), x ∈ list → good done s →
      Outcome (body acc x) s (fun _ => good (done ++ [x])) err)
    {acc : β} {s : σ} (start : good [] s) :
    Outcome (list.foldlM body acc) s (fun _ => good list) err := by
  have from_ (done rest : List α) (inside : ∀ x ∈ rest, x ∈ list) (acc : β) (s : σ)
      (here : good done s) :
      Outcome (rest.foldlM body acc) s (fun _ => good (done ++ rest)) err := by
    induction rest generalizing done acc s with
    | nil =>
        rw [List.append_nil]
        exact here
    | cons x rest ih =>
        rw [List.foldlM_cons, List.append_cons]
        exact (step done x acc s (inside x List.mem_cons_self) here).bind fun acc' s' kept =>
          ih (done ++ [x]) (fun y member => inside y (List.mem_cons_of_mem x member)) acc' s' kept
  exact from_ [] list (fun _ => id) acc s start

theorem outcome_allM {test : α → Action σ ε Bool} (good : α → Prop) {list : List α}
    (step : ∀ x ∈ list, Outcome (test x) s (fun b s' => s' = s ∧ (b = true → good x)) err) :
    Outcome (list.allM test) s (fun b s' => s' = s ∧ (b = true → ∀ x ∈ list, good x)) err := by
  induction list with
  | nil => exact ⟨rfl, fun _ x none => nomatch none⟩
  | cons x rest ih =>
      refine (step x List.mem_cons_self).bind ?_
      rintro b s' ⟨rfl, first⟩
      cases b with
      | false => exact ⟨rfl, nofun⟩
      | true =>
          refine (ih fun y member => step y (List.mem_cons_of_mem x member)).mono ?_ fun _ => id
          rintro b s' ⟨same, later⟩
          refine ⟨same, fun all y member => ?_⟩
          rcases List.mem_cons.1 member with rfl | tail
          · exact first rfl
          · exact later all y tail

end Outcome

end QJson.Action
