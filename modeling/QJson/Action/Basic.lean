import Mathlib.Init

/-!
# Actions

A computation on a state that returns a value or raises an error.  The state stays either
way, as in a language whose errors can be caught.  What is said about an action is said by
`Wp`, one condition for each of the two ends, and there is one rule for each way to build
an action.
-/

namespace QJson

/-- A computation on a state that may raise an error. -/
def Action (σ ε α : Type) := σ → Except ε α × σ

namespace Action

variable {σ ε α β : Type}

instance : Monad (Action σ ε) where
  pure value := fun s => (.ok value, s)
  bind first next := fun s =>
    match first s with
    | (.ok value, s') => next value s'
    | (.error error, s') => (.error error, s')

/-- An error is raised. -/
def raise (error : ε) : Action σ ε α := fun s => (.error error, s)

/-- The state. -/
def get : Action σ ε σ := fun s => (.ok s, s)

/-- The state is changed. -/
def modify (change : σ → σ) : Action σ ε Unit := fun s => (.ok (), change s)

/-- What an action leads to: `ok` holds when it returns, `err` when it raises. -/
def Wp (action : Action σ ε α) (s : σ) (ok : α → σ → Prop) (err : σ → Prop) : Prop :=
  match action s with
  | (.ok value, s') => ok value s'
  | (.error _, s') => err s'

section Rules

variable {action : Action σ ε α} {next : α → Action σ ε β} {s : σ} {err : σ → Prop}

@[simp] theorem wp_pure {value : α} {ok : α → σ → Prop} :
    Wp (pure value : Action σ ε α) s ok err ↔ ok value s :=
  Iff.rfl

@[simp] theorem wp_raise {error : ε} {ok : α → σ → Prop} :
    Wp (raise error : Action σ ε α) s ok err ↔ err s :=
  Iff.rfl

@[simp] theorem wp_get {ok : σ → σ → Prop} : Wp (get : Action σ ε σ) s ok err ↔ ok s s :=
  Iff.rfl

@[simp] theorem wp_modify {change : σ → σ} {ok : Unit → σ → Prop} :
    Wp (modify change : Action σ ε Unit) s ok err ↔ ok () (change s) :=
  Iff.rfl

theorem bind_apply : (action >>= next) s = match action s with
    | (.ok value, s') => next value s'
    | (.error error, s') => (.error error, s') :=
  rfl

theorem get_bind {look : σ → Action σ ε β} : (get >>= look) s = look s s :=
  rfl

@[simp] theorem wp_bind {ok : β → σ → Prop} :
    Wp (action >>= next) s ok err ↔
      Wp action s (fun value s' => Wp (next value) s' ok err) err := by
  change (match (match action s with
      | (.ok value, s') => next value s'
      | (.error error, s') => (.error error, s') : Except ε β × σ) with
    | (.ok value, s') => ok value s'
    | (.error _, s') => err s') ↔ _
  unfold Wp
  rcases action s with ⟨result, s'⟩
  cases result <;> rfl

theorem Wp.mono {ok ok' : α → σ → Prop} {err' : σ → Prop} (wp : Wp action s ok err)
    (returns : ∀ value s', ok value s' → ok' value s') (raises : ∀ s', err s' → err' s') :
    Wp action s ok' err' := by
  unfold Wp at wp ⊢
  rcases ran : action s with ⟨result, s'⟩
  rw [ran] at wp
  cases result with
  | ok value => exact returns value s' wp
  | error error => exact raises s' wp

theorem Wp.and {ok ok' : α → σ → Prop} {err' : σ → Prop} (wp : Wp action s ok err)
    (wp' : Wp action s ok' err') :
    Wp action s (fun value s' => ok value s' ∧ ok' value s') fun s' => err s' ∧ err' s' := by
  unfold Wp at wp wp' ⊢
  rcases ran : action s with ⟨result, s'⟩
  rw [ran] at wp wp'
  cases result <;> exact ⟨wp, wp'⟩

theorem Wp.returned {ok : α → σ → Prop} (wp : Wp action s ok err) {value : α} {s' : σ}
    (ran : action s = (.ok value, s')) : ok value s' := by
  unfold Wp at wp
  rwa [ran] at wp

theorem Wp.exists_ok {ok : α → σ → Prop} (wp : Wp action s ok fun _ => False) :
    ∃ value s', action s = (.ok value, s') ∧ ok value s' := by
  unfold Wp at wp
  split at wp
  · rename_i ran
    exact ⟨_, _, ran, wp⟩
  · exact wp.elim

theorem Wp.state {good : σ → Prop} (wp : Wp action s (fun _ s' => good s') good) :
    good (action s).2 := by
  unfold Wp at wp
  split at wp <;> rename_i ran <;> rw [ran] <;> exact wp

end Rules

/-- A loop over a list keeps an invariant that says what was worked off. -/
theorem wp_foldlM_split {body : β → α → Action σ ε β} (good : List α → β → σ → Prop)
    {err : σ → Prop} {list : List α}
    (step : ∀ (done : List α) (x : α) (rest : List α) (acc : β) (s : σ),
      list = done ++ x :: rest → good done acc s →
      Wp (body acc x) s (good (done ++ [x])) err)
    {acc : β} {s : σ} (start : good [] acc s) : Wp (list.foldlM body acc) s (good list) err := by
  have from_ (done rest : List α) (split : list = done ++ rest) (acc : β) (s : σ)
      (here : good done acc s) : Wp (rest.foldlM body acc) s (good (done ++ rest)) err := by
    induction rest generalizing done acc s with
    | nil =>
        rw [List.foldlM_nil, wp_pure, List.append_nil]
        exact here
    | cons x rest ih =>
        rw [List.foldlM_cons, wp_bind]
        refine (step done x rest acc s split here).mono
          (fun acc' s' kept => ?_) fun _ failed => failed
        rw [List.append_cons]
        exact ih (done ++ [x]) (by rw [split, List.append_cons]) acc' s' kept
  exact from_ [] list rfl acc s start

theorem wp_foldlM {body : β → α → Action σ ε β} (good : List α → β → σ → Prop)
    {err : σ → Prop} {list : List α}
    (step : ∀ (done : List α) (x : α) (acc : β) (s : σ), x ∈ list → good done acc s →
      Wp (body acc x) s (good (done ++ [x])) err)
    {acc : β} {s : σ} (start : good [] acc s) : Wp (list.foldlM body acc) s (good list) err :=
  wp_foldlM_split good (fun done x _ acc s split => step done x acc s (by simp [split])) start

/-! ## Actions that read -/

/-- The state stays as it is, at both ends. -/
def Still (action : Action σ ε α) : Prop := ∀ s, Wp action s (fun _ s' => s' = s) (· = s)

theorem Still.bind {action : Action σ ε α} {next : α → Action σ ε β} (first : Still action)
    (second : ∀ v, Still (next v)) : Still (action >>= next) := by
  intro s
  rw [wp_bind]
  refine (first s).mono (fun v s' same => ?_) fun _ => id
  subst same
  exact second v s'

theorem still_pure (v : α) : Still (pure v : Action σ ε α) := fun _ => rfl

theorem still_raise (error : ε) : Still (raise error : Action σ ε α) := fun _ => rfl

theorem still_get : Still (get : Action σ ε σ) := fun _ => rfl

theorem still_allM {test : α → Action σ ε Bool} (step : ∀ x, Still (test x)) (list : List α) :
    Still (list.allM test) := by
  induction list with
  | nil => exact still_pure true
  | cons x rest ih =>
      refine (step x).bind fun b => ?_
      cases b with
      | true => exact ih
      | false => exact still_pure false

theorem wp_allM {test : α → Action σ ε Bool} (good : α → Prop) {list : List α} {s : σ}
    {err : σ → Prop}
    (step : ∀ x ∈ list, Wp (test x) s (fun b s' => s' = s ∧ (b = true ↔ good x)) err) :
    Wp (list.allM test) s (fun b s' => s' = s ∧ (b = true ↔ ∀ x ∈ list, good x)) err := by
  induction list with
  | nil => exact ⟨rfl, by simp⟩
  | cons x rest ih =>
      rw [List.allM, wp_bind]
      refine (step x List.mem_cons_self).mono ?_ fun _ => id
      rintro b s' ⟨rfl, first⟩
      cases b with
      | false => exact ⟨rfl, by simpa using fun good => absurd (first.2 good) (by simp)⟩
      | true =>
          refine (ih fun y member => step y (List.mem_cons_of_mem x member)).mono ?_ fun _ => id
          rintro b s' ⟨same, later⟩
          rw [List.forall_mem_cons]
          exact ⟨same, later.trans (and_iff_right (first.1 rfl)).symm⟩

/-! ## Actions that keep an invariant -/

/-- The invariant holds behind the action, at both ends, when it held in front of it. -/
def Preserves (good : σ → Prop) (action : Action σ ε α) : Prop :=
  ∀ s, good s → Wp action s (fun _ s' => good s') good

section Preserves

variable {good : σ → Prop}

theorem preserves_pure (v : α) : Preserves good (pure v : Action σ ε α) := fun _ => id

theorem preserves_raise (error : ε) : Preserves good (raise error : Action σ ε α) := fun _ => id

theorem preserves_get : Preserves good (get : Action σ ε σ) := fun _ => id

theorem preserves_modify {change : σ → σ} (kept : ∀ s, good s → good (change s)) :
    Preserves good (modify change : Action σ ε Unit) := kept

theorem Preserves.bind {action : Action σ ε α} {next : α → Action σ ε β}
    (first : Preserves good action) (second : ∀ v, Preserves good (next v)) :
    Preserves good (action >>= next) := by
  intro s kept
  rw [wp_bind]
  exact (first s kept).mono (fun v s' kept' => second v s' kept') fun _ => id

theorem Still.preserves {action : Action σ ε α} (still : Still action) :
    Preserves good action := by
  intro s kept
  refine (still s).mono (fun _ s' same => ?_) fun s' same => ?_ <;> exact same ▸ kept

theorem preserves_foldlM {body : β → α → Action σ ε β} (step : ∀ acc x, Preserves good (body acc x))
    (list : List α) (acc : β) : Preserves good (list.foldlM body acc) := by
  induction list generalizing acc with
  | nil => exact preserves_pure acc
  | cons x rest ih => exact (step acc x).bind ih

end Preserves

end Action

end QJson
