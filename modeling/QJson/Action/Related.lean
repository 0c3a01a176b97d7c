import QJson.Action.Basic

/-!
# Two runs side by side

A relation between two states is kept by two actions when both return, with results that are
related as well, or both raise the same error.  As with `Wp` there is one rule for each way to
build an action.
-/

namespace QJson.Action

variable {σ ε α α' β β' γ : Type}

/-- Two runs came to the same end: both returned, or both raised the same error. -/
def SameEnd (rel : σ → σ → Prop) (good : α → α' → Prop) :
    Except ε α × σ → Except ε α' × σ → Prop
  | (.ok v, t), (.ok v', t') => good v v' ∧ rel t t'
  | (.error error, t), (.error error', t') => error = error' ∧ rel t t'
  | _, _ => False

/-- Two runs from related states come to the same end, in related states. -/
def Related (rel : σ → σ → Prop) (good : α → α' → Prop) (left : Action σ ε α)
    (right : Action σ ε α') : Prop :=
  ∀ s s', rel s s' → SameEnd rel good (left s) (right s')

section Rules

variable {rel : σ → σ → Prop} {good : α → α' → Prop} {left : Action σ ε α}
  {right : Action σ ε α'}

theorem related_pure {v : α} {v' : α'} (same : good v v') :
    Related rel good (pure v : Action σ ε α) (pure v') := by
  intro s s' twins
  exact ⟨same, twins⟩

theorem related_raise (error : ε) :
    Related rel good (raise error : Action σ ε α) (raise error) := by
  intro s s' twins
  exact ⟨rfl, twins⟩

theorem related_modify {change change' : σ → σ}
    (kept : ∀ s s', rel s s' → rel (change s) (change' s')) :
    Related rel Eq (modify change : Action σ ε Unit) (modify change') := by
  intro s s' twins
  exact ⟨rfl, kept s s' twins⟩

theorem SameEnd.mono {good' : α → α' → Prop} {end_ : Except ε α × σ}
    {end' : Except ε α' × σ} (same : SameEnd rel good end_ end')
    (weaker : ∀ v v', good v v' → good' v v') : SameEnd rel good' end_ end' := by
  rcases end_ with ⟨_ | v, t⟩ <;> rcases end' with ⟨_ | v', t'⟩
  · exact same
  · exact same
  · exact same
  · exact ⟨weaker v v' same.1, same.2⟩

theorem Related.mono {good' : α → α' → Prop} (related : Related rel good left right)
    (weaker : ∀ v v', good v v' → good' v v') : Related rel good' left right := by
  intro s s' twins
  exact (related s s' twins).mono weaker

theorem SameEnd.bind {good' : β → β' → Prop} {next : α → Action σ ε β}
    {next' : α' → Action σ ε β'} {s s' : σ} (first : SameEnd rel good (left s) (right s'))
    (second : ∀ v v', good v v' → Related rel good' (next v) (next' v')) :
    SameEnd rel good' ((left >>= next) s) ((right >>= next') s') := by
  rw [bind_apply, bind_apply]
  generalize left s = end_ at first ⊢
  generalize right s' = end' at first ⊢
  rcases end_ with ⟨_ | v, t⟩ <;> rcases end' with ⟨_ | v', t'⟩
  · exact first
  · exact first.elim
  · exact first.elim
  · exact second v v' first.1 t t' first.2

theorem Related.bind {good' : β → β' → Prop} {next : α → Action σ ε β}
    {next' : α' → Action σ ε β'} (first : Related rel good left right)
    (second : ∀ v v', good v v' → Related rel good' (next v) (next' v')) :
    Related rel good' (left >>= next) (right >>= next') := by
  intro s s' twins
  exact (first s s' twins).bind second

theorem related_get {look : σ → Action σ ε α} {look' : σ → Action σ ε α'}
    (rest : ∀ s s', rel s s' → Related rel good (look s) (look' s')) :
    Related rel good (get >>= look) (get >>= look') := by
  intro s s' twins
  exact rest s s' twins s s' twins

theorem related_foldlM {body : α → γ → Action σ ε α} {body' : α' → γ → Action σ ε α'}
    {list : List γ}
    (step : ∀ x ∈ list, ∀ acc acc', good acc acc' →
      Related rel good (body acc x) (body' acc' x)) {acc : α} {acc' : α'}
    (start : good acc acc') :
    Related rel good (list.foldlM body acc) (list.foldlM body' acc') := by
  induction list generalizing acc acc' with
  | nil => exact related_pure start
  | cons x rest ih =>
      rw [List.foldlM_cons, List.foldlM_cons]
      apply (step x List.mem_cons_self acc acc' start).bind
      intro next next' kept
      apply ih _ kept
      intro y member
      exact step y (List.mem_cons_of_mem x member)

theorem related_allM {test test' : γ → Action σ ε Bool} {list : List γ}
    (step : ∀ x ∈ list, Related rel Eq (test x) (test' x)) :
    Related rel Eq (list.allM test) (list.allM test') := by
  induction list with
  | nil => exact related_pure rfl
  | cons x rest ih =>
      apply (step x List.mem_cons_self).bind
      rintro answer _ rfl
      cases answer with
      | false => exact related_pure rfl
      | true =>
          apply ih
          intro y member
          exact step y (List.mem_cons_of_mem x member)

theorem Related.result {image : α → α'}
    (related : Related rel (fun v v' => v' = image v) left right) {s s' : σ}
    (twins : rel s s') :
    (right s').1 = (left s).1.map image ∧ rel (left s).2 (right s').2 := by
  have same := related s s' twins
  generalize left s = end_ at same ⊢
  generalize right s' = end' at same ⊢
  rcases end_ with ⟨_ | v, t⟩ <;> rcases end' with ⟨_ | v', t'⟩
  · exact ⟨congrArg Except.error same.1.symm, same.2⟩
  · exact same.elim
  · exact same.elim
  · exact ⟨congrArg Except.ok same.1, same.2⟩

end Rules

end QJson.Action
