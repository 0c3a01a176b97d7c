import QJson.Table.Steps

/-!
# What encoding keeps

Encoding opens children, and it gives dirty objects their order state.  Matching a table
with its record changes nothing.
-/

namespace QJson.Table

open Rfc8259 Validate Doc Decode Ffi Lua

section Rules

variable {F α β : Type} [DecidableEq F] {env : Env F} {forest : Forest} {s : State F}

/-- The heap grows, at both ends. -/
def Grows (env : Env F) (forest : Forest) (s : State F) (action : Act F α) : Prop :=
  Action.Wp action s (fun _ s' => Kept env forest s s') (Kept env forest s)

theorem Grows.bind {action : Act F α} {next : α → Act F β} (first : Grows env forest s action)
    (second : ∀ v s', Kept env forest s s' → Grows env forest s' (next v)) :
    Grows env forest s (action >>= next) := by
  rw [Grows, Action.wp_bind]
  refine Action.Wp.mono first (fun v s' kept => ?_) fun _ => id
  exact Action.Wp.mono (second v s' kept) (fun _ _ kept' => kept.trans kept')
    fun _ kept' => kept.trans kept'

theorem grows_pure (wf : Wf forest s) (v : α) : Grows env forest s (pure v : Act F α) :=
  Kept.refl wf

theorem grows_raise (wf : Wf forest s) (error : LuaError) :
    Grows env forest s (Action.raise error : Act F α) :=
  Kept.refl wf

theorem grows_get (wf : Wf forest s) : Grows env forest s (Action.get : Act F (State F)) :=
  Kept.refl wf

theorem grows_lift (wf : Wf forest s) (outcome : Except LuaError α) :
    Grows env forest s (lift outcome) := by
  cases outcome with
  | ok v => exact Kept.refl wf
  | error error => exact Kept.refl wf

theorem grows_still {action : Act F α} (still : action.Still) (wf : Wf forest s) :
    Grows env forest s action := by
  refine (still s).mono (fun _ s' same => ?_) fun s' same => ?_
  · subst same
    exact Kept.refl wf
  · subst same
    exact Kept.refl wf

theorem grows_foldlM {body : β → α → Act F β} {list : List α} (wf : Wf forest s)
    (step : ∀ x ∈ list, ∀ acc s', Kept env forest s s' → Grows env forest s' (body acc x))
    (acc : β) : Grows env forest s (list.foldlM body acc) := by
  refine Action.wp_foldlM (fun _ _ s' => Kept env forest s s') ?_ (Kept.refl wf)
  intro done x acc s' member kept
  exact Action.Wp.mono (step x member acc s' kept) (fun _ _ kept' => kept.trans kept')
    fun _ kept' => kept.trans kept'

end Rules

/-! ## Matching -/

section Matches

variable {F : Type} [DecidableEq F] {env : Env F}

theorem still_originFullyMatches {recur : Option (Record F) → Option (Value F) → Act F Bool}
    (step : ∀ record v, (recur record v).Still) (p : Plain F) (origin : Origin F) :
    (originFullyMatches env recur p origin).Still := by
  rw [originFullyMatches.eq_def]
  split
  · rw [originObjectFullyMatches]
    split
    · exact Action.still_pure false
    · exact (Action.still_allM (fun e => step _ _) _).bind fun _ => Action.still_pure _
  · rw [originArrayFullyMatches]
    split
    · exact Action.still_pure false
    · exact (Action.still_allM (fun e => step _ _) _).bind fun _ => Action.still_pure _

/-- The question of `origin_record_matches` on a table, with what is asked of its entries. -/
def tableMatches (inner : Plain F → Origin F → Act F Bool) (active : List Nat) (r o : Nat) :
    Act F Bool := do
  let s ← Action.get
  if r ∈ active then Action.raise cycleError
  else
    match s.plain? r with
    | none => return false
    | some p =>
        match p.origin, s.origins[o]? with
        | some o', some origin => if o' ≠ o then return false else inner p origin
        | _, _ => return false

omit [DecidableEq F] in
theorem still_tableMatches {inner : Plain F → Origin F → Act F Bool}
    (still : ∀ p o, (inner p o).Still) (active : List Nat) (r o : Nat) :
    (tableMatches inner active r o).Still := by
  rw [tableMatches]
  split
  · exact Action.still_get.bind fun _ => Action.still_raise _
  · refine Action.still_get.bind fun s => ?_
    split
    · exact Action.still_pure _
    · split
      · split
        · exact Action.still_pure _
        · exact still _ _
      · exact Action.still_pure _

theorem still_originRecordMatches (room : Nat) (active : List Nat) (record : Option (Record F))
    (v : Option (Value F)) : (originRecordMatches env room active record v).Still := by
  induction room generalizing active record v with
  | zero =>
      rw [originRecordMatches.eq_def]
      split
      · exact Action.still_pure _
      · exact Action.still_pure _
      · split
        · exact still_tableMatches (fun _ _ => Action.still_raise depthError) _ _ _
        · exact Action.still_pure _
  | succ room ih =>
      rw [originRecordMatches.eq_def]
      split
      · exact Action.still_pure _
      · exact Action.still_pure _
      · split
        · exact still_tableMatches (fun p o => still_originFullyMatches (fun _ _ => ih _ _ _) p o)
            _ _ _
        · exact Action.still_pure _

/-- The question of `encode_object_with_origin` and of its sibling for arrays. -/
theorem still_fullyMatches (room : Nat) (active : List Nat) (p : Plain F) (origin : Origin F) :
    (fullyMatches env room active p origin).Still := by
  rw [fullyMatches]
  exact still_originFullyMatches (fun _ _ => still_originRecordMatches _ _ _ _) p origin

end Matches

/-! ## Encoding -/

section Encoding

variable {F : Type} [DecidableEq F] {env : Env F} {forest : Forest} {s : State F} {t room : Nat}
  {q : Proxy F} {recur : Option (Value F) → Act F Bytes}

theorem grows_guarded {α : Type} {walk : Act F α} (wf : Wf forest s)
    (grows : Grows env forest s walk) : Grows env forest s (guarded room walk) := by
  rw [guarded]
  split
  · exact grows_raise wf _
  · exact grows

/-- `ensure_object_order_state` on an object that is dirty or has its order state. -/
theorem grows_ensureObjectOrderState (wf : Wf forest s) (here : s.proxy? t = some q)
    (object : q.kind = .obj) (dirty : q.dirty = true) :
    Grows env forest s (ensureObjectOrderState env t q) := by
  obtain ⟨place, ok⟩ := wf.proxy here
  cases ordered : q.order with
  | some order =>
      rw [ensureObjectOrderState, ordered]
      exact grows_pure wf order
  | none =>
      refine (wp_ensureObjectOrderState wf here ok object ordered).mono ?_
        fun _ failed => failed.1.kept
      rintro order _ ⟨s₁, opened, isOrder, rfl⟩
      exact opened.kept.trans (kept_ordered opened.wf (opened.opens.proxy? here)
        (ok.mono opened.opens.later.length_le) object ordered dirty isOrder)

theorem grows_encodeLazyObjectWalking (grower : ∀ s v, Wf forest s → Grows env forest s (recur v))
    (wf : Wf forest s) (here : s.proxy? t = some q) (object : q.kind = .obj)
    (dirty : q.dirty = true) : Grows env forest s (encodeLazyObjectWalking env room recur t q) := by
  refine grows_guarded wf ((grows_ensureObjectOrderState wf here object dirty).bind
    fun order s₁ kept => ?_)
  refine (grows_foldlM kept.wf (fun k _ parts s₂ kept₂ => ?_) _).bind fun _ _ kept₂ =>
    grows_pure kept₂.wf _
  split
  · exact grows_pure kept₂.wf _
  · exact (grower s₂ _ kept₂.wf).bind fun _ _ kept₃ => grows_pure kept₃.wf _

theorem grows_encodeLazyArrayWalking (grower : ∀ s v, Wf forest s → Grows env forest s (recur v))
    (wf : Wf forest s) (here : s.proxy? t = some q) (array : q.kind = .arr) :
    Grows env forest s (encodeLazyArrayWalking env room recur t q) := by
  obtain ⟨place, ok⟩ := wf.proxy here
  have isArray := ok.kind.trans (congrArg some array)
  refine grows_guarded wf ?_
  rw [Grows, Action.wp_bind, ok.cursor]
  refine wp_getter wf.library ok.at_ .len fun s₁ quiet library => ?_
  have kept : Kept env forest s s₁ := quiet.kept wf library
  rw [readNode, if_pos (by rw [isArray]; rfl)]
  rw [← ok.cursor]
  refine Action.Wp.mono ((grows_foldlM kept.wf (fun i _ parts s₂ kept₂ => ?_) _).bind
    fun _ _ kept₂ => grows_pure kept₂.wf _) (fun _ _ kept₂ => kept.trans kept₂)
    fun _ kept₂ => kept.trans kept₂
  -- One element.
  have here₂ := (kept.trans kept₂).grown.same here (.inl array)
  rw [Grows, Action.wp_bind, ok.cursor]
  refine wp_pickIndex kept₂.wf ok.at_ i (fun s₃ child quiet wf₃ _ at_ => ?_)
    (fun s₃ quiet wf₃ => quiet.kept kept₂.wf wf₃.library)
    fun s₃ quiet wf₃ => quiet.kept kept₂.wf wf₃.library
  have kept₃ : Kept env forest s₂ s₃ := quiet.kept kept₂.wf wf₃.library
  have here₃ := kept₃.grown.same here₂ (.inl array)
  change Action.Wp (rawElem t (i + 1) >>= _) s₃ _ _
  rw [Action.wp_bind, rawElem, Action.wp_bind, Action.wp_get, Action.wp_pure]
  have rest {s₄ : State F} (kept₄ : Kept env forest s₂ s₄) (v : Option (Value F)) :
      Action.Wp (do
        let text ← recur v
        return parts ++ [text]) s₄ (fun _ s' => Kept env forest s₂ s')
        (Kept env forest s₂) :=
    Action.Wp.mono ((grower s₄ v kept₄.wf).bind fun _ _ kept₅ => grows_pure kept₅.wf _)
      (fun _ _ kept₅ => kept₄.trans kept₅) fun _ kept₅ => kept₄.trans kept₅
  split
  · exact rest kept₃ _
  · rw [Action.wp_bind]
    exact (wp_decodeChild wf₃ (ok.child at_) (lt_of_proxy? here₃)).mono
      (fun v s₄ decoded => rest (kept₃.trans decoded.1.kept) v)
      fun _ failed => kept₃.trans failed.1.kept

theorem grows_encodeProxy (grower : ∀ s v, Wf forest s → Grows env forest s (recur v))
    (wf : Wf forest s) (here : s.proxy? t = some q) :
    Grows env forest s (encodeProxy env room recur t q) := by
  rw [encodeProxy]
  split
  · rw [hold]
    exact (grows_get wf).bind fun _ _ kept => grows_pure kept.wf _
  · rename_i dirty
    split
    · rename_i object
      exact grows_encodeLazyObjectWalking grower wf here object (by simpa using dirty)
    · rename_i array
      exact grows_encodeLazyArrayWalking grower wf here array

theorem grows_encodeArray (grower : ∀ s v, Wf forest s → Grows env forest s (recur v))
    (wf : Wf forest s) (p : Plain F) (n : Nat) :
    Grows env forest s (encodeArray room recur p n) := by
  refine grows_guarded wf ((grows_foldlM wf (fun i _ parts s₁ kept => ?_) _).bind
    fun parts s₁ kept => ?_)
  · exact (grower s₁ _ kept.wf).bind fun _ _ kept₂ => grows_pure kept₂.wf _
  · split
    · exact grows_raise kept.wf _
    · exact grows_pure kept.wf _

theorem grows_encodeMembers (grower : ∀ s v, Wf forest s → Grows env forest s (recur v))
    (wf : Wf forest s) (entries : List (Key F × Value F)) (parts : List Bytes) :
    Grows env forest s (encodeMembers env recur entries parts) := by
  refine grows_foldlM wf (fun e _ parts s₁ kept => ?_) _
  refine (grows_lift kept.wf _).bind fun key s₂ kept₂ => ?_
  exact (grower s₂ _ kept₂.wf).bind fun _ _ kept₃ => grows_pure kept₃.wf _

theorem grows_encodeObject (grower : ∀ s v, Wf forest s → Grows env forest s (recur v))
    (wf : Wf forest s) (p : Plain F) : Grows env forest s (encodeObject env room recur p) :=
  grows_guarded wf ((grows_encodeMembers grower wf _ _).bind fun _ _ kept =>
    grows_pure kept.wf _)

theorem grows_encodeOriginChild (grower : ∀ s v, Wf forest s → Grows env forest s (recur v))
    (wf : Wf forest s) (v : Value F) (record : Option (Record F)) :
    Grows env forest s (encodeOriginChild recur v record) := by
  rw [encodeOriginChild.eq_def]
  split
  · split
    · exact grows_pure wf _
    · exact grower s _ wf
  · exact grower s _ wf

theorem grows_encodeObjectWithOrigin (grower : ∀ s v, Wf forest s → Grows env forest s (recur v))
    (wf : Wf forest s) (active : List Nat) (p : Plain F) (origin : Origin F) :
    Grows env forest s (encodeObjectWithOrigin env room active recur p origin) := by
  refine grows_guarded wf ((grows_still (still_fullyMatches room active p origin) wf).bind
    fun same s₁ kept => ?_)
  split
  · exact grows_pure kept.wf _
  · refine Grows.bind (grows_foldlM kept.wf (fun key _ parts s₂ kept₂ => ?_) _)
      fun parts s₂ kept₂ => (grows_encodeMembers grower kept₂.wf _ _).bind fun _ _ kept₃ =>
        grows_pure kept₃.wf _
    split
    · exact grows_pure kept₂.wf _
    · exact (grows_encodeOriginChild grower kept₂.wf _ _).bind fun _ _ kept₃ =>
        grows_pure kept₃.wf _

theorem grows_encodeArrayWithOrigin (grower : ∀ s v, Wf forest s → Grows env forest s (recur v))
    (wf : Wf forest s) (active : List Nat) (p : Plain F) (origin : Origin F) :
    Grows env forest s (encodeArrayWithOrigin env room active recur p origin) := by
  refine grows_guarded wf ((grows_still (still_fullyMatches room active p origin) wf).bind
    fun same s₁ kept => ?_)
  split
  · exact grows_pure kept.wf _
  · refine (grows_get kept.wf).bind fun at_ s₂ kept₂ => ?_
    refine (grows_lift kept₂.wf _).bind fun class_ s₃ kept₃ => ?_
    split
    · exact grows_encodeArray grower kept₃.wf p _
    · exact grows_encodeObject grower kept₃.wf p

theorem grows_encodePlainTable (grower : ∀ s v, Wf forest s → Grows env forest s (recur v))
    (wf : Wf forest s) (active : List Nat) (p : Plain F) :
    Grows env forest s (encodePlainTable env room active recur p) := by
  refine (grows_get wf).bind fun at_ s₁ kept => ?_
  split
  · split
    · exact grows_encodeObjectWithOrigin grower kept.wf active p _
    · exact grows_encodeArrayWithOrigin grower kept.wf active p _
  · split
    · exact grows_encodeArray grower kept.wf p _
    · split
      · exact grows_encodeObject grower kept.wf p
      · exact grows_encodeArray grower kept.wf p _
      · refine (grows_lift kept.wf _).bind fun class_ s₂ kept₂ => ?_
        split
        · exact grows_encodeArray grower kept₂.wf p _
        · exact grows_encodeObject grower kept₂.wf p

theorem grows_encodeValue {children : List Nat → Option (Value F) → Act F Bytes}
    (grower : ∀ active s v, Wf forest s → Grows env forest s (children active v))
    (wf : Wf forest s) (active : List Nat) (v : Option (Value F)) :
    Grows env forest s (encodeValue env room children active v) := by
  rw [encodeValue.eq_def]
  split
  · exact grows_pure wf _
  · exact grows_pure wf _
  · exact grows_pure wf _
  · refine (grows_get wf).bind fun _ _ kept => ?_
    split
    · exact grows_raise kept.wf _
    · split
      · exact grows_pure kept.wf _
      · exact grows_pure kept.wf _
  · exact grows_pure wf _
  · exact grows_pure wf _
  · rename_i r
    split
    · exact grows_raise wf _
    · rw [Grows, Action.wp_bind, Action.wp_get]
      split
      · rename_i q here
        exact grows_encodeProxy (grower _) wf (proxy?_eq_some.2 here)
      · exact grows_encodePlainTable (grower _) wf _ _
      · exact grows_raise wf _
  · exact grows_raise wf _

theorem grows_encodeAt (room : Nat) (active : List Nat) (v : Option (Value F))
    (wf : Wf forest s) : Grows env forest s (encodeAt env room active v) := by
  induction room generalizing active v s with
  | zero => exact grows_encodeValue (fun _ _ _ wf => grows_raise wf _) wf active v
  | succ room ih => exact grows_encodeValue (fun active _ v wf => ih active v wf) wf active v

theorem grows_encode (wf : Wf forest s) (v : Option (Value F)) :
    Grows env forest s (encode env v) := by
  refine (grows_encodeAt encodeMaxDepth [] v wf).bind fun text _ kept => ?_
  split
  · exact grows_raise kept.wf _
  · exact grows_pure kept.wf _

end Encoding

end QJson.Table
