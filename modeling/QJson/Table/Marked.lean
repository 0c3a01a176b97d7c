import QJson.Table.Siblings
import QJson.Table.Verbatim

/-!
# Dirty flags reach the root

The loops of the `__newindex` functions mark a view and its parents, and no other step sets or
clears a dirty flag.  So in every state the parents of a dirty proxy are dirty, up to the root
or to a table that is no proxy any more.
-/

namespace QJson.Table

open Rfc8259 Validate Doc Decode Ffi Lua

/-- The parents of dirty proxies are dirty, apart from those that are left out. -/
def MarkedBut {F : Type} (out : Nat → Prop) (s : State F) : Prop :=
  ∀ (r p : Nat) (q above : Proxy F), s.proxy? r = some q → q.dirty = true → q.parent = some p →
    p < r → ¬ out p → s.proxy? p = some above → above.dirty = true

/-- The parents of dirty proxies are dirty. -/
def MarkedUp {F : Type} (s : State F) : Prop := MarkedBut (fun _ => False) s

section Marked

variable {F : Type} {s s' : State F} {out : Nat → Prop} {t : Nat} {q : Proxy F}

theorem MarkedBut.imp {out' : Nat → Prop} (marked : MarkedBut out s)
    (more : ∀ p, out p → out' p) : MarkedBut out' s := by
  intro r p q above here dirty parent older apart there
  exact marked r p q above here dirty parent older (fun left => apart (more p left)) there

theorem MarkedUp.fewer (marked : MarkedUp s)
    (fewer : ∀ r q, s'.proxy? r = some q → s.proxy? r = some q) : MarkedUp s' := by
  intro r p q above here dirty parent older apart there
  exact marked r p q above (fewer r q here) dirty parent older apart (fewer p above there)

theorem MarkedUp.congr (marked : MarkedUp s) (tables : s'.tables = s.tables) : MarkedUp s' := by
  apply marked.fewer
  intro r q here
  exact (proxy?_congr tables r).symm.trans here

theorem proxy?_updateProxy (change : Proxy F → Proxy F) (r : Nat) :
    (s.updateProxy t change).proxy? r =
      if t = r then (s.proxy? r).map change else s.proxy? r := by
  simp only [State.proxy?, State.updateProxy, List.getElem?_modify]
  by_cases same : t = r
  · simp only [same, if_true]
    cases s.tables[r]? with
    | none => rfl
    | some table => cases table <;> rfl
  · simp only [same, if_false, Option.map_eq_map, Option.map_id']

theorem updateProxy_eq {change : Proxy F → Proxy F} (here : s.proxy? t = some q)
    (same : change q = q) : s.updateProxy t change = s := by
  have tables : (s.updateProxy t change).tables = s.tables := by
    apply List.ext_getElem?
    intro r
    simp only [State.updateProxy, List.getElem?_modify]
    by_cases itself : t = r
    · subst itself
      rw [proxy?_eq_some.1 here]
      simp only [if_true, Option.map_eq_map, Option.map_some, same]
    · simp only [itself, if_false, Option.map_eq_map, Option.map_id']
  exact congrArg (fun tables => { s with tables }) tables

instance : Stable (MarkedUp (F := F)) where
  aside marked _ tables := marked.congr tables
  newTable {s s' table} marked clean _ tables := by
    intro r p q above here dirty parent older apart there
    have at_ := proxy?_eq_some.1 here
    have atParent := proxy?_eq_some.1 there
    rw [getElem?_added tables] at at_ atParent
    split at at_
    · rw [clean q (Option.some.inj at_)] at dirty
      cases dirty
    · have inside := (List.getElem?_eq_some_iff.1 at_).1
      rw [if_neg (by omega)] at atParent
      exact marked r p q above (proxy?_eq_some.2 at_) dirty parent older apart
        (proxy?_eq_some.2 atParent)
  updateProxy {s t change} marked kept := by
    intro r p q above here dirty parent older apart there
    -- A proxy behind the change is as dirty as in front of it, below the same parent.
    have before {i : Nat} {q : Proxy F} (here : (s.updateProxy t change).proxy? i = some q) :
        ∃ old, s.proxy? i = some old ∧ q.dirty = old.dirty ∧ q.parent = old.parent := by
      rw [proxy?_updateProxy] at here
      split at here
      · obtain ⟨old, at_, rfl⟩ := Option.map_eq_some_iff.1 here
        exact ⟨old, at_, kept old⟩
      · exact ⟨q, here, rfl, rfl⟩
    obtain ⟨old, at_, sameDirty, sameParent⟩ := before here
    obtain ⟨old', atParent, sameDirty', -⟩ := before there
    rw [sameDirty']
    exact marked r p old old' at_ (sameDirty ▸ dirty) (sameParent ▸ parent) older apart atParent

/-! ## The loop that marks -/

/-- A proxy is marked: what is left to mark is its parent. -/
theorem MarkedBut.set (marked : MarkedBut (· = t) s) (here : s.proxy? t = some q) :
    MarkedBut (fun p => q.parent = some p)
      (s.updateProxy t fun q => { q with dirty := true }) := by
  intro r p below above at_ dirty parent older apart there
  rw [proxy?_updateProxy] at at_ there
  by_cases itself : t = p
  · rw [if_pos itself] at there
    obtain ⟨old, -, rfl⟩ := Option.map_eq_some_iff.1 there
    rfl
  · rw [if_neg itself] at there
    by_cases child : t = r
    · subst child
      rw [if_pos rfl, here] at at_
      obtain rfl := Option.some.inj at_
      exact absurd parent apart
    · rw [if_neg child] at at_
      exact marked r p below above at_ dirty parent older (Ne.symm itself) there

variable [DecidableEq F] {forest : Forest}

/-- The loop marks every parent that it has to. -/
theorem MarkedBut.markDirty (wf : Wf forest s) (fuel : Nat) (marked : MarkedBut (· = t) s)
    (enough : t < fuel ∨ s.proxy? t = none) : MarkedUp (s.markDirty fuel t) := by
  -- A table that is no proxy has nothing to answer for.
  have done {s : State F} {t : Nat} (marked : MarkedBut (· = t) s) (here : s.proxy? t = none) :
      MarkedUp s := by
    intro r p q above at_ dirty parent older _ there
    refine marked r p q above at_ dirty parent older ?_ there
    rintro rfl
    rw [here] at there
    cases there
  induction fuel generalizing t s with
  | zero => exact done marked (enough.resolve_left (Nat.not_lt_zero t))
  | succ fuel ih =>
      rw [State.markDirty]
      cases here : s.proxy? t with
      | none => exact done marked here
      | some q =>
          have next := marked.set here
          have bound : t < fuel + 1 := by
            rcases enough with less | clash
            · exact less
            · rw [here] at clash
              cases clash
          cases isParent : q.parent with
          | none =>
              simp only [isParent]
              apply next.imp
              intro p clash
              rw [isParent] at clash
              cases clash
          | some parent =>
              simp only [isParent]
              obtain ⟨place, ok⟩ := wf.proxy here
              have older := ok.parent parent isParent
              apply ih (wf.dirty t)
              · apply next.imp
                intro p same
                exact Option.some.inj (same.symm.trans isParent)
              · exact .inl (by omega)

theorem MarkedUp.markDirty (marked : MarkedUp s) (wf : Wf forest s) (t : Nat) :
    MarkedUp (s.markDirty s.tables.length t) := by
  apply MarkedBut.markDirty wf
  · exact marked.imp fun _ => False.elim
  · cases here : s.proxy? t with
    | none => exact .inr rfl
    | some q => exact .inl (lt_of_proxy? here)

/-- A dirty view is not marked again. -/
theorem MarkedUp.markDirty_eq (marked : MarkedUp s) (wf : Wf forest s)
    (here : s.proxy? t = some q) (dirty : q.dirty = true) (fuel : Nat) :
    s.markDirty fuel t = s := by
  induction fuel generalizing t q with
  | zero => rfl
  | succ fuel ih =>
      have same : s.updateProxy t (fun q => { q with dirty := true }) = s :=
        updateProxy_eq here (by rw [← dirty])
      rw [State.markDirty, here]
      simp only [same]
      cases isParent : q.parent with
      | none => rfl
      | some parent =>
          simp only
          cases there : s.proxy? parent with
          | none =>
              cases fuel with
              | zero => rfl
              | succ fuel => rw [State.markDirty, there]
          | some above =>
              obtain ⟨place, ok⟩ := wf.proxy here
              apply ih there
              exact marked t parent q above here dirty isParent (ok.parent parent isParent) id
                there

end Marked

/-! ## Assignments -/

section Assignments

variable {F : Type} [DecidableEq F] {env : Env F} {forest : Forest} {s : State F} {t : Nat}
  {k v : Option (Value F)}

theorem preserves_rawset : Action.Preserves MarkedUp (rawset env t k v) := by
  rw [rawset]
  split
  · exact Action.preserves_raise _
  · apply Action.preserves_modify
    intro s marked
    apply marked.fewer
    intro r q here
    rcases (getElem?_updatePlain _).1 (proxy?_eq_some.1 here) with ⟨_, -, -, clash⟩ | ⟨at_, -⟩
    · cases clash
    · exact proxy?_eq_some.2 at_

variable (wf : Wf forest s) (marked : MarkedUp s)
include wf marked

theorem markedUp_written (order : Order F) (key : Bytes) :
    MarkedUp (s.written t order key v) := by
  have kept := marked.markDirty wf t
  exact Stable.updateProxy kept fun _ => ⟨rfl, rfl⟩

theorem marks_arrayNewindex (q : Proxy F) :
    Action.Wp (arrayNewindex env t q k v) s (fun _ => MarkedUp) MarkedUp := by
  have rest : Action.Preserves MarkedUp (do
      let contents ← materializeArrayContents env t q
      Action.modify fun s => { s with
        tables := s.tables.set t (.plain ⟨promoted q.elems contents, true, some .arr, none⟩) }
      rawset env t k v) := by
    apply (preserves_materializeArrayContents t q).bind
    intro contents
    refine (Action.preserves_modify fun s marked => ?_).bind fun _ => preserves_rawset
    apply marked.fewer
    intro r q' here
    have at_ := proxy?_eq_some.1 here
    rw [List.getElem?_set] at at_
    split at at_
    · split at at_ <;> cases at_
    · exact proxy?_eq_some.2 at_
  exact rest _ (marked.markDirty wf t)

theorem marks_objectNewindex {q : Proxy F} (here : s.proxy? t = some q)
    (object : q.kind = .obj) :
    Action.Wp (objectNewindex env t q k v) s (fun _ => MarkedUp) MarkedUp := by
  rw [objectNewindex.eq_def]
  split
  · rename_i key
    have orders : Action.Wp (ensureObjectOrderState env t q) s (fun _ => MarkedUp) MarkedUp :=
      preserves_ensureObjectOrderState t q s marked
    rw [Action.wp_bind]
    cases ordered : q.order with
    | some order =>
        rw [Action.Wp, ensureObjectOrderState_of_order ordered]
        exact markedUp_written wf marked order key
    | none =>
        obtain ⟨place, ok⟩ := wf.proxy here
        have opens : Action.Wp (ensureObjectOrderState env t q) s _ _ :=
          wp_orderState wf here ok object ordered
        apply (orders.and opens).mono
        · rintro order s' ⟨marked', wf', -⟩
          exact markedUp_written wf' marked' order key
        · rintro s' ⟨marked', -⟩
          exact marked'
  · exact marked

theorem marks_newindex : Action.Wp (newindex env t k v) s (fun _ => MarkedUp) MarkedUp := by
  rw [newindex, Action.wp_bind, Action.wp_get]
  split
  · exact marked
  · exact preserves_rawset s marked
  · rename_i q at_
    split
    · split
      · exact Stable.updateProxy marked fun _ => ⟨rfl, rfl⟩
      · exact marks_arrayNewindex wf marked q
    · exact marks_arrayNewindex wf marked q
    · rename_i object
      exact marks_objectNewindex wf marked (proxy?_eq_some.2 at_) object

end Assignments

/-! ## Sessions -/

/-- In every state of a session dirty flags reach the root. -/
theorem Session.markedUp {F : Type} [DecidableEq F] {env : Env F}
    {allowed : State F → Op F → Prop} {s : State F} (session : Session env allowed s)
    (proper : ∀ s op, allowed s op → op.Proper s) : MarkedUp s := by
  -- A parse leaves the tables alone.
  have parses (text : Bytes) : Action.Preserves MarkedUp (parse env text : Act F Nat) := by
    intro s marked
    cases parsed : parseWithOptionsDetailed (dispatch env.scanner env.strings) text
        Options.default with
    | error fault =>
        simp only [Action.Wp, parse, parsed]
        cases fault <;> exact marked
    | ok document =>
        simp only [Action.Wp, parse, parsed]
        exact marked.congr rfl
  induction session with
  | start =>
      intro r p q above here
      cases here
  | @step s op session may marked =>
      by_cases read : op.IsRead
      · exact (preserves_run (fun text _ => parses text) read s marked).state
      · cases op with
        | newindex t k v =>
            obtain ⟨forest, wf⟩ := session.wf proper
            have kept : Action.Wp ((Op.newindex t k v).run env) s (fun _ => MarkedUp) MarkedUp := by
              rw [Op.run, Action.wp_bind]
              exact marks_newindex wf marked
            exact kept.state
        | _ => exact absurd trivial read

end QJson.Table
