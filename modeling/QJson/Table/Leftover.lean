import QJson.Table.Naturals
import QJson.Table.Sessions

/-!
# When materialization leaves a proxy behind

Materialization returns a plain table as it is, also an array that a write has promoted and
that still holds proxies.  That is the only way for a proxy to be left behind.
-/

namespace QJson.Table

open Rfc8259 Validate Doc Decode Ffi Lua

/-- In every state of a session, materialization leaves no proxy behind exactly when it
meets no plain table that holds one. -/
theorem not_holdsProxy_iff {F : Type} [DecidableEq F] (env : Env F) {s s' : State F}
    (session : Session env (fun s op => op.Proper s) s) (room : Nat) (keepOrigin : Bool)
    {root w : Value F} (held : root.Below s.tables.length)
    (returned : materialize env room keepOrigin (some root) s = (.ok (some w), s')) :
    ¬ HoldsProxy s' w ↔ ¬ MeetsHolder env s keepOrigin root := by
  obtain ⟨forest, wf⟩ := session.wf fun _ _ proper => proper
  have settled := (settles_materialize room keepOrigin s (some root) wf (held_some held)).returned
    returned
  have leaves := settled.leaves
  simp only [Leaves, Meets, Option.some.injEq, exists_eq_left'] at leaves
  exact not_congr leaves

/-! ## A tree that was only read -/

/-- The text `{"a":[{"b":1}]}`. -/
def promotedText : Bytes :=
  [0x7B, 0x22, 0x61, 0x22, 0x3A, 0x5B, 0x7B, 0x22, 0x62, 0x22, 0x3A, 0x31, 0x7D, 0x5D, 0x7D]

/-- `t = decode(text)`, `a = t.a`, `x = a[1]`. -/
def readState : State Nat :=
  let s := ((Op.decode promotedText).run natEnv (State.start Nat)).2
  let s := ((Op.index 0 (some (.str [0x61]))).run natEnv s).2
  ((Op.index 1 (some (.num 1))).run natEnv s).2

/-- What `materialize(t, {keep_origin = true})` returns, and the state behind it. -/
def readResult : Except LuaError (Option (Value Nat)) × State Nat :=
  materialize natEnv 4 true (some (.table 0)) readState

theorem readState_session : Session natEnv (fun s op => op.Proper s) readState :=
  .step (.step (.step .start (by decide : promotedText.length ≤ luaMaxString)) trivial) trivial

theorem readState_facts : readState.tables.length = 3 ∧
    (∀ i < 3, (readState.plain? i).isNone) ∧ readResult.1 = .ok (some (.table 5)) := by
  decide +kernel

/-- There is no plain table. -/
theorem readState_plain (r : Nat) : readState.plain? r = none := by
  obtain ⟨length, proxies, -⟩ := readState_facts
  rcases Nat.lt_or_ge r 3 with inside | beyond
  · exact Option.isNone_iff_eq_none.1 (proxies r inside)
  · rw [State.plain?, List.getElem?_eq_none (by omega)]

/-- Behind reads alone, nothing is left behind. -/
theorem not_holdsProxy_read : ¬ HoldsProxy readResult.2 (.table 5) := by
  obtain ⟨length, -, result⟩ := readState_facts
  have returned : materialize natEnv 4 true (some (.table 0)) readState =
      (.ok (some (.table 5)), readResult.2) :=
    Prod.ext result rfl
  have held : (Value.table 0 : Value Nat).Below readState.tables.length :=
    (by omega : 0 < readState.tables.length)
  refine (not_holdsProxy_iff natEnv readState_session 4 true held returned).2 ?_
  rintro ⟨mode, r, p, -, plain, -⟩
  rw [readState_plain] at plain
  cases plain

/-! ## A promoted array -/

/-- `t = decode(text)`, `a = t.a`, `x = a[1]`, `a[2] = null`. -/
def promotedState : State Nat :=
  let s := ((Op.decode promotedText).run natEnv (State.start Nat)).2
  let s := ((Op.index 0 (some (.str [0x61]))).run natEnv s).2
  let s := ((Op.index 1 (some (.num 1))).run natEnv s).2
  ((Op.newindex 1 (some (.num 2)) (some .null)).run natEnv s).2

theorem promotedState_session : Session natEnv (fun s op => op.Proper s) promotedState := by
  refine .step (.step (.step (.step .start ?_) trivial) trivial) ⟨?_, ?_, ?_⟩
  · exact (by decide : promotedText.length ≤ luaMaxString)
  · exact held_some trivial
  · exact held_some trivial
  · rintro - ⟨name, -, same⟩
    cases same

/-- What `materialize(t)` returns, and the state behind it. -/
def promotedResult : Except LuaError (Option (Value Nat)) × State Nat :=
  materialize natEnv 4 false (some (.table 0)) promotedState

theorem inside_of_lookup {F : Type} [DecidableEq F] {s : State F} {r : Nat} {k : Key F}
    {v : Value F} (here : ((s.plain? r).bind fun p => p.entries.lookup k) = some v) :
    Inside s (.table r) v := by
  obtain ⟨p, plain, entry⟩ := Option.bind_eq_some_iff.1 here
  exact .value plain entry

theorem promotedResult_eq : 0 < promotedState.tables.length ∧
    promotedResult.1 = .ok (some (.table 4)) ∧
    ((promotedResult.2.plain? 4).bind fun p => p.entries.lookup (.str [0x61])) =
      some (.table 1) ∧
    ((promotedResult.2.plain? 1).bind fun p => p.entries.lookup (.idx 1)) = some (.table 2) ∧
    (promotedResult.2.proxy? 2).isSome = true := by
  decide +kernel

/-- The sub-table of the result that is the promoted array still holds the proxy `x`. -/
theorem promotedResult_holdsProxy : HoldsProxy promotedResult.2 (.table 4) := by
  obtain ⟨-, -, field, element, proxy⟩ := promotedResult_eq
  obtain ⟨q, here⟩ := Option.isSome_iff_exists.1 proxy
  exact ⟨2, q, .head (inside_of_lookup field) (.single (inside_of_lookup element)), here⟩

/-- Behind `a[2] = null`, materialization of the root leaves the proxy `a[1]` behind. -/
theorem not_forall_not_holdsProxy :
    ¬ ∀ (s s' : State Nat) (room : Nat) (keepOrigin : Bool) (root w : Value Nat),
      Session natEnv (fun s op => op.Proper s) s → root.Below s.tables.length →
      materialize natEnv room keepOrigin (some root) s = (.ok (some w), s') →
      ¬ HoldsProxy s' w := by
  intro claim
  have returned : materialize natEnv 4 false (some (.table 0)) promotedState =
      (.ok (some (.table 4)), promotedResult.2) :=
    Prod.ext promotedResult_eq.2.1 rfl
  exact claim promotedState promotedResult.2 4 false (.table 0) (.table 4) promotedState_session
    promotedResult_eq.1 returned promotedResult_holdsProxy

end QJson.Table
