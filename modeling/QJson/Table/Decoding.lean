import QJson.Table.Library

/-!
# Decoding nodes

What `decode_cursor` returns at a node: a Lua value for a scalar or a string, a new proxy for
a container.  The loops of the wrapper over the entries of an object and the elements of an
array meet the children of the node in order.
-/

namespace QJson.Table

open Rfc8259 Validate Doc Decode Ffi Lua

section Values

variable {F : Type}

/-! ## Values -/

/-- The Lua value of a scalar or a string. -/
def IsLeaf [DecidableEq F] (env : Env F) : Tree → Value F → Prop
  | .str body, v => v = .str (bodyText body)
  | .scalar token, v =>
      token = litNull ∧ v = .null ∨ token = litTrue ∧ v = .bool true ∨
        token = litFalse ∧ v = .bool false ∨
        IsNumber token ∧ ∃ x, parseF64 env.std token false = .ok x ∧ v = .num x
  | _, _ => False

/-- A proxy that was not used yet. -/
def fresh (kind : Kind) (parent : Option Nat) (doc : Nat) (place : Place) : Proxy F :=
  ⟨kind, parent, false, doc, place.cursor, place.pos, place.pos + place.node.render.length, none,
    ∅, ∅⟩

/-- Tables were added, and nothing else changed that can be seen. -/
def Adds (added : List (LuaTable F)) (s s' : State F) : Prop :=
  Quiet { s with tables := s.tables ++ added } s'

/-- What decoding a node leads to. -/
structure Decoded [DecidableEq F] (env : Env F) (forest : Forest) (parent : Option Nat) (d : Nat)
    (place : Place) (s : State F) (v : Option (Value F)) (s' : State F) : Prop where
  library : Library forest s'
  returns : match place.node.kind? with
    | some kind => v = some (.table s.tables.length) ∧
        Adds [.proxy (fresh kind parent d place)] s s'
    | none => Quiet s s' ∧ ∃ w, v = some w ∧ IsLeaf env place.node w

theorem Decoded.earlier [DecidableEq F] {env : Env F} {forest : Forest} {parent : Option Nat}
    {d : Nat} {place : Place} {s s' s'' : State F} {v : Option (Value F)}
    (decoded : Decoded env forest parent d place s' v s'') (quiet : Quiet s s') :
    Decoded env forest parent d place s v s'' := by
  refine ⟨decoded.library, ?_⟩
  have returns := decoded.returns
  cases kind : place.node.kind? with
  | none =>
      rw [kind] at returns
      exact ⟨quiet.trans returns.1, returns.2⟩
  | some kind' =>
      rw [kind] at returns
      obtain ⟨same, docs, tables, origins, loops, settings⟩ := returns
      simp only [quiet.docs, quiet.tables, quiet.origins, quiet.loops, quiet.settings] at *
      exact ⟨same, docs, tables, origins, loops, settings⟩

/-- A number that the float reader does not read. -/
def Unreadable [DecidableEq F] (env : Env F) (node : Tree) : Prop :=
  ∃ token, node = .scalar token ∧ IsNumber token ∧ ∀ x, parseF64 env.std token false ≠ .ok x

/-- Decoding a node raised an error. -/
structure Refused [DecidableEq F] (env : Env F) (forest : Forest) (place : Place)
    (s s' : State F) : Prop where
  unreadable : Unreadable env place.node
  quiet : Quiet s s'
  library : Library forest s'

theorem Quiet.adds {s s' : State F} (quiet : Quiet s s') : Adds [] s s' :=
  ⟨quiet.docs, quiet.tables.trans (List.append_nil _).symm, quiet.origins, quiet.loops,
    quiet.settings⟩

theorem Library.congr {forest : Forest} {s s' : State F} (lib : Library forest s)
    (docs : s'.docs = s.docs)
    (cells : s'.cells = s.cells) : Library forest s' where
  docs := by rw [docs, lib.docs]
  cells := by rw [cells, lib.cells]
  stands := by rw [docs]; exact lib.stands
  cache := by rw [docs, cells]; exact lib.cache

/-- A number of the grammar is read, or out of range. -/
theorem parseF64_number {std : StdFloat F} {token : Bytes} (number : IsNumber token) :
    (∃ x, parseF64 std token false = .ok x) ∨
      parseF64 std token false = fail .decodeFailed ∨
      parseF64 std token false = fail .numberOutOfRange := by
  have admitted : admission false (fun b => startsNumber b || b == 0x2E) token = .ok () := by
    simp [admission, (validateNumber_ok_iff token).2 number, toRust]
  rw [parseF64, admitted, ok_bind]
  split
  · split
    · split
      · exact .inl ⟨_, rfl⟩
      · exact .inr (.inr rfl)
    · exact .inr (.inl rfl)
  · exact .inr (.inl rfl)

theorem nodeType_number {token : Bytes} (number : IsNumber token) :
    nodeType (.scalar token) = .num := by
  obtain ⟨b, rest, rfl, first⟩ := number.exists_cons
  have other (lead : UInt8) (tail : Bytes) (notFirst : lead ≠ 0x2D ∧ isDigit lead = false) :
      b :: rest ≠ lead :: tail := by
    intro same
    obtain ⟨rfl, -⟩ := List.cons.inj same
    rcases first with minus | digit
    · exact notFirst.1 minus
    · rw [notFirst.2] at digit
      cases digit
  rw [nodeType, if_neg, if_neg]
  · exact other _ _ (by decide)
  · rintro (true | false)
    · exact other _ _ (by decide) true
    · exact other _ _ (by decide) false

end Values

section Decode

variable {F : Type} [DecidableEq F] {env : Env F} {forest : Forest} {s : State F} {d : Nat}
  {place : Place}

theorem host_validator (env : Env F) : IsStringValidator env.host.validateString :=
  env.strings.isStringValidator

variable (lib : Library forest s) (at_ : At forest d place)
include lib at_

omit [DecidableEq F] in
theorem wp_wrapChild (kind : Kind) (parent : Option Nat) {err : State F → Prop}
    {ok : Proxy F → State F → Prop}
    (next : ∀ s', Quiet s s' → Library forest s' → ok (fresh kind parent d place) s') :
    Action.Wp (wrapChild kind parent d place.cursor) s ok err := by
  rw [wrapChild, Action.wp_bind]
  refine lib.wp_call at_ replies_bytes fun s' quiet lib' => ?_
  exact next { s' with sz := (place.pos, place.pos + place.node.render.length) }
    ⟨quiet.docs, quiet.tables, quiet.origins, quiet.loops, quiet.settings⟩ (lib'.congr rfl rfl)

theorem wp_getter {expected : Option Expected} (g : Getter) {err : State F → Prop}
    {ok : Option (Output F) → State F → Prop}
    (next : ∀ s', Quiet s s' → Library forest s' →
      Answer.Leads (readNode env.std place g) (fun output => ok output s') (err s')) :
    Action.Wp (getter env d expected place.cursor g) s ok err :=
  lib.wp_access at_ (replies_getter (host_validator env) g) next

theorem wp_decodeContainer {kind : Kind} (container : place.node.kind? = some kind)
    (parent : Option Nat) {err : State F → Prop} :
    Action.Wp (do
        let r ← newTable (.proxy (← wrapChild kind parent d place.cursor))
        return some (.table r) : Act F (Option (Value F))) s
      (Decoded env forest parent d place s) err := by
  rw [Action.wp_bind]
  refine wp_wrapChild lib at_ kind parent fun s' quiet lib' => ?_
  rw [Action.wp_bind]
  refine ⟨lib'.congr rfl rfl, ?_⟩
  rw [container]
  exact ⟨by rw [quiet.tables], quiet.docs, congrArg (· ++ _) quiet.tables, quiet.origins,
    quiet.loops, quiet.settings⟩

theorem wp_decodeCursor (parent : Option Nat) :
    Action.Wp (decodeCursor env parent d place.cursor) s (Decoded env forest parent d place s)
      (Refused env forest place s) := by
  have valid : place.node.Valid := by
    obtain ⟨doc, cells, tree, start, path, -, -, -, found, rep, -⟩ := lib.doc at_
    exact (rep.locate found).1.valid
  have leaf {v : Value F} {s' : State F} (noKind : place.node.kind? = none) (quiet : Quiet s s')
      (lib' : Library forest s') (isLeaf : IsLeaf env place.node v) :
      Decoded env forest parent d place s (some v) s' := by
    refine ⟨lib', ?_⟩
    rw [noKind]
    exact ⟨quiet, v, rfl, isLeaf⟩
  rw [decodeCursor, Action.wp_bind]
  refine wp_getter lib at_ .typeof fun s' quiet lib' => ?_
  change Action.Wp (decodeAs env parent d place.cursor (nodeType place.node)) s' _ _
  have container {kind : Kind} (isKind : place.node.kind? = some kind) :
      Action.Wp (do
        let r ← newTable (.proxy (← wrapChild kind parent d place.cursor))
        return some (.table r) : Act F (Option (Value F))) s'
      (Decoded env forest parent d place s) (Refused env forest place s) :=
    (wp_decodeContainer lib' at_ isKind parent).mono (fun _ _ decoded => decoded.earlier quiet)
      fun _ => id
  cases spelled : place.node with
  | str body =>
      rw [nodeType, decodeAs, Action.wp_bind]
      refine wp_getter lib' at_ .getStr fun s'' quiet' lib'' => ?_
      rw [readNode, spelled]
      exact leaf (by rw [spelled]; rfl) (quiet.trans quiet') lib'' (by rw [spelled]; rfl)
  | empty kind blank =>
      cases kind <;> exact container (by rw [spelled]; rfl)
  | node kind entries =>
      cases kind <;> exact container (by rw [spelled]; rfl)
  | scalar token =>
      rw [spelled] at valid
      have noKind : place.node.kind? = none := by rw [spelled]; rfl
      have text : scalarText place = .ok token := by rw [scalarText, spelled]
      have bool (b : Bool) (boolean : boolOf token = .ok b)
          (isLeaf : IsLeaf env place.node (.bool b)) :
          Action.Wp (decodeAs env parent d place.cursor .bool) s'
            (Decoded env forest parent d place s) (Refused env forest place s) := by
        rw [decodeAs, Action.wp_bind]
        refine wp_getter lib' at_ .getBool fun s'' quiet' lib'' => ?_
        rw [readNode, text, ok_bind, boolean]
        exact leaf noKind (quiet.trans quiet') lib'' isLeaf
      cases valid with
      | true => exact bool true rfl (by rw [spelled]; exact .inr (.inl ⟨rfl, rfl⟩))
      | false =>
          exact bool false rfl (by rw [spelled]; exact .inr (.inr (.inl ⟨rfl, rfl⟩)))
      | null => exact leaf noKind quiet lib' (by rw [spelled]; exact .inl ⟨rfl, rfl⟩)
      | number number =>
          rw [nodeType_number number, decodeAs, Action.wp_bind]
          refine wp_getter lib' at_ .getF64 fun s'' quiet' lib'' => ?_
          rw [readNode, text, ok_bind]
          have refused {code : QjsonErr} (failed : parseF64 env.std token false = fail code) :
              Refused env forest place s s'' := by
            refine ⟨⟨token, spelled, number, fun x read => ?_⟩, quiet.trans quiet', lib''⟩
            rw [failed] at read
            cases read
          rcases @parseF64_number F env.std token number with ⟨x, read⟩ | failed | failed
          · rw [read]
            exact leaf noKind (quiet.trans quiet') lib''
              (by rw [spelled]; exact .inr (.inr (.inr ⟨number, x, read, rfl⟩)))
          · rw [failed]
            exact refused failed
          · rw [failed]
            exact refused failed

end Decode

end QJson.Table
