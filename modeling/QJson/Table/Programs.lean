import QJson.Table.Encode

/-!
# Programs over lazy proxies

A program decodes texts, makes plain tables, reads, writes and loops over tables, and
encodes and materializes values, in any order; it catches errors and goes on.
-/

namespace QJson.Table

open Rfc8259 Validate Doc Decode Ffi Lua

/-- A step of a program.  Tables and loops are referred to by position. -/
inductive Op (F : Type) where
  | decode (text : Bytes)
  | newTable (emptyArray : Bool)
  | index (t : Nat) (k : Option (Value F))
  | newindex (t : Nat) (k v : Option (Value F))
  | pairs (t : Nat)
  | ipairs (t : Nat)
  | next (loop : Nat)
  | len (t : Nat)
  | materialize (room : Nat) (keepOrigin : Bool) (v : Option (Value F))
  | encode (v : Option (Value F))
  | encodeNumberPrecision (precision : Nat)
  | encodeSparseArray (convert : Option Bool) (ratio safe : Option Nat)

/-- What a step returns. -/
inductive Reply (F : Type) where
  | value (v : Option (Value F))
  | field (key : Bytes) (v : Option (Value F))
  | element (i : Nat) (v : Option (Value F))
  | count (n : Nat)
  | loop (loop : Nat)
  | text (text : Bytes)
  | nothing

section Steps

variable {F : Type} [DecidableEq F] (env : Env F)

/-- One round of a loop over a proxy. -/
def nextRound (loop : Nat) : Act F (Reply F) := do
  let s ← Action.get
  match s.loops[loop]? with
  | none => return .nothing
  | some (.ordered view i) =>
      setLoop loop (.ordered view (i + 1))
      match (s.proxy? view).bind fun q => q.order with
      | none => return .nothing
      | some order =>
          match order.keys[i]? with
          | none => return .nothing
          | some key => return .field key (order.values.lookup key)
  | some (.entries view it seen) =>
      match s.proxy? view with
      | none => return .nothing
      | some q =>
          match ← lazyObjectIter env loop view q it seen with
          | none => return .nothing
          | some entry => return .field entry.1 entry.2
  | some (.elements view i) =>
      match ← lazyArrayIter env loop view i with
      | none => return .nothing
      | some element => return .element element.1 element.2

/-- What a step does. -/
def Op.run : Op F → Act F (Reply F)
  | .decode text => do
      let v ← Table.decode env text
      return .value v
  | .newTable emptyArray => do
      let r ← Table.newTable (.plain ⟨∅, emptyArray, none, none⟩)
      return .value (some (.table r))
  | .index t k => do
      let v ← Table.index env t k
      return .value v
  | .newindex t k v => do
      Table.newindex env t k v
      return .nothing
  | .pairs t => do
      let s ← Action.get
      match s.proxy? t with
      | none => return .nothing
      | some q =>
          match q.kind with
          | .obj =>
              let loop ← objectPairs t q
              return .loop loop
          | .arr =>
              let loop ← arrayIpairs t
              return .loop loop
  | .ipairs t => do
      let s ← Action.get
      match s.proxy? t with
      | none => return .nothing
      | some q =>
          match q.kind with
          | .obj => return .nothing
          | .arr =>
              let loop ← arrayIpairs t
              return .loop loop
  | .next loop => nextRound env loop
  | .len t => do
      let s ← Action.get
      match s.tables[t]? with
      | none => Action.raise (.runtime "attempt to get length of a nil value")
      | some (.plain p) => return .count (env.length p.entries)
      | some (.proxy q) =>
          let n ← lazyLen env q
          return .count n
  | .materialize room keepOrigin v => do
      let w ← Table.materialize env room keepOrigin v
      return .value w
  | .encode v => do
      let text ← Table.encode env v
      return .text text
  | .encodeNumberPrecision precision => do
      let old ← Table.encodeNumberPrecision precision
      return .count old
  | .encodeSparseArray convert ratio safe => do
      Table.encodeSparseArray convert ratio safe
      return .nothing

end Steps

/-! ## Sessions -/

section Sessions

variable {F : Type}

/-- A value whose table is there. -/
def Value.Below (n : Nat) : Value F → Prop
  | .table r => r < n
  | _ => True

/-- A value or `nil`. -/
def Held (n : Nat) (v : Option (Value F)) : Prop := ∀ w, v = some w → w.Below n

/-- A key of a proxy's own raw fields. -/
def IsRawField (k : Option (Value F)) : Prop := ∃ name ∈ rawFields, k = some (.str name)

/-- The steps that programs can take: texts are strings of Lua, values are held, and the
raw fields of proxies are not written. -/
def Op.Proper (s : State F) : Op F → Prop
  | .decode text => text.length ≤ luaMaxString
  | .newindex t k v => Held s.tables.length k ∧ Held s.tables.length v ∧
      ((s.proxy? t).isSome → ¬ IsRawField k)
  | .materialize _ _ v | .encode v => Held s.tables.length v
  | _ => True

/-- The states that programs lead to. -/
inductive Session [DecidableEq F] (env : Env F) (allowed : State F → Op F → Prop) :
    State F → Prop where
  | start : Session env allowed (State.start F)
  | step {s : State F} {op : Op F} :
      Session env allowed s → allowed s op → Session env allowed (op.run env s).2

end Sessions

end QJson.Table
