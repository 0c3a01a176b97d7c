import QJson.Table.Proxies

/-!
# Materialization

`qjson.materialize` of `src/lua/qjson/table.lua`.  The functions call themselves on the
children of a proxy; `room` is what is left of the stack of Lua, which raises an error when
it overflows.  A table under construction is local to the call that returns it, so it is
put into the heap when it is complete.
-/

namespace QJson.Table

open Rfc8259 Validate Doc Decode Ffi Lua

variable {F : Type} [DecidableEq F] (env : Env F)

/-- The error of Lua when a call has no room on the stack. -/
def stackOverflow : LuaError := .runtime "stack overflow"

/-- `string.sub(source, bs + 1, be)` -/
def sub (source : Bytes) (bs be : Nat) : Bytes := (source.drop bs).take (be - bs)

/-- A new plain table without side entries, with `empty_array_mt` when `#out == 0`. -/
def newPlain (kind : Kind) (out : Map (Key F) (Value F)) : Act F (Value F) := do
  let r ← newTable (.plain ⟨out, kind = .arr ∧ env.length out = 0, none, none⟩)
  return .table r

/-! ## Without provenance -/

section Plain

variable (recur : Option (Value F) → Act F (Option (Value F)))

/-- The failed assertion about a key; one character of the message is one byte of the key. -/
def missingKey (k : Bytes) : LuaError :=
  .message ("qjson: internal invariant violated (ORDER_VALUES missing key " ++
    String.ofList (k.map fun b => Char.ofNat b.toNat) ++ ")")

/-- `materialize_plain` on the entries of a proxy in `ORDER_KEYS` order. -/
def materializeOrdered (order : Order F) : Act F (Map (Key F) (Value F)) :=
  order.keys.foldlM (fun out k => do
    match order.values.lookup k with
    | none => Action.raise (missingKey k)
    | some val =>
        let w ← recur (some val)
        return put out (.str k) w) ∅

/-- `materialize_plain` on the entries of a proxy in source order. -/
def materializeContents (view : Nat) (contents : List (Bytes × Option (Value F))) :
    Act F (Map (Key F) (Value F)) :=
  contents.foldlM (fun out kv => do
    let cached ← cachedChild view kv.1
    let w ← recur (luaOr cached kv.2)
    return put out (.str kv.1) w) ∅

/-- `materialize_plain` on the elements of a proxy. -/
def materializeElements (view : Nat) (raw : List (Option (Value F))) :
    Act F (Map (Key F) (Value F)) :=
  ((raw.takeWhile Option.isSome).zipIdx 1).foldlM (fun out x => do
    let cached ← rawElem view x.2
    let w ← recur (luaOr cached x.1)
    return put out (.idx x.2) w) ∅

/-- `materialize_plain` on a proxy. -/
def materializePlainProxy (view : Nat) (q : Proxy F) : Act F (Value F) :=
  match q.kind with
  | .obj =>
      if q.order.isSome ∨ q.dirty then do
        let order ← ensureObjectOrderState env view q
        let out ← materializeOrdered recur order
        newPlain env .obj out
      else do
        let contents ← materializeObjectContents env view q
        let out ← materializeContents recur view contents
        newPlain env .obj out
  | .arr => do
      let raw ← materializeArrayContents env view q
      let out ← materializeElements recur view raw
      newPlain env .arr out

end Plain

/-- `materialize_plain`. -/
def materializePlain : Nat → Option (Value F) → Act F (Option (Value F))
  | 0, _ => Action.raise stackOverflow
  | room + 1, v => do
      let s ← Action.get
      match v with
      | some (.table r) =>
          match s.proxy? r with
          | some q =>
              let out ← materializePlainProxy env (materializePlain room) r q
              return some out
          | none => return v
      | _ => return v

/-! ## With provenance -/

/-- `ORIGIN_STRING_MIN_RAW` and `ORIGIN_TABLE_MIN_RAW`. -/
def originStringMinRaw : Nat := 24
@[inherit_doc originStringMinRaw] def originTableMinRaw : Nat := 64

/-- `TABLE_ORIGIN[v]`. -/
def State.originOf (s : State F) : Option (Value F) → Option Nat
  | some (.table r) => (s.plain? r).bind fun p => p.origin
  | _ => none

/-- `origin_child_record`. -/
def originChildRecord (s : State F) (v : Option (Value F)) (source : Bytes) (bs be : Nat) :
    Option (Record F) :=
  match v with
  | some (.str text) =>
      if originStringMinRaw < be - bs then some (.string text (sub source bs be)) else none
  | _ =>
      match s.originOf v with
      | none => none
      | some o =>
          match s.origins[o]? with
          | none => none
          | some origin =>
              if origin.complete ∧ originTableMinRaw < origin.be - origin.bs then
                some (.table o)
              else none

/-- `cursor_token_span`. -/
def cursorTokenSpan (doc : Nat) (cur : Cursor) : Act F (Nat × Nat) := do
  match ← access doc none fun document cache => (qjsonCursorBytes document cur, cache) with
  | some (.range start stop) => Action.modify fun s => { s with sz := (start, stop) }
  | _ => pure ()
  let s ← Action.get
  return s.sz

/-- The locals of `materialize_object_with_origin` and of its sibling for arrays. -/
structure Walk (F : Type) [DecidableEq F] where
  out : Map (Key F) (Value F)
  keys : List Bytes
  records : Map (Key F) (Record F)
  hadDuplicates : Bool
  complete : Bool

/-- The locals at the start. -/
def Walk.start : Walk F := ⟨∅, [], ∅, false, true⟩

/-- A child and its record. -/
def Walk.add (w : Walk F) (key : Key F) (v : Option (Value F)) (record : Option (Record F)) :
    Walk F :=
  { w with
    out := put w.out key v
    records := put w.records key record
    complete := w.complete && record.isSome }

/-- `_doc._hold` -/
def hold (doc : Nat) : Act F Bytes := do
  let s ← Action.get
  return ((s.docs[doc]?).map Document.buf).getD []

section Origins

variable (recur : Option (Value F) → Act F (Option (Value F)))

/-- One entry of the walk of `materialize_object_with_origin`. -/
def originEntry (view : Nat) (q : Proxy F) (w : Walk F) (key : Bytes) (value : Cursor) :
    Act F (Walk F) := do
  let first := key ∉ w.keys
  let span ← cursorTokenSpan q.doc value
  let cached ← if first then cachedChild view key else pure none
  let child ← match cached with
    | some child => pure (some child)
    | none => decodeCursor env (some view) q.doc value
  let v ← recur child
  let source ← hold q.doc
  let s ← Action.get
  let w := if first then { w with keys := w.keys ++ [key] } else { w with hadDuplicates := true }
  return w.add (.str key) v (originChildRecord s v source span.1 span.2)

/-- One element of the walk of `materialize_array_with_origin`. -/
def originElement (view : Nat) (q : Proxy F) (w : Walk F) (i : Nat) (value : Cursor) :
    Act F (Walk F) := do
  let span ← cursorTokenSpan q.doc value
  let cached ← rawElem view (i + 1)
  let child ← if truthy cached then pure cached else decodeCursor env (some view) q.doc value
  let v ← recur child
  let source ← hold q.doc
  let s ← Action.get
  return w.add (.idx (i + 1)) v (originChildRecord s v source span.1 span.2)

/-- A new plain table with its provenance record. -/
def newOriginTable (q : Proxy F) (w : Walk F) : Act F (Value F) := do
  let source ← hold q.doc
  let o ← newOrigin ⟨q.kind, w.complete, source, q.bs, q.be, w.keys, env.length w.out,
    w.records, w.hadDuplicates⟩
  let r ← newTable (.plain ⟨w.out, q.kind = .arr ∧ env.length w.out = 0,
    if q.kind = .obj then some .obj else none, some o⟩)
  return .table r

/-- `materialize_object_with_origin` and `materialize_array_with_origin`. -/
def materializeOriginProxy (view : Nat) (q : Proxy F) : Act F (Value F) := do
  let w ← match q.kind with
    | .obj => forEntries env q (originEntry env recur view q) Walk.start
    | .arr => forElements q (originElement env recur view q) Walk.start
  newOriginTable env q w

end Origins

/-- `materialize_with_origin`. -/
def materializeWithOrigin : Nat → Option (Value F) → Act F (Option (Value F))
  | 0, _ => Action.raise stackOverflow
  | room + 1, v => do
      let s ← Action.get
      match v with
      | some (.table r) =>
          match s.proxy? r with
          | some q =>
              if q.dirty then materializePlain env room v
              else do
                let out ← materializeOriginProxy env (materializeWithOrigin room) r q
                return some out
          | none => return v
      | _ => return v

/-- `qjson.materialize`, with or without `keep_origin`. -/
def materialize (room : Nat) (keepOrigin : Bool) (v : Option (Value F)) :
    Act F (Option (Value F)) :=
  if keepOrigin then materializeWithOrigin env room v else materializePlain env room v

end QJson.Table
