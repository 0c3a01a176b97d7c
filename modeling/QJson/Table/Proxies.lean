import QJson.Table.Values

/-!
# Lazy proxies

The part of `src/lua/qjson/table.lua` that reads and writes through proxies.  A call of the
library runs on the document of a proxy and shares its skip cache with every other call.

Assignments to the seven names of a proxy's own raw fields are not among the writes here.
-/

namespace QJson.Table

open Rfc8259 Validate Doc Decode Ffi Lua

variable {F : Type} [DecidableEq F] (env : Env F)

/-! ## Calls of the library -/

/-- A call of the library on a document. -/
def callLib (doc : Nat) (run : Document → SkipCache → Located (Output F) × SkipCache) :
    Act F (Except QjsonErr (Output F)) := fun s =>
  match s.docs[doc]?, s.cells[doc]? with
  | some document, some cells =>
      let result := run document cells.cache
      (.ok (ffiCatch result.1),
        { s with cells := s.cells.set doc ⟨result.2, offsetBehind document result.1⟩ })
  | _, _ => (.ok (.error .invalidArg), s)

/-- `check`: the output, nothing when there is no such value, or an error with
`qjson_doc_last_error_offset`. -/
def check (doc : Nat) (expected : Option Expected) :
    Except QjsonErr (Output F) → Act F (Option (Output F))
  | .ok output => pure (some output)
  | .error .notFound => pure none
  | .error code => do
      let s ← Action.get
      Action.raise (.access code (((s.cells[doc]?).map Cells.lastErrorOffset).getD noOffset)
        expected)

/-- A call and the check behind it. -/
def access (doc : Nat) (expected : Option Expected)
    (run : Document → SkipCache → Located (Output F) × SkipCache) :
    Act F (Option (Output F)) :=
  callLib doc run >>= check doc expected

/-- A getter on the value under a cursor. -/
def getter (doc : Nat) (expected : Option Expected) (cur : Cursor) (g : Getter) :
    Act F (Option (Output F)) :=
  access doc expected fun document cache => g.onCursor env.host document cache cur []

/-! ## Decoding -/

/-- `wrap_child`.  When `qjson_cursor_bytes` fails, `sz_a` and `sz_b` are what they were. -/
def wrapChild (kind : Kind) (parent : Option Nat) (doc : Nat) (cur : Cursor) :
    Act F (Proxy F) := do
  match ← callLib doc fun document cache => (qjsonCursorBytes document cur, cache) with
  | .ok (.range start stop) => Action.modify fun s => { s with sz := (start, stop) }
  | _ => pure ()
  let s ← Action.get
  return ⟨kind, parent, false, doc, cur, s.sz.1, s.sz.2, none, ∅, ∅⟩

/-- `decode_cursor` on a value of a type. -/
def decodeAs (parent : Option Nat) (doc : Nat) (cur : Cursor) :
    QjsonType → Act F (Option (Value F))
  | .str => do
      match ← getter env doc (some (.type .str)) cur .getStr with
      | some (.text bytes) => return some (.str bytes)
      | _ => return none
  | .num => do
      match ← getter env doc (some (.type .num)) cur .getF64 with
      | some (.float x) => return some (.num x)
      | _ => return none
  | .bool => do
      match ← getter env doc (some (.type .bool)) cur .getBool with
      | some (.flag b) => return some (.bool b)
      | _ => return none
  | .null => return some .null
  | .obj => do
      let r ← newTable (.proxy (← wrapChild .obj parent doc cur))
      return some (.table r)
  | .arr => do
      let r ← newTable (.proxy (← wrapChild .arr parent doc cur))
      return some (.table r)

/-- `decode_cursor`. -/
def decodeCursor (parent : Option Nat) (doc : Nat) (cur : Cursor) :
    Act F (Option (Value F)) := do
  match ← getter env doc none cur .typeof with
  | some (.type type) => decodeAs env parent doc cur type
  | _ => return none

/-! ## Reads -/

/-- `cached_child`. -/
def cachedChild (view : Nat) (key : Bytes) : Act F (Option (Value F)) := do
  let s ← Action.get
  return (s.proxy? view).bind fun q => q.childCache.lookup key

/-- `get_child_cache(view)[key] = v`; `nil` clears the entry. -/
def setCachedChild (view : Nat) (key : Bytes) (v : Option (Value F)) : Act F Unit :=
  Action.modify fun s => s.updateProxy view fun q =>
    { q with childCache := put q.childCache key v }

/-- `rawget(view, i)` on an array. -/
def rawElem (view : Nat) (i : Nat) : Act F (Option (Value F)) := do
  let s ← Action.get
  return (s.proxy? view).bind fun q => q.elems.lookup i

/-- `read_object_field` on a string key. -/
def readObjectField (self : Nat) (q : Proxy F) (key : Bytes) : Act F (Option (Value F)) :=
  match q.order with
  | some order => return order.values.lookup key
  | none =>
      match q.childCache.lookup key with
      | some child => return some child
      | none => do
          match ← access q.doc (some (.type .obj)) fun document cache =>
              qjsonCursorField document cache q.cur key with
          | some (.cursor child) =>
              let v ← decodeCursor env (some self) q.doc child
              if isTable env v then setCachedChild self key v
              return v
          | _ => return none

/-- `read_array_index` on a number. -/
def readArrayIndex (self : Nat) (q : Proxy F) (x : F) : Act F (Option (Value F)) :=
  match env.numbers.offset x with
  | none => return none
  | some i => do
      match ← access q.doc (some (.type .arr)) fun document cache =>
          qjsonCursorIndex document cache q.cur i with
      | some (.cursor child) =>
          let v ← decodeCursor env (some self) q.doc child
          match isTable env v, toKey env (some (.num x)) with
          | true, some (.idx n) =>
              Action.modify fun s => s.updateProxy self fun q =>
                { q with elems := put q.elems n v }
          | _, _ => pure ()
          return v
      | _ => return none

/-- The names of the raw fields of a proxy. -/
def rawFields : List Bytes :=
  ["_parent", "_dirty", "_doc", "_cur_box", "_cur", "_bs", "_be"].map fun name =>
    name.toUTF8.toList

/-- `rawget` on a proxy. -/
def rawget (self : Nat) (q : Proxy F) : Key F → Option (Value F)
  | .str key =>
      if key = "_parent".toUTF8.toList then q.parent.map .table
      else if key = "_dirty".toUTF8.toList then some (.bool q.dirty)
      else if key = "_doc".toUTF8.toList then some (.foreign (.document q.doc))
      else if key = "_cur_box".toUTF8.toList then some (.foreign (.box self))
      else if key = "_cur".toUTF8.toList then some (.foreign (.cursor self))
      else if key = "_bs".toUTF8.toList then some (.num (env.numbers.ofNat q.bs))
      else if key = "_be".toUTF8.toList then some (.num (env.numbers.ofNat q.be))
      else none
  | .idx n => q.elems.lookup n
  | _ => none

/-- `t[k]` -/
def index (t : Nat) (k : Option (Value F)) : Act F (Option (Value F)) := do
  let s ← Action.get
  match s.tables[t]? with
  | none => Action.raise (.runtime "attempt to index a nil value")
  | some (.plain p) => return (toKey env k).bind p.entries.lookup
  | some (.proxy q) =>
      match (toKey env k).bind (rawget env t q) with
      | some v => return some v
      | none =>
          match q.kind, k with
          | .obj, some (.str key) => readObjectField env t q key
          | .arr, some (.num x) => readArrayIndex env t q x
          | _, _ => return none

/-! ## Loops over proxies -/

/-- `new_object_iter`. -/
def newObjectIter (q : Proxy F) : Act F Iter := do
  match ← access q.doc (some (.type .obj)) fun document cache =>
      (qjsonIterInit document q.cur, cache) with
  | some (.iter it) => return it
  | _ => Action.raise (.access .invalidArg noOffset none)

/-- `qjson_iter_next` until there is no further entry, with the body of the loop.  An
iterator makes fewer steps than its end is away. -/
def eachEntry {α : Type} (doc : Nat) (body : α → Bytes → Cursor → Act F α) :
    Nat → Iter → α → Act F α
  | 0, _, _ => Action.raise (.runtime "endless loop")
  | fuel + 1, it, acc => do
      match ← access doc none fun document cache => (qjsonIterNext env.host document it, cache) with
      | some (.next key value it) =>
          let acc ← body acc key value
          eachEntry doc body fuel it acc
      | _ => return acc

/-- The loop over the entries of an object. -/
def forEntries {α : Type} (q : Proxy F) (body : α → Bytes → Cursor → Act F α) (acc : α) :
    Act F α := do
  let it ← newObjectIter q
  eachEntry env q.doc body (it.idxEnd + 1 - it.idxCurrent) it acc

/-- `qjson_cursor_index` from an offset on until there is no further element, with the body
of the loop.  There are fewer elements than entries of the index. -/
def eachElement {α : Type} (q : Proxy F) (body : α → Nat → Cursor → Act F α) :
    Nat → Nat → α → Act F α
  | 0, _, _ => Action.raise (.runtime "endless loop")
  | fuel + 1, i, acc => do
      match ← access q.doc (some (.type .arr)) fun document cache =>
          qjsonCursorIndex document cache q.cur i with
      | some (.cursor child) =>
          let acc ← body acc i child
          eachElement q body fuel (i + 1) acc
      | _ => return acc

/-- The loop over the elements of an array. -/
def forElements {α : Type} (q : Proxy F) (body : α → Nat → Cursor → Act F α) (acc : α) :
    Act F α := do
  let s ← Action.get
  eachElement q body (((s.docs[q.doc]?).map fun doc => doc.indices.length).getD 0 + 1) 0 acc

/-- `LazyObject.__pairs`. -/
def objectPairs (view : Nat) (q : Proxy F) : Act F Nat :=
  match q.order with
  | some _ => newLoop (.ordered view 0)
  | none => do
      let it ← newObjectIter q
      newLoop (.entries view it [])

/-- `LazyArray.__ipairs`. -/
def arrayIpairs (view : Nat) : Act F Nat :=
  newLoop (.elements view 0)

/-- A loop moves on. -/
def setLoop (loop : Nat) (state : Loop) : Act F Unit :=
  Action.modify fun s => { s with loops := s.loops.set loop state }

/-- `lazy_object_iter`. -/
def lazyObjectIter (loop view : Nat) (q : Proxy F) (it : Iter) (seen : List Bytes) :
    Act F (Option (Bytes × Option (Value F))) := do
  match ← access q.doc none fun document cache => (qjsonIterNext env.host document it, cache) with
  | some (.next key value it) =>
      setLoop loop (.entries view it (key :: seen))
      if key ∈ seen then
        setCachedChild view key none
        let v ← decodeCursor env (some view) q.doc value
        return some (key, v)
      else
        match ← cachedChild view key with
        | some cached => return some (key, some cached)
        | none =>
            let v ← decodeCursor env (some view) q.doc value
            if isTable env v then setCachedChild view key v
            return some (key, v)
  | _ => return none

/-- `lazy_array_iter`; a promoted array has lost its cursor. -/
def lazyArrayIter (loop view i : Nat) : Act F (Option (Nat × Option (Value F))) := do
  let s ← Action.get
  match s.proxy? view with
  | none => Action.raise (.access .invalidArg noOffset (some (.type .arr)))
  | some q =>
      match ← access q.doc (some (.type .arr)) fun document cache =>
          qjsonCursorIndex document cache q.cur i with
      | some (.cursor child) =>
          setLoop loop (.elements view (i + 1))
          let v ← decodeCursor env (some view) q.doc child
          return some (i + 1, v)
      | _ => return none

/-- `lazy_len`. -/
def lazyLen (q : Proxy F) : Act F Nat := do
  match q.kind, q.order with
  | .obj, some order => return order.keys.length
  | _, _ =>
      match ← getter env q.doc (some .container) q.cur .len with
      | some (.count n) => return n
      | _ => return 0

/-! ## Writes -/

/-- `materialize_object_contents`. -/
def materializeObjectContents (view : Nat) (q : Proxy F) :
    Act F (List (Bytes × Option (Value F))) :=
  forEntries env q (fun out key value => do
    let v ← decodeCursor env (some view) q.doc value
    return out ++ [(key, v)]) []

/-- `materialize_array_contents`. -/
def materializeArrayContents (view : Nat) (q : Proxy F) : Act F (List (Option (Value F))) :=
  forElements q (fun out _ value => do
    let v ← decodeCursor env (some view) q.doc value
    return out ++ [v]) []

/-- One entry of the walk of `ensure_object_order_state`. -/
def orderEntry (view doc : Nat) (acc : Order F) (key : Bytes) (value : Cursor) :
    Act F (Order F) := do
  if key ∈ acc.keys then
    let v ← decodeCursor env (some view) doc value
    return { acc with values := put acc.values key v }
  else
    match ← cachedChild view key with
    | some cached => return ⟨acc.keys ++ [key], put acc.values key (some cached)⟩
    | none =>
        let v ← decodeCursor env (some view) doc value
        return ⟨acc.keys ++ [key], put acc.values key v⟩

/-- `ensure_object_order_state`. -/
def ensureObjectOrderState (view : Nat) (q : Proxy F) : Act F (Order F) :=
  match q.order with
  | some order => return order
  | none => do
      let order ← forEntries env q (orderEntry env view q.doc) ⟨[], ∅⟩
      Action.modify fun s => s.updateProxy view fun q => { q with order := some order }
      return order

/-- The loop of the `__newindex` functions that marks a view and its parents dirty, up to
the root or to a table that is no proxy any more.  Parents are older than their children. -/
def State.markDirty : Nat → Nat → State F → State F
  | 0, _, s => s
  | fuel + 1, r, s =>
      match s.proxy? r with
      | none => s
      | some q =>
          let s := s.updateProxy r fun q => { q with dirty := true }
          match q.parent with
          | none => s
          | some parent => s.markDirty fuel parent

/-- The update of `keys` and `values` by `t[k] = v`. -/
def Order.assign (order : Order F) (k : Bytes) (v : Option (Value F)) : Order F :=
  match v, order.values.lookup k with
  | none, _ => ⟨order.keys.erase k, order.values.erase k⟩
  | some v, none => ⟨order.keys ++ [k], order.values.insert k v⟩
  | some v, some _ => ⟨order.keys, order.values.insert k v⟩

/-- `LazyObject.__newindex`. -/
def objectNewindex (t : Nat) (q : Proxy F) (k v : Option (Value F)) : Act F Unit :=
  match k with
  | some (.str key) => do
      let order ← ensureObjectOrderState env t q
      Action.modify fun s => (s.markDirty s.tables.length t).updateProxy t fun q =>
        { q with order := some (order.assign key v) }
  | _ => Action.raise (.message ("qjson: object key must be a string, got " ++ typeName env k))

/-- `rawset` on a plain table. -/
def rawset (t : Nat) (k v : Option (Value F)) : Act F Unit :=
  match toKey env k with
  | none => Action.raise (.runtime "index is nil or NaN")
  | some key => Action.modify fun s => s.updatePlain t fun p =>
      { p with entries := put p.entries key v }

/-- The elements of an array as it is promoted: the raw entries, overwritten by the
contents up to the first that is missing, where a cached element goes before the one that
was decoded. -/
def promoted (elems : Map Nat (Value F)) (contents : List (Option (Value F))) :
    Map (Key F) (Value F) :=
  let cached := elems.entries.foldr (fun e map => map.insert (.idx e.1) e.2) ∅
  ((contents.takeWhile Option.isSome).zipIdx 1).foldl
    (fun map x => put map (.idx x.2) (luaOr (elems.lookup x.2) x.1)) cached

/-- `LazyArray.__newindex`. -/
def arrayNewindex (t : Nat) (q : Proxy F) (k v : Option (Value F)) : Act F Unit := do
  Action.modify fun s => s.markDirty s.tables.length t
  let contents ← materializeArrayContents env t q
  Action.modify fun s => { s with
    tables := s.tables.set t (.plain ⟨promoted q.elems contents, true, some .arr, none⟩) }
  rawset env t k v

/-- `t[k] = v` -/
def newindex (t : Nat) (k v : Option (Value F)) : Act F Unit := do
  let s ← Action.get
  match s.tables[t]? with
  | none => Action.raise (.runtime "attempt to index a nil value")
  | some (.plain _) => rawset env t k v
  | some (.proxy q) =>
      match q.kind, toKey env k with
      | .arr, some (.idx n) =>
          if n ∈ q.elems then
            -- The key is there, so that no metamethod is called.
            Action.modify fun s => s.updateProxy t fun q =>
              { q with elems := put q.elems n v }
          else arrayNewindex env t q k v
      | .arr, _ => arrayNewindex env t q k v
      | .obj, _ => objectNewindex env t q k v

/-! ## The root -/

/-- `qjson.parse` with default options. -/
def parse (text : Bytes) : Act F Nat := fun s =>
  match parseWithOptionsDetailed (dispatch env.scanner env.strings) text Options.default with
  | .ok document =>
      (.ok s.docs.length,
        { s with docs := s.docs ++ [document], cells := s.cells ++ [⟨SkipCache.new, noOffset⟩] })
  | .error (.err error) => (.error (.parse error), s)
  | .error .panic => (.error (.parse (ParseError.noOffset .oom)), s)

/-- `qjson.decode`. -/
def decode (text : Bytes) : Act F (Option (Value F)) := do
  let doc ← parse env text
  match ← access doc none fun document cache => Getter.open.onRoot env.host document cache [] with
  | some (.cursor root) =>
      match ← getter env doc none root .typeof with
      | some (.type type) =>
          match ← access doc none fun document cache => (qjsonCursorBytes document root, cache) with
          | some (.range start stop) =>
              Action.modify fun s => { s with sz := (start, stop) }
              let proxy (kind : Kind) : LuaTable F :=
                .proxy ⟨kind, none, false, doc, root, start, stop, none, ∅, ∅⟩
              match type with
              | .obj => do
                  let r ← newTable (proxy .obj)
                  return some (.table r)
              | .arr => do
                  let r ← newTable (proxy .arr)
                  return some (.table r)
              | _ => decodeCursor env none doc root
          | _ => Action.raise (.message "qjson: root byte-span failed")
      | _ => Action.raise (.message "qjson: root typeof failed")
  | _ => Action.raise (.message "qjson: open root failed")

end QJson.Table
