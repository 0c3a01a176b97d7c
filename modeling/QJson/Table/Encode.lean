import QJson.Table.Materialize

/-!
# Encoding

`qjson.encode` of `src/lua/qjson/table.lua`.  Where the source counts the depth up to
`ENCODE_MAX_DEPTH`, the functions here count down what is left of it (`room`), so that
`depth > ENCODE_MAX_DEPTH` is `room = 0`.  The tables on the way from the root are `active`.
-/

namespace QJson.Table

open Rfc8259 Validate Doc Decode Ffi Lua

variable {F : Type} [DecidableEq F] (env : Env F)

/-! ## Scalars -/

/-- `ESCAPES`: the byte behind the backslash. -/
def escapeOf (b : UInt8) : Option UInt8 :=
  if b = 0x22 then some 0x22
  else if b = 0x5C then some 0x5C
  else if b = 0x0A then some 0x6E
  else if b = 0x0D then some 0x72
  else if b = 0x09 then some 0x74
  else if b = 0x08 then some 0x62
  else if b = 0x0C then some 0x66
  else none

/-- A digit of `%x`. -/
def hexDigit (n : Nat) : UInt8 :=
  if n < 10 then UInt8.ofNat (0x30 + n) else UInt8.ofNat (0x57 + n)

/-- `string.format('\\u%04x', b)` -/
def unitEscape (b : UInt8) : Bytes :=
  [0x5C, 0x75, 0x30, 0x30, hexDigit (b.toNat / 16), hexDigit (b.toNat % 16)]

/-- What `encode_string` writes for a byte. -/
def escapeByte (b : UInt8) : Bytes :=
  match escapeOf b with
  | some esc => [0x5C, esc]
  | none => if b < 0x20 then unitEscape b else [b]

/-- `encode_string`. -/
def encodeString (s : Bytes) : Bytes := 0x22 :: (s.flatMap escapeByte ++ [0x22])

/-- `encode_number`. -/
def encodeNumber (x : F) : Act F Bytes := do
  let s ← Action.get
  if ¬ env.numbers.isFinite x then
    Action.raise (.message "qjson.encode: cannot encode non-finite number")
  else if env.numbers.isInteger x then return env.numbers.formatD x
  else return env.numbers.formatG s.settings.precision x

/-- `tostring` of a key that is a number; other keys raise an error. -/
def keyString : Key F → Except LuaError Bytes
  | .str key => .ok key
  | .idx n => .ok (env.numbers.toString (env.numbers.ofNat n))
  | .num x => .ok (env.numbers.toString x)
  | .val v => .error (.message
      ("qjson.encode: object key must be a string or number, got " ++ typeName env (some v)))

/-! ## Containers -/

/-- `ENCODE_MAX_DEPTH` -/
def encodeMaxDepth : Nat := 1000

/-- `ENCODE_DEPTH_ERROR` and `ENCODE_CYCLE_ERROR`. -/
def depthError : LuaError := .message "qjson.encode: max depth exceeded"
@[inherit_doc depthError] def cycleError : LuaError :=
  .message "qjson.encode: circular reference"

/-- The text of a member. -/
def member (key value : Bytes) : Bytes := encodeString key ++ 0x3A :: value

/-- `"{" .. table.concat(parts, ",") .. "}"`, or with square brackets. -/
def bracketed (kind : Kind) (parts : List Bytes) : Bytes :=
  kind.opener :: ([0x2C].intercalate parts ++ [kind.closer])

/-- `classify_plain_table`: the last index of an array, or nothing for an object.  The key
`math.huge` is an index as well, `hugeIndex`. -/
def classifyPlainTable (settings : Settings) (p : Plain F) : Except LuaError (Option Nat) :=
  let keys := (env.order p.entries).map Prod.fst
  let indices := keys.filterMap fun key => match key with
    | .idx n => some n
    | _ => none
  let max := indices.foldl Nat.max 0
  if keys = [] ∨ indices.length ≠ keys.length then .ok none
  else if 0 < settings.sparseRatio ∧ settings.sparseSafe < max ∧
      keys.length * settings.sparseRatio < max then
    if settings.sparseConvert then .ok none
    else .error (.message "Cannot serialise table: excessively sparse array")
  else .ok (some max)

/-- An outcome, raised when it is an error. -/
def lift {α : Type} : Except LuaError α → Act F α
  | .ok value => pure value
  | .error error => Action.raise error

section Walks

variable (room : Nat) (recur : Option (Value F) → Act F Bytes)

/-- The check that opens every walk. -/
def guarded {α : Type} (walk : Act F α) : Act F α :=
  if room = 0 then Action.raise depthError else walk

/-- `encode_lazy_object_walking`. -/
def encodeLazyObjectWalking (t : Nat) (q : Proxy F) : Act F Bytes :=
  guarded room do
    let order ← ensureObjectOrderState env t q
    let parts ← order.keys.foldlM (fun parts k =>
      match order.values.lookup k with
      | none => pure parts
      | some v => do
          let text ← recur (some v)
          return parts ++ [member k text]) []
    return bracketed .obj parts

/-- `encode_lazy_array_walking`.  `qjson_cursor_index` finds every element below the
length. -/
def encodeLazyArrayWalking (t : Nat) (q : Proxy F) : Act F Bytes :=
  guarded room do
    let n ← match ← getter env q.doc (some .container) q.cur .len with
      | some (.count n) => pure n
      | _ => Action.raise (.runtime "no length")
    let parts ← (List.range n).foldlM (fun parts i => do
      match ← access q.doc (some (.type .arr)) fun document cache =>
          qjsonCursorIndex document cache q.cur i with
      | some (.cursor child) =>
          let v ← match ← rawElem t (i + 1) with
            | some cached => pure (some cached)
            | none => decodeCursor env (some t) q.doc child
          let text ← recur v
          return parts ++ [text]
      | _ => Action.raise (.runtime "no element")) []
    return bracketed .arr parts

/-- `encode_proxy`. -/
def encodeProxy (t : Nat) (q : Proxy F) : Act F Bytes :=
  if ¬ q.dirty then do
    let source ← hold q.doc
    return sub source q.bs q.be
  else
    match q.kind with
    | .obj => encodeLazyObjectWalking env room recur t q
    | .arr => encodeLazyArrayWalking env room recur t q

/-- Where `for i = 1, n` gets no further: the number behind is rounded to it. -/
def loopEnd : Nat := 2 ^ 53

/-- `encode_array`.  With an `n` from `loopEnd` on, `math.huge` among them, its loop never
ends: it comes by the indices up to `loopEnd` and returns nothing. -/
def encodeArray (p : Plain F) (n : Nat) : Act F Bytes :=
  guarded room do
    let parts ← (List.range (min n loopEnd)).foldlM (fun parts i => do
      let text ← recur (p.entries.lookup (.idx (i + 1)))
      return parts ++ [text]) []
    if loopEnd ≤ n then Action.raise (.runtime "endless loop")
    else return bracketed .arr parts

/-- The members of a table in the order of `next`. -/
def encodeMembers (entries : List (Key F × Value F)) (parts : List Bytes) : Act F (List Bytes) :=
  entries.foldlM (fun parts e => do
    let key ← lift (keyString env e.1)
    let text ← recur (some e.2)
    return parts ++ [member key text]) parts

/-- `encode_object`. -/
def encodeObject (p : Plain F) : Act F Bytes :=
  guarded room do
    let parts ← encodeMembers env recur (env.order p.entries) []
    return bracketed .obj parts

end Walks

/-! ## Provenance -/

section Matches

variable (recur : Option (Record F) → Option (Value F) → Act F Bool)

/-- `origin_object_fully_matches` behind its depth check. -/
def originObjectFullyMatches (p : Plain F) (origin : Origin F) : Act F Bool :=
  if ¬ origin.complete ∨ origin.hadDuplicates then pure false
  else do
    let same ← (env.order p.entries).allM fun e => recur (origin.records.lookup e.1) (some e.2)
    return same && origin.keys.all fun k => (p.entries.lookup (.str k)).isSome

/-- `origin_array_fully_matches` behind its depth check. -/
def originArrayFullyMatches (p : Plain F) (origin : Origin F) : Act F Bool :=
  if ¬ origin.complete ∨ env.length p.entries ≠ origin.len then pure false
  else do
    let same ← (List.range origin.len).allM fun i =>
      recur (origin.records.lookup (.idx (i + 1))) (p.entries.lookup (.idx (i + 1)))
    return same && (env.order p.entries).all fun e => match e.1 with
      | .idx n => n ≤ origin.len
      | _ => false

/-- The function for the kind of a record. -/
def originFullyMatches (p : Plain F) (origin : Origin F) : Act F Bool :=
  match origin.kind with
  | .obj => originObjectFullyMatches env recur p origin
  | .arr => originArrayFullyMatches env recur p origin

end Matches

/-- `origin_record_matches`.  A table is matched where the depth is checked before its
entries are. -/
def originRecordMatches : Nat → List Nat → Option (Record F) → Option (Value F) → Act F Bool
  | _, _, none, _ => pure false
  | _, _, some (.string value _), v => pure (v = some (.str value))
  | room, active, some (.table o), v =>
      match v with
      | some (.table r) => do
          let s ← Action.get
          if r ∈ active then Action.raise cycleError
          else
            match s.plain? r with
            | none => return false
            | some p =>
                match p.origin, s.origins[o]? with
                | some o', some origin =>
                    if o' ≠ o then return false
                    else
                      match room with
                      | 0 => Action.raise depthError
                      | room + 1 =>
                          originFullyMatches env (originRecordMatches room (r :: active)) p
                            origin
                | _, _ => return false
      | _ => pure false

/-- `origin_table_slice`. -/
def originTableSlice (origin : Origin F) : Bytes := sub origin.source origin.bs origin.be

section Walks

variable (room : Nat) (active : List Nat) (recur : Option (Value F) → Act F Bytes)

/-- The question that `encode_object_with_origin` and `encode_array_with_origin` ask
first. -/
def fullyMatches (p : Plain F) (origin : Origin F) : Act F Bool :=
  originFullyMatches env (originRecordMatches env (room - 1) active) p origin

/-- `encode_origin_child`. -/
def encodeOriginChild (v : Value F) (record : Option (Record F)) : Act F Bytes :=
  match record with
  | some (.string value raw) => if v = .str value then pure raw else recur (some v)
  | _ => recur (some v)

/-- The members of a table that were in the source, in the order of the source. -/
def encodeSourceMembers (p : Plain F) (origin : Origin F) : Act F (List Bytes) :=
  origin.keys.foldlM (fun parts key =>
    match p.entries.lookup (.str key) with
    | none => pure parts
    | some v => do
        let text ← encodeOriginChild recur v (origin.records.lookup (.str key))
        return parts ++ [member key text]) []

/-- `encode_object_with_origin`. -/
def encodeObjectWithOrigin (p : Plain F) (origin : Origin F) : Act F Bytes :=
  guarded room do
    if ← fullyMatches env room active p origin then return originTableSlice origin
    else
      let parts ← encodeSourceMembers recur p origin
      let others := (env.order p.entries).filter fun e => match e.1 with
        | .str key => key ∉ origin.keys
        | _ => true
      let parts ← encodeMembers env recur others parts
      return bracketed .obj parts

/-- `encode_array_with_origin`. -/
def encodeArrayWithOrigin (p : Plain F) (origin : Origin F) : Act F Bytes :=
  guarded room do
    if ← fullyMatches env room active p origin then return originTableSlice origin
    else
      let s ← Action.get
      match ← lift (classifyPlainTable env s.settings p) with
      | some max => encodeArray room recur p max
      | none => encodeObject env room recur p

/-- `encode_plain_table`. -/
def encodePlainTable (p : Plain F) : Act F Bytes := do
  let s ← Action.get
  match p.origin.bind fun o => s.origins[o]? with
  | some origin =>
      match origin.kind with
      | .obj => encodeObjectWithOrigin env room active recur p origin
      | .arr => encodeArrayWithOrigin env room active recur p origin
  | none =>
      if p.emptyArray then encodeArray room recur p (env.length p.entries)
      else
        match p.hint with
        | some .obj => encodeObject env room recur p
        | some .arr => encodeArray room recur p (env.length p.entries)
        | none =>
            match ← lift (classifyPlainTable env s.settings p) with
            | some max => encodeArray room recur p max
            | none => encodeObject env room recur p

end Walks

/-! ## Values -/

/-- `encode` on a value, with the function for its children. -/
def encodeValue (room : Nat) (recur : List Nat → Option (Value F) → Act F Bytes)
    (active : List Nat) : Option (Value F) → Act F Bytes
  | none | some .null => pure litNull
  | some (.str s) => pure (encodeString s)
  | some (.num x) => encodeNumber env x
  | some (.bool b) => pure (if b then litTrue else litFalse)
  | some (.int64 n) => pure (env.numbers.int64Text n)
  | some (.table r) => do
      if r ∈ active then Action.raise cycleError
      else
        let s ← Action.get
        match s.tables[r]? with
        | some (.proxy q) => encodeProxy env room (recur (r :: active)) r q
        | some (.plain p) => encodePlainTable env room (r :: active) (recur (r :: active)) p
        | none => Action.raise (.runtime "attempt to index a nil value")
  | some (.foreign v) =>
      Action.raise (.message ("qjson.encode: unsupported value type: " ++
        typeName env (some (.foreign v))))

/-- `encode`. -/
def encodeAt : Nat → List Nat → Option (Value F) → Act F Bytes
  | 0 => encodeValue env 0 fun _ _ => Action.raise depthError
  | room + 1 => encodeValue env (room + 1) (encodeAt room)

/-- The longest string of LuaJIT. -/
def luaMaxString : Nat := 0x7fffff00

/-- `qjson.encode`. -/
def encode (v : Option (Value F)) : Act F Bytes := do
  let text ← encodeAt env encodeMaxDepth [] v
  if luaMaxString < text.length then Action.raise (.runtime "not enough memory")
  else return text

/-! ## Settings -/

/-- `encode_number_precision` with an argument. -/
def encodeNumberPrecision (precision : Nat) : Act F Nat := do
  if precision < 1 ∨ 14 < precision then
    Action.raise (.message "expected integer between 1 and 14")
  else
    let s ← Action.get
    Action.modify fun s => { s with settings := { s.settings with precision := precision } }
    return s.settings.precision

/-- `encode_sparse_array` with three arguments or fewer. -/
def encodeSparseArray (convert : Option Bool) (ratio safe : Option Nat) : Act F Unit :=
  Action.modify fun s => { s with settings := { s.settings with
    sparseConvert := convert.getD s.settings.sparseConvert
    sparseRatio := ratio.getD s.settings.sparseRatio
    sparseSafe := safe.getD s.settings.sparseSafe } }

end QJson.Table
