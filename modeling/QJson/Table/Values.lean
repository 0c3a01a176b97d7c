import Mathlib.Data.List.AList
import QJson.Action.Basic
import QJson.Lua.Cursors

/-!
# Lua values and the tables of the lazy wrapper

`src/lua/qjson/table.lua`.  Tables live in a heap and are referred to by position.  A table
is a lazy proxy (its metatable is `LazyObject` or `LazyArray`) or a plain one; a plain table
also carries its entries in the weak side tables `TABLE_TYPE_HINT` and `TABLE_ORIGIN`.
-/

namespace QJson.Table

open Rfc8259 Validate Doc Decode Ffi Lua

/-- A finite map, the content of a Lua table. -/
abbrev Map (κ α : Type) := AList fun _ : κ => α

/-- `t[k] = v` without metamethods: `nil` removes the key. -/
def put {κ α : Type} [DecidableEq κ] (map : Map κ α) (k : κ) : Option α → Map κ α
  | some v => map.insert k v
  | none => map.erase k

/-! ## Values -/

/-- The values that programs can see but that hold nothing for the wrapper: the fields
`_doc`, `_cur` and `_cur_box` of a proxy, and values of other types. -/
inductive Foreign where
  | document (doc : Nat)
  | cursor (proxy : Nat)
  | box (proxy : Nat)
  | other (type : String) (id : Nat)
  deriving DecidableEq, Repr

/-- Lua values other than `nil`.  `null` is `qjson.null`, `int64` a boxed 64-bit integer. -/
inductive Value (F : Type) where
  | null
  | bool (b : Bool)
  | num (x : F)
  | str (s : Bytes)
  | int64 (n : Int)
  | table (r : Nat)
  | foreign (value : Foreign)
  deriving DecidableEq, Repr

/-- Keys of tables; numbers that are positive integers are told apart, `math.huge` among
them. -/
inductive Key (F : Type) where
  | str (s : Bytes)
  | idx (n : Nat)
  | num (x : F)
  | val (v : Value F)
  deriving DecidableEq, Repr

/-- `v` counts as true. -/
def truthy {F : Type} : Option (Value F) → Bool
  | none | some (.bool false) => false
  | _ => true

/-- `a or b` -/
def luaOr {F : Type} (a b : Option (Value F)) : Option (Value F) :=
  if truthy a then a else b

/-! ## What Lua provides -/

/-- `math.huge` among the positive integers: no finite number is as large, and a larger
integer is rounded to it. -/
def hugeIndex : Nat := 2 ^ 1024

/-- Lua numbers: which keys and offsets they are, and how `string.format` and `tostring`
spell them. -/
structure Numbers (F : Type) where
  ofNat : Nat → F
  /-- The key that a number is in a table; NaN is none.  `k >= 1 and k == math.floor(k)`
  holds of `math.huge` too: it is the index `hugeIndex`. -/
  key : F → Option (Nat ⊕ F)
  /-- `i = x - 1` as the argument of a call, unless `i < 0 or i ~= math.floor(i)`. -/
  offset : F → Option Nat
  isFinite : F → Bool
  /-- `n == math.floor(n) and math.abs(n) < 1e15` -/
  isInteger : F → Bool
  /-- `string.format("%d", n)` -/
  formatD : F → Bytes
  /-- `string.format("%.<precision>g", n)` -/
  formatG : Nat → F → Bytes
  /-- `tostring(n)` -/
  toString : F → Bytes
  /-- `tostring` of a boxed integer without its suffix. -/
  int64Text : Int → Bytes
  key_huge : key (ofNat hugeIndex) = some (.inl hugeIndex)
  isFinite_huge : isFinite (ofNat hugeIndex) = false
  offset_key : ∀ x i, offset x = some i → i ≤ u32Max → key x = some (.inl (i + 1))
  formatD_number : ∀ x, isFinite x = true → isInteger x = true → IsNumber (formatD x)
  formatG_number : ∀ precision x, isFinite x = true → IsNumber (formatG precision x)
  toString_plain : ∀ x, ∀ b ∈ toString x, 0x20 ≤ b ∧ b < 0x7F ∧ b ≠ 0x22 ∧ b ≠ 0x5C
  int64Text_number : ∀ n, IsNumber (int64Text n)

/-- What the wrapper runs on: the library with its dispatch cells, the Lua numbers, whether
`cjson` is there, and what the language leaves open about a table, the order in which
`next` lists it and the border that `#` finds. -/
structure Env (F : Type) [DecidableEq F] where
  scanner : ScanPath
  strings : StringPath
  std : StdFloat F
  numbers : Numbers F
  hasCjson : Bool
  order : Map (Key F) (Value F) → List (Key F × Value F)
  length : Map (Key F) (Value F) → Nat
  order_perm : ∀ map : Map (Key F) (Value F),
    (order map).Perm (map.entries.map fun e => (e.1, e.2))
  length_border : ∀ map : Map (Key F) (Value F), .idx (length map + 1) ∉ map ∧
    (length map = 0 ∨ .idx (length map) ∈ map)

section Environment

variable {F : Type} [DecidableEq F] (env : Env F)

/-- The library as the wrapper calls it. -/
def Env.host : Host F := ⟨env.strings.validate, env.std⟩

/-- The key that a value is in a table; `nil` and NaN are none. -/
def toKey : Option (Value F) → Option (Key F)
  | none => none
  | some (.str s) => some (.str s)
  | some (.num x) => (env.numbers.key x).map fun key =>
      match key with
      | .inl n => .idx n
      | .inr x => .num x
  | some v => some (.val v)

/-- `type(v) == "table"`; without `cjson`, `qjson.null` is a table. -/
def isTable : Option (Value F) → Bool
  | some (.table _) | some (.foreign (.document _)) => true
  | some .null => !env.hasCjson
  | _ => false

/-- `type(v)` -/
def typeName : Option (Value F) → String
  | none => "nil"
  | some .null => if env.hasCjson then "userdata" else "table"
  | some (.bool _) => "boolean"
  | some (.num _) => "number"
  | some (.str _) => "string"
  | some (.int64 _) | some (.foreign (.cursor _)) | some (.foreign (.box _)) => "cdata"
  | some (.table _) | some (.foreign (.document _)) => "table"
  | some (.foreign (.other type _)) => type

end Environment

/-! ## Tables -/

/-- `ORDER_KEYS` and `ORDER_VALUES`. -/
structure Order (F : Type) where
  keys : List Bytes
  values : Map Bytes (Value F)

/-- A lazy proxy: the fields that `wrap_child` sets, the state behind the sentinel keys,
and the positive integers among its raw keys. -/
structure Proxy (F : Type) where
  kind : Kind
  parent : Option Nat
  dirty : Bool
  doc : Nat
  cur : Cursor
  bs : Nat
  be : Nat
  order : Option (Order F)
  childCache : Map Bytes (Value F)
  elems : Map Nat (Value F)

/-- What `origin_child_record` keeps of a child: the value and the source of a long string,
or the record of a table, which is referred to by its position among all records. -/
inductive Record (F : Type) where
  | string (value raw : Bytes)
  | table (origin : Nat)
  deriving DecidableEq, Repr

/-- A provenance record of `TABLE_ORIGIN`. -/
structure Origin (F : Type) where
  kind : Kind
  complete : Bool
  source : Bytes
  bs : Nat
  be : Nat
  keys : List Bytes
  len : Nat
  records : Map (Key F) (Record F)
  hadDuplicates : Bool

/-- A plain table, whether its metatable is `empty_array_mt`, and its side entries. -/
structure Plain (F : Type) where
  entries : Map (Key F) (Value F)
  emptyArray : Bool
  hint : Option Kind
  origin : Option Nat

/-- A table of the heap. -/
inductive LuaTable (F : Type) where
  | proxy (q : Proxy F)
  | plain (p : Plain F)

/-! ## The state -/

/-- The state behind a loop over a proxy. -/
inductive Loop where
  | ordered (view i : Nat)
  | entries (view : Nat) (it : Iter) (seen : List Bytes)
  | elements (view i : Nat)
  deriving DecidableEq, Repr

/-- `_ENCODE_NUMBER_PRECISION` and the settings of `encode_sparse_array`. -/
structure Settings where
  precision : Nat
  sparseConvert : Bool
  sparseRatio : Nat
  sparseSafe : Nat
  deriving DecidableEq, Repr

/-- The documents with their mutable cells, the heap, the provenance records, the loops
that are under way, `sz_a` and `sz_b`, and the settings. -/
structure State (F : Type) where
  docs : List Document
  cells : List Cells
  tables : List (LuaTable F)
  origins : List (Origin F)
  loops : List Loop
  sz : Nat × Nat
  settings : Settings

/-- The state behind `require "qjson"`. -/
def State.start (F : Type) : State F := ⟨[], [], [], [], [], (0, 0), ⟨14, false, 2, 10⟩⟩

/-- What is raised: the error of a parse, the error of an access with the parts of its
text, a message of the wrapper, or an error of Lua itself. -/
inductive LuaError where
  | parse (error : ParseError)
  | access (code : QjsonErr) (offset : Nat) (expected : Option Expected)
  | message (text : String)
  | runtime (text : String)
  deriving DecidableEq, Repr

/-- The wrapper's functions. -/
abbrev Act (F : Type) := Action (State F) LuaError

/-! ## The heap -/

section Heap

variable {F : Type}

/-- A change to a proxy. -/
def State.updateProxy (s : State F) (r : Nat) (change : Proxy F → Proxy F) : State F :=
  { s with tables := s.tables.modify r fun t =>
      match t with
      | .proxy q => .proxy (change q)
      | .plain p => .plain p }

/-- A change to a plain table. -/
def State.updatePlain (s : State F) (r : Nat) (change : Plain F → Plain F) : State F :=
  { s with tables := s.tables.modify r fun t =>
      match t with
      | .proxy q => .proxy q
      | .plain p => .plain (change p) }

/-- The proxy at a position. -/
def State.proxy? (s : State F) (r : Nat) : Option (Proxy F) :=
  match s.tables[r]? with
  | some (.proxy q) => some q
  | _ => none

/-- The plain table at a position. -/
def State.plain? (s : State F) (r : Nat) : Option (Plain F) :=
  match s.tables[r]? with
  | some (.plain p) => some p
  | _ => none

/-- A new table. -/
def newTable (t : LuaTable F) : Act F Nat := fun s =>
  (.ok s.tables.length, { s with tables := s.tables ++ [t] })

/-- A new provenance record. -/
def newOrigin (o : Origin F) : Act F Nat := fun s =>
  (.ok s.origins.length, { s with origins := s.origins ++ [o] })

/-- A new loop. -/
def newLoop (loop : Loop) : Act F Nat := fun s =>
  (.ok s.loops.length, { s with loops := s.loops ++ [loop] })

end Heap

end QJson.Table
