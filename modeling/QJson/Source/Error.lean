import Mathlib.Algebra.Group.Int.Defs
import Mathlib.Algebra.Group.Nat.Defs
import QJson.Rfc8259.Bytes

/-!
# Error codes, options and Rust outcomes

The error enumeration and parse options of the crate (`src/error.rs`,
`src/options.rs`), and the outcome type the model gives to Rust functions: a
value, an `Err`, or a panic.  Slice and vector indexing is modelled by `at!`, so
that an out-of-bounds access is visible as a panic and its absence is a theorem.
-/

namespace QJson

open Rfc8259

/-- `qjson_err`. -/
inductive QjsonErr where
  | ok
  | parseError
  | notFound
  | typeMismatch
  | outOfRange
  | decodeFailed
  | invalidPath
  | invalidArg
  | oom
  | nestingTooDeep
  | trailingContent
  | numberOutOfRange
  | invalidNumber
  | invalidString
  | invalidUtf8
  deriving DecidableEq, Repr

/-- `QJSON_NO_OFFSET`, that is `usize::MAX` on a 64-bit target. -/
def noOffset : Nat := 2 ^ 64 - 1

/-- `ParseError`: an error code and the byte offset it is reported at. -/
structure ParseError where
  code : QjsonErr
  offset : Nat
  deriving DecidableEq, Repr

/-- `ParseError::no_offset`. -/
def ParseError.noOffset (code : QjsonErr) : ParseError :=
  ⟨code, QJson.noOffset⟩

/-- `qjson_type`. -/
inductive QjsonType where
  | null
  | bool
  | num
  | str
  | arr
  | obj
  deriving DecidableEq, Repr

/-- How a Rust call ends when it does not return `Ok`: with an `Err`, or with a
panic (an index out of bounds, an `unwrap` of `None`). -/
inductive Fault (ε : Type) where
  | err (error : ε)
  | panic
  deriving DecidableEq, Repr

/-- The outcome of a Rust call returning `Result<α, ε>`. -/
abbrev Rust (ε α : Type) := Except (Fault ε) α

/-- `Err(error)`. -/
def fail {ε α : Type} (error : ε) : Rust ε α := .error (.err error)

@[simp] theorem ok_bind {ε α β : Type} (value : α) (f : α → Rust ε β) :
    ((.ok value : Rust ε α) >>= f) = f value := rfl

@[simp] theorem error_bind {ε α β : Type} (fault : Fault ε) (f : α → Rust ε β) :
    ((.error fault : Rust ε α) >>= f) = .error fault := rfl

/-- A sequence succeeds when both of its parts do. -/
theorem bind_eq_ok_iff {ε α β : Type} {x : Rust ε α} {f : α → Rust ε β} {result : β} :
    x >>= f = .ok result ↔ ∃ value, x = .ok value ∧ f value = .ok result := by
  cases x <;> simp

/-- A sequence fails where one of its parts does. -/
theorem bind_eq_err_iff {ε α β : Type} {x : Rust ε α} {f : α → Rust ε β} {fault : Fault ε} :
    x >>= f = .error fault ↔
      x = .error fault ∨ ∃ value, x = .ok value ∧ f value = .error fault := by
  cases x <;> simp

/-- `list[i]`, a panic when `i` is out of bounds. -/
def atIdx {ε α : Type} (list : List α) (i : Nat) : Rust ε α :=
  match list[i]? with
  | some value => .ok value
  | none => .error .panic

theorem atIdx_eq_ok_iff {ε α : Type} {list : List α} {i : Nat} {value : α} :
    (atIdx list i : Rust ε α) = .ok value ↔ list[i]? = some value := by
  unfold atIdx
  cases list[i]? <;> simp

theorem atIdx_of_getElem? {ε α : Type} {list : List α} {i : Nat} {value : α}
    (found : list[i]? = some value) :
    (atIdx list i : Rust ε α) = .ok value := by
  simp [atIdx, found]

/-- A computation that cannot panic. -/
def toRust {ε α : Type} : Except ε α → Rust ε α
  | .ok value => .ok value
  | .error error => fail error

theorem toRust_eq_ok_iff {ε α : Type} {result : Except ε α} {value : α} :
    toRust result = .ok value ↔ result = .ok value := by
  cases result <;> simp [toRust, fail]

/-- `result.map_err(f)`. -/
def mapErr {ε δ α : Type} (f : ε → δ) : Rust ε α → Rust δ α
  | .ok value => .ok value
  | .error (.err error) => .error (.err (f error))
  | .error .panic => .error .panic

@[simp] theorem mapErr_ok {ε δ α : Type} (f : ε → δ) (value : α) :
    mapErr f (.ok value) = .ok value := rfl

/-- `opt.ok_or(error)`. -/
def okOr {ε α : Type} (error : ε) : Option α → Rust ε α
  | some value => .ok value
  | none => fail error

@[simp] theorem okOr_some {ε α : Type} (error : ε) (value : α) :
    okOr error (some value) = .ok value := rfl

/-- `n as u32`. -/
def u32 (n : Nat) : Nat := n % 2 ^ 32

/-- `u32::MAX`, the sentinel that ends an index list. -/
def u32Max : Nat := 2 ^ 32 - 1

theorem u32_of_lt {n : Nat} (small : n < 2 ^ 32) : u32 n = n :=
  Nat.mod_eq_of_lt small

/-- `QJSON_MODE_EAGER`, `QJSON_MODE_LAZY`, `QJSON_DEFAULT_MAX_DEPTH` and
`QJSON_MAX_MAX_DEPTH`. -/
def modeEager : Nat := 0
@[inherit_doc modeEager] def modeLazy : Nat := 1
@[inherit_doc modeEager] def defaultMaxDepth : Nat := 1024
@[inherit_doc modeEager] def maxMaxDepth : Nat := 4096

/-- `Options`; both fields are `u32`. -/
structure Options where
  mode : Nat
  maxDepth : Nat
  deriving DecidableEq, Repr

/-- `Options::default()`. -/
def Options.default : Options := ⟨modeEager, 0⟩

/-- `Options::effective_max_depth`. -/
def Options.effectiveMaxDepth (opts : Options) : Nat :=
  min (if opts.maxDepth = 0 then defaultMaxDepth else opts.maxDepth) maxMaxDepth

/-- `Options::is_eager`. -/
def Options.isEager (opts : Options) : Bool := opts.mode == modeEager

end QJson
