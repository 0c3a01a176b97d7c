import QJson.Rfc8259.Bytes
import QJson.Source.Error

/-!
# Paths

`src/path.rs`: a path is a sequence of key and index segments, read lazily from
the left.
-/

namespace QJson.Doc

open Rfc8259

/-- `PathSeg`. -/
inductive PathSeg where
  | key (name : Bytes)
  | idx (n : Nat)
  deriving DecidableEq, Repr

/-- The digits of an index segment as a `u32`, with checked arithmetic. -/
def parseIdx (n : Nat) : Bytes → Option Nat
  | [] => some n
  | c :: digits =>
      if n * 10 < 2 ^ 32 ∧ n * 10 + (c.toNat - 0x30) < 2 ^ 32 then
        parseIdx (n * 10 + (c.toNat - 0x30)) digits
      else none

/-- The index arm of `PathIter::next`, behind the opening bracket. -/
def nextIdx (rest : Bytes) : Except QjsonErr (PathSeg × Bytes) :=
  let digits := rest.takeWhile fun c => c != 0x5D
  if (rest.drop digits.length).isEmpty then .error .invalidPath
  else if digits.isEmpty || !digits.all isDigit then .error .invalidPath
  else
    match parseIdx 0 digits with
    | some n => .ok (.idx n, rest.drop (digits.length + 1))
    | none => .error .invalidPath

/-- `PathIter::next` on the rest of the path: the segment with what follows it,
or nothing at the end. -/
def pathNext : Bytes → Option (Except QjsonErr (PathSeg × Bytes))
  | [] => none
  | first :: rest =>
      if first = 0x5B then some (nextIdx rest)
      else if first = 0x2E then
        if rest.isEmpty then some (.error .invalidPath) else pathNext rest
      else
        let key := (first :: rest).takeWhile fun c => !(c == 0x2E || c == 0x5B)
        if key.isEmpty then some (.error .invalidPath)
        else some (.ok (.key key, (first :: rest).drop key.length))

/-- Reading a segment consumes bytes. -/
theorem pathNext_shorter {path rest : Bytes} {seg : PathSeg}
    (next : pathNext path = some (.ok (seg, rest))) : rest.length < path.length := by
  induction path with
  | nil => cases next
  | cons first path ih =>
      unfold pathNext at next
      split at next
      · have inner := Option.some.inj next
        unfold nextIdx at inner
        simp only at inner
        split at inner
        · cases inner
        · split at inner
          · cases inner
          · split at inner
            · cases inner
              simp only [List.length_drop, List.length_cons]
              omega
            · cases inner
      · split at next
        · split at next
          · cases next
          · have := ih next
            simp only [List.length_cons]
            omega
        · simp only at next
          split at next
          · cases next
          · rename_i nonempty
            have inner := Option.some.inj next
            cases inner
            have := List.length_pos_iff.2 (mt List.isEmpty_iff.2 nonempty)
            simp only [List.length_drop, List.length_cons]
            omega

end QJson.Doc
