import QJson.Decode.Integers
import QJson.Doc.Cursor

/-!
# The language of paths

`PathIter` is an iterator: each call to `next` returns an item and leaves the rest of the
path behind.  A call returns a segment exactly on any number of separators with the text of
the segment behind them, where a key ends at a separator, at a bracket or at the end.
-/

namespace QJson.Doc

open Rfc8259 Decode

/-! ## The iterator -/

/-- `PathIter::next`: the item and the rest that the iterator holds afterwards. -/
def iterNext : Bytes → Option (Except QjsonErr PathSeg) × Bytes
  | [] => (none, [])
  | first :: rest =>
      if first = 0x5B then
        match nextIdx rest with
        | .ok (seg, behind) => (some (.ok seg), behind)
        | .error error => (some (.error error), first :: rest)
      else if first = 0x2E then
        if rest.isEmpty then (some (.error .invalidPath), rest) else iterNext rest
      else
        let key := (first :: rest).takeWhile fun c => !(c == 0x2E || c == 0x5B)
        if key.isEmpty then (some (.error .invalidPath), first :: rest)
        else (some (.ok (.key key)), (first :: rest).drop key.length)

/-- What the iterator holds before call number `n`. -/
def iterRest (path : Bytes) : Nat → Bytes
  | 0 => path
  | n + 1 => iterRest (iterNext path).2 n

/-- The item of call number `n`. -/
def iterItem (path : Bytes) (n : Nat) : Option (Except QjsonErr PathSeg) :=
  (iterNext (iterRest path n)).1

/-- Consuming the path yields these segments and then ends. -/
def Yields (path : Bytes) (segs : List PathSeg) : Prop :=
  ∀ n, iterItem path n = segs[n]?.map .ok

/-- The walk along a path reads the same segments. -/
theorem pathNext_eq (path : Bytes) :
    pathNext path = (iterNext path).1.map fun item =>
      item.map fun seg => (seg, (iterNext path).2) := by
  induction path with
  | nil => rfl
  | cons first path ih =>
      rw [pathNext, iterNext]
      split
      · cases nextIdx path <;> rfl
      · split
        · split
          · rfl
          · exact ih
        · simp only
          split <;> rfl

theorem iterItem_succ (path : Bytes) (n : Nat) :
    iterItem path (n + 1) = iterItem (iterNext path).2 n := rfl

theorem iterRest_add (path : Bytes) (m n : Nat) :
    iterRest path (m + n) = iterRest (iterRest path m) n := by
  induction m generalizing path with
  | zero => rw [Nat.zero_add, iterRest]
  | succ m ih =>
      rw [Nat.succ_add, iterRest, iterRest]
      exact ih (iterNext path).2

/-- The end of the path is its end for good. -/
theorem iterItem_nil (n : Nat) : iterItem [] n = none := by
  induction n with
  | zero => rfl
  | succ n ih => exact ih

@[simp] theorem yields_nil : Yields [] [] := fun n => iterItem_nil n

theorem Yields.cons {path rest : Bytes} {seg : PathSeg} {segs : List PathSeg}
    (next : iterNext path = (some (.ok seg), rest)) (yields : Yields rest segs) :
    Yields path (seg :: segs) := by
  intro n
  cases n with
  | zero => exact congrArg Prod.fst next
  | succ n =>
      rw [iterItem_succ, next]
      exact yields n

/-! ## The numbers of indices -/

/-- The checked accumulation gives up exactly at the bound of `u32`. -/
theorem parseIdx_eq {digits : Bytes} (numeric : ∀ b ∈ digits, isDigit b = true) {n : Nat}
    (small : n < 2 ^ 32) :
    parseIdx n digits =
      if n * 10 ^ digits.length + magnitude digits < 2 ^ 32 then
        some (n * 10 ^ digits.length + magnitude digits)
      else none := by
  induction digits generalizing n with
  | nil => simpa [parseIdx] using small
  | cons c digits ih =>
      have total : n * 10 ^ (c :: digits).length + magnitude (c :: digits) =
          (n * 10 + (c.toNat - 0x30)) * 10 ^ digits.length + magnitude digits := by
        rw [magnitude_cons, List.length_cons, pow_succ]
        ring
      rw [parseIdx, total]
      by_cases inside : n * 10 + (c.toNat - 0x30) < 2 ^ 32
      · rw [if_pos ⟨by omega, inside⟩]
        exact ih (List.forall_mem_cons.1 numeric).2 inside
      · -- what follows only makes the number larger
        have grows : n * 10 + (c.toNat - 0x30) ≤
            (n * 10 + (c.toNat - 0x30)) * 10 ^ digits.length + magnitude digits :=
          (Nat.le_mul_of_pos_right _ (Nat.pow_pos (by decide))).trans (Nat.le_add_right _ _)
        rw [if_neg fun fits => inside fits.2, if_neg (by omega)]

/-! ## Words -/

/-- A byte that ends a key. -/
def isBreak (b : UInt8) : Bool := b == 0x2E || b == 0x5B

/-- The text of a segment. -/
inductive Word : PathSeg → Bytes → Prop where
  | key {name : Bytes} : name ≠ [] → (∀ b ∈ name, isBreak b = false) → Word (.key name) name
  | idx {digits : Bytes} : digits ≠ [] → (∀ b ∈ digits, isDigit b = true) →
      magnitude digits < 2 ^ 32 →
      Word (.idx (magnitude digits)) (0x5B :: (digits ++ [0x5D]))

/-- What may follow the text of a segment. -/
def Behind (seg : PathSeg) (rest : Bytes) : Prop :=
  seg.isKey = true → ∀ b, rest.head? = some b → isBreak b = true

/-- Any number of separators. -/
def separators (n : Nat) : Bytes := List.replicate n 0x2E

theorem nextIdx_word {digits rest : Bytes} (nonempty : digits ≠ [])
    (numeric : ∀ b ∈ digits, isDigit b = true) (small : magnitude digits < 2 ^ 32) :
    nextIdx (digits ++ 0x5D :: rest) = .ok (.idx (magnitude digits), rest) := by
  have open_ : ∀ b ∈ digits, (b != 0x5D) = true := by
    intro b member
    have digit := numeric b member
    simp only [isDigit, Bool.and_eq_true, decide_eq_true_eq] at digit
    simp only [bne_iff_ne, ne_eq]
    rintro rfl
    exact absurd digit.2 (by decide)
  have cut : (digits ++ 0x5D :: rest).takeWhile (fun c => c != 0x5D) = digits := by
    rw [List.takeWhile_append_of_pos open_, List.takeWhile_cons_of_neg (by decide),
      List.append_nil]
  have value := parseIdx_eq numeric (n := 0) (by decide)
  rw [Nat.zero_mul, Nat.zero_add, if_pos small] at value
  rw [nextIdx, cut]
  simp [nonempty, List.all_eq_true.2 numeric, value]

/-- A text is cut at the first byte that does not satisfy a predicate. -/
theorem takeWhile_cut (p : UInt8 → Bool) (text : Bytes) :
    ∃ front behind, text.takeWhile p = front ∧ text = front ++ behind ∧
      (∀ b ∈ front, p b = true) ∧ ∀ b, behind.head? = some b → p b = false := by
  refine ⟨_, text.dropWhile p, rfl, List.takeWhile_append_dropWhile.symm,
    fun b => List.mem_takeWhile_imp, fun b head => ?_⟩
  have stopped := List.head?_dropWhile_not p text
  rwa [head] at stopped

/-- An index segment is the text of an index in front of the rest. -/
theorem nextIdx_ok {text rest : Bytes} {seg : PathSeg} (next : nextIdx text = .ok (seg, rest)) :
    ∃ word, 0x5B :: text = word ++ rest ∧ Word seg word ∧ seg.isKey = false := by
  obtain ⟨digits, behind, cut, rfl, -, stopped⟩ := takeWhile_cut (fun c => c != 0x5D) text
  rw [nextIdx, cut] at next
  simp only [List.drop_left] at next
  split at next
  · cases next
  · rename_i closed
    split at next
    · cases next
    · rename_i shape
      simp only [Bool.or_eq_true, List.isEmpty_iff, Bool.not_eq_true', not_or,
        Bool.not_eq_false] at shape
      have numeric := List.all_eq_true.1 shape.2
      rw [parseIdx_eq numeric (by decide), Nat.zero_mul, Nat.zero_add] at next
      split at next
      · rename_i n value
        cases next
        split at value
        · rename_i small
          obtain rfl := Option.some.inj value
          cases behind with
          | nil => exact absurd rfl closed
          | cons b behind =>
              obtain rfl : b = 0x5D := by simpa using stopped b rfl
              refine ⟨_, ?_, .idx shape.1 numeric small, rfl⟩
              rw [← List.drop_drop, List.drop_left]
              simp
        · cases value
      · cases next

/-- Separators are skipped in front of anything. -/
theorem iterNext_separators {rest : Bytes} (nonempty : rest ≠ []) (n : Nat) :
    iterNext (separators n ++ rest) = iterNext rest := by
  induction n with
  | zero => rfl
  | succ n ih =>
      have more : ¬ (separators n ++ rest).isEmpty = true := by
        simp [nonempty]
      rw [separators, List.replicate_succ, List.cons_append, ← separators, iterNext,
        if_neg (by decide), if_pos rfl, if_neg more]
      exact ih

theorem Word.ne_nil {seg : PathSeg} {word : Bytes} (isWord : Word seg word) : word ≠ [] := by
  cases isWord with
  | key nonempty _ => exact nonempty
  | idx => exact List.cons_ne_nil _ _

theorem iterNext_word {seg : PathSeg} {word rest : Bytes} (isWord : Word seg word)
    (behind : Behind seg rest) (n : Nat) :
    iterNext (separators n ++ (word ++ rest)) = (some (.ok seg), rest) := by
  rw [iterNext_separators (by simp [isWord.ne_nil])]
  cases isWord with
  | key nonempty plain =>
      have cut : (word ++ rest).takeWhile (fun c => !(c == 0x2E || c == 0x5B)) = word := by
        rw [List.takeWhile_append_of_pos fun b member => by
          simpa [isBreak] using plain b member]
        cases rest with
        | nil => exact List.append_nil word
        | cons b rest =>
            have stops := behind rfl b rfl
            rw [isBreak] at stops
            rw [List.takeWhile_cons_of_neg (by rw [stops]; decide), List.append_nil]
      cases word with
      | nil => exact absurd rfl nonempty
      | cons first word =>
          have other := plain first List.mem_cons_self
          simp only [isBreak, Bool.or_eq_false_iff, beq_eq_false_iff_ne] at other
          rw [List.cons_append] at cut ⊢
          rw [iterNext, if_neg other.2, if_neg other.1, cut]
          simp only [List.isEmpty_cons, Bool.false_eq_true, if_false]
          rw [← List.cons_append, List.drop_left]
  | idx nonempty numeric small =>
      rw [List.cons_append, List.append_assoc, List.singleton_append, iterNext, if_pos rfl,
        nextIdx_word nonempty numeric small]

/-- A call returns a segment only behind its text. -/
theorem iterNext_ok {path rest : Bytes} {seg : PathSeg}
    (next : iterNext path = (some (.ok seg), rest)) :
    ∃ n word, path = separators n ++ (word ++ rest) ∧ Word seg word ∧ Behind seg rest := by
  induction path with
  | nil => cases next
  | cons first path ih =>
      rw [iterNext] at next
      split at next
      · rename_i bracket
        split at next
        · rename_i seg' behind read
          cases next
          obtain ⟨word, spelled, isWord, notKey⟩ := nextIdx_ok read
          exact ⟨0, word, by rw [bracket]; exact spelled, isWord, by simp [Behind, notKey]⟩
        · cases next
      · rename_i notBracket
        split at next
        · rename_i dot
          split at next
          · cases next
          · obtain ⟨n, word, rfl, found⟩ := ih next
            refine ⟨n + 1, word, ?_, found⟩
            rw [dot]
            rfl
        · rename_i notDot
          obtain ⟨name, behind, cut, whole, plain, stopped⟩ :=
            takeWhile_cut (fun c => !(c == 0x2E || c == 0x5B)) (first :: path)
          rw [whole] at cut ⊢
          simp only [whole, cut, List.drop_left] at next
          split at next
          · cases next
          · rename_i nonempty
            cases next
            refine ⟨0, name, rfl, .key (by simpa using nonempty) fun b member => ?_,
              fun _ b head => ?_⟩
            · simpa [isBreak] using plain b member
            · simpa [isBreak, or_iff_not_imp_left] using stopped b head

/-! ## Rendering -/

/-- The decimal text of an index. -/
def indexText (n : Nat) : Bytes :=
  if n = 0 then [0x30] else (Nat.digits 10 n).reverse.map fun d => UInt8.ofNat (0x30 + d)

/-- The text of a segment. -/
def segText : PathSeg → Bytes
  | .key name => name
  | .idx n => 0x5B :: (indexText n ++ [0x5D])

/-- Segments that do not come first: a separator stands in front of each key. -/
def renderRest (segs : List PathSeg) : Bytes :=
  segs.flatMap fun seg => separators (if seg.isKey then 1 else 0) ++ segText seg

/-- The path of a list of segments. -/
def renderPath : List PathSeg → Bytes
  | [] => []
  | seg :: segs => segText seg ++ renderRest segs

/-- The segments that can be rendered: keys that are not empty and hold no break, and
numbers of 32 bits. -/
def PathSeg.Plain : PathSeg → Prop
  | .key name => name ≠ [] ∧ ∀ b ∈ name, isBreak b = false
  | .idx n => n < 2 ^ 32

instance : DecidablePred PathSeg.Plain
  | .key name => inferInstanceAs (Decidable (name ≠ [] ∧ ∀ b ∈ name, isBreak b = false))
  | .idx n => inferInstanceAs (Decidable (n < 2 ^ 32))

theorem indexText_spec (n : Nat) :
    indexText n ≠ [] ∧ (∀ b ∈ indexText n, isDigit b = true) ∧ magnitude (indexText n) = n := by
  by_cases zero : n = 0
  · subst zero
    exact ⟨by decide, by decide +kernel, rfl⟩
  · have digit : ∀ d < 10, isDigit (UInt8.ofNat (0x30 + d)) = true ∧
        (UInt8.ofNat (0x30 + d)).toNat - 0x30 = d := by decide
    have below : ∀ d ∈ Nat.digits 10 n, d < 10 := fun d => Nat.digits_lt_base (by decide)
    rw [indexText, if_neg zero]
    refine ⟨by simpa using Nat.digits_ne_nil_iff_ne_zero.2 zero, fun b member => ?_, ?_⟩
    · obtain ⟨d, place, rfl⟩ := List.mem_map.1 member
      exact (digit d (below d (List.mem_reverse.1 place))).1
    · have read : (Nat.digits 10 n).map (fun d => (UInt8.ofNat (0x30 + d)).toNat - 0x30) =
          Nat.digits 10 n := by
        conv_rhs => rw [← List.map_id (Nat.digits 10 n)]
        exact List.map_congr_left fun d place => (digit d (below d place)).2
      rw [magnitude, List.map_map, List.map_reverse, List.reverse_reverse]
      exact (congrArg _ read).trans (Nat.ofDigits_digits 10 n)

theorem word_segText {seg : PathSeg} (plain : seg.Plain) : Word seg (segText seg) := by
  cases seg with
  | key name => exact .key plain.1 plain.2
  | idx n =>
      obtain ⟨nonempty, numeric, value⟩ := indexText_spec n
      have isWord := Word.idx nonempty numeric (value.symm ▸ plain)
      rwa [value] at isWord

theorem behind_renderRest (seg : PathSeg) (segs : List PathSeg) :
    Behind seg (renderRest segs) := by
  intro _ b head
  cases segs with
  | nil => cases head
  | cons next segs =>
      cases next <;>
      · obtain rfl := Option.some.inj head
        rfl

theorem yields_renderRest {segs : List PathSeg} (plain : ∀ seg ∈ segs, seg.Plain) :
    Yields (renderRest segs) segs := by
  induction segs with
  | nil => exact yields_nil
  | cons seg segs ih =>
      obtain ⟨first, rest⟩ := List.forall_mem_cons.1 plain
      rw [renderRest, List.flatMap_cons, ← renderRest, List.append_assoc]
      exact (ih rest).cons (iterNext_word (word_segText first) (behind_renderRest seg segs) _)

/-- The iterator reads back what was rendered. -/
theorem yields_renderPath {segs : List PathSeg} (plain : ∀ seg ∈ segs, seg.Plain) :
    Yields (renderPath segs) segs := by
  cases segs with
  | nil => exact yields_nil
  | cons seg segs =>
      obtain ⟨first, rest⟩ := List.forall_mem_cons.1 plain
      exact (yields_renderRest rest).cons
        (iterNext_word (word_segText first) (behind_renderRest seg segs) 0)

end QJson.Doc
