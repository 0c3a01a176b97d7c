import QJson.Doc.Segments

/-!
# Separators without a key

Behind a separator the iterator starts again in the general case, which takes further
separators and indices.  So separators are dropped without an error exactly where several
of them stand in front of a segment, or one of them in front of an index.
-/

namespace QJson.Doc

open Rfc8259

/-! ## The statement -/

/-- An opening bracket begins an index, the next closing bracket ends it. -/
def indexStep (inside : Bool) (b : UInt8) : Bool :=
  if inside then b != 0x5D else b == 0x5B

/-- Whether a text ends inside a bracketed index. -/
def inIndex (text : Bytes) : Bool := text.foldl indexStep false

/-- A separator outside an index that no key follows. -/
structure Dangling (path : Bytes) (i : Nat) : Prop where
  dot : path[i]? = some 0x2E
  outside : inIndex (path.take i) = false
  noKey : ∀ b, path[i + 1]? = some b → isBreak b = true

/-- Consuming the path reports an error on what holds position `i` or lies in front of it,
and yields no segment from there on. -/
def StopsAt (path : Bytes) (i : Nat) : Prop :=
  ∃ m, iterItem path m = some (.error .invalidPath) ∧
    path.length ≤ (iterRest path m).length + i ∧
    ∀ j, (∃ seg, iterItem path j = some (.ok seg)) ↔ j < m

/-- Every separator without a key is an error. -/
def RequiresKey (path : Bytes) : Prop := ∀ i, Dangling path i → StopsAt path i

/-- Texts that are read segment by segment to their end. -/
inductive Readable : Bytes → Prop where
  | nil : Readable []
  | seg {n : Nat} {seg : PathSeg} {word rest : Bytes} : Word seg word → Behind seg rest →
      Readable rest → Readable (separators n ++ (word ++ rest))

/-- Behind readable text two separators or more stand in front of a segment, or one in
front of an index. -/
def DropsSeparators (path : Bytes) : Prop :=
  ∃ front n seg word tail, path = front ++ (separators n ++ (word ++ tail)) ∧
    Readable front ∧ Word seg word ∧ (2 ≤ n ∨ 1 ≤ n ∧ seg.isKey = false)

/-! ## One call -/

/-- Only the end of the path yields nothing. -/
theorem iterNext_none {path : Bytes} (next : (iterNext path).1 = none) : path = [] := by
  induction path with
  | nil => rfl
  | cons first path ih =>
      rw [iterNext] at next
      split at next
      · split at next <;> cases next
      · split at next
        · split at next
          · cases next
          · rename_i more
            exact absurd (List.isEmpty_iff.2 (ih next)) more
        · simp only at next
          split at next <;> cases next

/-- An error is final: what is left is empty or gives the same error again. -/
theorem iterNext_error {path rest : Bytes} {error : QjsonErr}
    (next : iterNext path = (some (.error error), rest)) :
    error = .invalidPath ∧ (rest = [] ∨ iterNext rest = (some (.error error), rest)) := by
  induction path with
  | nil => cases next
  | cons first path ih =>
      have again := next
      rw [iterNext] at next
      split at next
      · split at next
        · cases next
        · rename_i read
          cases next
          refine ⟨?_, .inr again⟩
          unfold nextIdx at read
          simp only at read
          split at read
          · exact (Except.error.inj read).symm
          · split at read
            · exact (Except.error.inj read).symm
            · split at read <;> cases read
              rfl
      · split at next
        · split at next
          · rename_i ended
            cases next
            exact ⟨rfl, .inl (List.isEmpty_iff.1 ended)⟩
          · exact ih next
        · simp only at next
          split at next
          · cases next
            exact ⟨rfl, .inr again⟩
          · cases next

/-- Behind an error nothing is read any more. -/
theorem not_ok_of_error {path rest : Bytes} {error : QjsonErr}
    (next : iterNext path = (some (.error error), rest)) (n : Nat) (seg : PathSeg) :
    iterItem path n ≠ some (.ok seg) := by
  obtain ⟨-, ended | again⟩ := iterNext_error next
  · cases n with
    | zero =>
        rw [iterItem, iterRest, next]
        simp
    | succ n =>
        rw [iterItem_succ, next, ended, iterItem_nil]
        simp
  · have stays (n : Nat) : iterItem rest n = some (.error error) := by
      induction n with
      | zero => exact congrArg Prod.fst again
      | succ n ih =>
          rw [iterItem_succ, again]
          exact ih
    cases n with
    | zero =>
        rw [iterItem, iterRest, next]
        simp
    | succ n =>
        rw [iterItem_succ, next, stays]
        simp

theorem length_iterNext_ok {path : Bytes} {seg : PathSeg}
    (ok : (iterNext path).1 = some (.ok seg)) : (iterNext path).2.length < path.length := by
  obtain ⟨n, word, spelled, isWord, -⟩ :=
    iterNext_ok (show iterNext path = (some (.ok seg), (iterNext path).2) from Prod.ext ok rfl)
  have some_ := List.length_pos_iff.2 isWord.ne_nil
  have length := congrArg List.length spelled
  simp only [List.length_append] at length
  omega

theorem length_iterNext_le (path : Bytes) : (iterNext path).2.length ≤ path.length := by
  induction path with
  | nil => exact Nat.le_refl 0
  | cons first path ih =>
      cases item : (iterNext (first :: path)).1 with
      | some result =>
          cases result with
          | ok seg => exact Nat.le_of_lt (length_iterNext_ok item)
          | error error =>
              rw [iterNext] at item ⊢
              split
              · split
                · rename_i read
                  simp_all
                · exact Nat.le_refl _
              · split
                · split
                  · exact Nat.le_succ _
                  · exact Nat.le_succ_of_le ih
                · simp only
                  split
                  · exact Nat.le_refl _
                  · simp
      | none => cases iterNext_none item

theorem length_iterRest_le (path : Bytes) (n : Nat) :
    (iterRest path n).length ≤ path.length := by
  induction n generalizing path with
  | zero => exact Nat.le_refl _
  | succ n ih => exact (ih _).trans (length_iterNext_le path)

/-! ## Where separators are dropped -/

section Words

variable {seg : PathSeg} {word : Bytes}

theorem Word.no_dot (isWord : Word seg word) : ∀ b ∈ word, b ≠ 0x2E := by
  cases isWord with
  | key _ plain =>
      rintro b member rfl
      exact absurd (plain _ member) (by decide)
  | idx _ numeric _ =>
      rintro b member rfl
      simp only [List.mem_cons, List.mem_append, List.not_mem_nil, or_false] at member
      rcases member with same | digit | same
      · exact absurd same (by decide)
      · exact absurd (numeric _ digit) (by decide)
      · exact absurd same (by decide)

/-- Only an index begins with a break, a bracket. -/
theorem Word.head_isBreak (isWord : Word seg word) :
    ∃ b, word.head? = some b ∧ isBreak b = !seg.isKey := by
  cases isWord with
  | key nonempty plain =>
      cases word with
      | nil => exact absurd rfl nonempty
      | cons b rest => exact ⟨b, rfl, plain b List.mem_cons_self⟩
  | idx => exact ⟨0x5B, rfl, rfl⟩

/-- Text that starts like a segment yields one. -/
theorem Word.exists_ok (isWord : Word seg word) (n : Nat) (tail : Bytes) :
    ∃ other, (iterNext (separators n ++ (word ++ tail))).1 = some (.ok other) := by
  cases isWord with
  | key nonempty plain =>
      obtain ⟨name, rest, -, split, inside, stopped⟩ :=
        takeWhile_cut (fun b => !isBreak b) (word ++ tail)
      have some_ : name ≠ [] := by
        rintro rfl
        cases word with
        | nil => exact absurd rfl nonempty
        | cons b word =>
            rw [List.nil_append] at split
            have breaks := stopped b (by rw [← split]; rfl)
            rw [plain b List.mem_cons_self] at breaks
            cases breaks
      have next := iterNext_word (.key some_ fun b member => by simpa using inside b member)
        (fun _ b head => by simpa using stopped b head) n
      rw [split, next]
      exact ⟨_, rfl⟩
  | idx nonempty numeric small =>
      exact ⟨_, congrArg Prod.fst
        (iterNext_word (.idx nonempty numeric small) (fun key => by cases key) n)⟩

theorem foldl_indexStep {inside : Bool} {text : Bytes}
    (stays : ∀ b ∈ text, indexStep inside b = inside) : text.foldl indexStep inside = inside := by
  induction text with
  | nil => rfl
  | cons b text ih =>
      obtain ⟨first, rest⟩ := List.forall_mem_cons.1 stays
      rw [List.foldl_cons, first]
      exact ih rest

/-- The text of a segment does not open an index for what follows. -/
theorem Word.foldl_indexStep (isWord : Word seg word) : word.foldl indexStep false = false := by
  cases isWord with
  | key _ plain =>
      refine Doc.foldl_indexStep fun b member => ?_
      have other := plain b member
      simp only [isBreak, Bool.or_eq_false_iff] at other
      exact other.2
  | @idx digits _ numeric _ =>
      have inside : digits.foldl indexStep true = true := by
        refine Doc.foldl_indexStep fun b member => ?_
        have digit := numeric b member
        simp only [isDigit, Bool.and_eq_true, decide_eq_true_eq] at digit
        simp only [indexStep, if_true, bne_iff_ne, ne_eq]
        rintro rfl
        exact absurd digit.2 (by decide)
      rw [List.foldl_cons, List.foldl_append]
      change [0x5D].foldl indexStep (digits.foldl indexStep true) = false
      rw [inside]
      rfl

end Words

theorem Readable.outside {front : Bytes} (readable : Readable front) : inIndex front = false := by
  induction readable with
  | nil => rfl
  | @seg n seg word rest isWord _ _ ih =>
      have dots : (separators n).foldl indexStep false = false :=
        foldl_indexStep fun b member => by rw [List.eq_of_mem_replicate member]; rfl
      rw [inIndex, List.foldl_append, List.foldl_append, dots, isWord.foldl_indexStep]
      exact ih

/-- The iterator works off readable text, whatever break follows it. -/
theorem Readable.reach {front rest : Bytes} (readable : Readable front)
    (breaks : ∀ b, rest.head? = some b → isBreak b = true) :
    ∃ k, iterRest (front ++ rest) k = rest ∧
      ∀ j < k, ∃ seg, iterItem (front ++ rest) j = some (.ok seg) := by
  induction readable with
  | nil => exact ⟨0, rfl, fun j below => absurd below (Nat.not_lt_zero j)⟩
  | @seg n seg word behind isWord follows _ ih =>
      obtain ⟨k, reached, oks⟩ := ih
      have next := @iterNext_word _ _ (behind ++ rest) isWord (fun key b head => by
        cases behind with
        | nil => exact breaks b head
        | cons c behind => exact follows key b head) n
      refine ⟨k + 1, ?_, fun j below => ?_⟩
      · rw [List.append_assoc, List.append_assoc, iterRest, next]
        exact reached
      · rw [List.append_assoc, List.append_assoc]
        cases j with
        | zero => exact ⟨seg, congrArg Prod.fst next⟩
        | succ j =>
            rw [iterItem_succ, next]
            exact oks j (by omega)

/-! ## The law -/

/-- Where separators are dropped, no error is reported on them. -/
theorem DropsSeparators.not_requiresKey {path : Bytes} (drops : DropsSeparators path) :
    ¬ RequiresKey path := by
  intro requires
  obtain ⟨front, n, seg, word, tail, rfl, readable, isWord, several⟩ := drops
  obtain ⟨n, rfl⟩ : ∃ k, n = k + 1 := ⟨n - 1, by omega⟩
  have dangling : Dangling (front ++ (separators (n + 1) ++ (word ++ tail))) front.length := by
    refine ⟨?_, ?_, fun b here => ?_⟩
    · rw [List.getElem?_append_right (Nat.le_refl _), Nat.sub_self]
      rfl
    · rw [List.take_left]
      exact readable.outside
    · rw [List.getElem?_append_right (by omega), Nat.add_sub_cancel_left] at here
      change (separators n ++ (word ++ tail))[0]? = some b at here
      cases n with
      | zero =>
          obtain ⟨c, head, breaks⟩ := isWord.head_isBreak
          have index : seg.isKey = false := several.elim (fun two => by omega) And.right
          cases word with
          | nil => cases head
          | cons d word =>
              obtain rfl := Option.some.inj head
              obtain rfl := Option.some.inj here
              rw [breaks, index]
              rfl
      | succ n =>
          obtain rfl := Option.some.inj here
          rfl
  obtain ⟨m, -, room, oks⟩ := requires _ dangling
  obtain ⟨k, reached, -⟩ :=
    @Readable.reach _ (separators (n + 1) ++ (word ++ tail)) readable fun b head => by
      obtain rfl := Option.some.inj head
      rfl
  obtain ⟨other, ok⟩ := isWord.exists_ok (n + 1) tail
  have early : k < m := (oks k).1 ⟨other, by rw [iterItem, reached, ok]⟩
  -- The call behind the separators has cut off a segment already.
  have behind : iterRest (front ++ (separators (n + 1) ++ (word ++ tail))) m =
      iterRest (iterNext (separators (n + 1) ++ (word ++ tail))).2 (m - (k + 1)) := by
    rw [show m = k + (1 + (m - (k + 1))) by omega, iterRest_add, reached, iterRest_add]
    rw [show k + (1 + (m - (k + 1))) - (k + 1) = m - (k + 1) by omega]
    rfl
  have shorter := length_iterNext_ok ok
  have later := length_iterRest_le (iterNext (separators (n + 1) ++ (word ++ tail))).2
    (m - (k + 1))
  rw [behind, List.length_append] at room
  omega

/-- Elsewhere a separator without a key is an error, by induction on the path. -/
theorem stopsAt_of_not_drops {path : Bytes} (keeps : ¬ DropsSeparators path) {i : Nat}
    (dot : path[i]? = some 0x2E) (noKey : ∀ b, path[i + 1]? = some b → isBreak b = true) :
    StopsAt path i := by
  induction size : path.length using Nat.strongRecOn generalizing path i with
  | ind size ih =>
    subst size
    cases item : (iterNext path).1 with
    | none =>
        rw [iterNext_none item] at dot
        cases dot
    | some result =>
        cases result with
        | error error =>
            have next : iterNext path = (some (.error error), (iterNext path).2) :=
              Prod.ext item rfl
            obtain ⟨rfl, -⟩ := iterNext_error next
            exact ⟨0, item, Nat.le_add_right _ _, fun j =>
              ⟨fun ⟨seg, ok⟩ => absurd ok (not_ok_of_error next j seg),
                fun below => absurd below (Nat.not_lt_zero j)⟩⟩
        | ok seg =>
            have shorter := length_iterNext_ok item
            obtain ⟨rest, next⟩ : ∃ rest, iterNext path = (some (.ok seg), rest) :=
              ⟨_, Prod.ext item rfl⟩
            rw [next] at shorter
            obtain ⟨n, word, spelled, isWord, follows⟩ := iterNext_ok next
            have front : (separators n).length = n := List.length_replicate
            rcases Nat.lt_or_ge i n with separator | behind
            · -- one of the separators of this call
              refine absurd ⟨[], n, seg, word, _, spelled, .nil, isWord, ?_⟩ keeps
              by_contra few
              obtain ⟨rfl, rfl⟩ : n = 1 ∧ i = 0 := by omega
              obtain ⟨b, head, breaks⟩ := isWord.head_isBreak
              have next := noKey b (by
                rw [spelled, List.getElem?_append_right (by simp [separators])]
                cases word with
                | nil => cases head
                | cons c word => exact head)
              rw [breaks] at next
              exact few (.inr ⟨Nat.le_refl 1, by simpa using next⟩)
            · rcases Nat.lt_or_ge (i - n) word.length with inside | beyond
              · -- the text of a segment holds no dot
                rw [spelled, List.getElem?_append_right (by omega), front,
                  List.getElem?_append_left inside] at dot
                exact absurd rfl (isWord.no_dot _ (List.mem_of_getElem? dot))
              · have shift (k : Nat) : path[i + k]? = rest[i - n - word.length + k]? := by
                  rw [spelled, List.getElem?_append_right (by omega), front,
                    List.getElem?_append_right (by omega)]
                  congr 1
                  omega
                have keeps' : ¬ DropsSeparators rest := by
                  rintro ⟨behind, k, other, text, tail, rfl, readable, found⟩
                  refine keeps ⟨separators n ++ (word ++ behind), k, other, text, tail,
                    by simp [spelled], .seg isWord (fun key b head => follows key b ?_) readable,
                    found⟩
                  cases behind with
                  | nil => cases head
                  | cons c behind => exact head
                obtain ⟨m, error, room, oks⟩ := ih rest.length shorter keeps'
                  ((shift 0).symm.trans dot) (fun b here => noKey b ((shift 1).trans here)) rfl
                refine ⟨m + 1, ?_, ?_, fun j => ?_⟩
                · rw [iterItem_succ, next]
                  exact error
                · have length := congrArg List.length spelled
                  rw [List.length_append, List.length_append, front] at length
                  have later : iterRest path (m + 1) = iterRest rest m := by rw [iterRest, next]
                  rw [later]
                  omega
                · cases j with
                  | zero => exact ⟨fun _ => Nat.succ_pos m, fun _ => ⟨seg, item⟩⟩
                  | succ j =>
                      rw [iterItem_succ, next, Nat.succ_lt_succ_iff]
                      exact oks j

/-- Every separator without a key is an error exactly on the paths that drop none; such a
path stands for no list of segments. -/
theorem requiresKey_iff (path : Bytes) :
    (RequiresKey path ↔ ¬ DropsSeparators path) ∧
      (¬ DropsSeparators path → ∀ i, Dangling path i → ∀ segs, ¬ Yields path segs) := by
  refine ⟨⟨fun requires drops => drops.not_requiresKey requires, fun keeps i dangling =>
    stopsAt_of_not_drops keeps dangling.dot dangling.noKey⟩, fun keeps i dangling segs yields => ?_⟩
  obtain ⟨m, error, -⟩ := stopsAt_of_not_drops keeps dangling.dot dangling.noKey
  rw [yields m] at error
  cases here : segs[m]? <;> simp [here] at error

/-- `a..b` stands for the segments of `a.b`. -/
theorem not_requiresKey :
    ¬ RequiresKey [0x61, 0x2E, 0x2E, 0x62] ∧
      Yields [0x61, 0x2E, 0x2E, 0x62] [.key [0x61], .key [0x62]] ∧
      Yields [0x61, 0x2E, 0x62] [.key [0x61], .key [0x62]] := by
  refine ⟨?_, yields_nil.cons rfl |>.cons rfl, yields_nil.cons rfl |>.cons rfl⟩
  have letter : Word (.key [0x61]) [0x61] := .key (by decide) (by decide +kernel)
  have drops : DropsSeparators [0x61, 0x2E, 0x2E, 0x62] :=
    ⟨[0x61], 2, .key [0x62], [0x62], [], rfl,
      .seg (n := 0) letter (fun _ b head => by cases head) .nil,
      .key (by decide) (by decide +kernel), .inl (Nat.le_refl 2)⟩
  exact drops.not_requiresKey

end QJson.Doc
