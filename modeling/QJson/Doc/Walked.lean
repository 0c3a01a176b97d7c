import QJson.Doc.Crossing
import QJson.Doc.Slots

/-!
# The slow path and the fast path

The slow path of `walk_children` checks each entry against the segment until there is
a match, and goes on to the end of the container; the fast path checks the entries of
the slot that it stored.  `Walked` lists the entries that the slow path crosses when it
runs to the end, so that both paths become functions of one list of entries.
-/

namespace QJson.Doc

open Rfc8259 Validate

/-- The mark ends a container: a closing bracket, or the sentinel. -/
def Closes (doc : Document) (s : Nat) : Prop :=
  ∃ after, doc.indices[s]? = some after ∧
    (doc.buf.length ≤ after ∨ ∃ b, doc.buf[after]? = some b ∧ (b = 0x7D ∨ b = 0x5D))

/-- The walk from the entry at index `i` runs to the end of the container and crosses
these entries; each comes with the index its value ends at. -/
inductive Walked (doc : Document) (isObj : Bool) (stop : Nat) :
    (fuel i : Nat) → List (Nat × Nat) → Prop where
  | done {fuel i : Nat} : stop < i → Walked doc isObj stop (fuel + 1) i []
  | last {fuel i : Nat} {span : Nat × Nat} : i ≤ stop →
      findValueSpan doc (valueMarker isObj i) = .ok span → Closes doc span.2 →
      Walked doc isObj stop (fuel + 1) i [(i, span.1)]
  | more {fuel i : Nat} {span : Nat × Nat} {rest : List (Nat × Nat)} : i ≤ stop →
      findValueSpan doc (valueMarker isObj i) = .ok span →
      leadAt doc span.2 = some 0x2C →
      Walked doc isObj stop fuel (u32 (span.2 + 1)) rest →
      Walked doc isObj stop (fuel + 1) i ((i, span.1) :: rest)

/-- The checks of the slow path along the entries. -/
def coldMatch (doc : Document) (isObj : Bool) (seg : PathSeg) :
    (arrIdx : Nat) → (result : Option Cursor) → List (Nat × Nat) →
    Rust QjsonErr (Option Cursor)
  | _, result, [] => .ok result
  | arrIdx, result, (i, idxEnd) :: rest => do
      let matched ← matchOnce doc isObj seg arrIdx i result
      coldMatch doc isObj seg (u32 (arrIdx + 1))
        (if matched then some ⟨valueMarker isObj i, idxEnd⟩ else result) rest

/-- The slot of a list of entries. -/
def slotOfPairs (pairs : List (Nat × Nat)) : SkipSlot :=
  ⟨pairs.map Prod.fst, pairs.map Prod.snd⟩

section Walks

variable {doc : Document} {isObj : Bool} {stop : Nat}

theorem closes_of_sentinel {s after : Nat} (found : doc.indices[s]? = some after)
    (past : doc.buf.length ≤ after) : Closes doc s :=
  ⟨after, found, .inl past⟩

/-- What a successful slow path has crossed. -/
theorem walked_of_walkLoop {seg : PathSeg} :
    ∀ {fuel i arrIdx : Nat} {starts ends : List Nat} {result : Option Cursor}
      {out : SkipSlot × Option Cursor},
      walkLoop doc isObj seg stop fuel i arrIdx starts ends result = .ok out →
      ∃ pairs, Walked doc isObj stop fuel i pairs ∧
        out.1 = ⟨starts ++ pairs.map Prod.fst, ends ++ pairs.map Prod.snd⟩ ∧
        coldMatch doc isObj seg arrIdx result pairs = .ok out.2 := by
  intro fuel
  induction fuel with
  | zero =>
      intro i arrIdx starts ends result out ok
      cases ok
  | succ fuel ih =>
      intro i arrIdx starts ends result out ok
      rw [walkLoop] at ok
      split at ok
      · rename_i within
        obtain ⟨span, found, ok⟩ := bind_eq_ok_iff.1 ok
        obtain ⟨matched, check, ok⟩ := bind_eq_ok_iff.1 ok
        obtain ⟨after, afterAt, ok⟩ := bind_eq_ok_iff.1 ok
        have here := atIdx_eq_ok_iff.1 afterAt
        have single : coldMatch doc isObj seg arrIdx result [(i, span.1)] =
            .ok (if matched then some ⟨valueMarker isObj i, span.1⟩ else result) := by
          rw [coldMatch, check, ok_bind, coldMatch]
        split at ok
        · rename_i past
          obtain rfl := Except.ok.inj ok
          exact ⟨[(i, span.1)], .last within found (closes_of_sentinel here past), rfl, single⟩
        · obtain ⟨b, byteAt, ok⟩ := bind_eq_ok_iff.1 ok
          have byte := atIdx_eq_ok_iff.1 byteAt
          split at ok
          · rename_i comma
            obtain ⟨pairs, rest, slot, cold⟩ := ih ok
            refine ⟨(i, span.1) :: pairs, .more within found ?_ rest, ?_, ?_⟩
            · rw [leadAt, here, Option.bind_some, byte, comma]
            · simp [slot]
            · rw [coldMatch, check, ok_bind]
              exact cold
          · split at ok
            · rename_i closer
              obtain rfl := Except.ok.inj ok
              exact ⟨[(i, span.1)], .last within found ⟨after, here, .inr ⟨b, byte, closer⟩⟩,
                rfl, single⟩
            · cases ok
      · rename_i beyond
        obtain rfl := Except.ok.inj ok
        exact ⟨[], .done (by omega), by simp, rfl⟩

/-- The slow path on entries it can cross. -/
theorem walkLoop_of_walked {seg : PathSeg} {fuel i : Nat} {pairs : List (Nat × Nat)}
    (walked : Walked doc isObj stop fuel i pairs) :
    ∀ {arrIdx : Nat} {starts ends : List Nat} {result : Option Cursor},
      walkLoop doc isObj seg stop fuel i arrIdx starts ends result =
        coldMatch doc isObj seg arrIdx result pairs >>= fun out =>
          .ok (⟨starts ++ pairs.map Prod.fst, ends ++ pairs.map Prod.snd⟩, out) := by
  induction walked with
  | done beyond =>
      intro arrIdx starts ends result
      rw [walkLoop, if_neg (by omega), coldMatch, ok_bind]
      simp
  | @last fuel i span within found closes =>
      intro arrIdx starts ends result
      have found' : findValueSpan doc (if isObj then u32 (i + 3) else i) = .ok span := found
      obtain ⟨after, afterAt, ending⟩ := closes
      rw [walkLoop, if_pos within, coldMatch]
      simp only [found', ok_bind, atIdx_of_getElem? afterAt]
      cases check : matchOnce doc isObj seg arrIdx i result with
      | error fault => rfl
      | ok matched =>
          simp only [ok_bind, coldMatch]
          rcases ending with past | ⟨b, byte, closer⟩
          · rw [if_pos past]
            rfl
          · have real : ¬ doc.buf.length ≤ after := by
              have := (List.getElem?_eq_some_iff.1 byte).1
              omega
            have notComma : b ≠ 0x2C := by rcases closer with rfl | rfl <;> decide
            rw [if_neg real, atIdx_of_getElem? byte, ok_bind, if_neg notComma, if_pos closer]
            rfl
  | @more fuel i span rest within found comma _ ih =>
      intro arrIdx starts ends result
      have found' : findValueSpan doc (if isObj then u32 (i + 3) else i) = .ok span := found
      obtain ⟨after, afterAt, byte⟩ := Option.bind_eq_some_iff.1 comma
      have real : ¬ doc.buf.length ≤ after := by
        have := (List.getElem?_eq_some_iff.1 byte).1
        omega
      rw [walkLoop, if_pos within, coldMatch]
      simp only [found', ok_bind, atIdx_of_getElem? afterAt]
      cases check : matchOnce doc isObj seg arrIdx i result with
      | error fault => rfl
      | ok matched =>
          simp only [ok_bind, if_neg real, atIdx_of_getElem? byte, if_true, ih]
          rw [valueMarker]
          simp

/-- A walk crosses the same entries every time. -/
theorem Walked.unique {fuel i : Nat} {pairs pairs' : List (Nat × Nat)}
    (walked : Walked doc isObj stop fuel i pairs)
    (walked' : Walked doc isObj stop fuel i pairs') : pairs = pairs' := by
  have clash {s : Nat} (closes : Closes doc s) (comma : leadAt doc s = some 0x2C) : False := by
    obtain ⟨after, found, ending⟩ := closes
    rw [leadAt, found, Option.bind_some] at comma
    rcases ending with past | ⟨b, byte, closer⟩
    · rw [List.getElem?_eq_none past] at comma
      cases comma
    · rw [comma] at byte
      obtain rfl := Option.some.inj byte
      revert closer
      decide
  induction walked generalizing pairs' with
  | done beyond =>
      cases walked' with
      | done => rfl
      | last within => omega
      | more within => omega
  | last within found closes =>
      cases walked' with
      | done beyond => omega
      | last _ found' _ =>
          obtain rfl := Except.ok.inj (found.symm.trans found')
          rfl
      | more _ found' comma _ =>
          obtain rfl := Except.ok.inj (found.symm.trans found')
          exact (clash closes comma).elim
  | more within found comma _ ih =>
      cases walked' with
      | done beyond => omega
      | last _ found' closes =>
          obtain rfl := Except.ok.inj (found.symm.trans found')
          exact (clash closes comma).elim
      | more _ found' _ rest =>
          obtain rfl := Except.ok.inj (found.symm.trans found')
          rw [ih rest]

/-- The entries crossed have values, and start no later than the end of the walk. -/
theorem Walked.entries {fuel i : Nat} {pairs : List (Nat × Nat)}
    (walked : Walked doc isObj stop fuel i pairs) : ∀ entry ∈ pairs,
      entry.1 ≤ stop ∧ ∃ after,
        findValueSpan doc (valueMarker isObj entry.1) = .ok (entry.2, after) := by
  induction walked with
  | done => exact fun _ none => by cases none
  | last within found =>
      intro entry member
      obtain rfl := List.mem_singleton.1 member
      exact ⟨within, _, found⟩
  | more within found _ _ ih =>
      intro entry member
      rcases List.mem_cons.1 member with rfl | member
      · exact ⟨within, _, found⟩
      · exact ih entry member

end Walks

/-! ## Cold and warm matches -/

section Matches

variable {doc : Document} {isObj : Bool} {seg : PathSeg}

/-- An entry that starts with a quotation mark, as every member does. -/
def IsQuoted (doc : Document) (i : Nat) : Prop := leadAt doc i = some 0x22

/-- Once there is a match, the slow path checks no further. -/
theorem coldMatch_some {arrIdx : Nat} {cur : Cursor} {pairs : List (Nat × Nat)} :
    coldMatch doc isObj seg arrIdx (some cur) pairs = .ok (some cur) := by
  induction pairs generalizing arrIdx with
  | nil => rfl
  | cons entry pairs ih =>
      rw [coldMatch, matchOnce]
      exact ih

/-- On a quoted entry both paths make the same check. -/
theorem childMatches_quoted {arrIdx i : Nat} (quoted : IsQuoted doc i) :
    childMatches doc true seg arrIdx i =
      keyBytes doc i >>= fun key => .ok (seg == .key key) := by
  obtain ⟨pos, found, byte⟩ := Option.bind_eq_some_iff.1 quoted
  rw [childMatches, if_pos rfl, atIdx_of_getElem? found, ok_bind, if_neg (by simp [byte])]

/-- Each member starts with a quotation mark, up to one whose key cannot be read. -/
def MembersQuoted (doc : Document) : List (Nat × Nat) → Prop
  | [] => True
  | entry :: rest =>
      IsQuoted doc entry.1 ∧ ∀ key, keyBytes doc entry.1 = .ok key → MembersQuoted doc rest

/-- Where the members of an object are quoted, the two paths find the same. -/
theorem cold_eq_warm {pairs : List (Nat × Nat)}
    (quoted : isObj = true → MembersQuoted doc pairs) (k : Nat) :
    (coldMatch doc isObj seg (u32 k) none pairs >>= okOr .notFound) =
      resolveInKnownChildren doc isObj seg k pairs := by
  induction pairs generalizing k with
  | nil => rfl
  | cons entry pairs ih =>
      obtain ⟨i, idxEnd⟩ := entry
      have next : u32 (u32 k + 1) = u32 (k + 1) := by
        unfold u32
        omega
      have marked : (if isObj then u32 (i + 3) else i) = valueMarker isObj i := rfl
      have onward (matched : Bool) (others : isObj = true → MembersQuoted doc pairs) :
          (coldMatch doc isObj seg (u32 (u32 k + 1))
              (if matched then some ⟨valueMarker isObj i, idxEnd⟩ else none) pairs >>=
            okOr .notFound) =
          if matched then .ok ⟨valueMarker isObj i, idxEnd⟩
          else resolveInKnownChildren doc isObj seg (k + 1) pairs := by
        cases matched with
        | true =>
            simp only [if_true, coldMatch_some]
            rfl
        | false =>
            simp only [Bool.false_eq_true, if_false, next]
            exact ih others (k + 1)
      rw [coldMatch, resolveInKnownChildren, matchOnce]
      simp only [Option.isNone_none, if_true, marked]
      cases isObj with
      | true =>
          obtain ⟨here, others⟩ := quoted rfl
          rw [childMatches_quoted here]
          simp only [if_true]
          cases read : keyBytes doc i with
          | error fault => rfl
          | ok key =>
              simp only [ok_bind]
              exact onward _ fun _ => others key read
      | false =>
          simp only [childMatches, Bool.false_eq_true, if_false, ok_bind]
          exact onward _ fun object => by cases object

/-- The slow path stops at a member that is not quoted. -/
theorem coldMatch_unquoted {name : Bytes} {pairs : List (Nat × Nat)}
    (inside : ∀ entry ∈ pairs, entry.1 < doc.indices.length)
    (fresh : ∀ entry ∈ pairs, keyBytes doc entry.1 ≠ .ok name)
    (unquoted : ¬ MembersQuoted doc pairs) :
    ∀ {arrIdx : Nat}, coldMatch doc true (.key name) arrIdx none pairs = fail .parseError := by
  induction pairs with
  | nil => exact absurd trivial unquoted
  | cons entry pairs ih =>
      intro arrIdx
      have found := List.getElem?_eq_getElem (inside entry (List.mem_cons_self ..))
      rw [coldMatch, matchOnce]
      simp only [Option.isNone_none, if_true]
      by_cases quoted : IsQuoted doc entry.1
      · rw [MembersQuoted, and_iff_right quoted] at unquoted
        simp only [not_forall] at unquoted
        obtain ⟨key, read, others⟩ := unquoted
        have differ : (PathSeg.key name == .key key) = false := by
          refine beq_eq_false_iff_ne.2 fun same => ?_
          obtain rfl := PathSeg.key.inj same
          exact fresh entry (List.mem_cons_self ..) read
        rw [childMatches_quoted quoted, read]
        simp only [ok_bind, differ, Bool.false_eq_true, if_false]
        exact ih (fun entry member => inside entry (List.mem_cons_of_mem _ member))
          (fun entry member => fresh entry (List.mem_cons_of_mem _ member)) others
      · rw [IsQuoted, leadAt, found, Option.bind_some] at quoted
        rw [childMatches, if_pos rfl, atIdx_of_getElem? found, ok_bind, if_pos quoted]
        rfl

/-- The fast path reports no syntax error. -/
theorem resolveInKnownChildren_ne_parseError {pairs : List (Nat × Nat)} :
    ∀ {k : Nat}, resolveInKnownChildren doc isObj seg k pairs ≠ fail .parseError := by
  have key (i : Nat) : keyBytes doc i ≠ fail .parseError := by
    unfold keyBytes atIdx slice
    cases doc.indices[i]? with
    | none => simp [fail]
    | some opening =>
        cases doc.indices[u32 (i + 1)]? with
        | none => simp [fail]
        | some closing =>
            simp only [ok_bind]
            split <;> simp [fail]
  induction pairs with
  | nil => simp [resolveInKnownChildren, fail]
  | cons entry pairs ih =>
      intro k
      rw [resolveInKnownChildren]
      cases isObj with
      | true =>
          have here := key entry.1
          cases read : keyBytes doc entry.1 with
          | error fault =>
              rw [read] at here
              simpa [fail] using here
          | ok name =>
              simp only [ok_bind, if_true]
              split
              · simp [fail]
              · exact ih
      | false =>
          simp only [ok_bind, Bool.false_eq_true, if_false]
          split
          · simp [fail]
          · exact ih

end Matches

end QJson.Doc
