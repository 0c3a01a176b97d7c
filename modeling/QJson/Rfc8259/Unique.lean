import QJson.Rfc8259.Outline
import QJson.Rfc8259.Tree

/-!
# A text has one parse tree

The grammar of RFC 8259 is unambiguous: trees keep every gap and the spelling of every
token, and each part of a text ends where the bytes that it may hold end.  Cutting is
proved with the text that follows, so that it goes through by recursion on the tree.
-/

namespace QJson.Rfc8259

/-- The text is empty or starts with a byte that no scalar token holds. -/
def Stops (text : Bytes) : Prop := ∀ b tail, text = b :: tail → ¬ IsInk b

/-- The text starts with a byte that is not whitespace. -/
def Starts (text : Bytes) : Prop := ∃ b tail, text = b :: tail ∧ isWs b = false

section Cuts

variable {rest rest' : Bytes}

theorem stops_of_mark {b : UInt8} (mark : isMark b = true) : Stops (b :: rest) := by
  rintro c tail spelled ink
  obtain ⟨rfl, -⟩ := List.cons.inj spelled
  rw [ink.2.1] at mark
  cases mark

theorem stops_of_blank {blank : Bytes} (isBlank : IsBlank blank) (stops : Stops rest) :
    Stops (blank ++ rest) := by
  cases blank with
  | nil => exact stops
  | cons b blank =>
      rintro c tail spelled ink
      obtain ⟨rfl, -⟩ := List.cons.inj spelled
      have ws := ((isBlank_cons b blank).1 isBlank).1
      rw [ink.1] at ws
      cases ws

theorem starts_of_mark {b : UInt8} (mark : isMark b = true) : Starts (b :: rest) := by
  refine ⟨b, rest, rfl, Bool.eq_false_iff.2 fun ws => ?_⟩
  rw [isMark_of_isWs ws] at mark
  cases mark

/-- Whitespace is cut off in one way. -/
theorem blank_cut {blank blank' : Bytes} (isBlank : IsBlank blank) (isBlank' : IsBlank blank')
    (starts : Starts rest) (starts' : Starts rest') (same : blank ++ rest = blank' ++ rest') :
    blank = blank' ∧ rest = rest' := by
  have stops {text : Bytes} (starts : Starts text) :
      ∀ x tail, text = x :: tail → ¬ isWs x = true := by
    obtain ⟨b, tail, rfl, ink⟩ := starts
    rintro x tail' spelled ws
    obtain ⟨rfl, -⟩ := List.cons.inj spelled
    rw [ink] at ws
    cases ws
  exact cut_unique isBlank isBlank' (stops starts) (stops starts') same

/-- A name is cut off in one way. -/
theorem name_cut {kind : Kind} {name name' : Option Name} (valid : nameValid kind name)
    (valid' : nameValid kind name') (same : nameText name ++ rest = nameText name' ++ rest') :
    name = name' ∧ rest = rest' := by
  match kind, name, name', valid, valid' with
  | .arr, none, none, _, _ => exact ⟨rfl, same⟩
  | .obj, some ⟨before, body, after⟩, some ⟨before', body', after'⟩,
      ⟨beforeBlank, isBody, afterBlank⟩, ⟨beforeBlank', isBody', afterBlank'⟩ =>
      simp only [nameText, Name.render, List.append_assoc, List.cons_append, List.nil_append]
        at same
      obtain ⟨rfl, opened⟩ := blank_cut beforeBlank beforeBlank' (starts_of_mark (by decide))
        (starts_of_mark (by decide)) same
      obtain ⟨rfl, closed⟩ := inert_cut isBody.isInert isBody'.isInert (List.cons.inj opened).2
      obtain ⟨rfl, colon⟩ := blank_cut afterBlank afterBlank' (starts_of_mark (by decide))
        (starts_of_mark (by decide)) closed
      exact ⟨rfl, (List.cons.inj colon).2⟩

theorem isMark_bracket (kind : Kind) : isMark kind.opener = true ∧ isMark kind.closer = true := by
  cases kind <;> decide

/-- The first byte of a value. -/
inductive Tree.Front : Tree → UInt8 → Prop where
  | scalar {token : Bytes} {b : UInt8} : IsInk b → Tree.Front (.scalar token) b
  | str {body : Bytes} : Tree.Front (.str body) 0x22
  | empty {kind : Kind} {blank : Bytes} : Tree.Front (.empty kind blank) kind.opener
  | node {kind : Kind} {entries : Entries} : Tree.Front (.node kind entries) kind.opener

theorem Tree.front {tree : Tree} (valid : tree.Valid) :
    ∃ b tail, tree.render = b :: tail ∧ tree.Front b := by
  cases tree with
  | scalar token =>
      simp only [Tree.Valid] at valid
      obtain ⟨b, tail, rfl⟩ := List.exists_cons_of_ne_nil valid.ne_nil
      exact ⟨b, tail, rfl, .scalar (valid.isInk b List.mem_cons_self)⟩
  | str body => exact ⟨0x22, body ++ [0x22], rfl, .str⟩
  | empty kind blank => exact ⟨kind.opener, _, rfl, .empty⟩
  | node kind entries => exact ⟨kind.opener, _, rfl, .node⟩

theorem Tree.Front.isInk_or_isMark {tree : Tree} {b : UInt8} (front : tree.Front b) :
    IsInk b ∨ isMark b = true ∧ ∀ kind : Kind, b ≠ kind.closer := by
  cases front with
  | scalar ink => exact .inl ink
  | str => exact .inr ⟨by decide, fun kind => by cases kind <;> decide⟩
  | @empty kind _ =>
      exact .inr ⟨(isMark_bracket kind).1, fun kind' => by cases kind <;> cases kind' <;> decide⟩
  | @node kind _ =>
      exact .inr ⟨(isMark_bracket kind).1, fun kind' => by cases kind <;> cases kind' <;> decide⟩

theorem Tree.starts {tree : Tree} (valid : tree.Valid) : Starts (tree.render ++ rest) := by
  obtain ⟨b, tail, spelled, front⟩ := Tree.front valid
  rw [spelled]
  rcases front.isInk_or_isMark with ink | ⟨mark, -⟩
  · exact ⟨b, tail ++ rest, rfl, ink.1⟩
  · exact starts_of_mark mark

/-- A container with entries is not an empty one. -/
theorem Entries.not_blank {kind : Kind} {entries : Entries} (valid : entries.Valid kind)
    {blank : Bytes} (isBlank : IsBlank blank) :
    blank ++ kind.closer :: rest ≠ entries.render ++ rest' := by
  intro same
  -- Behind whitespace the entries have a quotation mark or the first byte of a value.
  have reaches {gap text : Bytes} (gapBlank : IsBlank gap) {b : UInt8} {tail : Bytes}
      (spelled : text = b :: tail) (ink : isWs b = false) (other : b ≠ kind.closer)
      (whole : blank ++ kind.closer :: rest = gap ++ text) : False := by
    have closes : Starts (kind.closer :: rest) := starts_of_mark (isMark_bracket kind).2
    obtain ⟨-, rests⟩ := blank_cut isBlank gapBlank closes ⟨b, tail, spelled, ink⟩ whole
    rw [spelled] at rests
    exact other (List.cons.inj rests).1.symm
  have entry {name : Option Name} {before : Bytes} {value : Tree} {text : Bytes}
      (nameOk : nameValid kind name) (beforeBlank : IsBlank before) (valueOk : value.Valid)
      (whole : blank ++ kind.closer :: rest =
        nameText name ++ (before ++ (value.render ++ text))) : False := by
    match kind, name, nameOk with
    | .arr, none, _ =>
        obtain ⟨b, tail, spelled, front⟩ := Tree.front valueOk
        rcases front.isInk_or_isMark with ink | ⟨mark, other⟩
        · refine reaches beforeBlank (by rw [spelled]; rfl) ink.1 ?_ whole
          rintro rfl
          exact absurd ink.2.1 (by decide)
        · refine reaches beforeBlank (by rw [spelled]; rfl) ?_ (other .arr) whole
          exact Bool.eq_false_iff.2 fun ws => by
            rw [isMark_of_isWs ws] at mark
            cases mark
    | .obj, some name, ⟨nameBlank, _, _⟩ =>
        simp only [nameText, Name.render, List.append_assoc, List.cons_append] at whole
        exact reaches nameBlank rfl (by decide) (by decide) whole
  cases entries with
  | last name before value after =>
      simp only [Entries.Valid] at valid
      simp only [Entries.render, List.append_assoc] at same
      exact entry valid.1 valid.2.1 valid.2.2.1 same
  | more name before value after more =>
      simp only [Entries.Valid] at valid
      simp only [Entries.render, List.append_assoc] at same
      exact entry valid.1 valid.2.1 valid.2.2.1 same

end Cuts

/-! ## Trees -/

theorem stops_of_after {after rest : Bytes} {b : UInt8} (afterBlank : IsBlank after)
    (mark : isMark b = true) : Stops (after ++ b :: rest) :=
  stops_of_blank afterBlank (stops_of_mark mark)

/-- An entry and the mark behind it are cut off in one way when its value is. -/
theorem entry_cut {kind : Kind} {entry entry' : Entry} {b b' : UInt8} {rest rest' : Bytes}
    (valid : nameValid kind entry.name ∧ IsBlank entry.before ∧ entry.value.Valid ∧
      IsBlank entry.after)
    (valid' : nameValid kind entry'.name ∧ IsBlank entry'.before ∧ entry'.value.Valid ∧
      IsBlank entry'.after)
    (recur : ∀ {text text'}, Stops text → Stops text' →
      entry.value.render ++ text = entry'.value.render ++ text' →
      entry.value = entry'.value ∧ text = text')
    (mark : isMark b = true) (mark' : isMark b' = true)
    (same : nameText entry.name ++ (entry.before ++ (entry.value.render ++
        (entry.after ++ b :: rest))) =
      nameText entry'.name ++ (entry'.before ++ (entry'.value.render ++
        (entry'.after ++ b' :: rest')))) :
    entry = entry' ∧ b = b' ∧ rest = rest' := by
  obtain ⟨nameOk, beforeBlank, valueOk, afterBlank⟩ := valid
  obtain ⟨nameOk', beforeBlank', valueOk', afterBlank'⟩ := valid'
  obtain ⟨names, values⟩ := name_cut nameOk nameOk' same
  obtain ⟨befores, values⟩ := blank_cut beforeBlank beforeBlank' (Tree.starts valueOk)
    (Tree.starts valueOk') values
  obtain ⟨trees, behind⟩ := recur (stops_of_after afterBlank mark)
    (stops_of_after afterBlank' mark') values
  obtain ⟨afters, behind⟩ := blank_cut afterBlank afterBlank' (starts_of_mark mark)
    (starts_of_mark mark') behind
  obtain ⟨marks, rests⟩ := List.cons.inj behind
  cases entry
  cases entry'
  simp only at names befores trees afters
  subst names befores trees afters
  exact ⟨rfl, marks, rests⟩

mutual
theorem Tree.cut (tree tree' : Tree) {rest rest' : Bytes} (valid : tree.Valid)
    (valid' : tree'.Valid) (stops : tree.kind? = none → Stops rest)
    (stops' : tree'.kind? = none → Stops rest')
    (same : tree.render ++ rest = tree'.render ++ rest') : tree = tree' ∧ rest = rest' := by
  obtain ⟨b, tail, spelled, front⟩ := Tree.front valid
  obtain ⟨b', tail', spelled', front'⟩ := Tree.front valid'
  have first : b = b' := by
    rw [spelled, spelled'] at same
    exact (List.cons.inj same).1
  subst first
  cases tree with
  | scalar token =>
      obtain ⟨ink⟩ := front
      cases tree' with
      | scalar token' =>
          simp only [Tree.Valid] at valid valid'
          obtain ⟨rfl, rests⟩ := cut_unique valid.isInk valid'.isInk (stops rfl) (stops' rfl)
            same
          exact ⟨rfl, rests⟩
      | str body =>
          cases front'
          exact absurd ink.2.1 (by decide)
      | empty kind blank =>
          cases front'
          exact absurd (isMark_bracket kind).1 (by simp [ink.2.1])
      | node kind entries =>
          cases front'
          exact absurd (isMark_bracket kind).1 (by simp [ink.2.1])
  | str body =>
      cases front
      cases tree' with
      | scalar token =>
          obtain ⟨ink⟩ := front'
          exact absurd ink.2.1 (by decide)
      | str body' =>
          simp only [Tree.Valid] at valid valid'
          simp only [Tree.render, List.cons_append, List.append_assoc, List.nil_append,
            List.cons.injEq, true_and] at same
          obtain ⟨rfl, rests⟩ := inert_cut valid.isInert valid'.isInert same
          exact ⟨rfl, rests⟩
      | empty kind blank => cases kind <;> cases front'
      | node kind entries => cases kind <;> cases front'
  | empty kind blank =>
      cases tree' with
      | scalar token =>
          obtain ⟨ink⟩ := front'
          cases front
          exact absurd (isMark_bracket kind).1 (by simp [ink.2.1])
      | str body => cases kind <;> cases front <;> cases front'
      | empty kind' blank' =>
          simp only [Tree.Valid] at valid valid'
          obtain rfl : kind = kind' := by
            cases kind <;> cases kind' <;> first | rfl | (cases front; cases front')
          simp only [Tree.render, List.cons_append, List.append_assoc, List.nil_append,
            List.cons.injEq, true_and] at same
          have closes {text : Bytes} : Starts (kind.closer :: text) :=
            starts_of_mark (isMark_bracket kind).2
          obtain ⟨rfl, rests⟩ := blank_cut valid valid' closes closes same
          exact ⟨rfl, (List.cons.inj rests).2⟩
      | node kind' entries =>
          simp only [Tree.Valid] at valid valid'
          obtain rfl : kind = kind' := by
            cases kind <;> cases kind' <;> first | rfl | (cases front; cases front')
          simp only [Tree.render, List.cons_append, List.append_assoc, List.nil_append,
            List.cons.injEq, true_and] at same
          exact absurd same (Entries.not_blank valid' valid)
  | node kind entries =>
      cases tree' with
      | scalar token =>
          obtain ⟨ink⟩ := front'
          cases front
          exact absurd (isMark_bracket kind).1 (by simp [ink.2.1])
      | str body => cases kind <;> cases front <;> cases front'
      | empty kind' blank =>
          simp only [Tree.Valid] at valid valid'
          obtain rfl : kind = kind' := by
            cases kind <;> cases kind' <;> first | rfl | (cases front; cases front')
          simp only [Tree.render, List.cons_append, List.append_assoc, List.nil_append,
            List.cons.injEq, true_and] at same
          exact absurd same.symm (Entries.not_blank valid valid')
      | node kind' entries' =>
          simp only [Tree.Valid] at valid valid'
          obtain rfl : kind = kind' := by
            cases kind <;> cases kind' <;> first | rfl | (cases front; cases front')
          simp only [Tree.render, List.cons_append, List.append_assoc, List.nil_append,
            List.cons.injEq, true_and] at same
          obtain ⟨rfl, rests⟩ := Entries.cut entries entries' valid valid' same
          exact ⟨rfl, rests⟩

theorem Entries.cut (entries entries' : Entries) {kind : Kind} {rest rest' : Bytes}
    (valid : entries.Valid kind) (valid' : entries'.Valid kind)
    (same : entries.render ++ kind.closer :: rest = entries'.render ++ kind.closer :: rest') :
    entries = entries' ∧ rest = rest' := by
  have closer := (isMark_bracket kind).2
  have comma : isMark 0x2C = true := by decide
  have apart : kind.closer ≠ 0x2C := by cases kind <;> decide
  cases entries with
  | last name before value after =>
      simp only [Entries.Valid] at valid
      cases entries' with
      | last name' before' value' after' =>
          simp only [Entries.Valid] at valid'
          simp only [Entries.render, List.append_assoc] at same
          obtain ⟨entries, -, rests⟩ := @entry_cut kind ⟨name, before, value, after⟩
            ⟨name', before', value', after'⟩ _ _ _ _ valid valid'
            (fun stops stops' => Tree.cut value value' valid.2.2.1 valid'.2.2.1 (fun _ => stops)
              fun _ => stops') closer closer same
          cases entries
          exact ⟨rfl, rests⟩
      | more name' before' value' after' more' =>
          simp only [Entries.Valid] at valid'
          obtain ⟨nameOk', beforeBlank', valueOk', afterBlank', -⟩ := valid'
          simp only [Entries.render, List.append_assoc, List.cons_append] at same
          obtain ⟨-, marks, -⟩ := @entry_cut kind ⟨name, before, value, after⟩
            ⟨name', before', value', after'⟩ _ _ _ _ valid
            ⟨nameOk', beforeBlank', valueOk', afterBlank'⟩
            (fun stops stops' => Tree.cut value value' valid.2.2.1 valueOk' (fun _ => stops)
              fun _ => stops') closer comma same
          exact absurd marks apart
  | more name before value after more =>
      simp only [Entries.Valid] at valid
      obtain ⟨nameOk, beforeBlank, valueOk, afterBlank, moreOk⟩ := valid
      cases entries' with
      | last name' before' value' after' =>
          simp only [Entries.Valid] at valid'
          simp only [Entries.render, List.append_assoc, List.cons_append] at same
          obtain ⟨-, marks, -⟩ := @entry_cut kind ⟨name, before, value, after⟩
            ⟨name', before', value', after'⟩ _ _ _ _ ⟨nameOk, beforeBlank, valueOk, afterBlank⟩
            valid' (fun stops stops' => Tree.cut value value' valueOk valid'.2.2.1
              (fun _ => stops) fun _ => stops') comma closer same
          exact absurd marks.symm apart
      | more name' before' value' after' more' =>
          simp only [Entries.Valid] at valid'
          obtain ⟨nameOk', beforeBlank', valueOk', afterBlank', moreOk'⟩ := valid'
          simp only [Entries.render, List.append_assoc, List.cons_append] at same
          obtain ⟨heads, -, tails⟩ := @entry_cut kind ⟨name, before, value, after⟩
            ⟨name', before', value', after'⟩ _ _ _ _ ⟨nameOk, beforeBlank, valueOk, afterBlank⟩
            ⟨nameOk', beforeBlank', valueOk', afterBlank'⟩
            (fun stops stops' => Tree.cut value value' valueOk valueOk' (fun _ => stops)
              fun _ => stops') comma comma same
          obtain ⟨rfl, rests⟩ := Entries.cut more more' moreOk moreOk' tails
          cases heads
          exact ⟨rfl, rests⟩
end

theorem stops_of_isBlank {blank : Bytes} (isBlank : IsBlank blank) : Stops blank := by
  rw [← List.append_nil blank]
  exact stops_of_blank isBlank nofun

/-- A text has one parse tree. -/
theorem Tree.Parses.unique {tree tree' : Tree} {buf : Bytes} (parses : tree.Parses buf)
    (parses' : tree'.Parses buf) : tree = tree' := by
  obtain ⟨valid, before, after, beforeBlank, afterBlank, rfl⟩ := parses
  obtain ⟨valid', before', after', beforeBlank', afterBlank', same⟩ := parses'
  obtain ⟨-, values⟩ := blank_cut beforeBlank beforeBlank' (Tree.starts valid)
    (Tree.starts valid') same
  exact (Tree.cut tree tree' valid valid' (fun _ => stops_of_isBlank afterBlank)
    (fun _ => stops_of_isBlank afterBlank') values).1

end QJson.Rfc8259
