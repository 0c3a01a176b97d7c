import QJson.Rfc8259.Layout

/-!
# Texts that start with a value

A structural index of a text that starts with the text of a parse tree starts with the
marks of the tree, whatever follows it there.
-/

namespace QJson.Rfc8259

section Cuts

variable {text gap body rest : Bytes} {i : Nat} {index : List Nat} {b : UInt8}

theorem IsIndex.eq_nil_iff (indexed : IsIndex text i index) : index = [] ↔ IsPlain text := by
  cases indexed with
  | plain plain => exact iff_of_true rfl plain
  | mark _ structural _ =>
      exact iff_of_false (List.cons_ne_nil _ _)
        (not_plain_cut (isMark_of_isStructural structural))
  | string _ _ _ => exact iff_of_false (List.cons_ne_nil _ _) (not_plain_cut rfl)
  | stray _ _ => exact iff_of_false (List.cons_ne_nil _ _) (not_plain_cut rfl)

theorem IsIndex.exists_first (indexed : IsIndex (gap ++ b :: rest) i index)
    (plain : IsPlain gap) (mark : isMark b = true) :
    ∃ more, index = (i + gap.length) :: more := by
  generalize spelled : gap ++ b :: rest = text at indexed
  cases indexed with
  | plain plain' => exact absurd (spelled ▸ plain') (not_plain_cut mark)
  | mark plain' structural _ =>
      obtain ⟨rfl, -⟩ := plain_cut plain plain' mark (isMark_of_isStructural structural) spelled
      exact ⟨_, rfl⟩
  | string plain' _ _ =>
      obtain ⟨rfl, -⟩ := plain_cut plain plain' mark rfl spelled
      exact ⟨_, rfl⟩
  | stray plain' _ =>
      obtain ⟨rfl, -⟩ := plain_cut plain plain' mark rfl spelled
      exact ⟨_, rfl⟩

/-- A structural character is the first mark behind a gap. -/
theorem IsIndex.of_mark (plain : IsPlain gap) (structural : isStructural b = true)
    (indexed : IsIndex (gap ++ b :: rest) i index) :
    ∃ tail, index = (i + gap.length) :: tail ∧ IsIndex rest (i + gap.length + 1) tail := by
  have mark := isMark_of_isStructural structural
  have other := isStructural_ne_quote structural
  generalize spelled : gap ++ b :: rest = text at indexed
  cases indexed with
  | plain plain' => exact absurd (spelled ▸ plain') (not_plain_cut mark)
  | mark plain' structural' deeper =>
      obtain ⟨rfl, rfl, rfl⟩ :=
        plain_cut plain plain' mark (isMark_of_isStructural structural') spelled
      exact ⟨_, rfl, deeper⟩
  | string plain' _ _ =>
      obtain ⟨-, quote, -⟩ := plain_cut plain plain' mark rfl spelled
      exact absurd quote other
  | stray plain' _ =>
      obtain ⟨-, quote, -⟩ := plain_cut plain plain' mark rfl spelled
      exact absurd quote other

/-- Both quotation marks of a string follow a gap without backslashes. -/
theorem IsIndex.of_string (plain : IsPlain gap) (noSlash : 0x5C ∉ gap) (inert : IsInert body)
    (indexed : IsIndex (gap ++ 0x22 :: (body ++ 0x22 :: rest)) i index) :
    ∃ tail, index = (i + gap.length) :: (i + gap.length + 1 + body.length) :: tail ∧
      IsIndex rest (i + gap.length + 1 + body.length + 1) tail := by
  generalize spelled : gap ++ 0x22 :: (body ++ 0x22 :: rest) = text at indexed
  cases indexed with
  | plain plain' => exact absurd (spelled ▸ plain') (not_plain_cut rfl)
  | mark plain' structural _ =>
      obtain ⟨-, quote, -⟩ :=
        plain_cut plain plain' rfl (isMark_of_isStructural structural) spelled
      exact absurd quote.symm (isStructural_ne_quote structural)
  | string plain' inert' deeper =>
      obtain ⟨rfl, -, same⟩ := plain_cut plain plain' rfl rfl spelled
      obtain ⟨rfl, rfl⟩ := inert_cut inert inert' same
      exact ⟨_, rfl, deeper⟩
  | stray plain' slash =>
      obtain ⟨rfl, -, -⟩ := plain_cut plain plain' rfl rfl spelled
      exact absurd slash noSlash

end Cuts

/-! ## Reading an index from the front -/

/-- The index starts with the marks, and what follows them is an index of the rest of
the text, which starts at byte `p`, up to a gap in front of it. -/
def Leads (index marks : List Nat) (p : Nat) (rest : Bytes) : Prop :=
  ∃ gap i tail, IsPlain gap ∧ 0x5C ∉ gap ∧ i + gap.length = p ∧ index = marks ++ tail ∧
    IsIndex (gap ++ rest) i tail

section Leads

variable {index marks : List Nat} {p : Nat} {gap body rest : Bytes} {b : UInt8}

theorem IsIndex.leads (indexed : IsIndex rest p index) : Leads index [] p rest :=
  ⟨[], p, index, isPlain_nil, List.not_mem_nil, rfl, rfl, indexed⟩

theorem Leads.skip (leads : Leads index marks p (gap ++ rest)) (plain : IsPlain gap)
    (noSlash : 0x5C ∉ gap) : Leads index marks (p + gap.length) rest := by
  obtain ⟨front, i, tail, frontPlain, frontCalm, rfl, rfl, indexed⟩ := leads
  refine ⟨front ++ gap, i, tail, (isPlain_append front gap).2 ⟨frontPlain, plain⟩, ?_, ?_, rfl,
    by rwa [List.append_assoc]⟩
  · simp [frontCalm, noSlash]
  · rw [List.length_append, Nat.add_assoc]

theorem Leads.blank (leads : Leads index marks p (gap ++ rest)) (blank : IsBlank gap) :
    Leads index marks (p + gap.length) rest :=
  leads.skip blank.isPlain fun member => absurd (blank _ member) (by decide)

theorem Leads.mark (leads : Leads index marks p (b :: rest))
    (structural : isStructural b = true) : Leads index (marks ++ [p]) (p + 1) rest := by
  obtain ⟨front, i, tail, plain, noSlash, rfl, rfl, indexed⟩ := leads
  obtain ⟨tail, rfl, deeper⟩ := indexed.of_mark plain structural
  exact ⟨[], _, tail, isPlain_nil, List.not_mem_nil, rfl, by simp, deeper⟩

theorem Leads.string (leads : Leads index marks p (0x22 :: (body ++ 0x22 :: rest)))
    (inert : IsInert body) :
    Leads index (marks ++ [p, p + 1 + body.length]) (p + 1 + body.length + 1) rest := by
  obtain ⟨front, i, tail, plain, noSlash, rfl, rfl, indexed⟩ := leads
  obtain ⟨tail, rfl, deeper⟩ := indexed.of_string plain noSlash inert
  exact ⟨[], _, tail, isPlain_nil, List.not_mem_nil, rfl, by simp, deeper⟩

theorem Leads.name {kind : Kind} {name : Option Name}
    (leads : Leads index marks p (nameText name ++ rest)) (valid : nameValid kind name) :
    Leads index (marks ++ nameMarks p name) (p + (nameText name).length) rest := by
  match kind, name, valid with
  | .arr, none, _ => simpa [nameText, nameMarks] using leads
  | .obj, some name, ⟨beforeBlank, body, afterBlank⟩ =>
      have split : nameText (some name) ++ rest = name.before ++ 0x22 :: (name.body ++
          0x22 :: (name.after ++ 0x3A :: rest)) := by simp [nameText, Name.render]
      rw [split] at leads
      have colon := (((leads.blank beforeBlank).string body.isInert).blank afterBlank).mark
        (by decide)
      have length : p + name.before.length + 1 + name.body.length + 1 + name.after.length + 1 =
          p + (nameText (some name)).length := by
        simp only [nameText, Name.render, List.length_append, List.length_cons,
          List.length_nil]
        omega
      rw [length, List.append_assoc] at colon
      exact colon

theorem isStructural_bracket (kind : Kind) :
    isStructural kind.opener = true ∧ isStructural kind.closer = true := by
  cases kind <;> decide

mutual
theorem Tree.leads {marks : List Nat} {p : Nat} {rest : Bytes} (tree : Tree)
    (valid : tree.Valid) (leads : Leads index marks p (tree.render ++ rest)) :
    Leads index (marks ++ tree.marks p) (p + tree.render.length) rest := by
  cases tree with
  | scalar token =>
      simp only [Tree.Valid] at valid
      simp only [Tree.render, Tree.marks, List.append_nil] at leads ⊢
      exact leads.skip (fun b member => (valid.isInk b member).2.1)
        fun member => (valid.isInk _ member).2.2 rfl
  | str body =>
      simp only [Tree.Valid] at valid
      have split : (Tree.str body).render ++ rest = 0x22 :: (body ++ 0x22 :: rest) := by
        simp [Tree.render]
      rw [split] at leads
      have closed := leads.string valid.isInert
      have length : p + 1 + body.length + 1 = p + (Tree.str body).render.length := by
        simp only [Tree.render, List.length_cons, List.length_append, List.length_nil]
        omega
      rwa [length] at closed
  | empty kind blank =>
      simp only [Tree.Valid] at valid
      obtain ⟨opens, closes⟩ := isStructural_bracket kind
      have split : (Tree.empty kind blank).render ++ rest =
          kind.opener :: (blank ++ kind.closer :: rest) := by simp [Tree.render]
      rw [split] at leads
      have closed := ((leads.mark opens).blank valid).mark closes
      have length : p + 1 + blank.length + 1 = p + (Tree.empty kind blank).render.length := by
        simp only [Tree.render, List.length_cons, List.length_append, List.length_nil]
        omega
      rw [length, List.append_assoc] at closed
      exact closed
  | node kind entries =>
      simp only [Tree.Valid] at valid
      obtain ⟨opens, closes⟩ := isStructural_bracket kind
      have split : (Rfc8259.Tree.node kind entries).render ++ rest =
          kind.opener :: (entries.render ++ kind.closer :: rest) := by
        simp [Tree.render]
      rw [split] at leads
      have closed := (Entries.leads entries valid (leads.mark opens)).mark closes
      have length : p + 1 + entries.render.length + 1 =
          p + (Rfc8259.Tree.node kind entries).render.length := by
        simp only [Tree.render, List.length_cons, List.length_append, List.length_nil]
        omega
      rw [length, List.append_assoc, List.append_assoc] at closed
      exact closed

/-- The marks between brackets. -/
theorem Entries.leads {marks : List Nat} {p : Nat} {rest : Bytes} {kind : Kind}
    (entries : Entries) (valid : entries.Valid kind)
    (leads : Leads index marks p (entries.render ++ rest)) :
    Leads index (marks ++ entries.marks p) (p + entries.render.length) rest := by
  cases entries with
  | last name before value after =>
      simp only [Entries.Valid] at valid
      obtain ⟨nameOk, beforeBlank, valueOk, afterBlank⟩ := valid
      simp only [Entries.render, List.append_assoc] at leads
      have behind := (Tree.leads value valueOk
        ((leads.name nameOk).blank beforeBlank)).blank afterBlank
      simpa [Entries.marks, Entries.render, valueStart, Nat.add_assoc] using behind
  | more name before value after more =>
      simp only [Entries.Valid] at valid
      obtain ⟨nameOk, beforeBlank, valueOk, afterBlank, moreOk⟩ := valid
      simp only [Entries.render, List.append_assoc, List.cons_append] at leads
      have value' := (Tree.leads value valueOk
        ((leads.name nameOk).blank beforeBlank)).blank afterBlank
      have behind := Entries.leads more moreOk (value'.mark (by decide))
      simpa [Entries.marks, Entries.render, valueStart, separator, Nat.add_assoc,
        Nat.add_comm 1] using behind
end

end Leads

end QJson.Rfc8259
