import QJson.Table.Spelling

/-!
# Matching decides whether a table is copied

`origin_record_matches` walks a plain table and its record side by side.  Where it returns, it
has answered whether the value is still what was recorded, whatever depth was left and
whatever was under way; and it answers on the heap in front of the encoding.
-/

namespace QJson.Table

open Rfc8259 Validate Doc Decode Ffi Lua

section Statements

variable {F : Type} [DecidableEq F] (env : Env F) (base s : State F)

/-- There are a record and a value, and they match. -/
def IsMatch (record : Option (Record F)) (v : Option (Value F)) : Prop :=
  ∃ r w, record = some r ∧ v = some w ∧ Matches env base r w

/-- A question that is answered without a change. -/
def Decides (good : Prop) (question : Act F Bool) : Prop :=
  Action.Wp question s (fun b s' => s' = s ∧ (b = true ↔ good)) (· = s)

end Statements

section Matching

variable {F : Type} [DecidableEq F] {env : Env F} {forest : Forest} {base s : State F}
  {t o : Nat} {p : Plain F} {origin : Origin F}
  {recur : Option (Record F) → Option (Value F) → Act F Bool}

omit [DecidableEq F] in
theorem decides_false {good : Prop} (not : ¬ good) : Decides s good (pure false) :=
  ⟨rfl, iff_of_false (by simp) not⟩

section Records

variable (plain : base.plain? t = some p) (isOrigin : p.origin = some o)
  (record : base.origins[o]? = some origin)
include plain isOrigin record

theorem matches_object_iff (env : Env F) (object : origin.kind = .obj) :
    Matches env base (.table o) (.table t) ↔
      (origin.complete = true ∧ origin.hadDuplicates = false) ∧
        (∀ k v, p.entries.lookup k = some v →
          IsMatch env base (origin.records.lookup k) (some v)) ∧
        ∀ key ∈ origin.keys, (p.entries.lookup (.str key)).isSome := by
  constructor
  · intro matches_
    cases matches_ with
    | object plain' isOrigin' record' _ complete single keys recorded all =>
        obtain rfl := Option.some.inj (plain.symm.trans plain')
        obtain rfl := Option.some.inj (record.symm.trans record')
        refine ⟨⟨complete, single⟩, fun k v here => ?_, keys⟩
        obtain ⟨r, isRecord⟩ := Option.isSome_iff_exists.1 (recorded k v here)
        exact ⟨r, v, isRecord, rfl, all k v r here isRecord⟩
    | array _ _ record' array =>
        obtain rfl := Option.some.inj (record.symm.trans record')
        cases object.symm.trans array
  · rintro ⟨⟨complete, single⟩, all, keys⟩
    refine .object plain isOrigin record object complete single keys (fun k v here => ?_)
      fun k v r here isRecord => ?_
    · obtain ⟨r, w, isRecord, -, -⟩ := all k v here
      rw [isRecord]
      rfl
    · obtain ⟨r', w, isRecord', same, matches_⟩ := all k v here
      obtain rfl := Option.some.inj same
      obtain rfl := Option.some.inj (isRecord.symm.trans isRecord')
      exact matches_

theorem matches_array_iff (env : Env F) (array : origin.kind = .arr) :
    Matches env base (.table o) (.table t) ↔
      (origin.complete = true ∧ env.length p.entries = origin.len) ∧
        (∀ i < origin.len, IsMatch env base (origin.records.lookup (.idx (i + 1)))
          (p.entries.lookup (.idx (i + 1)))) ∧
        ∀ k v, p.entries.lookup k = some v → ∃ n ≤ origin.len, k = .idx n := by
  constructor
  · intro matches_
    cases matches_ with
    | object _ _ record' object =>
        obtain rfl := Option.some.inj (record.symm.trans record')
        cases object.symm.trans array
    | array plain' isOrigin' record' _ complete length only filled all =>
        obtain rfl := Option.some.inj (plain.symm.trans plain')
        obtain rfl := Option.some.inj (record.symm.trans record')
        refine ⟨⟨complete, length⟩, fun i less => ?_, only⟩
        obtain ⟨v, here⟩ := Option.isSome_iff_exists.1 (filled i less).1
        obtain ⟨r, isRecord⟩ := Option.isSome_iff_exists.1 (filled i less).2
        exact ⟨r, v, isRecord, here, all i less v r here isRecord⟩
  · rintro ⟨⟨complete, length⟩, all, only⟩
    refine .array plain isOrigin record array complete length only (fun i less => ?_)
      fun i less v r here isRecord => ?_
    · obtain ⟨r, w, isRecord, here, -⟩ := all i less
      rw [isRecord, here]
      exact ⟨rfl, rfl⟩
    · obtain ⟨r', w, isRecord', here', matches_⟩ := all i less
      obtain rfl := Option.some.inj (here.symm.trans here')
      obtain rfl := Option.some.inj (isRecord.symm.trans isRecord')
      exact matches_

theorem decides_originFullyMatches (wf : Wf forest base)
    (step : ∀ record v, Held base.tables.length v →
      Decides s (IsMatch env base record v) (recur record v)) :
    Decides s (Matches env base (.table o) (.table t))
      (originFullyMatches env recur p origin) := by
  have held (k : Key F) : Held base.tables.length (p.entries.lookup k) :=
    fun v here => (wf.plain plain k v here).2
  rw [originFullyMatches.eq_def]
  cases kind : origin.kind with
  | obj =>
      have spec := matches_object_iff plain isOrigin record env kind
      simp only [originObjectFullyMatches]
      split
      · rename_i incomplete
        refine decides_false fun matches_ => ?_
        obtain ⟨⟨complete, single⟩, -⟩ := spec.1 matches_
        simp [complete, single] at incomplete
      · rename_i complete
        have flags : origin.complete = true ∧ origin.hadDuplicates = false := by
          simpa using complete
        rw [Decides, Action.wp_bind]
        refine (Action.wp_allM (fun e : Key F × Value F =>
          IsMatch env base (origin.records.lookup e.1) (some e.2)) fun e member => ?_).mono
            ?_ fun _ => id
        · exact step _ _ (mem_order.1 member ▸ held e.1)
        · rintro b s' ⟨rfl, all⟩
          refine ⟨rfl, ?_⟩
          rw [Bool.and_eq_true_iff, all, List.all_eq_true, spec, and_iff_right flags]
          refine and_congr_left fun _ => ?_
          constructor
          · exact fun every k v here => every (k, v) (mem_order.2 here)
          · exact fun every e member => every e.1 e.2 (mem_order.1 member)
  | arr =>
      have spec := matches_array_iff plain isOrigin record env kind
      simp only [originArrayFullyMatches]
      split
      · rename_i incomplete
        refine decides_false fun matches_ => ?_
        obtain ⟨⟨complete, length⟩, -⟩ := spec.1 matches_
        simp [complete, length] at incomplete
      · rename_i complete
        have flags : origin.complete = true ∧ env.length p.entries = origin.len := by
          simpa using complete
        rw [Decides, Action.wp_bind]
        refine (Action.wp_allM (fun i => IsMatch env base
          (origin.records.lookup (.idx (i + 1))) (p.entries.lookup (.idx (i + 1))))
            fun i member => step _ _ (held _)).mono ?_ fun _ => id
        rintro b s' ⟨rfl, all⟩
        refine ⟨rfl, ?_⟩
        rw [Bool.and_eq_true_iff, all, List.all_eq_true, spec, and_iff_right flags]
        refine and_congr ?_ ?_
        · exact forall_congr' fun i => imp_congr_left List.mem_range
        · constructor
          · intro only k v here
            have small := only (k, v) (mem_order.2 here)
            cases k with
            | idx n => exact ⟨n, of_decide_eq_true small, rfl⟩
            | _ => cases small
          · rintro only ⟨k, v⟩ member
            obtain ⟨n, small, rfl⟩ := only k v (mem_order.1 member)
            exact decide_eq_true small

end Records

theorem decides_tableMatches (steady : Steady env forest base s) {active : List Nat} {r o : Nat}
    {inner : Plain F → Origin F → Act F Bool} (below : r < base.tables.length)
    (asks : ∀ p origin, base.plain? r = some p → p.origin = some o →
      base.origins[o]? = some origin →
      Decides s (Matches env base (.table o) (.table r)) (inner p origin)) :
    Decides s (Matches env base (.table o) (.table r)) (tableMatches inner active r o) := by
  -- A table that matches is there, and so is its record.
  have found (matches_ : Matches env base (.table o) (.table r)) :
      ∃ p origin, base.plain? r = some p ∧ p.origin = some o ∧
        base.origins[o]? = some origin := by
    cases matches_ with
    | object plain isOrigin record => exact ⟨_, _, plain, isOrigin, record⟩
    | array plain isOrigin record => exact ⟨_, _, plain, isOrigin, record⟩
  rw [Decides, tableMatches, Action.wp_bind, Action.wp_get]
  split
  · exact rfl
  · cases plain : s.plain? r with
    | none =>
        refine decides_false fun matches_ => ?_
        obtain ⟨p, -, here, -⟩ := found matches_
        cases plain.symm.trans (steady.kept.grown.plain r p here)
    | some p =>
        have here := steady.kept.grown.plain_old below plain
        simp only
        split
        · rename_i o' origin isOrigin record
          rw [steady.origins] at record
          split
          · rename_i apart
            refine decides_false fun matches_ => apart ?_
            obtain ⟨p', -, here', isOrigin', -⟩ := found matches_
            obtain rfl := Option.some.inj (here.symm.trans here')
            exact Option.some.inj (isOrigin.symm.trans isOrigin')
          · rename_i same
            obtain rfl := not_not.1 same
            exact asks p origin here isOrigin record
        · rename_i missing
          refine decides_false fun matches_ => ?_
          obtain ⟨p', origin, here', isOrigin, record⟩ := found matches_
          obtain rfl := Option.some.inj (here.symm.trans here')
          exact missing o origin isOrigin (by rw [steady.origins, record])

theorem not_isMatch_none {v : Option (Value F)} : ¬ IsMatch env base none v := by
  rintro ⟨r, w, clash, -⟩
  cases clash

theorem isMatch_string {value raw : Bytes} {v : Option (Value F)} :
    IsMatch env base (some (.string value raw)) v ↔ v = some (.str value) := by
  constructor
  · rintro ⟨r, w, same, rfl, matches_⟩
    obtain rfl := Option.some.inj same
    cases matches_
    rfl
  · rintro rfl
    exact ⟨_, _, rfl, rfl, .string value raw⟩

theorem isMatch_table {r : Nat} : IsMatch env base (some (.table o)) (some (.table r)) ↔
    Matches env base (.table o) (.table r) := by
  constructor
  · rintro ⟨_, _, left, right, matches_⟩
    obtain rfl := Option.some.inj left
    obtain rfl := Option.some.inj right
    exact matches_
  · exact fun matches_ => ⟨_, _, rfl, rfl, matches_⟩

theorem not_isMatch_of_not_table {v : Option (Value F)} (noTable : ∀ r, v ≠ some (.table r)) :
    ¬ IsMatch env base (some (.table o)) v := by
  rintro ⟨r, w, same, rfl, matches_⟩
  obtain rfl := Option.some.inj same
  cases matches_ <;> exact noTable _ rfl

theorem decides_originRecordMatches (wf : Wf forest base) (steady : Steady env forest base s)
    (room : Nat) (active : List Nat) (record : Option (Record F)) (v : Option (Value F))
    (held : Held base.tables.length v) :
    Decides s (IsMatch env base record v) (originRecordMatches env room active record v) := by
  induction room generalizing active record v with
  | zero =>
      rw [originRecordMatches.eq_def]
      split
      · exact decides_false not_isMatch_none
      · exact ⟨rfl, decide_eq_true_iff.trans isMatch_string.symm⟩
      · split
        · rw [isMatch_table]
          exact decides_tableMatches steady (held _ rfl) fun _ _ _ _ _ => rfl
        · rename_i noTable
          exact decides_false (not_isMatch_of_not_table noTable)
  | succ room ih =>
      rw [originRecordMatches.eq_def]
      split
      · exact decides_false not_isMatch_none
      · exact ⟨rfl, decide_eq_true_iff.trans isMatch_string.symm⟩
      · split
        · rw [isMatch_table]
          refine decides_tableMatches steady (held _ rfl)
            fun p origin plain isOrigin record => ?_
          exact decides_originFullyMatches plain isOrigin record wf fun record v held =>
            ih _ record v held
        · rename_i noTable
          exact decides_false (not_isMatch_of_not_table noTable)

/-- The question of `encode_object_with_origin` and of its sibling for arrays. -/
theorem decides_fullyMatches (wf : Wf forest base) (steady : Steady env forest base s)
    (plain : base.plain? t = some p) (isOrigin : p.origin = some o)
    (record : base.origins[o]? = some origin) (room : Nat) (active : List Nat) :
    Decides s (Matches env base (.table o) (.table t))
      (fullyMatches env room active p origin) :=
  decides_originFullyMatches plain isOrigin record wf fun record v held =>
    decides_originRecordMatches wf steady _ _ record v held

end Matching

end QJson.Table
