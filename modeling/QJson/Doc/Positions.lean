import QJson.Doc.Handed

/-!
# Positions of 64 bits

The scanners count bytes in a `usize` and push `i as u32`.  What they would push without the
conversion are the positions of the bytes that the entries stand for; a scan that succeeds
pushes these positions modulo `2^32`.
-/

namespace QJson.Doc

open Rfc8259 Scan

/-! ## What the scanners push, before the conversion -/

/-- The positions of a vector scanner from byte `i` on, with `k` bytes to go to the end of
the last full chunk. -/
def lanePositions (st : Lanes) : (i k : Nat) → Bytes → List Nat
  | _, _ + 1, [] => []
  | i, k + 1, b :: rest =>
      (if st.emits b then [i] else []) ++ lanePositions (st.step b) (i + 1) k rest
  | i, 0, text => Reading.marks ⟨st.inStr && st.esc, st.inStr, none⟩ i text

/-- The positions whose `u32` a scanner pushes. -/
def ScanPath.positions : ScanPath → Bytes → List Nat
  | .scalar, buf => outset.marks 0 buf
  | .vector _, buf => lanePositions ⟨false, false⟩ 0 (blockEnd buf) buf

/-- A vector scanner pushes its positions. -/
theorem laneScan_positions (len : Nat) (st : Lanes) (i k : Nat) (text : Bytes) :
    (laneScan len st i k text).out = (lanePositions st i k text).map u32 := by
  induction k generalizing st i text with
  | zero =>
      cases text with
      | nil => rfl
      | cons b text =>
          rw [laneScan, lanePositions]
          split
          · rename_i both
            have next : Reading.step ⟨true, true, none⟩ b = ⟨false, true, none⟩ := by
              simp [Reading.step]
            obtain ⟨inStr, esc⟩ := Bool.and_eq_true_iff.1 both
            rw [inStr, esc, resume_out (i + 1) true none, Bool.true_and, Reading.marks,
              next]
            rfl
          · rename_i single
            rw [Bool.eq_false_iff.2 single]
            exact resume_out i st.inStr none
  | succ k ih =>
      cases text with
      | nil => rfl
      | cons b text =>
          have rest := ih (st.step b) (i + 1) text
          cases emits : st.emits b with
          | true => simp [laneScan, lanePositions, emits, rest]
          | false => simp [laneScan, lanePositions, emits, rest]

theorem ScanOut.checked_out (buf : Bytes) (scan : ScanOut) : (scan.checked buf).out = scan.out := by
  rw [ScanOut.checked]
  split <;> rfl

/-- A scan that succeeds pushes the positions modulo `2^32`. -/
theorem ScanPath.out_eq_positions (scanner : ScanPath) {buf : Bytes}
    (ok : (scanner.scan buf).result = .ok ()) :
    (scanner.scan buf).out = (scanner.positions buf).map u32 := by
  cases scanner with
  | scalar =>
      have scan := scanned_whole buf
      cases opened : (reading buf).opened with
      | none =>
          obtain ⟨k, -, failed, -⟩ := scan.mismatch opened
          exact absurd (ok.symm.trans failed) (by simp)
      | some stack => exact (scan.matched stack opened).1
  | vector path =>
      rw [scan, path.scan_eq, ScanOut.checked_out]
      exact laneScan_positions ..

/-! ## Where the positions lie -/

theorem isMark_of_sees {r : Reading} {b : UInt8} (seen : r.sees b = true) : isMark b = true := by
  rw [Reading.sees] at seen
  split at seen
  · obtain ⟨-, quote⟩ := Bool.and_eq_true_iff.1 seen
    rw [beq_iff_eq.1 quote]
    rfl
  · exact seen

theorem isMark_of_emits {st : Lanes} {b : UInt8} (emits : st.emits b = true) :
    isMark b = true := by
  rcases Bool.or_eq_true_iff.1 emits with mark | quote
  · exact (Bool.and_eq_true_iff.1 mark).1
  · rw [beq_iff_eq.1 (Bool.and_eq_true_iff.1 quote).1]
    rfl

/-- The positions from byte `i` on ascend and hold marks. -/
structure Placed (i : Nat) (text : Bytes) (positions : List Nat) : Prop where
  ascends : positions.Pairwise (· < ·)
  mark : ∀ j ∈ positions, ∃ k b, j = i + k ∧ text[k]? = some b ∧ isMark b = true

theorem Placed.cons {i : Nat} {b : UInt8} {text : Bytes} {positions : List Nat}
    (placed : Placed (i + 1) text positions) (here : Bool) (mark : here = true → isMark b = true) :
    Placed i (b :: text) ((if here then [i] else []) ++ positions) where
  ascends := by
    cases here with
    | false => exact placed.ascends
    | true =>
        refine List.pairwise_cons.2 ⟨fun j member => ?_, placed.ascends⟩
        obtain ⟨k, -, rfl, -⟩ := placed.mark j member
        omega
  mark j member := by
    rcases List.mem_append.1 member with first | later
    · cases here with
      | false => cases first
      | true => exact ⟨0, b, List.mem_singleton.1 first, rfl, mark rfl⟩
    · obtain ⟨k, c, rfl, byte, isMark⟩ := placed.mark j later
      exact ⟨k + 1, c, by omega, byte, isMark⟩

theorem placed_marks (r : Reading) (i : Nat) (text : Bytes) : Placed i text (r.marks i text) := by
  induction text generalizing r i with
  | nil => exact ⟨.nil, fun j member => by cases member⟩
  | cons b text ih => exact (ih (r.step b) (i + 1)).cons _ isMark_of_sees

theorem placed_lanePositions (st : Lanes) (i k : Nat) (text : Bytes) :
    Placed i text (lanePositions st i k text) := by
  induction k generalizing st i text with
  | zero =>
      rw [lanePositions]
      exact placed_marks _ i text
  | succ k ih =>
      cases text with
      | nil => exact ⟨.nil, fun j member => by cases member⟩
      | cons b text => exact (ih (st.step b) (i + 1) text).cons _ isMark_of_emits

theorem ScanPath.placed (scanner : ScanPath) (buf : Bytes) :
    Placed 0 buf (scanner.positions buf) := by
  cases scanner with
  | scalar => exact placed_marks outset 0 buf
  | vector path => exact placed_lanePositions _ 0 _ buf

/-! ## Nothing behind the last position -/

/-- A text without positions that ends outside strings has no marks at all. -/
theorem unmarked_of_marks {r : Reading} {i : Nat} {text : Bytes}
    (outside : (r.run text).inStr = false) (none_ : r.marks i text = []) :
    r.inStr = false ∧ ∀ b ∈ text, isMark b = false := by
  induction text generalizing r i with
  | nil => exact ⟨outside, fun b member => by cases member⟩
  | cons b text ih =>
      rw [Reading.marks, List.append_eq_nil_iff] at none_
      have blind : r.sees b = false := by
        by_contra seen
        rw [Bool.not_eq_false] at seen
        rw [if_pos seen] at none_
        cases none_.1
      obtain ⟨state, rest⟩ := ih (r := r.step b) outside none_.2
      rw [step_inStr, if_neg (by simp [blind])] at state
      refine ⟨state, fun c member => ?_⟩
      rcases List.mem_cons.1 member with rfl | later
      · rwa [Reading.sees, state] at blind
      · exact rest c later

/-- The tail scanner succeeds only where its text ends outside strings. -/
theorem resume_ok {len i : Nat} {inStr : Bool} {text : Bytes} (opened : Option (List UInt8))
    (ok : (scanEmitResumeFrom len text i inStr).result = .ok ()) :
    (Reading.run ⟨false, inStr, opened⟩ text).inStr = false := by
  fun_induction scanEmitResumeFrom len text i inStr generalizing opened with
  | case1 i inStr =>
      cases inStr with
      | false => rfl
      | true => cases ok
  | case2 => cases ok
  | case3 c rest i ih => exact ih opened ok
  | case4 rest i _ ih => exact ih opened ok
  | case5 b rest i notSlash notQuote ih =>
      rw [Reading.run_cons]
      simpa [Reading.step, notSlash, notQuote] using ih opened ok
  | case6 rest i ih => exact ih opened ok
  | case7 b rest i notQuote _ ih =>
      rw [Reading.run_cons]
      simpa [Reading.step, notQuote] using ih (Reading.brackets opened b) ok
  | case8 b rest i notQuote _ ih =>
      rw [Reading.run_cons]
      simpa [Reading.step, notQuote] using ih (Reading.brackets opened b) ok

theorem outside_of_laneScan {len : Nat} {st : Lanes} {i : Nat} {text : Bytes}
    (ok : (laneScan len st i 0 text).result = .ok ()) :
    (Reading.run ⟨st.inStr && st.esc, st.inStr, none⟩ text).inStr = false := by
  rw [laneScan_zero] at ok
  cases text with
  | nil =>
      cases inStr : st.inStr with
      | false => rfl
      | true => rw [inStr] at ok; cases ok
  | cons b text =>
      rw [List.isEmpty_cons, if_neg Bool.false_ne_true] at ok
      cases both : st.inStr && st.esc with
      | false =>
          rw [both] at ok
          exact resume_ok none ok
      | true =>
          rw [both] at ok
          rw [(Bool.and_eq_true_iff.1 both).1] at ok ⊢
          exact resume_ok none ok

theorem unmarked_of_lanes {len : Nat} {st : Lanes} {i k : Nat} {text : Bytes}
    (ok : (laneScan len st i k text).result = .ok ()) (none_ : lanePositions st i k text = []) :
    st.inStr = false ∧ ∀ b ∈ text, isMark b = false := by
  induction k generalizing st i text with
  | zero =>
      rw [lanePositions] at none_
      exact unmarked_of_marks (outside_of_laneScan ok) none_
  | succ k ih =>
      cases text with
      | nil =>
          refine ⟨?_, fun b member => by cases member⟩
          rw [laneScan] at ok
          cases inStr : st.inStr with
          | false => rfl
          | true => rw [inStr] at ok; cases ok
      | cons b text =>
          rw [lanePositions, List.append_eq_nil_iff] at none_
          have quiet : st.emits b = false := by
            by_contra emits
            rw [Bool.not_eq_false] at emits
            rw [if_pos emits] at none_
            cases none_.1
          rw [laneScan] at ok
          simp only [quiet, Bool.false_eq_true, if_false] at ok
          obtain ⟨state, rest⟩ := ih ok none_.2
          rw [Lanes.emits, state, Bool.not_false, Bool.and_true, Bool.or_eq_false_iff] at quiet
          have notQuote : (b == 0x22) = false := by
            rw [beq_eq_false_iff_ne]
            rintro rfl
            exact absurd quiet.1 (by decide)
          refine ⟨?_, List.forall_mem_cons.2 ⟨quiet.1, rest⟩⟩
          rwa [Lanes.step, notQuote, Bool.false_and, Bool.xor_false] at state

/-- There are no positions below where they begin. -/
theorem Placed.eq_nil {i m : Nat} {text : Bytes} {positions : List Nat}
    (placed : Placed i text positions) (below : ∀ j ∈ positions, j < m) (here : m ≤ i) :
    positions = [] := by
  rw [List.eq_nil_iff_forall_not_mem]
  intro j member
  obtain ⟨k, -, rfl, -⟩ := placed.mark j member
  have := below _ member
  omega

theorem unmarked_behind_marks {r : Reading} {i m : Nat} {text : Bytes}
    (outside : (r.run text).inStr = false) (below : ∀ j ∈ r.marks i text, j < m) :
    ∀ q b, m ≤ i + q → text[q]? = some b → isMark b = false := by
  induction text generalizing r i with
  | nil => intro q b _ byte; cases byte
  | cons c text ih =>
      intro q b behind byte
      by_cases here : m ≤ i
      · have none_ := (placed_marks r i (c :: text)).eq_nil below here
        exact (unmarked_of_marks outside none_).2 b (List.mem_of_getElem? byte)
      · cases q with
        | zero => omega
        | succ q =>
            exact ih (r := r.step c) outside (fun j member => below j
              (List.mem_append_right _ member)) q b (by omega) byte

theorem unmarked_behind_lanes {len : Nat} {st : Lanes} {i k m : Nat} {text : Bytes}
    (ok : (laneScan len st i k text).result = .ok ())
    (below : ∀ j ∈ lanePositions st i k text, j < m) :
    ∀ q b, m ≤ i + q → text[q]? = some b → isMark b = false := by
  induction k generalizing st i text with
  | zero =>
      rw [lanePositions] at below
      exact unmarked_behind_marks (outside_of_laneScan ok) below
  | succ k ih =>
      intro q b behind byte
      cases text with
      | nil => cases byte
      | cons c text =>
          by_cases here : m ≤ i
          · have none_ := (placed_lanePositions st i (k + 1) (c :: text)).eq_nil below here
            exact (unmarked_of_lanes ok none_).2 b (List.mem_of_getElem? byte)
          · cases q with
            | zero => omega
            | succ q =>
                rw [lanePositions] at below
                rw [laneScan] at ok
                refine @ih (st.step c) (i + 1) text ?_ (fun j member => below j
                  (List.mem_append_right _ member)) q b (by omega) byte
                cases emits : st.emits c <;> simpa [emits] using ok

/-- Behind the last position of a successful scan there are no marks, not even in strings. -/
theorem ScanPath.unmarked_behind (scanner : ScanPath) {buf : Bytes} {m : Nat}
    (ok : (scanner.scan buf).result = .ok ()) (below : ∀ j ∈ scanner.positions buf, j < m)
    {q : Nat} {b : UInt8} (behind : m ≤ q) (byte : buf[q]? = some b) : isMark b = false := by
  cases scanner with
  | scalar =>
      exact unmarked_behind_marks (scalar_ok_iff.1 ok).1 below q b (by omega) byte
  | vector path =>
      have lanes : (laneScan buf.length ⟨false, false⟩ 0 (blockEnd buf) buf).result = .ok () := by
        rw [scan, path.scan_eq, ScanOut.checked] at ok
        split at ok
        · cases ok
        · assumption
      exact unmarked_behind_lanes lanes below q b (by omega) byte

end QJson.Doc
