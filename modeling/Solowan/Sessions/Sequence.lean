/-
The sequence numbers of a stream (`checkseqnumber`, `updateseqnumber`,
`opennopd/sessionmanager.c`).

For each direction a session stores the number of the last segment that passed, and a segment
passes when its own number is not below it. The comparison is the one of the integers: a stream
whose numbers restart from 0 falls below what is stored, and since only a segment that passes is
stored, it stays there.

* `answers_all_iff`: the segments that follow one with the number stored.
* `fresh_data_passes_iff`: every segment of a stream without losses passes if and only if no
  segment starts behind the last number.
-/

import Mathlib.Algebra.BigOperators.Group.List.Basic
import Solowan.Sessions.Table

namespace Solowan.Sessions

/-! ### A stream -/

/-- The number stored for the direction of `saddr`. -/
def storedSeq (largerIP saddr : UInt32) (s : Session) : UInt32 :=
  if saddr = largerIP then s.largerIPseq else s.smallerIPseq

/-- A segment of a stream: the length of its data, and what happens to the session before it
comes. The other direction and the other fields change; the number stored does not. -/
structure Piece (largerIP saddr : UInt32) where
  length : Nat
  meanwhile : Session → Session
  keeps : ∀ s, storedSeq largerIP saddr (meanwhile s) = storedSeq largerIP saddr s

/-- What `checkseqnumber` answers for the segments of a stream, the first of which has the number
`seq`. A segment that passes is stored. -/
def answers {largerIP saddr : UInt32} : UInt32 → List (Piece largerIP saddr) → Session → List Bool
  | _, [], _ => []
  | seq, p :: ps, s =>
    let s := p.meanwhile s
    let passed := checkseqnumber largerIP saddr seq s
    passed :: answers (seq + UInt32.ofNat p.length) ps
      (if passed then updateseqnumber largerIP saddr seq s else s)

/-- How far behind the first segment the last one starts. -/
def lastOffset {largerIP saddr : UInt32} (ps : List (Piece largerIP saddr)) : Nat :=
  (ps.dropLast.map Piece.length).sum

/-! ### One segment -/

section Segment

variable {largerIP saddr seq : UInt32} {s : Session}

theorem checkseqnumber_eq (h : largerIP ≠ 0) :
    checkseqnumber largerIP saddr seq s = !decide (seq < storedSeq largerIP saddr s) := by
  unfold checkseqnumber storedSeq
  rw [if_pos h]
  split <;> rfl

theorem storedSeq_updateseqnumber (h : largerIP ≠ 0) :
    storedSeq largerIP saddr (updateseqnumber largerIP saddr seq s) = seq := by
  unfold storedSeq updateseqnumber
  rw [if_pos h]
  by_cases haddr : saddr = largerIP
  · rw [if_pos haddr, if_pos haddr]
  · rw [if_neg haddr, if_neg haddr]

/-- A number that is `d` further passes as long as it does not wrap. -/
theorem checkseqnumber_add (h : largerIP ≠ 0) {d : Nat} (hd : d < 4294967296) :
    checkseqnumber largerIP saddr (storedSeq largerIP saddr s + UInt32.ofNat d) s = true ↔
      (storedSeq largerIP saddr s).toNat + d < 4294967296 := by
  obtain ⟨v, hv⟩ : ∃ v, storedSeq largerIP saddr s = v := ⟨_, rfl⟩
  have hlt := v.toNat_lt
  have hsum : (v + UInt32.ofNat d).toNat = (v.toNat + d) % 4294967296 := by
    rw [UInt32.toNat_add, UInt32.toNat_ofNat', Nat.mod_eq_of_lt hd]
  rw [checkseqnumber_eq h, hv, Bool.not_eq_true', decide_eq_false_iff_not, UInt32.lt_iff_toNat_lt,
    hsum]
  omega

end Segment

/-! ### Whole streams -/

section Stream

variable {largerIP saddr : UInt32} {s : Session}

theorem lastOffset_cons (p : Piece largerIP saddr) {ps : List (Piece largerIP saddr)}
    (h : ps ≠ []) : lastOffset (p :: ps) = p.length + lastOffset ps := by
  rw [lastOffset, List.dropLast_cons_of_ne_nil h]
  rfl

/-- Without a larger address every segment fails. -/
theorem answers_of_zero (seq : UInt32) {ps : List (Piece 0 saddr)} (hne : ps ≠ []) :
    ¬ ∀ b ∈ answers seq ps s, b = true := by
  intro h
  cases ps with
  | nil => exact hne rfl
  | cons p ps =>
    have hfirst := h _ List.mem_cons_self
    simp [checkseqnumber] at hfirst

/-- **The segments behind one that is stored**, the first of them `d` further, all pass when the
last of them starts before the numbers wrap. -/
theorem answers_all_iff (h : largerIP ≠ 0) {ps : List (Piece largerIP saddr)} {d : Nat}
    (hd : d < 4294967296) (hlen : ∀ p ∈ ps, p.length ≤ 65535) :
    (∀ b ∈ answers (storedSeq largerIP saddr s + UInt32.ofNat d) ps s, b = true) ↔
      (ps = [] ∨ (storedSeq largerIP saddr s).toNat + d + lastOffset ps < 4294967296) := by
  induction ps generalizing s d with
  | nil => simp [answers]
  | cons p ps ih =>
    have hkeeps := p.keeps s
    have hp := hlen p List.mem_cons_self
    have hcheck : checkseqnumber largerIP saddr (storedSeq largerIP saddr s + UInt32.ofNat d)
          (p.meanwhile s) = true ↔ (storedSeq largerIP saddr s).toNat + d < 4294967296 := by
      rw [← hkeeps]
      exact checkseqnumber_add h hd
    rw [answers, List.forall_mem_cons, or_iff_right (List.cons_ne_nil p ps)]
    by_cases hpass : (storedSeq largerIP saddr s).toNat + d < 4294967296
    · have htrue := hcheck.mpr hpass
      obtain ⟨seq, hseq⟩ : ∃ seq, storedSeq largerIP saddr s + UInt32.ofNat d = seq := ⟨_, rfl⟩
      have hsum : seq.toNat = (storedSeq largerIP saddr s).toNat + d := by
        rw [← hseq, UInt32.toNat_add, UInt32.toNat_ofNat', Nat.mod_eq_of_lt hd,
          Nat.mod_eq_of_lt hpass]
      have hrest := ih (s := updateseqnumber largerIP saddr seq (p.meanwhile s))
        (d := p.length) (by omega) fun q hq => hlen q (List.mem_cons_of_mem p hq)
      rw [storedSeq_updateseqnumber h, hsum] at hrest
      rw [hseq] at htrue ⊢
      rw [htrue, if_pos rfl, hrest, and_iff_right rfl]
      cases ps with
      | nil => simp [lastOffset, hpass]
      | cons q ps =>
        rw [lastOffset_cons p (List.cons_ne_nil q ps), or_iff_right (List.cons_ne_nil q ps),
          ← Nat.add_assoc]
    · refine iff_of_false (fun hall => hpass (hcheck.mp hall.1)) ?_
      omega

/-- **Fresh data passes** as long as its numbers do not wrap: after a SYN with the number `isn`
and `synData` bytes of data, every segment of a stream without losses passes if and only if the
stream is empty, or there is a larger address and the last segment starts before the numbers
return to 0. -/
theorem fresh_data_passes_iff (isn : UInt32) (s : Session) {synData : Nat}
    {ps : List (Piece largerIP saddr)} (hsyn : synData ≤ 65535)
    (hlen : ∀ p ∈ ps, p.length ≤ 65535) :
    (∀ b ∈ answers (isn + UInt32.ofNat (synData + 1)) ps (updateseqnumber largerIP saddr isn s),
        b = true) ↔
      (ps = [] ∨
        largerIP ≠ 0 ∧ isn.toNat + (synData + 1) + lastOffset ps < 4294967296) := by
  by_cases hzero : largerIP = 0
  · subst hzero
    by_cases hne : ps = []
    · subst hne
      simp [answers]
    · refine iff_of_false (answers_of_zero _ hne) ?_
      rintro (hnil | ⟨habsurd, -⟩)
      · exact hne hnil
      · exact habsurd rfl
  · have hall := answers_all_iff (s := updateseqnumber largerIP saddr isn s) hzero
      (d := synData + 1) (by omega) hlen
    rw [storedSeq_updateseqnumber hzero] at hall
    rw [hall, and_iff_right hzero]

/-- A piece with nothing in between. -/
def Piece.plain (largerIP saddr : UInt32) (length : Nat) : Piece largerIP saddr :=
  ⟨length, id, fun _ => rfl⟩

theorem fresh_data_passes_below :
    answers (1000 + UInt32.ofNat (0 + 1))
        [Piece.plain 9 9 1460, Piece.plain 9 9 1460, Piece.plain 9 9 100]
        (updateseqnumber 9 9 1000 (newSession ⟨9, 1, 5, 1⟩ 0)) = [true, true, true] ∧
      ∀ b ∈ answers (1000 + UInt32.ofNat (0 + 1))
        [Piece.plain 9 9 1460, Piece.plain 9 9 1460, Piece.plain 9 9 100]
        (updateseqnumber 9 9 1000 (newSession ⟨9, 1, 5, 1⟩ 0)), b = true :=
  ⟨by decide, (fresh_data_passes_iff 1000 (newSession ⟨9, 1, 5, 1⟩ 0) (show 0 ≤ 65535 by decide)
    (by decide)).mpr (Or.inr (by decide))⟩

/-- A stream that wraps: the segment with the number 355 and the ones behind it fail. -/
theorem wrapped_stream_fails :
    answers (4294966190 + UInt32.ofNat (0 + 1))
        [Piece.plain 9 9 1460, Piece.plain 9 9 1460, Piece.plain 9 9 1460]
        (updateseqnumber 9 9 4294966190 (newSession ⟨9, 1, 5, 1⟩ 0)) = [true, false, false] := by
  decide

end Stream

end Solowan.Sessions
