/-
One's complement sums of 16-bit words (RFC 1071).

A block of bytes is a sequence of big-endian words, the last one padded with zero when the block
has an odd length. The words are added in one's complement: the carry out of the high end comes
back in at the low end. The receiver of a block that carries its own checksum adds all of it and
expects `0xFFFF`.

* `onesComplementSum_eq_max_iff`: that is what it gets when the plain sum of the words is a
  positive multiple of 65535.
* `words_append`: a block of even length can be summed apart from what follows it.
-/

import Mathlib.Algebra.BigOperators.Group.List.Basic
import Solowan.Memory.Buffer

namespace Solowan.Memory

/-- The words of a block. -/
def words : List UInt8 → List Nat
  | [] => []
  | [a] => [a.toNat * 256]
  | a :: b :: bs => (a.toNat * 256 + b.toNat) :: words bs

/-- Addition with end-around carry. -/
def addCarry (a b : Nat) : Nat := if a + b < 65536 then a + b else a + b - 65535

/-- The one's complement sum of a block. -/
def onesComplementSum (bs : List UInt8) : Nat := (words bs).foldl addCarry 0

example : onesComplementSum [0xFF, 0xFF, 0, 1, 2] = 0x201 := by decide

section Words

variable {bs : List UInt8}

theorem words_lt : ∀ w ∈ words bs, w < 65536 := by
  induction bs using words.induct with
  | case1 => simp [words]
  | case2 a =>
    intro w hw
    have ha := a.toNat_lt
    rw [List.mem_singleton.mp hw]
    omega
  | case3 a b bs ih =>
    intro w hw
    have ha := a.toNat_lt
    have hb := b.toNat_lt
    rcases List.mem_cons.mp hw with rfl | hw
    · omega
    · exact ih w hw

theorem words_append (h : bs.length % 2 = 0) (bs' : List UInt8) :
    words (bs ++ bs') = words bs ++ words bs' := by
  induction bs using words.induct with
  | case1 => rfl
  | case2 a => simp at h
  | case3 a b bs ih =>
    simp only [List.length_cons] at h
    simp only [List.cons_append, words, ih (by omega)]

/-- Adding with end-around carry counts modulo 65535, and is 0 only where nothing was added. -/
theorem foldl_addCarry {ws : List Nat} (hws : ∀ w ∈ ws, w < 65536) {acc : Nat}
    (hacc : acc < 65536) :
    ws.foldl addCarry acc < 65536 ∧
      ws.foldl addCarry acc % 65535 = (acc + ws.sum) % 65535 ∧
      (ws.foldl addCarry acc = 0 ↔ acc + ws.sum = 0) := by
  induction ws generalizing acc with
  | nil => exact ⟨hacc, rfl, Iff.rfl⟩
  | cons w ws ih =>
    have hw := hws w List.mem_cons_self
    have hnext : addCarry acc w < 65536 ∧ addCarry acc w % 65535 = (acc + w) % 65535 ∧
        (addCarry acc w = 0 ↔ acc + w = 0) := by
      unfold addCarry
      split <;> omega
    obtain ⟨hlt, hmod, hzero⟩ := ih (fun w hw => hws w (List.mem_cons_of_mem _ hw)) hnext.1
    rw [List.foldl_cons, List.sum_cons]
    refine ⟨hlt, ?_, ?_⟩ <;> omega

/-- **The sum folds to `0xFFFF`** exactly when the words add up to a positive multiple of it. -/
theorem onesComplementSum_eq_max_iff :
    onesComplementSum bs = 0xFFFF ↔ 0 < (words bs).sum ∧ (words bs).sum % 65535 = 0 := by
  obtain ⟨hlt, hmod, hzero⟩ := foldl_addCarry (fun w (hw : w ∈ words bs) => words_lt w hw)
    (show 0 < 65536 by decide)
  rw [onesComplementSum]
  omega

end Words

end Solowan.Memory
