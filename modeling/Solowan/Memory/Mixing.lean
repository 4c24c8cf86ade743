/-
Digests that take their input in word by word.

A step of such a digest mixes one word into the state. Where the words cannot be told from the
digest in general, a step that merges neither two states nor two words still tells inputs apart
that are close to each other.

* `Absorbs`: such steps.
* `Absorbs.two_apart`: two inputs of one length with one digest are the same, or differ at two
  places at least.
* `xorShiftRight_injective`, `rotate_injective`, `mul_odd_injective`: the operations that
  steps are usually made of.
* `loadLE_injective`: a word and its bytes.
-/

import Mathlib.Data.Nat.ModEq
import Solowan.Memory.Buffer

namespace Solowan.Memory

open Function

/-! ### Digests -/

/-- A step merges neither two words nor two states. -/
structure Absorbs {σ κ : Type} (step : σ → κ → σ) : Prop where
  word : ∀ s, Injective (step s)
  state : ∀ k, Injective (step · k)

section Digest

variable {σ κ : Type} {step : σ → κ → σ}

/-- From different states one digest is reached by different words only. -/
theorem Absorbs.differ (h : Absorbs step) {s s' : σ} (hne : s ≠ s') {l l' : List κ}
    (hlen : l.length = l'.length) (heq : l.foldl step s = l'.foldl step s') :
    ∃ i : Nat, l[i]? ≠ l'[i]? := by
  induction l generalizing s s' l' with
  | nil =>
    rw [List.eq_nil_of_length_eq_zero hlen.symm] at heq
    exact absurd heq hne
  | cons k l ih =>
    cases l' with
    | nil => cases hlen
    | cons k' l' =>
      by_cases hk : k = k'
      · subst hk
        have hne' : step s k ≠ step s' k := fun hs => hne (h.state k hs)
        obtain ⟨i, hi⟩ := ih hne' (Nat.succ.inj hlen) heq
        exact ⟨i + 1, hi⟩
      · exact ⟨0, fun h0 => hk (Option.some.inj h0)⟩

/-- **Two inputs of one length with one digest** are the same, or differ at two places. -/
theorem Absorbs.two_apart (h : Absorbs step) {s : σ} {l l' : List κ}
    (hlen : l.length = l'.length) (heq : l.foldl step s = l'.foldl step s) :
    l = l' ∨ ∃ i j : Nat, i ≠ j ∧ l[i]? ≠ l'[i]? ∧ l[j]? ≠ l'[j]? := by
  induction l generalizing s l' with
  | nil => exact Or.inl (List.eq_nil_of_length_eq_zero hlen.symm).symm
  | cons k l ih =>
    cases l' with
    | nil => cases hlen
    | cons k' l' =>
      by_cases hk : k = k'
      · subst hk
        obtain rfl | ⟨i, j, hij, hi, hj⟩ := ih (Nat.succ.inj hlen) heq
        · exact Or.inl rfl
        · exact Or.inr ⟨i + 1, j + 1, fun hs => hij (Nat.succ.inj hs), hi, hj⟩
      · -- The first words differ, and then the states, which the others have to make up for.
        have hne : step s k ≠ step s k' := fun hs => hk (h.word s hs)
        obtain ⟨i, hi⟩ := h.differ hne (Nat.succ.inj hlen) heq
        exact Or.inr ⟨0, i + 1, (Nat.succ_ne_zero i).symm, fun h0 => hk (Option.some.inj h0), hi⟩

end Digest

/-! ### Words -/

section Words

variable {w : Nat}

/-- The upper bits of `x ^^^ x >>> s` are those of `x`, and each bit below follows from those
above it. -/
theorem xorShiftRight_injective {s : Nat} (hs : 0 < s) :
    Injective fun x : BitVec w => x ^^^ (x >>> s) := by
  intro x y hxy
  have hbit : ∀ n i, w ≤ i + n → x.getLsbD i = y.getLsbD i := by
    intro n
    induction n with
    | zero =>
      intro i hi
      rw [BitVec.getLsbD_of_ge x i hi, BitVec.getLsbD_of_ge y i hi]
    | succ n ih =>
      intro i hi
      have hupper := ih (s + i) (by omega)
      have h := congrArg (BitVec.getLsbD · i) hxy
      simp only [BitVec.getLsbD_xor, BitVec.getLsbD_ushiftRight, hupper] at h
      exact Bool.xor_left_inj.mp h
  exact BitVec.eq_of_getLsbD_eq fun i hi => hbit w i (Nat.le_add_left w i)

theorem rotate_injective {r : Nat} (hr : r < w) :
    Injective fun x : BitVec w => (x <<< r) ||| (x >>> (w - r)) := by
  intro x y hxy
  refine BitVec.eq_of_getLsbD_eq fun i hi => ?_
  -- Bit `i` goes to bit `i + r`, or round to the other end.
  by_cases hround : i + r < w
  · have h := congrArg (BitVec.getLsbD · (i + r)) hxy
    have hge : w ≤ w - r + (i + r) := by omega
    have hle : ¬i + r < r := by omega
    simpa [hround, BitVec.getLsbD_of_ge, hge, hle, hi] using h
  · have h := congrArg (BitVec.getLsbD · (i + r - w)) hxy
    have hlt : i + r - w < r := by omega
    have hsame : w - r + (i + r - w) = i := by omega
    simpa [hlt, hsame, hi] using h

theorem mul_odd_injective {c : BitVec w} (hc : c.toNat % 2 = 1) :
    Injective fun x : BitVec w => x * c := by
  intro x y hxy
  have hcoprime : Nat.Coprime (2 ^ w) c.toNat :=
    Nat.Coprime.pow_left w (by rw [Nat.Coprime, Nat.gcd_rec, hc, Nat.gcd_one_left])
  have hmod : x.toNat * c.toNat ≡ y.toNat * c.toNat [MOD 2 ^ w] := by
    have h := congrArg BitVec.toNat hxy
    rwa [BitVec.toNat_mul, BitVec.toNat_mul] at h
  have h := Nat.ModEq.cancel_right_of_coprime hcoprime hmod
  rw [Nat.ModEq, Nat.mod_eq_of_lt x.isLt, Nat.mod_eq_of_lt y.isLt] at h
  exact BitVec.eq_of_toNat_eq h

end Words

/-! ### The bytes of a word -/

theorem beNat_injective {bs bs' : List UInt8} (hlen : bs.length = bs'.length)
    (h : beNat bs = beNat bs') : bs = bs' := by
  induction bs using List.reverseRecOn generalizing bs' with
  | nil => exact (List.eq_nil_of_length_eq_zero hlen.symm).symm
  | append_singleton bs b ih =>
    cases bs' using List.reverseRecOn with
    | nil => simp at hlen
    | append_singleton bs' b' =>
      rw [beNat_snoc, beNat_snoc] at h
      have hb := b.toNat_lt
      have hb' := b'.toNat_lt
      have hhigh : bs = bs' := ih (by simpa using hlen) (by omega)
      have hlow : b = b' := UInt8.toNat_inj.mp (by omega)
      rw [hhigh, hlow]

/-- Words that are the same have the same bytes. -/
theorem loadLE_injective {m m' : Mem} {p p' k : Nat} (h : loadLE m p k = loadLE m' p' k) :
    slice m p k = slice m' p' k := by
  refine List.reverse_inj.mp (beNat_injective ?_ h)
  rw [List.length_reverse, List.length_reverse, length_slice, length_slice]

end Solowan.Memory
