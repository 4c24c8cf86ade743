/-
What QuickLZ writes: literals and copies.

A copy does not say where it copies from. It names three bytes by their hash, and both sides keep
a table of the places they have gone over. The compressor knows the bytes ahead and enters a place
at once; the decompressor knows those behind and lags by up to two places. `Emits` says which
tokens stand for a source such that both sides agree on the place, or on what is there.

* `Copyable.source`: a copy the compressor may emit restores the bytes, whether it comes from the
  place the compressor means or from the one the decompressor finds.
* `Emits.copy_inv`, `Emits.literals_of_end`: near the end there are only literals.
-/

import Solowan.Memory.Latest
import Solowan.QuickLz.Decompressor

namespace Solowan.QuickLz

open Solowan.Memory

/-- What follows a flag in the output. -/
inductive Token where
  | literal (b : UInt8)
  | copy (hash matchlen : Nat)
  deriving DecidableEq

/-- The token as the source writes it. -/
def Token.item : Token → Item
  | .literal b => ⟨false, [b]⟩
  | .copy hash matchlen =>
    if matchlen < 18 then ⟨true, leBytes 2 ((matchlen - 2) ||| (hash <<< 4))⟩
    else ⟨true, leBytes 3 ((matchlen <<< 16) ||| (hash <<< 4))⟩

@[simp] theorem Token.flag_item_copy (hash len : Nat) : (Token.copy hash len).item.flag = true := by
  rw [Token.item]
  split <;> rfl

/-- A stretch of literals. -/
def literals (s : Mem) (p n : Nat) : List Token := (slice s p n).map .literal

/-- `n` bytes at `q` and at `p` are the same. -/
def Agree (s : Mem) (q p n : Nat) : Prop := ∀ i, i < n → s (q + i) = s (p + i)

/-- The place `o` may serve a copy to `p`: it is three bytes back, or it is the byte before in a
run of one byte of which the last three were literals. -/
def Copyable (s : Mem) (V : Set Nat) (p o : Nat) : Prop :=
  o + 3 ≤ p ∨ (o + 1 = p ∧ 3 ≤ p ∧ (∀ i, i < 3 → p - 3 + i ∈ V) ∧ ∀ i, i < 4 → s (p - 3 + i) = s p)

/-- The tokens that stand for the bytes of `s` from `p` to `n`, where the places in `V` have been
visited. The last ten bytes are literals unless a copy reaches into them, and the last four are in
any case. -/
inductive Emits (s : Mem) (n : Nat) : Set Nat → Nat → List Token → Prop where
  | tail {V : Set Nat} {p : Nat} : p ≤ n → n ≤ p + 10 → Emits s n V p (literals s p (n - p))
  | literal {V : Set Nat} {p : Nat} {ts : List Token} : p + 10 < n →
      Emits s n (insert p V) (p + 1) ts → Emits s n V p (.literal (s p) :: ts)
  | copy {V : Set Nat} {p o len : Nat} {ts : List Token} : p + 10 < n →
      Latest (hashat s) V (hashat s p) o → Copyable s V p o → 3 ≤ len → len ≤ 255 →
      p + len + 4 ≤ n → Agree s o p len → Emits s n (insert p V) (p + len) ts →
      Emits s n V p (.copy (hashat s p) len :: ts)

section Tokens

variable {s : Mem} {n p q o len : Nat} {V : Set Nat} {ts : List Token} {t : Token}

theorem Agree.mono {k : Nat} (h : Agree s q p len) (hk : k ≤ len) : Agree s q p k :=
  fun i hi => h i (Nat.lt_of_lt_of_le hi hk)

/-- In a run the copy repeats its one byte. -/
theorem Agree.run (h : Agree s o p len) (ho : o + 1 = p) {i : Nat} (hi : i < len) : s (p + i) = s o := by
  induction i with
  | zero => exact (h 0 hi).symm
  | succ i ih =>
    have hstep := h (i + 1) hi
    rw [show o + (i + 1) = p + i by omega] at hstep
    rw [← hstep, ih (by omega)]

/-- The bytes are restored from where the table of the decompressor points, which has entered the
places below `next` only. -/
theorem Copyable.source {next : Nat} {offset : Nat → Nat} (h : Copyable s V p o)
    (hlatest : Latest (hashat s) V (hashat s p) o) (hagree : Agree s o p len) (hlen : 3 ≤ len)
    (hoffset : Indexes (hashat s) (Below V next) offset) (hnear : p ≤ next + 2)
    (hbehind : ∀ v ∈ V, v < next → v + 3 ≤ p) :
    offset (hashat s p) + 3 ≤ p ∧ Agree s (offset (hashat s p)) p len := by
  rcases h with hback | ⟨hbefore, hthree, hvisited, hrun⟩
  · have hfound : offset (hashat s p) = o := hoffset.lookup_below hlatest (by omega)
    rw [hfound]
    exact ⟨hback, hagree⟩
  · -- The places one and two bytes back are not in the table yet; three bytes back is.
    have hhash : hashat s (p - 3) = hashat s p := by
      refine hashat_congr fun i hi => ?_
      have hbyte : s (p - 3 + i) = s p := hrun i (by omega)
      have hlast : s o = s p := by
        have h2 := hrun 2 (by decide)
        rwa [show p - 3 + 2 = o by omega] at h2
      rw [hbyte, hagree.run hbefore (by omega : i < len), hlast]
    have hlast : Latest (hashat s) (Below V next) (hashat s p) (p - 3) := by
      have hmem : p - 3 ∈ V := hvisited 0 (by decide)
      refine ⟨⟨⟨hmem, by omega⟩, hhash⟩, ?_⟩
      rintro u ⟨⟨hu, hlt⟩, -⟩
      have := hbehind u hu hlt
      omega
    rw [hoffset _ _ hlast]
    refine ⟨by omega, fun i hi => ?_⟩
    have hlast : s o = s p := by
      have h2 := hrun 2 (by decide)
      rwa [show p - 3 + 2 = o by omega] at h2
    rw [hagree.run hbefore hi, hlast]
    by_cases hsmall : i < 4
    · exact hrun i hsmall
    · have hrest := hagree.run hbefore (by omega : i - 3 < len)
      rwa [show p + (i - 3) = p - 3 + i by omega, hlast] at hrest

theorem Emits.le (h : Emits s n V p ts) : p ≤ n := by
  cases h with
  | tail hle => exact hle
  | literal hlt => omega
  | copy hlt => omega

/-- Bytes that are left are written. -/
theorem Emits.ne_nil (h : Emits s n V p ts) (hlt : p < n) : ts ≠ [] := by
  cases h with
  | tail =>
    intro hnil
    have := congrArg List.length hnil
    simp only [literals, List.length_map, length_slice, List.length_nil] at this
    omega
  | literal => exact List.cons_ne_nil _ _
  | copy => exact List.cons_ne_nil _ _

theorem literals_succ (s : Mem) (p n : Nat) :
    literals s p (n + 1) = .literal (s p) :: literals s (p + 1) n := by
  have hslice : slice s p (1 + n) = slice s p 1 ++ slice s (p + 1) n := slice_append s p 1 n
  rw [literals, Nat.add_comm n 1, hslice]
  rfl

/-- A literal stands for the byte it holds. -/
theorem Emits.literal_inv {b : UInt8} (h : Emits s n V p (.literal b :: ts)) :
    p < n ∧ b = s p ∧ Emits s n (insert p V) (p + 1) ts := by
  generalize hts : Token.literal b :: ts = ts' at h
  cases h with
  | tail hle hnear =>
    obtain ⟨k, hk⟩ : ∃ k, n - p = k + 1 := by
      refine ⟨n - p - 1, ?_⟩
      by_contra hne
      have hzero : n - p = 0 := by omega
      rw [hzero] at hts
      cases hts
    rw [hk, literals_succ] at hts
    injection hts with hb hts
    injection hb with hb
    refine ⟨by omega, hb, ?_⟩
    rw [hts, show k = n - (p + 1) by omega]
    exact .tail (by omega) (by omega)
  | literal hlt hrest =>
    injection hts with hb hts
    injection hb with hb
    rw [hts]
    exact ⟨by omega, hb, hrest⟩
  | copy => cases hts

/-- A copy names what a copy to this place may. -/
theorem Emits.copy_inv {hash : Nat} (h : Emits s n V p (.copy hash len :: ts)) :
    ∃ o, hash = hashat s p ∧ Latest (hashat s) V (hashat s p) o ∧ Copyable s V p o ∧ 3 ≤ len ∧
      len ≤ 255 ∧ p + len + 4 ≤ n ∧ Agree s o p len ∧ Emits s n (insert p V) (p + len) ts := by
  generalize hts : Token.copy hash len :: ts = ts' at h
  cases h with
  | tail =>
    cases hk : n - p with
    | zero =>
      rw [hk] at hts
      cases hts
    | succ k =>
      rw [hk, literals_succ] at hts
      cases hts
  | literal => cases hts
  | copy hround hlatest hcopyable h3 h255 hend hagree hrest =>
    cases hts
    exact ⟨_, rfl, hlatest, hcopyable, h3, h255, hend, hagree, hrest⟩

/-- From the last ten bytes on there are only literals. -/
theorem Emits.literals_of_end (h : Emits s n V p ts) (hend : n ≤ p + 10) : ts = literals s p (n - p) := by
  cases h with
  | tail => rfl
  | literal hlt => omega
  | copy hlt => omega

end Tokens

end Solowan.QuickLz
