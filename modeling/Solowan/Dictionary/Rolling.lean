/-
The rolling fingerprint (`full_rfp`, `inc_rfp`, `lib/dedup_common.c`).

A fingerprint is the value of a polynomial whose coefficients are the bytes of the string, in
the integers modulo `2 ^ 60`. Rolling on by one byte gives the same value as computing the
polynomial anew (`incRfp_fullRfp`), also where the subtraction underflows, so that every
selected fingerprint is the one of its string (`calculateRelevantFPs_fullRfp`).
-/

import Mathlib.Algebra.BigOperators.Ring.Finset
import Mathlib.Data.ZMod.Basic
import Solowan.Dictionary.Fingerprint

namespace Solowan.Dictionary

open Solowan.Memory

/-! ### Rolling -/

/-- Taking the first term off a polynomial of degree `n` and multiplying by `x` makes room for
the next one. -/
theorem sum_shift {R : Type} [CommRing R] (c : Nat → R) (x : R) (n : Nat) :
    ((∑ i ∈ Finset.range (n + 1), c i * x ^ (n - i)) - c 0 * x ^ n) * x + c (n + 1) =
      ∑ i ∈ Finset.range (n + 1), c (i + 1) * x ^ (n - i) := by
  have hterm : ∀ i ∈ Finset.range n, c (i + 1) * x ^ (n - (i + 1)) * x = c (i + 1) * x ^ (n - i) := by
    intro i hi
    have hi' := Finset.mem_range.mp hi
    have hexp : n - i = n - (i + 1) + 1 := by omega
    rw [hexp, pow_succ, mul_assoc]
  rw [Finset.sum_range_succ', Nat.sub_zero, add_sub_cancel_right, Finset.sum_mul,
    Finset.sum_congr rfl hterm, Finset.sum_range_succ, Nat.sub_self, pow_zero, mul_one]

/-- The modulus of the fingerprints. -/
def MODULUS : Nat := 2 ^ 60

/-- A fingerprint modulo `MODULUS`. -/
def residue (x : UInt64) : ZMod MODULUS := (x.toNat : ZMod MODULUS)

section Residue

variable (x y : UInt64)

theorem residue_mod (n : Nat) : ((n % 2 ^ 64 : Nat) : ZMod MODULUS) = (n : ZMod MODULUS) := by
  rw [ZMod.natCast_eq_natCast_iff]
  exact Nat.ModEq.of_dvd (show 2 ^ 60 ∣ 2 ^ 64 by decide) (Nat.mod_modEq n (2 ^ 64))

theorem residue_add : residue (x + y) = residue x + residue y := by
  unfold residue
  rw [UInt64.toNat_add, residue_mod, Nat.cast_add]

theorem residue_mul : residue (x * y) = residue x * residue y := by
  unfold residue
  rw [UInt64.toNat_mul, residue_mod, Nat.cast_mul]

theorem residue_sub : residue (x - y) = residue x - residue y := by
  have h : residue (x - y + y) = residue x := by rw [UInt64.sub_add_cancel]
  rw [residue_add] at h
  exact eq_sub_of_add_eq h

theorem toNat_and_MOD_MASK : (x &&& MOD_MASK).toNat = x.toNat % MODULUS := by
  rw [UInt64.toNat_and]
  exact Nat.and_two_pow_sub_one_eq_mod x.toNat 60

theorem residue_and_MOD_MASK : residue (x &&& MOD_MASK) = residue x := by
  unfold residue
  rw [toNat_and_MOD_MASK, ZMod.natCast_mod]

variable {x y}

/-- A masked value is determined by its residue. -/
theorem and_MOD_MASK_congr (h : residue x = residue y) : x &&& MOD_MASK = y &&& MOD_MASK := by
  apply UInt64.toNat_inj.mp
  rw [toNat_and_MOD_MASK, toNat_and_MOD_MASK]
  exact (ZMod.natCast_eq_natCast_iff _ _ _).mp h

theorem residue_fpfactors (b : UInt8) (j : Nat) :
    residue (fpfactors b j) = residue b.toUInt64 * residue P ^ j := by
  induction j with
  | zero => rw [fpfactors, pow_zero, mul_one]
  | succ j ih => rw [fpfactors, residue_and_MOD_MASK, residue_mul, ih, pow_succ, mul_assoc]

end Residue

/-- The fingerprint is the value of a polynomial with the bytes as coefficients. -/
theorem residue_fullRfp (p : List UInt8) :
    residue (fullRfp p) =
      ∑ i ∈ Finset.range (63 + 1), residue (p.getD i 0).toUInt64 * residue P ^ (63 - i) := by
  have hfold : ∀ n ≤ BETA, residue ((List.range n).foldl
      (fun fp i => (fp + fpfactors (p.getD i 0) (BETA - i - 1)) &&& MOD_MASK) 0) =
        ∑ i ∈ Finset.range n, residue (p.getD i 0).toUInt64 * residue P ^ (63 - i) := by
    intro n hn
    induction n with
    | zero => simp [residue]
    | succ n ih =>
      have hexp : BETA - n - 1 = 63 - n := by
        simp only [BETA]
        omega
      rw [List.range_succ, List.foldl_append, List.foldl_cons, List.foldl_nil,
        residue_and_MOD_MASK, residue_add, ih (by omega), residue_fpfactors, hexp,
        Finset.sum_range_succ]
  exact hfold BETA (Nat.le_refl _)

theorem fullRfp_masked (p : List UInt8) : fullRfp p &&& MOD_MASK = fullRfp p := by
  unfold fullRfp
  rw [show BETA = 63 + 1 from rfl, List.range_succ, List.foldl_append, List.foldl_cons,
    List.foldl_nil, UInt64.and_assoc, UInt64.and_self]

/-- **Rolling on**: the incremental fingerprint is the full one, one byte further on. -/
theorem incRfp_fullRfp (p : List UInt8) :
    incRfp (fullRfp p) (p.getD BETA 0) (p.getD 0 0) = fullRfp (p.drop 1) := by
  rw [incRfp, ← fullRfp_masked (p.drop 1)]
  apply and_MOD_MASK_congr
  have hdrop : ∀ i, (p.drop 1).getD i 0 = p.getD (i + 1) 0 := by
    intro i
    simp [List.getD_eq_getElem?_getD]
  simp only [residue_add, residue_mul, residue_sub, residue_fullRfp, residue_fpfactors, hdrop]
  exact sum_shift (fun i => residue (p.getD i 0).toUInt64) (residue P) 63

/-- Only the fingerprinted string matters. -/
theorem fullRfp_take (p : List UInt8) : fullRfp (p.take BETA) = fullRfp p := by
  unfold fullRfp
  apply List.foldl_ext
  intro fp i hi
  rw [List.getD_eq_getElem?_getD, List.getElem?_take_of_lt (List.mem_range.mp hi),
    ← List.getD_eq_getElem?_getD]

/-! ### What is selected -/

/-- The fingerprint of an entry is the one of the string at its offset. -/
def Fingerprints (packet : List UInt8) (e : FPEntryB) : Prop := e.fp = fullRfp (packet.drop e.offset)

section Selection

variable {packet : List UInt8}

/-- One byte further on in a packet. -/
theorem incRfp_packet (packet : List UInt8) {exploring : Nat} (h : BETA ≤ exploring) :
    incRfp (fullRfp (packet.drop (exploring - BETA))) (packet.getD exploring 0)
        (packet.getD (exploring - BETA) 0) =
      fullRfp (packet.drop (exploring - BETA + 1)) := by
  have hroll := incRfp_fullRfp (packet.drop (exploring - BETA))
  have hget : ∀ i, (packet.drop (exploring - BETA)).getD i 0 = packet.getD (exploring - BETA + i) 0 := by
    intro i
    simp [List.getD_eq_getElem?_getD]
  rw [hget, hget, List.drop_drop, Nat.sub_add_cancel h, Nat.add_zero] at hroll
  exact hroll

theorem exploreFPs_fullRfp (cfg : Config) (mask : UInt64) (n exploring previous : Nat) (fpma : List FPEntryB)
    (hlo : BETA ≤ exploring) (h : ∀ e ∈ fpma, Fingerprints packet e) :
    ∀ e ∈ (exploreFPs cfg packet mask n exploring previous
      (fullRfp (packet.drop (exploring - BETA))) fpma).1, Fingerprints packet e := by
  induction n generalizing exploring previous fpma with
  | zero => exact h
  | succ n ih =>
    simp only [exploreFPs, incRfp_packet packet hlo]
    generalize hfpma : (if fullRfp (packet.drop (exploring - BETA + 1)) &&& mask = 0 ∧
      exploring - previous ≥ BETA / 2 then
        fpma ++ [⟨fullRfp (packet.drop (exploring - BETA + 1)), 0, exploring - BETA + 1⟩]
      else fpma) = fpma'
    have hall : ∀ e ∈ fpma', Fingerprints packet e := by
      intro e he
      rw [← hfpma] at he
      split at he
      · rcases List.mem_append.mp he with he | he
        · exact h e he
        · rw [List.mem_singleton.mp he, Fingerprints]
      · exact h e he
    split
    · exact hall
    · split
      · exact hall
      · have hnext : exploring + 1 - BETA = exploring - BETA + 1 := by omega
        have hrest := ih (exploring + 1) (if fullRfp (packet.drop (exploring - BETA + 1)) &&&
          mask = 0 ∧ exploring - previous ≥ BETA / 2 then exploring else previous) fpma'
          (by omega) hall
        rw [hnext] at hrest
        exact hrest

/-- **Every selected fingerprint** is the one of its string. -/
theorem calculateRelevantFPs_fullRfp (cfg : Config) (packet : List UInt8) :
    ∀ e ∈ calculateRelevantFPs cfg packet, Fingerprints packet e := by
  have hfirst : ∀ e ∈ [(⟨fullRfp packet, 0, 0⟩ : FPEntryB)], Fingerprints packet e := by
    intro e he
    rw [List.mem_singleton.mp he, Fingerprints, List.drop_zero]
  unfold calculateRelevantFPs
  simp only
  split
  · exact hfirst
  · refine explorePasses_induct (Q := fun fpma => ∀ e ∈ fpma, Fingerprints packet e) ?_ _ _ hfirst
    intro mask fpma h
    have hpass := exploreFPs_fullRfp cfg mask (packet.length - BETA) BETA BETA fpma
      (Nat.le_refl _) h
    rw [Nat.sub_self, List.drop_zero] at hpass
    exact hpass

end Selection

end Solowan.Dictionary
