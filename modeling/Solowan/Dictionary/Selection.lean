/-
The loop of `calculateRelevantFPs`, as the source writes it (`lib/dedup_common.c`).

`Dictionary.Fingerprint` gives the selection as passes over the packet, each a recursion on
the bytes that are left. The source has one `while` loop over both, which is left by a flag
and starts a pass anew from inside. Here it stands as that loop.

* `selectFPs_returns`: the loop ends, with what the passes select.
* `selectFPs_direct`: it selects at least one and at most `FPPERPKT` strings, all of them
  inside the packet, and each rolling fingerprint is the polynomial of its string.
-/

import Solowan.Control.Loop
import Solowan.Dictionary.Rolling

namespace Solowan.Dictionary

open Relation Solowan.Control

/-! ### The loop -/

/-- The local variables of `calculateRelevantFPs`; `fpma` holds the `fpNum` entries that are
filled in. -/
structure SelectState where
  selectFPmask : UInt64
  tentativeFP : UInt64
  exploring : Nat
  previous : Nat
  iter : Nat
  endLoop : Bool
  fpma : List FPEntryB

/-- The body of `while (!endLoop)`. -/
def selectRound (cfg : Config) (packet : List UInt8) (s : SelectState) :
    Round SelectState (List FPEntryB) :=
  if s.endLoop then .done s.fpma
  else
    let tentativeFP :=
      incRfp s.tentativeFP (packet.getD s.exploring 0) (packet.getD (s.exploring - BETA) 0)
    let found := tentativeFP &&& s.selectFPmask = 0 ∧ s.exploring - s.previous ≥ BETA / 2
    let previous := if found then s.exploring else s.previous
    let fpma :=
      if found then s.fpma ++ [⟨tentativeFP, 0, s.exploring - BETA + 1⟩] else s.fpma
    let exploring := s.exploring + 1
    if exploring ≥ packet.length then
      if fpma.length < cfg.FPPERPKT ∧ s.iter < MAX_ITER then
        .next { selectFPmask := s.selectFPmask <<< 1, tentativeFP := (fpma.headD ⟨0, 0, 0⟩).fp,
                exploring := BETA, previous := BETA, iter := s.iter + 1, endLoop := false, fpma }
      else
        .next { s with tentativeFP, exploring, previous, endLoop := true, fpma }
    else
      .next { s with tentativeFP, exploring, previous,
                     endLoop := decide (fpma.length = cfg.FPPERPKT), fpma }

/-- The variables where a pass begins. -/
def passStart (packet : List UInt8) (selectFPmask : UInt64) (iter : Nat) (fpma : List FPEntryB) :
    SelectState where
  selectFPmask := selectFPmask
  tentativeFP := fullRfp packet
  exploring := BETA
  previous := BETA
  iter := iter
  endLoop := decide (BETA ≥ packet.length)
  fpma := fpma

/-- The loop begins with the string at offset 0. -/
def selectStart (packet : List UInt8) : SelectState :=
  passStart packet SELECT_FP_MASK 0 [⟨fullRfp packet, 0, 0⟩]

/-! ### The loop and the passes -/

section Passes

variable {cfg : Config} {packet : List UInt8}

/-- What a pass of the loop comes to, `pass` being what `exploreFPs` makes of it: the first
state of the next pass, or a last state with what was found. -/
def AfterPass (cfg : Config) (packet : List UInt8) (mask : UInt64) (iter : Nat)
    (pass : List FPEntryB × Bool) (s : SelectState) : Prop :=
  if pass.2 = false ∧ pass.1.length < cfg.FPPERPKT ∧ iter < MAX_ITER then
    s = passStart packet (mask <<< 1) (iter + 1) pass.1
  else s.endLoop = true ∧ s.fpma = pass.1

/-- What is found comes behind what has been found. -/
theorem head?_visited {c : Prop} [Decidable c] {fpma fpma' : List FPEntryB} {e first : FPEntryB}
    (h : fpma.head? = some first) (hfpma : (if c then fpma ++ [e] else fpma) = fpma') :
    fpma'.head? = some first := by
  rw [← hfpma]
  split
  · rw [List.head?_append, h, Option.some_or]
  · exact h

section Round

variable {mask fp fp' : UInt64} {exploring previous iter : Nat} {fpma fpma' : List FPEntryB}
  (hfp : incRfp fp (packet.getD exploring 0) (packet.getD (exploring - BETA) 0) = fp')
  (hfpma : (if fp' &&& mask = 0 ∧ exploring - previous ≥ BETA / 2 then
    fpma ++ [⟨fp', 0, exploring - BETA + 1⟩] else fpma) = fpma')

include hfp hfpma

/-- A byte that is not the last one. -/
theorem selectRound_go (h : exploring + 1 < packet.length) :
    Next (selectRound cfg packet) ⟨mask, fp, exploring, previous, iter, false, fpma⟩
      ⟨mask, fp', exploring + 1,
        if fp' &&& mask = 0 ∧ exploring - previous ≥ BETA / 2 then exploring else previous, iter,
        decide (fpma'.length = cfg.FPPERPKT), fpma'⟩ := by
  subst hfp hfpma
  simp only [Next, selectRound, Bool.false_eq_true, if_false, if_neg (Nat.not_le.mpr h)]

/-- The last byte of a pass that is followed by another one. -/
theorem selectRound_again (h : exploring + 1 ≥ packet.length) (hbeta : BETA < packet.length)
    (hhead : fpma'.head? = some ⟨fullRfp packet, 0, 0⟩)
    (hmore : fpma'.length < cfg.FPPERPKT ∧ iter < MAX_ITER) :
    Next (selectRound cfg packet) ⟨mask, fp, exploring, previous, iter, false, fpma⟩
      (passStart packet (mask <<< 1) (iter + 1) fpma') := by
  have hfirst : fullRfp packet = (fpma'.headD ⟨0, 0, 0⟩).fp := by
    rw [List.headD_eq_head?_getD, hhead, Option.getD_some]
  subst hfp hfpma
  simp only [Next, selectRound, passStart, Bool.false_eq_true, if_false, if_pos h, if_pos hmore,
    decide_eq_false (Nat.not_le.mpr hbeta), hfirst]

/-- The last byte of the last pass. -/
theorem selectRound_end (h : exploring + 1 ≥ packet.length)
    (hmore : ¬ (fpma'.length < cfg.FPPERPKT ∧ iter < MAX_ITER)) :
    ∃ s, Next (selectRound cfg packet) ⟨mask, fp, exploring, previous, iter, false, fpma⟩ s ∧
      s.endLoop = true ∧ s.fpma = fpma' := by
  subst hfp hfpma
  simp only [Next, selectRound, Bool.false_eq_true, if_false, if_pos h, if_neg hmore]
  exact ⟨_, rfl, rfl, rfl⟩

end Round

/-- A pass of the loop does what `exploreFPs` does. -/
theorem explore_reach (cfg : Config) (mask : UInt64) (iter n : Nat) {exploring : Nat}
    (previous : Nat) (fp : UInt64) {fpma : List FPEntryB}
    (hn : exploring + (n + 1) = packet.length) (hbeta : BETA < packet.length)
    (hhead : fpma.head? = some ⟨fullRfp packet, 0, 0⟩) :
    ∃ s, ReflTransGen (Next (selectRound cfg packet))
        ⟨mask, fp, exploring, previous, iter, false, fpma⟩ s ∧
      AfterPass cfg packet mask iter
        (exploreFPs cfg packet mask (n + 1) exploring previous fp fpma) s := by
  induction n generalizing exploring previous fp fpma with
  | zero =>
    have hlast : exploring + 1 ≥ packet.length := by omega
    simp only [exploreFPs, if_true]
    generalize hfp : incRfp fp (packet.getD exploring 0) (packet.getD (exploring - BETA) 0) = fp'
    generalize hfpma : (if fp' &&& mask = 0 ∧ exploring - previous ≥ BETA / 2 then
      fpma ++ [⟨fp', 0, exploring - BETA + 1⟩] else fpma) = fpma'
    by_cases hmore : fpma'.length < cfg.FPPERPKT ∧ iter < MAX_ITER
    · refine ⟨_, .single (selectRound_again hfp hfpma hlast hbeta (head?_visited hhead hfpma)
        hmore), ?_⟩
      rw [AfterPass, if_pos ⟨rfl, hmore⟩]
    · obtain ⟨s, hnext, hend⟩ := selectRound_end hfp hfpma hlast hmore
      refine ⟨s, .single hnext, ?_⟩
      rw [AfterPass, if_neg fun h => hmore h.2]
      exact hend
  | succ n ih =>
    rw [exploreFPs]
    simp only [if_neg (Nat.succ_ne_zero n)]
    generalize hfp : incRfp fp (packet.getD exploring 0) (packet.getD (exploring - BETA) 0) = fp'
    generalize hfpma : (if fp' &&& mask = 0 ∧ exploring - previous ≥ BETA / 2 then
      fpma ++ [⟨fp', 0, exploring - BETA + 1⟩] else fpma) = fpma'
    have hnext : Next (selectRound cfg packet)
        ⟨mask, fp, exploring, previous, iter, false, fpma⟩ _ :=
      selectRound_go hfp hfpma (by omega)
    by_cases henough : fpma'.length = cfg.FPPERPKT
    · refine ⟨_, .single hnext, ?_⟩
      rw [if_pos henough, AfterPass, if_neg fun h => Bool.noConfusion h.1]
      exact ⟨decide_eq_true henough, rfl⟩
    · rw [decide_eq_false henough] at hnext
      rw [if_neg henough]
      obtain ⟨s, hreach, hafter⟩ := ih _ fp' (show exploring + 1 + (n + 1) = packet.length by omega)
        (head?_visited hhead hfpma)
      exact ⟨s, hreach.head hnext, hafter⟩

/-- A whole pass. -/
theorem pass_reach (cfg : Config) (mask : UInt64) (iter : Nat) {fpma : List FPEntryB}
    (hbeta : BETA < packet.length) (hhead : fpma.head? = some ⟨fullRfp packet, 0, 0⟩) :
    ∃ s, ReflTransGen (Next (selectRound cfg packet)) (passStart packet mask iter fpma) s ∧
      AfterPass cfg packet mask iter
        (exploreFPs cfg packet mask (packet.length - BETA) BETA BETA (fullRfp packet) fpma) s := by
  obtain ⟨n, hn⟩ : ∃ n, packet.length - BETA = n + 1 := ⟨packet.length - BETA - 1, by omega⟩
  rw [passStart, decide_eq_false (Nat.not_le.mpr hbeta), hn]
  exact explore_reach cfg mask iter n BETA (fullRfp packet) (by omega) hbeta hhead

theorem returns_of_endLoop {s : SelectState} {fpma : List FPEntryB} (hend : s.endLoop = true)
    (hfpma : s.fpma = fpma) : Returns (selectRound cfg packet) s fpma := by
  apply Returns.done
  rw [selectRound, if_pos hend, hfpma]

/-- A pass keeps the entry in front, for it only appends. -/
theorem exploreFPs_head? (cfg : Config) (mask : UInt64) (n exploring previous : Nat) (fp : UInt64)
    {fpma : List FPEntryB} {first : FPEntryB} (h : fpma.head? = some first) :
    (exploreFPs cfg packet mask n exploring previous fp fpma).1.head? = some first := by
  induction n generalizing exploring previous fp fpma with
  | zero => exact h
  | succ n ih =>
    simp only [exploreFPs]
    generalize incRfp fp (packet.getD exploring 0) (packet.getD (exploring - BETA) 0) = fp'
    generalize hfpma : (if fp' &&& mask = 0 ∧ exploring - previous ≥ BETA / 2 then
      fpma ++ [⟨fp', 0, exploring - BETA + 1⟩] else fpma) = fpma'
    have hhead := head?_visited h hfpma
    split
    · exact hhead
    · split
      · exact hhead
      · exact ih _ _ fp' hhead

/-- The loop from the first state of a pass on, with `left` passes to follow it. -/
theorem passes_returns (cfg : Config) (hbeta : BETA < packet.length) (left : Nat) (mask : UInt64)
    {iter : Nat} (hiter : iter + left = MAX_ITER) {fpma : List FPEntryB}
    (hhead : fpma.head? = some ⟨fullRfp packet, 0, 0⟩) :
    Returns (selectRound cfg packet) (passStart packet mask iter fpma)
      (explorePasses cfg packet (fullRfp packet) left mask fpma) := by
  induction left generalizing mask iter fpma with
  | zero =>
    obtain ⟨s, hreach, hafter⟩ := pass_reach cfg mask iter hbeta hhead
    rw [AfterPass, if_neg (by omega)] at hafter
    exact (returns_of_endLoop hafter.1 hafter.2).of_reach hreach
  | succ left ih =>
    obtain ⟨s, hreach, hafter⟩ := pass_reach cfg mask iter hbeta hhead
    rw [explorePasses]
    generalize hpass : exploreFPs cfg packet mask (packet.length - BETA) BETA BETA
      (fullRfp packet) fpma = pass at *
    by_cases hmore : pass.2 = false ∧ pass.1.length < cfg.FPPERPKT
    · have hhead' : pass.1.head? = some ⟨fullRfp packet, 0, 0⟩ := by
        rw [← hpass]
        exact exploreFPs_head? cfg mask _ _ _ _ hhead
      rw [AfterPass, if_pos ⟨hmore.1, hmore.2, by omega⟩] at hafter
      rw [if_pos hmore]
      rw [hafter] at hreach
      exact (ih (mask <<< 1) (by omega) hhead').of_reach hreach
    · rw [AfterPass, if_neg fun h => hmore ⟨h.1, h.2.1⟩] at hafter
      rw [if_neg hmore]
      exact (returns_of_endLoop hafter.1 hafter.2).of_reach hreach

/-- **The loop ends**, with what the passes select. -/
theorem selectFPs_returns (cfg : Config) (packet : List UInt8) :
    Returns (selectRound cfg packet) (selectStart packet) (calculateRelevantFPs cfg packet) := by
  unfold calculateRelevantFPs
  by_cases hbeta : BETA ≥ packet.length
  · simp only [if_pos hbeta]
    exact returns_of_endLoop (decide_eq_true hbeta) rfl
  · simp only [if_neg hbeta]
    exact passes_returns cfg (Nat.lt_of_not_le hbeta) MAX_ITER SELECT_FP_MASK (Nat.zero_add _) rfl

end Passes

/-! ### The polynomial -/

/-- The fingerprint of a string as a number: the polynomial with its bytes as coefficients,
modulo `2 ^ 60`. -/
theorem toNat_fullRfp (p : List UInt8) :
    (fullRfp p).toNat =
      (∑ j ∈ Finset.range 64, (p.getD j 0).toNat * P.toNat ^ (63 - j)) % 2 ^ 60 := by
  have hsmall : (fullRfp p).toNat % 2 ^ 60 = (fullRfp p).toNat := by
    have hmask := toNat_and_MOD_MASK (fullRfp p)
    rw [fullRfp_masked] at hmask
    exact hmask.symm
  rw [← hsmall]
  apply (ZMod.natCast_eq_natCast_iff _ _ MODULUS).mp
  have hpoly := residue_fullRfp p
  simp only [residue, UInt8.toNat_toUInt64] at hpoly
  rw [hpoly, Nat.cast_sum]
  exact Finset.sum_congr rfl fun i _ => by rw [Nat.cast_mul, Nat.cast_pow]

/-- **Rolling fingerprints are direct fingerprints**: the loop ends, it selects at least one
string and at most `FPPERPKT` of them, all inside the packet, and the fingerprint of each is
the polynomial of the string, as `full_rfp` computes it. -/
theorem selectFPs_direct (cfg : Config) (packet : List UInt8) (hlen : BETA ≤ packet.length)
    (hfp : 1 ≤ cfg.FPPERPKT) :
    ∃ fpma, (∃ fuel, ∀ fuel', fuel ≤ fuel' →
        loop (selectRound cfg packet) fuel' (selectStart packet) = some fpma) ∧
      1 ≤ fpma.length ∧ fpma.length ≤ cfg.FPPERPKT ∧
      ∀ e ∈ fpma, e.offset + BETA ≤ packet.length ∧
        e.fp.toNat = (∑ j ∈ Finset.range 64,
          (packet.getD (e.offset + j) 0).toNat * P.toNat ^ (63 - j)) % 2 ^ 60 ∧
        e.fp = fullRfp ((packet.drop e.offset).take BETA) := by
  obtain ⟨hpos, hle⟩ := calculateRelevantFPs_length packet hfp
  refine ⟨calculateRelevantFPs cfg packet, (selectFPs_returns cfg packet).loop, hpos, hle, ?_⟩
  intro e he
  have hstring : e.fp = fullRfp (packet.drop e.offset) := calculateRelevantFPs_fullRfp cfg packet e he
  refine ⟨(calculateRelevantFPs_selected cfg hlen e he).1, ?_, ?_⟩
  · rw [hstring, toNat_fullRfp]
    simp only [List.getD_eq_getElem?_getD, List.getElem?_drop]
  · rw [fullRfp_take, hstring]

theorem selectFPs_direct_sevens :
    ∃ fpma, (∃ fuel, ∀ fuel', fuel ≤ fuel' →
        loop (selectRound ⟨1500, 4, 256, 4, false⟩ (List.replicate 100 7)) fuel'
          (selectStart (List.replicate 100 7)) = some fpma) ∧
      1 ≤ fpma.length ∧ fpma.length ≤ 4 ∧ ∀ e ∈ fpma, e.offset + BETA ≤ 100 := by
  obtain ⟨fpma, hloop, hpos, hle, hall⟩ :=
    selectFPs_direct ⟨1500, 4, 256, 4, false⟩ (List.replicate 100 7) (by decide) (by decide)
  exact ⟨fpma, hloop, hpos, hle, fun e he => (hall e he).1⟩

end Solowan.Dictionary
