/-
Rabin fingerprints of a packet (`lib/dedup_common.c`, `lib/solowan_rolling.h`).

The dictionary knows a packet by a few fingerprints of 64-byte strings in it.
`calculateRelevantFPs` selects them: the string at offset 0, then, rolling along
the packet, the strings whose fingerprint has its low bits zero and that start at
least 32 bytes after the last one selected. When a pass ends before enough
fingerprints were found, up to `MAX_ITER` further passes start again at the front
with the selection mask shifted, so that the offsets are not monotone.

The rest of the development uses two facts about the selection:
`calculateRelevantFPs_selected` (every selected string lies inside the packet, and no
selected fingerprint is the mark of an unused entry) and `calculateRelevantFPs_length`
(there is one at least, and there are no more than the configured number).
-/

import Solowan.Memory.Buffer

namespace Solowan.Dictionary

open Solowan.Memory

/-! ### Compile-time constants -/

/-- Length of the fingerprinted strings. -/
def BETA : Nat := 64

/-- Low fingerprint bits that the selection mask tests on the first pass. -/
def GAMMA : UInt64 := 5

/-- The factor of the fingerprint polynomial. -/
def P : UInt64 := 1048583

/-- Fingerprints are taken modulo `2 ^ M`, `M = 60`. -/
def MOD_MASK : UInt64 := ((1 : UInt64) <<< 60) - 1

def SELECT_FP_MASK : UInt64 := ((1 : UInt64) <<< GAMMA) - 1

def MAX_FP_PER_PKT : Nat := 32

def MAX_ITER : Nat := 4

def PKTS_PER_FP : Nat := 3

def PKTSIZELIMIT : Nat := 1500

def UINT64_MAX : UInt64 := 0xffffffffffffffff

/-- The parameters `init_common` stores in file-scope variables. -/
structure Config where
  MAXPKTSIZE : Nat
  PKTSTORESIZE : Nat
  FPSTORESIZE : Nat
  FPPERPKT : Nat
  shared_dictionary_mode : Bool
  deriving DecidableEq, Repr

/-- A fingerprint entry. `pktId = 0` means empty; `calculateRelevantFPs` sets only
`fp` and `offset`. -/
structure FPEntryB where
  fp : UInt64
  pktId : Nat
  offset : Nat
  deriving DecidableEq, Repr

/-! ### The polynomial -/

/-- `fpfactors[b][j]`, as filled in by `init_common`. -/
def fpfactors (b : UInt8) : Nat → UInt64
  | 0 => b.toUInt64
  | j + 1 => (fpfactors b j * P) &&& MOD_MASK

/-- The fingerprint of the `BETA` bytes at `p[i]`. -/
def fullRfp (p : List UInt8) : UInt64 :=
  (List.range BETA).foldl
    (fun fp i => (fp + fpfactors (p.getD i 0) (BETA - i - 1)) &&& MOD_MASK) 0

/-- The fingerprint one byte further on; the subtraction underflows on purpose. -/
def incRfp (prev_fp : UInt64) (new dropped : UInt8) : UInt64 :=
  ((prev_fp - fpfactors dropped (BETA - 1)) * P + new.toUInt64) &&& MOD_MASK

/-- The bucket of a fingerprint. -/
def hashFPStore (cfg : Config) (fp : UInt64) : UInt32 :=
  let fp := fp >>> GAMMA
  let h1 := (fp &&& 0xffffffff).toUInt32
  let h2 := ((fp >>> 32) &&& 0xffffffff).toUInt32
  let h3 := h1 ^^^ h2
  let h4 := h3 &&& (UInt32.ofNat cfg.FPSTORESIZE - 1)
  h4 ^^^ (h3 >>> 24)

/-! ### Selection -/

/-- One pass of the loop over the packet, from `exploring` on with `n` bytes to go.
The flag tells that the pass was stopped because `FPPERPKT` fingerprints were
found before the last byte (`endLoop = (fpNum == FPPERPKT)`). -/
def exploreFPs (cfg : Config) (packet : List UInt8) (selectFPmask : UInt64) :
    Nat → Nat → Nat → UInt64 → List FPEntryB → List FPEntryB × Bool
  | 0, _, _, _, fpma => (fpma, false)
  | n + 1, exploring, previous, tentativeFP, fpma =>
    let tentativeFP :=
      incRfp tentativeFP (packet.getD exploring 0) (packet.getD (exploring - BETA) 0)
    let found := tentativeFP &&& selectFPmask = 0 ∧ exploring - previous ≥ BETA / 2
    let previous := if found then exploring else previous
    let fpma := if found then fpma ++ [⟨tentativeFP, 0, exploring - BETA + 1⟩] else fpma
    if n = 0 then (fpma, false)
    else if fpma.length = cfg.FPPERPKT then (fpma, true)
    else exploreFPs cfg packet selectFPmask n (exploring + 1) previous tentativeFP fpma

/-- The passes that are still allowed, `left` of them after this one. -/
def explorePasses (cfg : Config) (packet : List UInt8) (fp0 : UInt64) :
    Nat → UInt64 → List FPEntryB → List FPEntryB
  | 0, selectFPmask, fpma =>
    (exploreFPs cfg packet selectFPmask (packet.length - BETA) BETA BETA fp0 fpma).1
  | left + 1, selectFPmask, fpma =>
    let pass := exploreFPs cfg packet selectFPmask (packet.length - BETA) BETA BETA fp0 fpma
    if pass.2 = false ∧ pass.1.length < cfg.FPPERPKT then
      explorePasses cfg packet fp0 left (selectFPmask <<< 1) pass.1
    else pass.1

/-- The fingerprints a packet is known by, in the order in which they are found. -/
def calculateRelevantFPs (cfg : Config) (packet : List UInt8) : List FPEntryB :=
  let fp0 := fullRfp packet
  let fpma := [⟨fp0, 0, 0⟩]
  if BETA ≥ packet.length then fpma
  else explorePasses cfg packet fp0 MAX_ITER SELECT_FP_MASK fpma

/-! ### What is selected -/

section Selection

variable {cfg : Config} {packet : List UInt8}

theorem and_MOD_MASK_ne_max (x : UInt64) : x &&& MOD_MASK ≠ UINT64_MAX := by
  intro h
  have hle : (x &&& MOD_MASK).toNat ≤ MOD_MASK.toNat := by
    rw [UInt64.toNat_and]
    exact Nat.and_le_right
  have hmask : MOD_MASK.toNat < UINT64_MAX.toNat := by decide
  rw [h] at hle
  omega

theorem fullRfp_ne_max (p : List UInt8) : fullRfp p ≠ UINT64_MAX := by
  unfold fullRfp
  rw [show BETA = 63 + 1 from rfl, List.range_succ, List.foldl_append]
  exact and_MOD_MASK_ne_max _

/-- What holds of every selected entry: its string lies inside the packet and its
fingerprint is not the mark of an unused entry. -/
def Selected (packet : List UInt8) (e : FPEntryB) : Prop :=
  e.offset + BETA ≤ packet.length ∧ e.fp ≠ UINT64_MAX

theorem exploreFPs_selected (mask : UInt64) (n exploring previous : Nat) (fp : UInt64)
    (fpma : List FPEntryB) (hlo : BETA ≤ exploring) (hn : exploring + n ≤ packet.length)
    (h : ∀ e ∈ fpma, Selected packet e) :
    ∀ e ∈ (exploreFPs cfg packet mask n exploring previous fp fpma).1, Selected packet e := by
  induction n generalizing exploring previous fp fpma with
  | zero => exact h
  | succ n ih =>
    simp only [exploreFPs]
    generalize hfp : incRfp fp (packet.getD exploring 0) (packet.getD (exploring - BETA) 0) = fp'
    have hnew : Selected packet ⟨fp', 0, exploring - BETA + 1⟩ := by
      refine ⟨?_, ?_⟩
      · show exploring - BETA + 1 + BETA ≤ packet.length
        omega
      · show fp' ≠ UINT64_MAX
        rw [← hfp]
        exact and_MOD_MASK_ne_max _
    generalize hfpma : (if fp' &&& mask = 0 ∧ exploring - previous ≥ BETA / 2 then
      fpma ++ [⟨fp', 0, exploring - BETA + 1⟩] else fpma) = fpma'
    have hall : ∀ e ∈ fpma', Selected packet e := by
      intro e he
      rw [← hfpma] at he
      split at he
      · rcases List.mem_append.mp he with he | he
        · exact h e he
        · rw [List.mem_singleton.mp he]
          exact hnew
      · exact h e he
    split
    · exact hall
    · split
      · exact hall
      · exact ih (exploring + 1) _ fp' fpma' (by omega) (by omega) hall

/-- Passes only ever add to what has been found, one entry at a time, and stop as
soon as there are `FPPERPKT` of them. -/
theorem exploreFPs_length (packet : List UInt8) (mask : UInt64) (n exploring previous : Nat) (fp : UInt64)
    (fpma : List FPEntryB) (h : fpma.length < cfg.FPPERPKT ∨ exploring = previous)
    (hle : fpma.length ≤ cfg.FPPERPKT) :
    fpma.length ≤ (exploreFPs cfg packet mask n exploring previous fp fpma).1.length ∧
      (exploreFPs cfg packet mask n exploring previous fp fpma).1.length ≤ cfg.FPPERPKT := by
  induction n generalizing exploring previous fp fpma with
  | zero => exact ⟨Nat.le_refl _, hle⟩
  | succ n ih =>
    simp only [exploreFPs]
    generalize incRfp fp (packet.getD exploring 0) (packet.getD (exploring - BETA) 0) = fp'
    generalize hfpma : (if fp' &&& mask = 0 ∧ exploring - previous ≥ BETA / 2 then
      fpma ++ [⟨fp', 0, exploring - BETA + 1⟩] else fpma) = fpma'
    have hgrow : fpma.length ≤ fpma'.length ∧ fpma'.length ≤ cfg.FPPERPKT := by
      rw [← hfpma]
      split
      · rename_i hfound
        have hbeta : BETA / 2 = 32 := rfl
        simp only [List.length_append, List.length_singleton]
        omega
      · exact ⟨Nat.le_refl _, hle⟩
    split
    · exact hgrow
    · split
      · exact hgrow
      · have := ih (exploring + 1) (if fp' &&& mask = 0 ∧ exploring - previous ≥ BETA / 2 then
          exploring else previous) fp' fpma' (by omega) hgrow.2
        omega

/-- What one pass keeps, all passes keep. -/
theorem explorePasses_induct {Q : List FPEntryB → Prop} {fp0 : UInt64}
    (hpass : ∀ mask fpma, Q fpma →
      Q (exploreFPs cfg packet mask (packet.length - BETA) BETA BETA fp0 fpma).1)
    (left : Nat) (mask : UInt64) {fpma : List FPEntryB} (h : Q fpma) :
    Q (explorePasses cfg packet fp0 left mask fpma) := by
  induction left generalizing mask fpma with
  | zero => exact hpass mask fpma h
  | succ left ih =>
    have hq := hpass mask fpma h
    rw [explorePasses]
    by_cases hmore : (exploreFPs cfg packet mask (packet.length - BETA) BETA BETA fp0 fpma).2 = false ∧
        (exploreFPs cfg packet mask (packet.length - BETA) BETA BETA fp0 fpma).1.length < cfg.FPPERPKT
    · rw [if_pos hmore]
      exact ih _ hq
    · rw [if_neg hmore]
      exact hq

/-- Every selected string lies inside the packet, and no selected fingerprint is the
mark of an unused entry. -/
theorem calculateRelevantFPs_selected (cfg : Config) (hlen : BETA ≤ packet.length) :
    ∀ e ∈ calculateRelevantFPs cfg packet, Selected packet e := by
  have hfirst : ∀ e ∈ [(⟨fullRfp packet, 0, 0⟩ : FPEntryB)], Selected packet e := by
    intro e he
    rw [List.mem_singleton.mp he]
    exact ⟨by simpa using hlen, fullRfp_ne_max packet⟩
  unfold calculateRelevantFPs
  simp only
  split
  · exact hfirst
  · exact explorePasses_induct (fun mask fpma h => exploreFPs_selected mask _ BETA BETA _ fpma
      (Nat.le_refl _) (by omega) h) _ _ hfirst

/-- At least one fingerprint is selected, and no more than the configured number. -/
theorem calculateRelevantFPs_length (packet : List UInt8) (hfp : 1 ≤ cfg.FPPERPKT) :
    1 ≤ (calculateRelevantFPs cfg packet).length ∧
      (calculateRelevantFPs cfg packet).length ≤ cfg.FPPERPKT := by
  unfold calculateRelevantFPs
  simp only
  split
  · exact ⟨Nat.le_refl _, hfp⟩
  · have hkeep : ∀ mask fpma, 1 ≤ fpma.length ∧ fpma.length ≤ cfg.FPPERPKT →
        1 ≤ (exploreFPs cfg packet mask (packet.length - BETA) BETA BETA (fullRfp packet)
          fpma).1.length ∧
        (exploreFPs cfg packet mask (packet.length - BETA) BETA BETA (fullRfp packet)
          fpma).1.length ≤ cfg.FPPERPKT := by
      intro mask fpma h
      obtain ⟨hge, hle⟩ := exploreFPs_length packet mask (packet.length - BETA) BETA BETA
        (fullRfp packet) fpma (Or.inr rfl) h.2
      exact ⟨Nat.le_trans h.1 hge, hle⟩
    exact explorePasses_induct hkeep _ _ ⟨Nat.le_refl _, hfp⟩

end Selection

end Solowan.Dictionary
