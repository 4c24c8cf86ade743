/-
The checksums verify (`opennopd/csum.c`).

`checksum` clears a field, adds up the words around it and stores the complement. A receiver adds
up the same words with the field in place, in one's complement and with a byte of padding behind
an odd segment, and finds `0xFFFF`.

* `tcpSumCalc_source`: the sum in the terms of the source, which reads 16-bit words in the order
  of the host and the last byte of an odd segment through such a word.
* `foldCarries_spec`: the loop that folds the carries ends after three rounds.
* `checksum_verifies`: both sums fold to `0xFFFF`, and no byte but those of the two fields is
  written.
-/

import Solowan.Memory.OnesComplement
import Solowan.Net.Checksum

namespace Solowan.Net

open Solowan.Memory

/-! ### The words of the source -/

/-- `ntohs`, on a little-endian host. -/
def ntohs (n : Nat) : Nat := n % 256 * 256 + n / 256 % 256

/-- `buff[i]`, of a buffer of `unsigned short`. -/
def hostWord (m : Mem) (buff i : Nat) : Nat := loadLE m (buff + 2 * i) 2

section Source

variable (m : Mem)

theorem loadLE_word (pos : Nat) : loadLE m pos 2 = (m (pos + 1)).toNat * 256 + (m pos).toNat := by
  simp [loadLE, leNat, beNat, slice, List.range_succ]

theorem loadBE_word (pos : Nat) : loadBE m pos 2 = (m pos).toNat * 256 + (m (pos + 1)).toNat := by
  simp [loadBE, beNat, slice, List.range_succ]

theorem ntohs_hostWord (buff i : Nat) : ntohs (hostWord m buff i) = loadBE m (buff + 2 * i) 2 := by
  have hlow := (m (buff + 2 * i)).toNat_lt
  have hhigh := (m (buff + 2 * i + 1)).toNat_lt
  rw [hostWord, loadLE_word, loadBE_word, ntohs]
  omega

/-- `ntohs((unsigned char)(buff[i]))` is the byte at the low address with a zero behind it. -/
theorem ntohs_uchar (buff i : Nat) :
    ntohs (hostWord m buff i % 256) = (m (buff + 2 * i)).toNat * 256 := by
  have hlow := (m (buff + 2 * i)).toNat_lt
  rw [hostWord, loadLE_word, ntohs]
  omega

/-- `tcp_sum_calc`, in the terms of the source. -/
theorem tcpSumCalc_source (len_tcp buff : Nat) :
    tcpSumCalc m len_tcp buff = complement
      (ntohs (hostWord m 12 0) + ntohs (hostWord m 12 1) + ntohs (hostWord m 16 0) +
        ntohs (hostWord m 16 1) + len_tcp + IPPROTO_TCP.toNat +
        ((List.range (len_tcp / 2)).map fun i => ntohs (hostWord m buff i)).sum +
        if len_tcp % 2 = 1 then ntohs (hostWord m buff (len_tcp / 2) % 256) else 0) := by
  simp only [ntohs_uchar, ntohs_hostWord]
  simp only [tcpSumCalc, sumWords, List.range_succ, List.range_zero, List.map_append,
    List.map_cons, List.map_nil, List.nil_append, List.sum_append, List.sum_cons, List.sum_nil]
  congr 1
  split <;> omega

end Source

/-! ### Folding the carries -/

section Folding

variable {sum : Nat}

/-- A round keeps the sum modulo 65535, and does not make it zero. -/
theorem foldCarries_mod (fuel sum : Nat) :
    foldCarries fuel sum % 65535 = sum % 65535 ∧ (foldCarries fuel sum = 0 ↔ sum = 0) := by
  induction fuel generalizing sum with
  | zero => exact ⟨rfl, Iff.rfl⟩
  | succ fuel ih =>
    rw [foldCarries]
    split
    · exact ⟨rfl, Iff.rfl⟩
    · have := ih (sum % 65536 + sum / 65536)
      omega

theorem foldCarries_of_lt (fuel : Nat) (h : sum < 65536) : foldCarries fuel sum = sum := by
  cases fuel with
  | zero => rfl
  | succ fuel => rw [foldCarries, if_pos (by omega)]

/-- One round halves the width. -/
theorem foldCarries_round (fuel : Nat) :
    foldCarries (fuel + 1) sum = foldCarries fuel (sum % 65536 + sum / 65536) := by
  rw [foldCarries]
  split
  · rw [foldCarries_of_lt fuel (by omega)]
    omega
  · rfl

/-- **The loop ends**: the sum is below 2^16 after three rounds, and then stays as it is. -/
theorem foldCarries_spec (fuel : Nat) (h : sum < 4294967296) :
    foldCarries (fuel + 3) sum = foldCarries 3 sum ∧ foldCarries 3 sum < 65536 := by
  obtain ⟨sum₁, hsum₁⟩ : ∃ s, sum % 65536 + sum / 65536 = s := ⟨_, rfl⟩
  obtain ⟨sum₂, hsum₂⟩ : ∃ s, sum₁ % 65536 + sum₁ / 65536 = s := ⟨_, rfl⟩
  have hsmall : sum₂ % 65536 + sum₂ / 65536 < 65536 := by omega
  have hrounds : ∀ fuel, foldCarries (fuel + 3) sum = sum₂ % 65536 + sum₂ / 65536 := by
    intro fuel
    rw [foldCarries_round, hsum₁, foldCarries_round, hsum₂, foldCarries_round,
      foldCarries_of_lt fuel hsmall]
  exact ⟨(hrounds fuel).trans (hrounds 0).symm, (hrounds 0).trans_lt hsmall⟩

/-- A sum and its complement add up to a positive multiple of 65535. -/
theorem add_complement (h : sum < 4294967296) :
    complement sum < 65536 ∧ 0 < sum + complement sum ∧ (sum + complement sum) % 65535 = 0 := by
  obtain ⟨hfuel, hlt⟩ := foldCarries_spec 1 h
  obtain ⟨hmod, hzero⟩ := foldCarries_mod 4 sum
  have hfolded : foldCarries 4 sum < 65536 := hfuel.trans_lt hlt
  rw [complement]
  omega

end Folding

/-! ### Sums of words -/

section Sums

variable {m m' : Mem} {pos n : Nat}

theorem sumWords_succ (m : Mem) (pos n : Nat) :
    sumWords m pos (n + 1) = sumWords m pos n + loadBE m (pos + 2 * n) 2 := by
  simp [sumWords, List.range_succ]

theorem sumWords_congr (h : ∀ i, i < 2 * n → m' (pos + i) = m (pos + i)) :
    sumWords m' pos n = sumWords m pos n := by
  induction n with
  | zero => simp [sumWords]
  | succ n ih =>
    have hlast : loadBE m' (pos + 2 * n) 2 = loadBE m (pos + 2 * n) 2 := by
      apply loadBE_congr
      intro i hi
      rw [Nat.add_assoc]
      exact h _ (by omega)
    rw [sumWords_succ, sumWords_succ, ih fun i hi => h i (by omega), hlast]

theorem sumWords_le (m : Mem) (pos n : Nat) : sumWords m pos n ≤ 65535 * n := by
  induction n with
  | zero => simp [sumWords]
  | succ n ih =>
    have := loadBE_lt m (pos + 2 * n) 2
    rw [sumWords_succ]
    omega

/-- Storing a word exchanges it in the sum. -/
theorem sumWords_storeBE {j v : Nat} (hj : j < n) (hv : v < 65536) :
    sumWords (storeBE m (pos + 2 * j) 2 v) pos n + loadBE m (pos + 2 * j) 2 =
      sumWords m pos n + v := by
  induction n with
  | zero => exact absurd hj (Nat.not_lt_zero j)
  | succ n ih =>
    rw [sumWords_succ, sumWords_succ]
    by_cases hlast : j = n
    · subst hlast
      have hsame : sumWords (storeBE m (pos + 2 * j) 2 v) pos j = sumWords m pos j :=
        sumWords_congr fun i hi => storeBE_apply_outside (by omega)
      rw [hsame, loadBE_storeBE]
      omega
    · have hsame : loadBE (storeBE m (pos + 2 * j) 2 v) (pos + 2 * n) 2 =
          loadBE m (pos + 2 * n) 2 :=
        loadBE_congr fun i hi => storeBE_apply_outside (by omega)
      have := ih (by omega)
      omega

/-- The words of a block of memory, with the padding of an odd one. -/
theorem sum_words_slice (m : Mem) (pos n : Nat) :
    (words (slice m pos n)).sum =
      sumWords m pos (n / 2) + if n % 2 = 1 then (m (pos + 2 * (n / 2))).toNat * 256 else 0 := by
  have heven : ∀ k, (words (slice m pos (2 * k))).sum = sumWords m pos k := by
    intro k
    induction k with
    | zero => rfl
    | succ k ih =>
      have hlast : (words (slice m (pos + 2 * k) 2)).sum = loadBE m (pos + 2 * k) 2 := by
        rw [loadBE_word]
        simp [slice, List.range_succ, words]
      rw [Nat.mul_add, slice_append, words_append (by simp), List.sum_append, ih, hlast,
        sumWords_succ]
  by_cases hodd : n % 2 = 1
  · obtain ⟨k, rfl⟩ : ∃ k, n = 2 * k + 1 := ⟨n / 2, by omega⟩
    have hk : (2 * k + 1) / 2 = k := by omega
    rw [if_pos hodd, hk, slice_append, words_append (by simp), List.sum_append, heven]
    simp [slice, List.range_succ, words]
  · obtain ⟨k, rfl⟩ : ∃ k, n = 2 * k := ⟨n / 2, by omega⟩
    rw [if_neg hodd, heven]
    simp

end Sums

/-! ### The two checksums -/

/-- The pseudo-header of a segment: the addresses, a zero, the protocol and the length. -/
def pseudoHeader (m : Mem) : List UInt8 :=
  slice m 12 4 ++ (slice m 16 4 ++ ([0, protocol m] ++ beBytes 2 (totLen m - 4 * ihl m)))

/-- The TCP segment of a packet. -/
def tcpSegment (m : Mem) : List UInt8 := slice m (tcph m) (totLen m - 4 * ihl m)

/-- The header of a packet. -/
def ipHeader (m : Mem) : List UInt8 := slice m 0 (4 * ihl m)

section Verify

variable {m : Mem}

theorem tcpLen_eq (h : 4 * ihl m ≤ totLen m) : tcpLen m = totLen m - 4 * ihl m := by
  have := totLen_lt m
  unfold tcpLen
  omega

/-- What is added up for a segment. -/
def segmentSum (m : Mem) : Nat :=
  sumWords m 12 2 + sumWords m 16 2 + tcpLen m + IPPROTO_TCP.toNat +
    sumWords m (tcph m) (tcpLen m / 2) +
    if tcpLen m % 2 = 1 then (m (tcph m + 2 * (tcpLen m / 2))).toNat * 256 else 0

theorem tcpSumCalc_eq (m : Mem) : tcpSumCalc m (tcpLen m) (tcph m) = complement (segmentSum m) := by
  rw [tcpSumCalc, segmentSum]
  congr 1
  split <;> omega

theorem segmentSum_lt (m : Mem) : segmentSum m < 4294967296 := by
  have hlen : tcpLen m < 65536 := by
    unfold tcpLen
    omega
  have hsrc := sumWords_le m 12 2
  have hdst := sumWords_le m 16 2
  have hsegment := sumWords_le m (tcph m) (tcpLen m / 2)
  have hlast := (m (tcph m + 2 * (tcpLen m / 2))).toNat_lt
  have hproto : IPPROTO_TCP.toNat = 6 := rfl
  unfold segmentSum
  split <;> omega

/-- The receiver adds up the same. -/
theorem sum_words_segment (hproto : protocol m = IPPROTO_TCP) (h : 4 * ihl m ≤ totLen m) :
    (words (pseudoHeader m ++ tcpSegment m)).sum = segmentSum m := by
  have hlt := totLen_lt m
  have hlast : (words ([0, protocol m] ++ beBytes 2 (totLen m - 4 * ihl m))).sum =
      IPPROTO_TCP.toNat + (totLen m - 4 * ihl m) := by
    rw [hproto]
    simp only [words, beBytes, List.nil_append, List.cons_append, List.sum_cons, List.sum_nil,
      UInt8.toNat_ofNat']
    have hzero : (0 : UInt8).toNat = 0 := rfl
    omega
  have heven : ∀ pos, (slice m pos 4).length % 2 = 0 := fun pos => by rw [length_slice]
  rw [pseudoHeader, List.append_assoc, List.append_assoc, words_append (heven 12),
    words_append (heven 16), words_append (by simp), List.sum_append, List.sum_append,
    List.sum_append, hlast, sum_words_slice, sum_words_slice, tcpSegment, sum_words_slice,
    segmentSum, tcpLen_eq h]
  simp only [Nat.reduceDiv, Nat.reduceMod, Nat.zero_ne_one, if_false, Nat.add_zero]
  omega

/-- The field of the TCP checksum is a word of the segment. -/
theorem segmentSum_storeBE {v : Nat} (hihl : 5 ≤ ihl m) (hlen : 4 * ihl m + 20 ≤ totLen m)
    (hv : v < 65536) :
    segmentSum (storeBE m (tcph m + 16) 2 v) + loadBE m (tcph m + 16) 2 = segmentSum m + v := by
  have ht : 20 ≤ tcph m := by
    unfold tcph
    omega
  obtain ⟨m', hm'⟩ : ∃ m', storeBE m (tcph m + 16) 2 v = m' := ⟨_, rfl⟩
  have hout : ∀ i, i < tcph m + 16 ∨ tcph m + 18 ≤ i → m' i = m i := by
    intro i hi
    rw [← hm']
    exact storeBE_apply_outside (by omega)
  have hihl' : ihl m' = ihl m := congrArg (fun b : UInt8 => b.toNat % 16) (hout 0 (by omega))
  have htcph : tcph m' = tcph m := congrArg (4 * ·) hihl'
  have hlen' : tcpLen m' = tcpLen m := by
    rw [tcpLen, tcpLen, hihl', totLen_congr fun i hi => hout _ (by omega)]
  have htcp := tcpLen_eq (show 4 * ihl m ≤ totLen m by omega)
  have hsrc : sumWords m' 12 2 = sumWords m 12 2 := sumWords_congr fun i hi => hout _ (by omega)
  have hdst : sumWords m' 16 2 = sumWords m 16 2 := sumWords_congr fun i hi => hout _ (by omega)
  have hlast : m' (tcph m + 2 * (tcpLen m / 2)) = m (tcph m + 2 * (tcpLen m / 2)) :=
    hout _ (by omega)
  have hwords : sumWords (storeBE m (tcph m + 2 * 8) 2 v) (tcph m) (tcpLen m / 2) +
      loadBE m (tcph m + 2 * 8) 2 = sumWords m (tcph m) (tcpLen m / 2) + v :=
    sumWords_storeBE (by omega) hv
  rw [show 2 * 8 = 16 from rfl, hm'] at hwords
  rw [hm', segmentSum, segmentSum, htcph, hlen', hsrc, hdst, hlast]
  omega

/-- The sum does not look at the checksum of the IP header. -/
theorem segmentSum_congr {m' : Mem} (hihl : 5 ≤ ihl m)
    (h : ∀ i, i < 10 ∨ 12 ≤ i → m' i = m i) : segmentSum m' = segmentSum m := by
  have ht : 20 ≤ tcph m := by
    unfold tcph
    omega
  have hihl' : ihl m' = ihl m := congrArg (fun b : UInt8 => b.toNat % 16) (h 0 (by omega))
  have htcph : tcph m' = tcph m := congrArg (4 * ·) hihl'
  have hlen' : tcpLen m' = tcpLen m := by
    rw [tcpLen, tcpLen, hihl', totLen_congr fun i hi => h _ (by omega)]
  have hwords : ∀ pos n, 12 ≤ pos → sumWords m' pos n = sumWords m pos n := fun pos n hpos =>
    sumWords_congr fun i hi => h _ (by omega)
  have hlast : m' (tcph m + 2 * (tcpLen m / 2)) = m (tcph m + 2 * (tcpLen m / 2)) :=
    h _ (by omega)
  rw [segmentSum, segmentSum, htcph, hlen', hwords 12 2 (by omega), hwords 16 2 (by omega),
    hwords _ _ (by omega), hlast]

/-- The packet with the checksum of its segment in place. -/
def tcpSummed (m : Mem) : Mem :=
  let m₀ := storeBE m (tcph m + 16) 2 0
  storeBE m₀ (tcph m + 16) 2 (tcpSumCalc m₀ (tcpLen m) (tcph m))

/-- The same, with the checksum of its header. -/
def ipSummed (m : Mem) : Mem :=
  let m₀ := storeBE m 10 2 0
  storeBE m₀ 10 2 (ipSumCalc m₀ (ihl m₀ * 4))

theorem checksum_eq (hproto : protocol m = IPPROTO_TCP) :
    checksum m = ipSummed (tcpSummed m) := by
  rw [checksum, if_pos hproto]
  rfl

theorem tcpSummed_apply {i : Nat} (h : i < tcph m + 16 ∨ tcph m + 18 ≤ i) :
    tcpSummed m i = m i := by
  unfold tcpSummed
  rw [storeBE_apply_outside (by omega), storeBE_apply_outside (by omega)]

theorem ipSummed_apply {i : Nat} (h : i < 10 ∨ 12 ≤ i) : ipSummed m i = m i := by
  unfold ipSummed
  rw [storeBE_apply_outside (by omega), storeBE_apply_outside (by omega)]

/-- The field completes the sum of the segment. -/
theorem segmentSum_tcpSummed (hihl : 5 ≤ ihl m) (hlen : 4 * ihl m + 20 ≤ totLen m) :
    0 < segmentSum (tcpSummed m) ∧ segmentSum (tcpSummed m) % 65535 = 0 := by
  have ht : 20 ≤ tcph m := by
    unfold tcph
    omega
  obtain ⟨m₀, hm₀⟩ : ∃ m₀, storeBE m (tcph m + 16) 2 0 = m₀ := ⟨_, rfl⟩
  have hout : ∀ i, i < tcph m + 16 → m₀ i = m i := by
    intro i hi
    rw [← hm₀]
    exact storeBE_apply_outside (by omega)
  have hihl₀ : ihl m₀ = ihl m := congrArg (fun b : UInt8 => b.toNat % 16) (hout 0 (by omega))
  have htcph₀ : tcph m₀ = tcph m := congrArg (4 * ·) hihl₀
  have htot₀ : totLen m₀ = totLen m := totLen_congr fun i hi => hout _ (by omega)
  have hlen₀ : tcpLen m₀ = tcpLen m := by rw [tcpLen, tcpLen, hihl₀, htot₀]
  have hcleared : loadBE m₀ (tcph m₀ + 16) 2 = 0 := by
    rw [htcph₀, ← hm₀]
    exact loadBE_storeBE m (tcph m + 16) 2 0
  have hsummed : tcpSummed m =
      storeBE m₀ (tcph m₀ + 16) 2 (complement (segmentSum m₀)) := by
    rw [← tcpSumCalc_eq, tcpSummed, hm₀, hlen₀, htcph₀]
  obtain ⟨hlt, hpos, hmod⟩ := add_complement (segmentSum_lt m₀)
  have hsum := segmentSum_storeBE (m := m₀) (by omega) (by omega) hlt
  rw [hcleared, Nat.add_zero, ← hsummed] at hsum
  rw [hsum]
  exact ⟨hpos, hmod⟩

/-- The field completes the sum of the header. -/
theorem headerSum_ipSummed (hihl : 5 ≤ ihl m) :
    0 < sumWords (ipSummed m) 0 (2 * ihl m) ∧ sumWords (ipSummed m) 0 (2 * ihl m) % 65535 = 0 := by
  have hihl' : ihl m < 16 := Nat.mod_lt _ (by decide)
  obtain ⟨m₀, hm₀⟩ : ∃ m₀, storeBE m 10 2 0 = m₀ := ⟨_, rfl⟩
  have hihl₀ : ihl m₀ = ihl m := by
    rw [← hm₀, ihl, storeBE_apply_outside (by omega), ihl]
  have hcleared : loadBE m₀ 10 2 = 0 := by
    rw [← hm₀]
    exact loadBE_storeBE m 10 2 0
  have hle := sumWords_le m₀ 0 (2 * ihl m)
  obtain ⟨hlt, hpos, hmod⟩ := add_complement
    (show sumWords m₀ 0 (2 * ihl m) < 4294967296 by omega)
  have hsummed : ipSummed m =
      storeBE m₀ (0 + 2 * 5) 2 (complement (sumWords m₀ 0 (2 * ihl m))) := by
    have hhalf : ihl m * 4 / 2 = 2 * ihl m := by omega
    rw [ipSummed, hm₀, ipSumCalc, hihl₀, hhalf]
  have hsum : sumWords (storeBE m₀ (0 + 2 * 5) 2 (complement (sumWords m₀ 0 (2 * ihl m)))) 0
        (2 * ihl m) + loadBE m₀ (0 + 2 * 5) 2 =
      sumWords m₀ 0 (2 * ihl m) + complement (sumWords m₀ 0 (2 * ihl m)) :=
    sumWords_storeBE (by omega) hlt
  rw [← hsummed, show 0 + 2 * 5 = 10 from rfl, hcleared, Nat.add_zero] at hsum
  rw [hsum]
  exact ⟨hpos, hmod⟩

/-- **The checksums verify**, and nothing else changes. -/
theorem checksum_verifies (hproto : protocol m = IPPROTO_TCP) (hihl : 5 ≤ ihl m)
    (hlen : 4 * ihl m + 20 ≤ totLen m) :
    onesComplementSum (pseudoHeader (checksum m) ++ tcpSegment (checksum m)) = 0xFFFF ∧
      onesComplementSum (ipHeader (checksum m)) = 0xFFFF ∧
      ∀ i, i ≠ 10 → i ≠ 11 → i ≠ tcph m + 16 → i ≠ tcph m + 17 → checksum m i = m i := by
  have ht : 20 ≤ tcph m := by
    unfold tcph
    omega
  have hframe : ∀ i, i ≠ 10 → i ≠ 11 → i ≠ tcph m + 16 → i ≠ tcph m + 17 →
      checksum m i = m i := fun i h10 h11 h16 h17 => checksum_apply (by omega) (by omega)
  have hproto' : protocol (checksum m) = IPPROTO_TCP := by
    rw [protocol, hframe 9 (by omega) (by omega) (by omega) (by omega)]
    exact hproto
  refine ⟨?_, ?_, hframe⟩
  · rw [onesComplementSum_eq_max_iff, sum_words_segment hproto' (by simp; omega), checksum_eq hproto]
    have hihl' : 5 ≤ ihl (tcpSummed m) := by
      rw [ihl, tcpSummed_apply (by omega)]
      exact hihl
    rw [segmentSum_congr hihl' fun i hi => ipSummed_apply hi]
    exact segmentSum_tcpSummed hihl hlen
  · have hihl' : ihl (tcpSummed m) = ihl m := by rw [ihl, tcpSummed_apply (by omega), ihl]
    have hheader := headerSum_ipSummed (m := tcpSummed m) (by omega)
    rw [hihl', ← checksum_eq hproto] at hheader
    have hhalf : 4 * ihl m / 2 = 2 * ihl m := by omega
    rw [onesComplementSum_eq_max_iff, ipHeader, ihl_checksum, sum_words_slice, hhalf,
      if_neg (by omega)]
    exact hheader

/-- A segment of 21 bytes. -/
def oddSegment : Mem := ofList ([0x45, 0, 0, 41, 0, 0, 0, 0, 64, 6, 0, 0, 10, 0, 0, 1, 10, 0, 0, 2,
  0x1F, 0x90, 0x1F, 0x91, 0, 0, 0, 9, 0, 0, 0, 0, 0x50, 0x10] ++ List.replicate 6 0 ++ [0xAB])

theorem checksum_verifies_odd :
    totLen oddSegment % 2 = 1 ∧
      onesComplementSum (pseudoHeader (checksum oddSegment) ++ tcpSegment (checksum oddSegment)) =
        0xFFFF :=
  ⟨by decide, (checksum_verifies (m := oddSegment) (by decide) (by decide) (by decide)).1⟩

end Verify

end Solowan.Net
