/-
Checksums (`opennopd/csum.c`).

The daemon recomputes both checksums of every packet it has edited. What the other modules
need of it is that nothing but the two fields changes.
-/

import Mathlib.Algebra.BigOperators.Group.List.Basic
import Mathlib.Algebra.GroupWithZero.Nat
import Solowan.Net.Headers

namespace Solowan.Net

open Solowan.Memory

/-- `while (sum >> 16) sum = (sum & 0xFFFF) + (sum >> 16)`. A sum of fewer than 2^16 words
is folded after three rounds. -/
def foldCarries : Nat → Nat → Nat
  | 0, sum => sum
  | fuel + 1, sum =>
    if sum / 65536 = 0 then sum else foldCarries fuel (sum % 65536 + sum / 65536)

/-- `(unsigned short) ~sum`, of the folded sum. -/
def complement (sum : Nat) : Nat := 65535 - foldCarries 4 sum % 65536

/-- The sum of `n` words from `pos` on. -/
def sumWords (m : Mem) (pos n : Nat) : Nat :=
  ((List.range n).map fun i => loadBE m (pos + 2 * i) 2).sum

def tcpSumCalc (m : Mem) (len_tcp buff : Nat) : Nat :=
  let pseudo := sumWords m 12 2 + sumWords m 16 2 + len_tcp + IPPROTO_TCP.toNat
  let sum := pseudo + sumWords m buff (len_tcp / 2)
  -- An odd segment is padded with a zero byte.
  complement (if len_tcp % 2 = 1 then sum + (m (buff + 2 * (len_tcp / 2))).toNat * 256 else sum)

def ipSumCalc (m : Mem) (len_ip_header : Nat) : Nat :=
  complement (sumWords m 0 (len_ip_header / 2))

def checksum (m : Mem) : Mem :=
  if protocol m = IPPROTO_TCP then
    let t := tcph m
    let tcplen := tcpLen m
    let m := storeBE m (t + 16) 2 0
    let m := storeBE m (t + 16) 2 (tcpSumCalc m tcplen t)
    let m := storeBE m 10 2 0
    storeBE m 10 2 (ipSumCalc m (ihl m * 4))
  else m

section Frame

variable {m : Mem} {q k : Nat}

/-- Only the two checksum fields change. -/
theorem checksum_apply {i : Nat} (h10 : i < 10 ∨ 12 ≤ i)
    (h16 : i < tcph m + 16 ∨ tcph m + 18 ≤ i) : checksum m i = m i := by
  unfold checksum
  split
  · rw [storeBE_apply_outside (by omega), storeBE_apply_outside (by omega),
      storeBE_apply_outside (by omega), storeBE_apply_outside (by omega)]
  · rfl

theorem kept_checksum (m : Mem) : Kept m (checksum m) := by
  intro i _ hne
  unfold Editable at hne
  exact checksum_apply (by omega) (by omega)

@[simp] theorem ihl_checksum (m : Mem) : ihl (checksum m) = ihl m := (kept_checksum m).ihl

@[simp] theorem totLen_checksum (m : Mem) : totLen (checksum m) = totLen m :=
  totLen_congr fun _ _ => checksum_apply (by omega) (by omega)

@[simp] theorem doff_checksum (m : Mem) : doff (checksum m) = doff m :=
  doff_congr (ihl_checksum m) (checksum_apply (by omega) (by omega))

theorem seq_checksum (h : 5 ≤ ihl m) : seq (checksum m) = seq m := by
  have ht : 20 ≤ tcph m := by
    unfold tcph
    omega
  exact seq_congr (ihl_checksum m) fun _ _ => checksum_apply (by omega) (by omega)

theorem slice_checksum (h : tcph m + TCPHDR ≤ q) :
    slice (checksum m) q k = slice m q k := by
  unfold TCPHDR at h
  exact slice_congr fun _ _ => checksum_apply (by omega) (by omega)

end Frame

end Solowan.Net
