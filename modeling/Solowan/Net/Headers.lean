/-
IPv4/TCP packets as the daemon sees them.

A packet is the memory it lies in, and `iphdr`, `tcphdr` and `OpennopHeader` are ways of
reading and writing it. The TCP header starts where `ihl` says and the data where `doff`
says; no function of the daemon checks either against `tot_len`.

* `payloadSize`, `incomingLen`: the two forms in which the length of the TCP data is
  computed, each with the truncations of its C expression.
* `Kept`: a write has left the headers alone except for the fields the daemon edits
  (`tot_len`, the two checksums, `seq`, `doff`). Everything that identifies a connection is
  read back unchanged from a packet that was kept (`Kept.flow`).
-/

import Mathlib.Order.Basic
import Solowan.Memory.Buffer

namespace Solowan.Net

open Solowan.Memory

/-- `IPPROTO_TCP`. -/
def IPPROTO_TCP : UInt8 := 6

/-- `sizeof(struct tcphdr)`. -/
def TCPHDR : Nat := 20

/-! ### `struct iphdr` -/

def ihl (m : Mem) : Nat := (m 0).toNat % 16

/-- `ntohs(iph->tot_len)`. -/
def totLen (m : Mem) : Nat := loadBE m 2 2

/-- `iph->tot_len = htons(n)`. -/
def setTotLen (m : Mem) (n : Nat) : Mem := storeBE m 2 2 n

/-- `iph->tot_len = htons(ntohs(iph->tot_len) + n)`. -/
def addTotLen (m : Mem) (n : Int) : Mem := setTotLen m (((totLen m : Int) + n) % 65536).toNat

def protocol (m : Mem) : UInt8 := m 9

/-- `iph->saddr`, in the byte order of the network on a little-endian host. -/
def saddr (m : Mem) : UInt32 := UInt32.ofNat (loadLE m 12 4)

def daddr (m : Mem) : UInt32 := UInt32.ofNat (loadLE m 16 4)

/-! ### `struct tcphdr` -/

/-- The offset of the TCP header. -/
def tcph (m : Mem) : Nat := 4 * ihl m

def source (m : Mem) : UInt16 := UInt16.ofNat (loadLE m (tcph m) 2)

def dest (m : Mem) : UInt16 := UInt16.ofNat (loadLE m (tcph m + 2) 2)

/-- `ntohl(tcph->seq)`. -/
def seq (m : Mem) : UInt32 := UInt32.ofNat (loadBE m (tcph m + 4) 4)

/-- `tcph->seq = htonl(n)`. -/
def setSeq (m : Mem) (n : UInt32) : Mem := storeBE m (tcph m + 4) 4 n.toNat

def ackSeq (m : Mem) : UInt32 := UInt32.ofNat (loadBE m (tcph m + 8) 4)

def doff (m : Mem) : Nat := (m (tcph m + 12)).toNat / 16

/-- `tcph->doff = n`, a field of four bits. -/
def setDoff (m : Mem) (n : Nat) : Mem :=
  memcpy m (tcph m + 12) [UInt8.ofNat (16 * (n % 16) + (m (tcph m + 12)).toNat % 16)]

/-- The byte with the flags. -/
def flags (m : Mem) : UInt8 := m (tcph m + 13)

def fin (m : Mem) : Bool := (flags m).toNat.testBit 0

def syn (m : Mem) : Bool := (flags m).toNat.testBit 1

def rst (m : Mem) : Bool := (flags m).toNat.testBit 2

def ack (m : Mem) : Bool := (flags m).toNat.testBit 4

/-- The offset of the TCP data. -/
def tcpdata (m : Mem) : Nat := tcph m + 4 * doff m

/-- `getIPPlusTCPHeaderLength`. -/
def getIPPlusTCPHeaderLength (m : Mem) : Nat := ihl m * 4 + doff m * 4

/-! ### The length of the TCP data -/

/-- `(__u16)(ntohs(iph->tot_len) - iph->ihl * 4)`. -/
def tcpLen (m : Mem) : Nat := (((totLen m : Int) - ihl m * 4) % 65536).toNat

/-- `(__u16)(ntohs(iph->tot_len) - iph->ihl * 4) - tcph->doff * 4` in a `__u16`. -/
def payloadSize (m : Mem) : Nat := (((tcpLen m : Int) - doff m * 4) % 65536).toNat

/-- The same expression in an `unsigned int`. -/
def incomingLen (m : Mem) : Nat := (((tcpLen m : Int) - doff m * 4) % 4294967296).toNat

/-- The TCP data, as long as `payloadSize` says. -/
def payload (m : Mem) : List UInt8 := slice m (tcpdata m) (payloadSize m)

/-! ### `OpennopHeader` -/

def OPENNOP_PATTERN : UInt32 := 0x55555555

/-- `sizeof(OpennopHeader)`. -/
def OPENNOP_HEADER : Nat := 16

/-- `reasonForNoOptimization`. -/
inductive Reason where
  | NOT_RELEVANT
  | NO_OPT_GAIN
  | IS_A_RTX
  | SESSION_CHECK
  deriving DecidableEq, Repr

def Reason.toByte : Reason → UInt8
  | .NOT_RELEVANT => 0
  | .NO_OPT_GAIN => 1
  | .IS_A_RTX => 2
  | .SESSION_CHECK => 3

structure OpennopHeader where
  seqNo : UInt32
  opennopID : UInt32
  compression : UInt8
  deduplication : UInt8
  reasonForNoOptimization : UInt8
  queuenum : UInt8
  pattern : UInt32
  deriving DecidableEq, Repr

/-- The bytes of a header on a little-endian host. -/
def OpennopHeader.bytes (oh : OpennopHeader) : List UInt8 :=
  leBytes 4 oh.seqNo.toNat ++ (leBytes 4 oh.opennopID.toNat ++
    ([oh.compression, oh.deduplication, oh.reasonForNoOptimization, oh.queuenum] ++
      leBytes 4 oh.pattern.toNat))

/-- The header at `pos`. -/
def readHeader (m : Mem) (pos : Nat) : OpennopHeader where
  seqNo := UInt32.ofNat (loadLE m pos 4)
  opennopID := UInt32.ofNat (loadLE m (pos + 4) 4)
  compression := m (pos + 8)
  deduplication := m (pos + 9)
  reasonForNoOptimization := m (pos + 10)
  queuenum := m (pos + 11)
  pattern := UInt32.ofNat (loadLE m (pos + 12) 4)

/-- The header in front of the TCP data. -/
def opennopHeader (m : Mem) : OpennopHeader := readHeader m (tcpdata m)

@[simp] theorem OpennopHeader.length_bytes (oh : OpennopHeader) :
    oh.bytes.length = OPENNOP_HEADER := by
  simp [OpennopHeader.bytes, OPENNOP_HEADER]

/-- A header is read back as it was written. -/
theorem readHeader_of_slice {m : Mem} {pos : Nat} {oh : OpennopHeader}
    (h : slice m pos OPENNOP_HEADER = oh.bytes) : readHeader m pos = oh := by
  obtain ⟨h0, h⟩ := slice_split h
  obtain ⟨h1, h⟩ := slice_split h
  obtain ⟨h2, h3⟩ := slice_split h
  simp only [length_leBytes, List.length_cons, List.length_nil, Nat.zero_add, Nat.reduceAdd,
    Nat.add_assoc] at h0 h1 h2 h3
  have hword : ∀ n : UInt32, UInt32.ofNat (leNat (leBytes 4 n.toNat)) = n := by
    intro n
    have hlt := n.toNat_lt
    rw [leNat_leBytes, Nat.mod_eq_of_lt (by omega), UInt32.ofNat_toNat]
  have hbyte : ∀ i < 4, m (pos + 8 + i) =
      [oh.compression, oh.deduplication, oh.reasonForNoOptimization, oh.queuenum].getD i 0 :=
    fun i hi => apply_of_slice_eq h2 hi
  have hb0 := hbyte 0 (by omega)
  have hb1 := hbyte 1 (by omega)
  have hb2 := hbyte 2 (by omega)
  have hb3 := hbyte 3 (by omega)
  simp only [Nat.add_assoc, Nat.reduceAdd, Nat.add_zero] at hb0 hb1 hb2 hb3
  simp [readHeader, loadLE, h0, h1, h3, hword, hb0, hb1, hb2, hb3]

/-! ### Lengths that do not wrap -/

/-- The headers end inside the packet. -/
def Consistent (m : Mem) : Prop := 4 * ihl m + 4 * doff m ≤ totLen m

instance (m : Mem) : Decidable (Consistent m) :=
  inferInstanceAs (Decidable (4 * ihl m + 4 * doff m ≤ totLen m))

section Lengths

variable {m : Mem}

theorem totLen_lt (m : Mem) : totLen m < 65536 := loadBE_lt m 2 2

theorem doff_lt (m : Mem) : doff m < 16 := by
  have := (m (tcph m + 12)).toNat_lt
  unfold doff
  omega

/-- Where nothing wraps, the two lengths are the difference they are meant to be. -/
theorem payloadSize_of_consistent (h : Consistent m) :
    payloadSize m = totLen m - 4 * ihl m - 4 * doff m := by
  have := totLen_lt m
  unfold Consistent at h
  unfold payloadSize tcpLen
  omega

theorem incomingLen_of_consistent (h : Consistent m) :
    incomingLen m = totLen m - 4 * ihl m - 4 * doff m := by
  have := totLen_lt m
  unfold Consistent at h
  unfold incomingLen tcpLen
  omega

end Lengths

/-! ### What an edit leaves alone -/

/-- The bytes of the fixed headers that the daemon edits: `tot_len`, the IP checksum, `seq`,
the data offset and the TCP checksum of a segment at offset `t`. -/
def Editable (t i : Nat) : Prop :=
  i = 2 ∨ i = 3 ∨ i = 10 ∨ i = 11 ∨ t + 4 ≤ i ∧ i < t + 8 ∨ i = t + 12 ∨ i = t + 16 ∨ i = t + 17

/-- The fixed headers of `m'` are those of `m` but for the fields the daemon edits. -/
def Kept (m m' : Mem) : Prop :=
  ∀ i, i < tcph m + TCPHDR → ¬ Editable (tcph m) i → m' i = m i

section Kept

variable {m m' m'' : Mem}

theorem Kept.refl (m : Mem) : Kept m m := fun _ _ _ => rfl

theorem Kept.ihl (h : Kept m m') : ihl m' = ihl m := by
  have : m' 0 = m 0 := by
    apply h
    · simp only [TCPHDR]
      omega
    · unfold Editable
      omega
  rw [Net.ihl, this, Net.ihl]

theorem Kept.tcph (h : Kept m m') : tcph m' = tcph m := by
  rw [Net.tcph, h.ihl, Net.tcph]

theorem Kept.trans (h : Kept m m') (h' : Kept m' m'') : Kept m m'' := by
  intro i hi hne
  rw [← h i hi hne]
  rw [← h.tcph] at hi hne
  exact h' i hi hne

/-- What identifies a connection and its direction, and the rest of what a packet is
classified by. -/
structure Flow where
  protocol : UInt8
  saddr : UInt32
  daddr : UInt32
  source : UInt16
  dest : UInt16
  ackSeq : UInt32
  flags : UInt8
  deriving DecidableEq

def flow (m : Mem) : Flow :=
  ⟨Net.protocol m, Net.saddr m, Net.daddr m, Net.source m, Net.dest m, Net.ackSeq m, Net.flags m⟩

theorem flow_saddr (m : Mem) : (flow m).saddr = Net.saddr m := rfl

/-- A kept packet belongs to the same connection. -/
theorem Kept.flow (h : Kept m m') (hihl : 5 ≤ Net.ihl m) : flow m' = flow m := by
  have ht : 20 ≤ Net.tcph m := by
    unfold Net.tcph
    omega
  have hkept : ∀ i, i < Net.tcph m + 20 → i ≠ 2 → i ≠ 3 → i ≠ 10 → i ≠ 11 →
      (i < Net.tcph m + 4 ∨ Net.tcph m + 8 ≤ i ∧ i ≠ Net.tcph m + 12 ∧ i ≠ Net.tcph m + 16 ∧
        i ≠ Net.tcph m + 17) → m' i = m i := by
    intro i hi h2 h3 h10 h11 hrange
    apply h i hi
    unfold Editable
    omega
  simp only [Net.flow, Net.protocol, Net.saddr, Net.daddr, Net.source, Net.dest, Net.ackSeq,
    Net.flags, h.tcph, Flow.mk.injEq]
  refine ⟨?_, ?_, ?_, ?_, ?_, ?_, ?_⟩
  · exact hkept 9 (by omega) (by omega) (by omega) (by omega) (by omega) (by omega)
  · exact congrArg UInt32.ofNat (loadLE_congr fun i hi =>
      hkept _ (by omega) (by omega) (by omega) (by omega) (by omega) (by omega))
  · exact congrArg UInt32.ofNat (loadLE_congr fun i hi =>
      hkept _ (by omega) (by omega) (by omega) (by omega) (by omega) (by omega))
  · exact congrArg UInt16.ofNat (loadLE_congr fun i hi =>
      hkept _ (by omega) (by omega) (by omega) (by omega) (by omega) (by omega))
  · exact congrArg UInt16.ofNat (loadLE_congr fun i hi =>
      hkept _ (by omega) (by omega) (by omega) (by omega) (by omega) (by omega))
  · exact congrArg UInt32.ofNat (loadBE_congr fun i hi =>
      hkept _ (by omega) (by omega) (by omega) (by omega) (by omega) (by omega))
  · exact hkept _ (by omega) (by omega) (by omega) (by omega) (by omega) (by omega)

/-- The sequence number is kept by an edit elsewhere. -/
theorem seq_congr (hihl : Net.ihl m' = Net.ihl m)
    (h : ∀ i, i < 4 → m' (Net.tcph m + 4 + i) = m (Net.tcph m + 4 + i)) : seq m' = seq m := by
  rw [seq, seq, Net.tcph, hihl]
  exact congrArg UInt32.ofNat (loadBE_congr h)

theorem doff_congr (hihl : Net.ihl m' = Net.ihl m)
    (h : m' (Net.tcph m + 12) = m (Net.tcph m + 12)) : doff m' = doff m := by
  rw [doff, doff, Net.tcph, hihl]
  exact congrArg (fun b : UInt8 => b.toNat / 16) h

theorem totLen_congr (h : ∀ i, i < 2 → m' (2 + i) = m (2 + i)) : totLen m' = totLen m :=
  loadBE_congr h

end Kept

/-! ### The edits -/

section Edits

variable {m : Mem} {n q k : Nat}

theorem setTotLen_apply {i : Nat} (h : i < 2 ∨ 4 ≤ i) : setTotLen m n i = m i :=
  storeBE_apply_outside (by omega)

theorem kept_setTotLen (m : Mem) (n : Nat) : Kept m (setTotLen m n) := by
  intro i _ hne
  apply setTotLen_apply
  unfold Editable at hne
  omega

@[simp] theorem totLen_setTotLen (m : Mem) (n : Nat) : totLen (setTotLen m n) = n % 65536 :=
  loadBE_storeBE m 2 2 n

@[simp] theorem ihl_setTotLen (m : Mem) (n : Nat) : ihl (setTotLen m n) = ihl m :=
  (kept_setTotLen m n).ihl

@[simp] theorem doff_setTotLen (m : Mem) (n : Nat) : doff (setTotLen m n) = doff m :=
  doff_congr (ihl_setTotLen m n) (setTotLen_apply (by omega))

@[simp] theorem seq_setTotLen (m : Mem) (n : Nat) : seq (setTotLen m n) = seq m :=
  seq_congr (ihl_setTotLen m n) fun _ _ => setTotLen_apply (by omega)

theorem slice_setTotLen (h : 4 ≤ q) : slice (setTotLen m n) q k = slice m q k :=
  slice_congr fun _ _ => setTotLen_apply (by omega)

theorem setSeq_apply {v : UInt32} {i : Nat} (h : i < tcph m + 4 ∨ tcph m + 8 ≤ i) :
    setSeq m v i = m i :=
  storeBE_apply_outside (by omega)

theorem kept_setSeq (m : Mem) (v : UInt32) : Kept m (setSeq m v) := by
  intro i _ hne
  apply setSeq_apply
  unfold Editable at hne
  omega

@[simp] theorem ihl_setSeq (m : Mem) (v : UInt32) : ihl (setSeq m v) = ihl m :=
  (kept_setSeq m v).ihl

@[simp] theorem totLen_setSeq (m : Mem) (v : UInt32) : totLen (setSeq m v) = totLen m :=
  totLen_congr fun _ _ => setSeq_apply (by omega)

@[simp] theorem doff_setSeq (m : Mem) (v : UInt32) : doff (setSeq m v) = doff m :=
  doff_congr (ihl_setSeq m v) (setSeq_apply (by omega))

@[simp] theorem seq_setSeq (m : Mem) (v : UInt32) : seq (setSeq m v) = v := by
  have hlt := v.toNat_lt
  rw [seq, tcph, ihl_setSeq, ← tcph, setSeq, loadBE_storeBE, Nat.mod_eq_of_lt (by omega),
    UInt32.ofNat_toNat]

theorem slice_setSeq {v : UInt32} (h : tcph m + 8 ≤ q) :
    slice (setSeq m v) q k = slice m q k :=
  slice_congr fun _ _ => setSeq_apply (by omega)

theorem setDoff_apply {i : Nat} (h : i ≠ tcph m + 12) : setDoff m n i = m i := by
  apply memcpy_apply_outside
  simp only [List.length_singleton]
  omega

theorem kept_setDoff (m : Mem) (n : Nat) : Kept m (setDoff m n) := by
  intro i _ hne
  apply setDoff_apply
  unfold Editable at hne
  omega

@[simp] theorem ihl_setDoff (m : Mem) (n : Nat) : ihl (setDoff m n) = ihl m :=
  (kept_setDoff m n).ihl

@[simp] theorem totLen_setDoff (m : Mem) (n : Nat) : totLen (setDoff m n) = totLen m :=
  totLen_congr fun _ _ => setDoff_apply (by omega)

@[simp] theorem doff_setDoff (m : Mem) (n : Nat) : doff (setDoff m n) = n % 16 := by
  have hbyte : setDoff m n (tcph m + 12) =
      UInt8.ofNat (16 * (n % 16) + (m (tcph m + 12)).toNat % 16) :=
    memcpy_apply_inside (i := 0) (by simp)
  rw [doff, tcph, ihl_setDoff, ← tcph, hbyte, UInt8.toNat_ofNat']
  omega

@[simp] theorem seq_setDoff (m : Mem) (n : Nat) : seq (setDoff m n) = seq m :=
  seq_congr (ihl_setDoff m n) fun _ _ => setDoff_apply (by omega)

end Edits

/-- The segment of `m'` has the headers of that of `m`, except for the length. -/
structure SameSegment (m m' : Mem) : Prop where
  kept : Kept m m'
  doff : doff m' = doff m
  seq : seq m' = seq m

/-- The fixed headers of `m'` read as those of `m`. -/
structure SameHeaders (m m' : Mem) : Prop extends SameSegment m m' where
  totLen : totLen m' = totLen m

section SameHeaders

variable {m m' m'' : Mem} {pos n : Nat}

theorem SameSegment.refl (m : Mem) : SameSegment m m := ⟨Kept.refl m, rfl, rfl⟩

theorem SameSegment.trans (h : SameSegment m m') (h' : SameSegment m' m'') :
    SameSegment m m'' :=
  ⟨h.kept.trans h'.kept, h'.doff.trans h.doff, h'.seq.trans h.seq⟩

theorem SameHeaders.refl (m : Mem) : SameHeaders m m := ⟨.refl m, rfl⟩

theorem SameHeaders.trans (h : SameHeaders m m') (h' : SameHeaders m' m'') :
    SameHeaders m m'' :=
  ⟨h.toSameSegment.trans h'.toSameSegment, h'.totLen.trans h.totLen⟩

theorem SameSegment.tcpdata (h : SameSegment m m') : tcpdata m' = tcpdata m := by
  rw [Net.tcpdata, h.kept.tcph, h.doff, Net.tcpdata]

/-- The data lies behind the fixed headers. -/
theorem tcph_le_tcpdata (h : 5 ≤ doff m) : tcph m + TCPHDR ≤ tcpdata m := by
  simp only [tcpdata, TCPHDR]
  omega

/-- A write behind the fixed headers leaves them alone. -/
theorem sameHeaders_memcpy (bs : List UInt8) (h : tcph m + TCPHDR ≤ pos) :
    SameHeaders m (memcpy m pos bs) := by
  unfold TCPHDR at h
  have hkept : Kept m (memcpy m pos bs) := by
    intro i hi _
    unfold TCPHDR at hi
    exact memcpy_apply_outside (by omega)
  refine ⟨⟨hkept, ?_, ?_⟩, ?_⟩
  · exact doff_congr hkept.ihl (memcpy_apply_outside (by omega))
  · exact seq_congr hkept.ihl fun _ _ => memcpy_apply_outside (by omega)
  · exact totLen_congr fun _ _ => memcpy_apply_outside (by omega)

theorem sameSegment_addTotLen (m : Mem) (n : Int) : SameSegment m (addTotLen m n) :=
  ⟨kept_setTotLen _ _, doff_setTotLen _ _, seq_setTotLen _ _⟩

theorem sameHeaders_memmove (src n : Nat) (h : tcph m + TCPHDR ≤ pos) :
    SameHeaders m (memmove m pos src n) :=
  sameHeaders_memcpy _ h

end SameHeaders

end Solowan.Net
