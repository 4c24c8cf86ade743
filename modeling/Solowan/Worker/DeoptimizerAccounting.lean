/-
The byte counters of the deoptimization thread.

The thread counts what its decoders add and what it takes off the headers. The branch for a
packet without a session does it the other way round: there the 16 bytes of the header are
subtracted where the other branch adds them, and the difference of the header lengths has the
other sign.

* `deoptimizationThread_balanced_iff`: the counters account for every byte of a packet that is
  accepted if and only if its session is known, option 32 is cleared without a dword more, and
  the total length of the restored packet fits its 16 bits.
* `unknown_session_unbalanced`: a packet without a session is counted 32 bytes short.
-/

import Solowan.Codec.Bounds
import Solowan.Worker.Accounting

namespace Solowan.Worker

open Solowan.Memory Solowan.Dictionary Solowan.Net Solowan.Sessions Solowan.Fetcher

/-! ### One packet in the books -/

/-- The increases over one packet: what came in and what the decoders added went out, or was
taken off the headers. -/
def StepBalanced (c c' : WorkerCounters) : Prop :=
  (c'.bytesin - c.bytesin) + (c'.diffBytesCompression - c.diffBytesCompression) +
      (c'.diffBytesDeduplication - c.diffBytesDeduplication) =
    (c'.bytesout - c.bytesout) + (c'.diffBytesIpTcpHeader - c.diffBytesIpTcpHeader)

instance (c c' : WorkerCounters) : Decidable (StepBalanced c c') :=
  inferInstanceAs (Decidable (_ = _))

/-- What the decoders add to the data in `m`: `tcp_decompress` first, then `tcp_deoptimize`. -/
def gained (d : Daemon) (sw : Switches) (x : Dedup) (oh : OpennopHeader) (m : Mem) : Int :=
  let first := if sw.compression = true ∧ oh.compression ≠ 0 then tcpDecompress d m else (0, m)
  first.1 +
    if sw.deduplication = true ∧ oh.deduplication ≠ 0 then
      ((tcpDeoptimize d x first.2).map Prod.fst).getD 0
    else 0

/-- What is added to a packet of the session `s` that is `m` without its header. -/
def gain (d : Daemon) (t : Deoptimizer) (a : Arrival) (s : Session) (m : Mem) : Int :=
  let oh := opennopHeader a.packet
  if reachesDecoders d.localID (sockets m) s oh m then
    gained d a.switches { t.dedup with shared := a.shared } oh m
  else 0

/-- Without its header the packet has headers of the same length, and the total length of the
restored packet fits its field. -/
structure Fits (d : Daemon) (t : Deoptimizer) (a : Arrival) (s : Session) (m : Mem) : Prop where
  headers : getIPPlusTCPHeaderLength m = getIPPlusTCPHeaderLength a.packet
  lower : (OPENNOP_HEADER : Int) ≤ totLen a.packet + gain d t a s m
  upper : totLen a.packet + gain d t a s m < 65536 + OPENNOP_HEADER

/-- The packet with its data moved over the header. -/
def closeUp (m : Mem) : Mem :=
  memmove m (tcpdata m) (tcpdata m + OPENNOP_HEADER) (incomingLen m - OPENNOP_HEADER)

/-- The dwords that clearing option 32 then adds to the header. -/
def dwordsAdded (m : Mem) : Nat :=
  match setTcpOption (closeUp m) OPENNOP_OPTION.toNat 3 0 with
  | none => 0
  | some (_, m') => doff m' - doff (closeUp m)

/-- The data of a packet with a data offset below 4 lies over its TCP header, and what is moved
there is a new header, which can be just so much longer. -/
inductive Coincides (m : Mem) : Prop
  /-- The byte 16 places behind the data offset is moved over it. -/
  | offset (hdata : 0 < tcpdata m) (hdoff : doff m < 5)
      (hlen : OPENNOP_HEADER ≤ totLen m + 4 * dwordsAdded m)
      (hbyte : (m (tcph m + 12 + OPENNOP_HEADER)).toNat / 16 + 2 * dwordsAdded m = doff m + 8)
  /-- Without any header the data is moved over the packet from its first byte on. -/
  | start (hdata : tcpdata m = 0)
      (hlen : ((totLen (closeUp m) : Int) + 4 * dwordsAdded m - OPENNOP_HEADER) % 65536 +
          4 * (ihl (closeUp m) + doff (closeUp m) + dwordsAdded m) =
        totLen m + OPENNOP_HEADER)

/-- When the books of a packet balance. -/
def Booked (d : Daemon) (t : Deoptimizer) (a : Arrival) : Prop :=
  ∃ m, stripHeader a.packet = some m ∧
    ((∃ s, getsession a.sessions (sockets m) = some s ∧ Fits d t a s m) ∨
      getsession a.sessions (sockets m) = none ∧ Coincides a.packet)

/-- `qlz_decompress` returns a size that is not negative as an `int`. -/
def QuickLZ.Sized (q : QuickLZ) : Prop :=
  ∀ m bs, q.decompress m = some bs → bs.length < 2147483648

/-! ### Counting -/

section Counting

theorem ofNat_inj_of_lt {a b : Nat} (ha : a < 18446744073709551616)
    (hb : b < 18446744073709551616) : UInt64.ofNat a = UInt64.ofNat b ↔ a = b := by
  constructor
  · intro h
    have hnat := congrArg UInt64.toNat h
    rw [UInt64.toNat_ofNat', UInt64.toNat_ofNat', Nat.mod_eq_of_lt ha, Nat.mod_eq_of_lt hb] at hnat
    exact hnat
  · rintro rfl
    rfl

theorem ofInt_of_nonneg {n : Int} (h : 0 ≤ n) : UInt64.ofInt n = UInt64.ofNat n.toNat := by
  obtain ⟨k, rfl⟩ := Int.eq_ofNat_of_zero_le h
  have hmod : ((k : Int) % 2 ^ 64).toNat = k % 2 ^ 64 := by omega
  rw [UInt64.ofInt, hmod, Int.toNat_natCast]
  exact UInt64.ofNat_mod_size

/-- Headers that have become longer, the other way round. -/
theorem headerDifference_of_lt {a b : Nat} (hab : a < b) (hb : b < 4294967296) :
    headerDifference a b = UInt64.ofNat (4294967296 + a - b) := by
  apply UInt64.toNat_inj.mp
  rw [headerDifference, UInt32.toNat_toUInt64, UInt32.toNat_sub, UInt32.toNat_ofNat',
    UInt32.toNat_ofNat', UInt64.toNat_ofNat']
  omega

end Counting

/-! ### Taking the header off -/

section Strip

variable {m m' : Mem}

theorem getIPPlusTCPHeaderLength_eq (m : Mem) : getIPPlusTCPHeaderLength m = tcpdata m := by
  rw [getIPPlusTCPHeaderLength, tcpdata, tcph, Nat.mul_comm, Nat.mul_comm (doff m)]

theorem tcpdata_lt (m : Mem) : tcpdata m < 128 := by
  have hdoff := doff_lt m
  have hihl : ihl m < 16 := Nat.mod_lt _ (by decide)
  unfold tcpdata tcph
  omega

/-- With a data offset below 5 an option is neither found nor put in. -/
theorem setTcpOption_short {num len : Nat} {data : UInt64} (hdoff : doff m < 5)
    (hlen : len ≤ 36) : setTcpOption m num len data = none := by
  have hadd := addOff_le 0 len
  unfold setTcpOption
  simp only [if_neg (show ¬ doff m > 5 by omega)]
  rw [insertOption, if_pos (by omega), if_pos (Or.inl hdoff)]

/-- The lengths when the header is off: those of the packet that was moved together, with what
clearing the option has added. -/
theorem stripHeader_closeUp (h : stripHeader m = some m') :
    5 ≤ doff (closeUp m) ∧ dwordsAdded m ≤ 1 ∧ ihl m' = ihl (closeUp m) ∧
      doff m' = doff (closeUp m) + dwordsAdded m ∧
      (totLen m' : Int) = (totLen (closeUp m) + 4 * dwordsAdded m - OPENNOP_HEADER) % 65536 := by
  rw [stripHeader] at h
  dsimp only at h
  rw [Option.map_eq_some_iff, ← closeUp] at h
  obtain ⟨⟨r, m₂⟩, hset, hm'⟩ := h
  dsimp only at hm'
  have hroom : 5 ≤ doff (closeUp m) := by
    by_contra hshort
    rw [setTcpOption_short (by omega) (by decide)] at hset
    cases hset
  obtain ⟨k, hk, hdoff₂, htot₂⟩ := setTcpOption_lengths hset hroom
  have hadded : dwordsAdded m = k := by
    rw [dwordsAdded, hset]
    dsimp only
    omega
  have hsame₂ := sameSegment_addTotLen m₂ (-OPENNOP_HEADER)
  rw [hadded]
  refine ⟨hroom, by omega, ?_, ?_, ?_⟩
  · rw [← hm', ihl_checksum, hsame₂.kept.ihl, (setTcpOption_kept hset).1.ihl]
  · rw [← hm', doff_checksum, hsame₂.doff, hdoff₂]
  · rw [← hm', totLen_checksum, addTotLen, totLen_setTotLen, htot₂]
    simp only [OPENNOP_HEADER]
    omega

/-- The move keeps what stands in front of the data. -/
theorem closeUp_front (h : 0 < tcpdata m) :
    ihl (closeUp m) = ihl m ∧ totLen (closeUp m) = totLen m := by
  have hfour : 4 ≤ tcpdata m := by
    unfold tcpdata tcph at h ⊢
    omega
  have hfront : ∀ i, i < 4 → closeUp m i = m i := by
    intro i hi
    rw [closeUp, memmove_apply_outside (Or.inl (by omega))]
  refine ⟨by rw [ihl, hfront 0 (by decide), ← ihl], ?_⟩
  exact loadBE_congr fun i hi => hfront (2 + i) (by omega)

/-- A data offset below 5 is overwritten, or clearing the option would not return. -/
theorem doff_closeUp (h : 0 < tcpdata m) (hdoff : doff m < 5) (hroom : 5 ≤ doff (closeUp m)) :
    doff (closeUp m) = (m (tcph m + 12 + OPENNOP_HEADER)).toNat / 16 := by
  have htcph : tcph (closeUp m) = tcph m := by rw [tcph, (closeUp_front h).1, ← tcph]
  have hplace : tcpdata m ≤ tcph m + 12 ∧
      tcph m + 12 < tcpdata m + (incomingLen m - OPENNOP_HEADER) := by
    by_contra hout
    have hsame : closeUp m (tcph m + 12) = m (tcph m + 12) := by
      rw [closeUp, memmove_apply_outside (by omega)]
    have : doff (closeUp m) = doff m := by rw [doff, htcph, hsame, ← doff]
    omega
  obtain ⟨i, hi⟩ := Nat.exists_eq_add_of_le hplace.1
  rw [doff, htcph, closeUp, hi, memmove_apply_inside (by omega)]
  congr 3
  omega

/-- What is left of the lengths when the header is off. A data offset below 5 has been
overwritten by a larger one. -/
theorem stripHeader_lengths (h : stripHeader m = some m') :
    5 ≤ doff m' ∧
      ((5 ≤ doff m ∧ ∃ k ≤ 1,
          getIPPlusTCPHeaderLength m' = getIPPlusTCPHeaderLength m + 4 * k ∧
          (totLen m' : Int) = (totLen m + 4 * k - OPENNOP_HEADER) % 65536) ∨
        doff m < 5 ∧ getIPPlusTCPHeaderLength m < getIPPlusTCPHeaderLength m') := by
  obtain ⟨hroom, hk, hihl', hdoff', htot'⟩ := stripHeader_closeUp h
  refine ⟨by rw [hdoff']; exact Nat.le_add_right_of_le hroom, ?_⟩
  by_cases hdoff : 5 ≤ doff m
  · have hsame : SameHeaders m (closeUp m) := sameHeaders_memmove _ _ (tcph_le_tcpdata hdoff)
    refine Or.inl ⟨hdoff, dwordsAdded m, hk, ?_, ?_⟩
    · rw [getIPPlusTCPHeaderLength, hihl', hdoff', hsame.kept.ihl, hsame.doff,
        getIPPlusTCPHeaderLength]
      omega
    · rw [htot', hsame.totLen]
  · refine Or.inr ⟨Nat.lt_of_not_le hdoff, ?_⟩
    have hlonger : 4 * ihl (closeUp m) + 20 ≤ getIPPlusTCPHeaderLength m' := by
      rw [getIPPlusTCPHeaderLength, hihl', hdoff']
      omega
    rw [getIPPlusTCPHeaderLength_eq m]
    by_cases hzero : tcpdata m = 0
    · omega
    · rw [(closeUp_front (Nat.pos_of_ne_zero hzero)).1] at hlonger
      unfold tcpdata tcph
      omega

/-- **When the two differences are the same.** -/
theorem stripHeader_coincides_iff (h : stripHeader m = some m') (hdoff : doff m < 5) :
    totLen m + OPENNOP_HEADER =
        totLen m' + (getIPPlusTCPHeaderLength m' - getIPPlusTCPHeaderLength m) ↔
      Coincides m := by
  obtain ⟨hroom, hk, hihl', hdoff', htot'⟩ := stripHeader_closeUp h
  have hlonger : getIPPlusTCPHeaderLength m ≤ getIPPlusTCPHeaderLength m' := by
    obtain ⟨-, ⟨hlong, -⟩ | ⟨-, hlonger⟩⟩ := stripHeader_lengths h <;> omega
  have hlength : getIPPlusTCPHeaderLength m' =
      4 * (ihl (closeUp m) + doff (closeUp m) + dwordsAdded m) := by
    rw [getIPPlusTCPHeaderLength, hihl', hdoff']
    omega
  have hlt := totLen_lt m
  simp only [OPENNOP_HEADER] at htot' ⊢
  by_cases hzero : tcpdata m = 0
  · have hbefore : getIPPlusTCPHeaderLength m = 0 := by rw [getIPPlusTCPHeaderLength_eq, hzero]
    constructor
    · intro heq
      refine .start hzero ?_
      simp only [OPENNOP_HEADER]
      omega
    · rintro (⟨hpos, -, -, -⟩ | ⟨-, hlen⟩)
      · omega
      · simp only [OPENNOP_HEADER] at hlen
        omega
  · have hpos := Nat.pos_of_ne_zero hzero
    obtain ⟨hihl, htot⟩ := closeUp_front hpos
    have hbyte := doff_closeUp hpos hdoff hroom
    have hbefore : getIPPlusTCPHeaderLength m = 4 * (ihl m + doff m) := by
      rw [getIPPlusTCPHeaderLength]
      omega
    rw [hihl] at hlength
    rw [htot] at htot'
    constructor
    · intro heq
      refine .offset hpos hdoff ?_ ?_
      · simp only [OPENNOP_HEADER]
        omega
      · omega
    · rintro (⟨-, -, hlen, hbyte'⟩ | ⟨hnot, -⟩)
      · simp only [OPENNOP_HEADER] at hlen
        omega
      · omega

end Strip

/-! ### The decoders -/

section Decoders

variable {d : Daemon} {sw : Switches} {k : Sockets} {oh : OpennopHeader} {m m' : Mem} {x x' : Dedup}
  {r r' r'' : Decoded}

/-- `tcp_decompress` adds what it reports. -/
theorem tcpDecompress_grows {n : Int} (hdoff : 5 ≤ doff m) (h : tcpDecompress d m = (n, m'))
    (hpos : 0 ≤ n) : SameSegment m m' ∧ (totLen m' : Int) = (totLen m + n) % 65536 := by
  unfold tcpDecompress at h
  split at h
  · dsimp only at h
    split at h
    · split at h
      · cases h
        exact absurd hpos (by decide)
      · cases h
        exact ⟨sameSegment_replaceData hdoff _ _, totLen_replaceData hdoff _ _⟩
    · cases h
      exact absurd hpos (by decide)
  · cases h
    exact absurd hpos (by decide)

theorem tcpDecompress_lt {n : Int} (hq : d.qlz.Sized) (h : tcpDecompress d m = (n, m')) :
    n < 2147483648 := by
  unfold tcpDecompress at h
  split at h
  · dsimp only at h
    split at h
    · split at h
      · cases h
        decide
      · rename_i bs hbs
        have hlen := hq _ _ hbs
        cases h
        omega
    · cases h
      decide
  · cases h
    decide

/-- So does `tcp_deoptimize`. -/
theorem tcpDeoptimize_grows {n : Int} (hdoff : 5 ≤ doff m)
    (h : tcpDeoptimize d x m = some (n, m', x')) (hpos : 0 ≤ n) :
    SameSegment m m' ∧ (totLen m' : Int) = (totLen m + n) % 65536 := by
  unfold tcpDeoptimize at h
  split at h
  · dsimp only at h
    split at h
    · split at h
      · cases h
      · cases h
      · cases h
      · cases h
        exact absurd hpos (by decide)
      · split at h
        · cases h
          refine ⟨sameSegment_replaceData hdoff _ _, ?_⟩
          rw [totLen_replaceData hdoff, length_slice]
          omega
        · cases h
          exact absurd hpos (by decide)
    · cases h
      exact absurd hpos (by decide)
  · cases h
    exact absurd hpos (by decide)

theorem tcpDeoptimize_lt {n : Int} (h : tcpDeoptimize d x m = some (n, m', x')) : n < 65536 := by
  have herror : ERROR < 65536 := by decide
  unfold tcpDeoptimize at h
  split at h
  · dsimp only at h
    split at h
    · have hlen := Codec.uncomp_pktlen_lt d.cfg d.H x.dedupProcessor x.shared x.dedup_buffer
        (window m (tcpdata m)) (payloadSize m)
      split at h
      · cases h
      · cases h
      · cases h
      · cases h
        decide
      · split at h
        · cases h
          omega
        · cases h
          exact herror
    · cases h
      exact herror
  · cases h
    exact herror

theorem gained_lt (hq : d.qlz.Sized) : gained d sw x oh m < 2147549184 := by
  have hsecond : ∀ m', ((tcpDeoptimize d x m').map Prod.fst).getD 0 < 65536 := by
    intro m'
    cases h : tcpDeoptimize d x m' with
    | none => exact show (0 : Int) < 65536 by decide
    | some p => exact tcpDeoptimize_lt h
  rw [gained]
  generalize hfirst : (if sw.compression = true ∧ oh.compression ≠ 0 then tcpDecompress d m
    else (0, m)) = first
  have hlt : first.1 < 2147483648 := by
    split at hfirst
    · exact tcpDecompress_lt hq hfirst
    · rw [← hfirst]
      exact show (0 : Int) < 2147483648 by decide
  have hnext := hsecond first.2
  split <;> omega

/-- The decoders have added `n` bytes to the packet, and have counted them. -/
structure Expands (r r' : Decoded) (n : Int) : Prop where
  bytesin : r'.thread.metrics.bytesin = r.thread.metrics.bytesin
  bytesout : r'.thread.metrics.bytesout = r.thread.metrics.bytesout
  header : r'.thread.metrics.diffBytesIpTcpHeader = r.thread.metrics.diffBytesIpTcpHeader
  added : r'.thread.metrics.diffBytesCompression + r'.thread.metrics.diffBytesDeduplication =
    r.thread.metrics.diffBytesCompression + r.thread.metrics.diffBytesDeduplication +
      UInt64.ofInt n
  ihl : ihl r'.packet = ihl r.packet
  doff : doff r'.packet = doff r.packet
  totLen : (totLen r'.packet : Int) = (totLen r.packet + n) % 65536
  nonneg : 0 ≤ n

theorem Expands.of_same (hmetrics : r'.thread.metrics = r.thread.metrics)
    (hpacket : r'.packet = r.packet) : Expands r r' 0 := by
  have hlt := totLen_lt r.packet
  refine ⟨by rw [hmetrics], by rw [hmetrics], by rw [hmetrics], ?_, by rw [hpacket],
    by rw [hpacket], ?_, Int.le_refl 0⟩
  · rw [hmetrics]
    exact (UInt64.add_zero _).symm
  · rw [hpacket]
    omega

theorem Expands.trans {n n' : Int} (h : Expands r r' n) (h' : Expands r' r'' n') :
    Expands r r'' (n + n') := by
  refine ⟨h'.bytesin.trans h.bytesin, h'.bytesout.trans h.bytesout, h'.header.trans h.header, ?_,
    h'.ihl.trans h.ihl, h'.doff.trans h.doff, ?_, Int.add_nonneg h.nonneg h'.nonneg⟩
  · rw [h'.added, h.added, UInt64.ofInt_add, UInt64.add_assoc]
  · have h1 := h.totLen
    have h2 := h'.totLen
    omega

theorem expands_unmarkSeq {n : Int} (h : Expands r r' n) :
    Expands r { r' with packet := unmarkSeq r'.packet } n :=
  ⟨h.bytesin, h.bytesout, h.header, h.added, (ihl_setSeq _ _).trans h.ihl,
    (doff_setSeq _ _).trans h.doff, by rw [unmarkSeq, totLen_setSeq, h.totLen], h.nonneg⟩

/-- What `decompress` does to a packet that is kept. -/
theorem decompress_expands {last : Bool} {n : Int} (hdoff : 5 ≤ doff r.packet)
    (h : decompress d last r = (n, r')) (hkept : r'.kept = true) :
    Expands r r' n ∧ r'.thread.dedup = r.thread.dedup ∧
      n = (tcpDecompress d r.packet).1 ∧
      (last = false → r'.packet = (tcpDecompress d r.packet).2) := by
  rw [decompress] at h
  generalize hrun : tcpDecompress d r.packet = p at h ⊢
  obtain ⟨redComp, m⟩ := p
  dsimp only at h
  split at h
  · cases h
    exact absurd hkept Bool.false_ne_true
  · rename_i hpos
    cases h
    obtain ⟨hsame, htot⟩ := tcpDecompress_grows hdoff hrun (Int.not_lt.mp hpos)
    refine ⟨?_, rfl, rfl, fun hlast => ?_⟩
    · have hdata : ∀ m', ihl m' = ihl m → doff m' = doff m → totLen m' = totLen m →
          ihl m' = ihl r.packet ∧ doff m' = doff r.packet ∧
            (totLen m' : Int) = (totLen r.packet + n) % 65536 := by
        intro m' h1 h2 h3
        rw [h1, h2, h3]
        exact ⟨hsame.kept.ihl, hsame.doff, htot⟩
      obtain ⟨hihl, hdoff', htot'⟩ := hdata (if last then unmarkSeq m else m)
        (by cases last <;> simp [unmarkSeq]) (by cases last <;> simp [unmarkSeq])
        (by cases last <;> simp [unmarkSeq])
      refine ⟨rfl, rfl, rfl, ?_, hihl, hdoff', htot', Int.not_lt.mp hpos⟩
      dsimp only
      grind
    · rw [hlast]
      rfl

/-- A packet that is kept after `deoptimize` was kept before. -/
theorem deoptimize_kept {redComp : Int} (h : deoptimize d k redComp r = some r')
    (hkept : r'.kept = true) : r.kept = true := by
  rw [deoptimize, Option.map_eq_some_iff] at h
  obtain ⟨⟨n, m, x⟩, -, hr'⟩ := h
  dsimp only at hr'
  split at hr'
  · cases hr'
    exact absurd hkept Bool.false_ne_true
  · cases hr'
    exact hkept

/-- What `deoptimize` does to one. -/
theorem deoptimize_expands {redComp : Int} (hdoff : 5 ≤ doff r.packet)
    (h : deoptimize d k redComp r = some r') (hkept : r'.kept = true) :
    Expands r r' (((tcpDeoptimize d r.thread.dedup r.packet).map Prod.fst).getD 0) := by
  rw [deoptimize, Option.map_eq_some_iff] at h
  obtain ⟨⟨n, m, x⟩, hrun, hr'⟩ := h
  rw [hrun]
  dsimp only at hr' ⊢
  split at hr'
  · cases hr'
    exact absurd hkept Bool.false_ne_true
  · rename_i hok
    cases hr'
    have hpos : 0 ≤ n := by
      rw [tcpDeoptimize_sign hrun] at hok
      exact Int.not_lt.mp hok
    obtain ⟨hsame, htot⟩ := tcpDeoptimize_grows hdoff hrun hpos
    have hdata : Expands r
        { r with
          thread :=
            { r.thread with metrics := countDeoptimized redComp n r.thread.metrics }
          packet := m } n := by
      refine ⟨?_, ?_, ?_, ?_, hsame.kept.ihl, hsame.doff, htot, hpos⟩ <;>
        unfold countDeoptimized <;> dsimp only <;> split <;> try rfl
      · grind
      · grind
    have hlast := expands_unmarkSeq hdata
    exact ⟨hlast.bytesin, hlast.bytesout, hlast.header, hlast.added, hlast.ihl, hlast.doff,
      hlast.totLen, hlast.nonneg⟩

/-- What `restore` does to one: the decoders run that the flags name and the switches allow. -/
theorem restore_expands (hdoff : 5 ≤ doff r.packet)
    (h : restore d sw k (decide (oh.compression ≠ 0)) (decide (oh.deduplication ≠ 0)) r = some r')
    (hkept : r'.kept = true) : Expands r r' (gained d sw r.thread.dedup oh r.packet) := by
  have hcond : (sw.compression && decide (oh.compression ≠ 0)) = true ↔
      sw.compression = true ∧ oh.compression ≠ 0 := by
    rw [Bool.and_eq_true, decide_eq_true_eq]
  -- The packet after the first decoder, and what `gained` counts for it.
  have hfirst : ∀ last p, (if (sw.compression && decide (oh.compression ≠ 0)) = true then
        decompress d last r else (0, r)) = p → p.2.kept = true →
      Expands r p.2 p.1 ∧ p.2.thread.dedup = r.thread.dedup ∧
        p.1 = (if sw.compression = true ∧ oh.compression ≠ 0 then tcpDecompress d r.packet
          else (0, r.packet)).1 ∧
        (last = false → p.2.packet = (if sw.compression = true ∧ oh.compression ≠ 0 then
          tcpDecompress d r.packet else (0, r.packet)).2) := by
    rintro last p hp hpkept
    by_cases hc : sw.compression = true ∧ oh.compression ≠ 0
    · rw [if_pos (hcond.mpr hc)] at hp
      rw [if_pos hc]
      exact decompress_expands hdoff hp hpkept
    · rw [if_neg fun h => hc (hcond.mp h)] at hp
      rw [if_neg hc, ← hp]
      exact ⟨.of_same rfl rfl, rfl, rfl, fun _ => rfl⟩
  rw [gained]
  generalize (if sw.compression = true ∧ oh.compression ≠ 0 then tcpDecompress d r.packet
    else (0, r.packet)) = first at hfirst ⊢
  rw [restore] at h
  by_cases hsw : sw.deduplication = true
  · rw [if_pos hsw] at h
    generalize hp : (if (sw.compression && decide (oh.compression ≠ 0)) = true then
      decompress d (!decide (oh.deduplication ≠ 0)) r else (0, r)) = p at h
    obtain ⟨redComp, r₁⟩ := p
    dsimp only at h
    by_cases hd : oh.deduplication ≠ 0
    · rw [if_pos (decide_eq_true hd)] at h
      rw [if_pos ⟨hsw, hd⟩]
      obtain ⟨hexp, hdedup, hn, hpacket⟩ := hfirst _ _ hp (deoptimize_kept h hkept)
      have hsecond := deoptimize_expands (by rw [hexp.doff]; exact hdoff) h hkept
      rw [hdedup, hpacket (by simp [hd])] at hsecond
      rw [← hn]
      exact hexp.trans hsecond
    · rw [if_neg (by simpa using hd)] at h
      rw [if_neg fun h => hd h.2]
      cases h
      obtain ⟨hexp, -, hn, -⟩ := hfirst _ _ hp hkept
      rw [← hn]
      exact hexp.trans (.of_same rfl rfl)
  · rw [if_neg hsw] at h
    rw [if_neg fun h => hsw h.1]
    split at h
    · rename_i hc
      cases h
      obtain ⟨hexp, -, hn, -⟩ := hfirst true (decompress d true r) (if_pos hc) hkept
      rw [← hn, Int.add_zero]
      exact hexp
    · rename_i hc
      cases h
      obtain ⟨hexp, -, hn, -⟩ := hfirst true (0, r) (if_neg hc) hkept
      rw [← hn, Int.add_zero]
      exact hexp

theorem Expands.of_start {n : Int} (hthread : r'.thread = r.thread)
    (hpacket : r'.packet = r.packet) (h : Expands r' r'' n) : Expands r r'' n := by
  have htrans := (Expands.of_same (congrArg Deoptimizer.metrics hthread) hpacket).trans h
  rw [Int.zero_add] at htrans
  exact htrans

/-- A packet of a known session that is still there behind the decoders. -/
theorem deoptimizeSegment_expands {s : Session} (hdoff : 5 ≤ doff r.packet)
    (h : deoptimizeSegment d sw k s oh r = some r') (hkept : r'.kept = true) :
    Expands r r' (if reachesDecoders d.localID k s oh r.packet then
      gained d sw r.thread.dedup oh r.packet else 0) := by
  rw [deoptimizeSegment] at h
  by_cases hdata : (isData r.packet && decide (oh.opennopID ≠ 0)) = true
  · rw [if_pos hdata] at h
    rw [reachesDecoders, hdata, Bool.true_and]
    dsimp only at h
    split at h
    · split at h
      · rename_i hdest
        rw [if_pos hdest]
        have hrestored := fun hdoff => restore_expands hdoff h hkept
        refine Expands.of_start ?_ ?_ (hrestored hdoff) <;> rfl
      · rename_i hdest
        rw [if_neg hdest]
        cases h
        exact .of_same rfl rfl
    · rename_i hflags
      have hzero : gained d sw r.thread.dedup oh r.packet = 0 := by
        simp only [Bool.or_eq_true, decide_eq_true_eq, not_or, not_not] at hflags
        rw [gained]
        simp only [hflags.1, hflags.2, ne_eq, not_true_eq_false, and_false, if_false, Int.add_zero]
      rw [hzero, ite_self]
      split at h <;> cases h <;> exact .of_same rfl rfl
  · rw [if_neg hdata] at h
    rw [reachesDecoders, Bool.eq_false_of_not_eq_true hdata, Bool.false_and,
      if_neg Bool.false_ne_true]
    cases h
    exact .of_same rfl rfl

end Decoders

/-! ### One packet -/

section Step

variable {d : Daemon} {t : Deoptimizer} {a : Arrival} {o : Deoptimized} {m : Mem}

/-- The counters of a thread that has taken a packet of `size` bytes and nothing else. -/
structure Entered (c c' : WorkerCounters) (size : Nat) : Prop where
  bytesin : c'.bytesin = c.bytesin + UInt64.ofNat size
  bytesout : c'.bytesout = c.bytesout
  header : c'.diffBytesIpTcpHeader = c.diffBytesIpTcpHeader
  compression : c'.diffBytesCompression = c.diffBytesCompression
  deduplication : c'.diffBytesDeduplication = c.diffBytesDeduplication

/-- The end of a packet that is delivered, in the numbers it is made of. -/
theorem stepBalanced_deliver {c : WorkerCounters} {k : Sockets} {r r' : Decoded} {n : Int}
    (hc : Entered c r.thread.metrics (totLen a.packet))
    (h : Expands r r' n) (hkept : r'.kept = true) :
    StepBalanced c (deliver k (getIPPlusTCPHeaderLength a.packet) r').thread.metrics ↔
      UInt64.ofNat (totLen a.packet + n.toNat) =
        UInt64.ofNat (totLen r'.packet + OPENNOP_HEADER) +
          headerDifference (getIPPlusTCPHeaderLength a.packet)
            (getIPPlusTCPHeaderLength r.packet) := by
  have hlength : getIPPlusTCPHeaderLength (checksum r'.packet) =
      getIPPlusTCPHeaderLength r.packet := by
    rw [getIPPlusTCPHeaderLength, ihl_checksum, doff_checksum, h.ihl, h.doff,
      ← getIPPlusTCPHeaderLength]
  have hadded := h.added
  rw [ofInt_of_nonneg h.nonneg, hc.compression, hc.deduplication] at hadded
  rw [deliver, StepBalanced]
  dsimp only
  rw [if_pos hkept, if_pos hkept, if_pos hkept, totLen_checksum, hlength, h.bytesin, h.bytesout,
    h.header, hc.bytesin, hc.bytesout, hc.header, UInt64.ofNat_add, UInt64.ofNat_add]
  generalize UInt64.ofNat (totLen a.packet) = T
  generalize headerDifference (getIPPlusTCPHeaderLength a.packet)
    (getIPPlusTCPHeaderLength r.packet) = D
  constructor
  · intro heq
    grind
  · intro heq
    grind

/-- A packet of a known session that is kept: its headers must not have become longer, and its
total length must not have wrapped. -/
theorem deliver_balanced_iff {c : WorkerCounters} {k : Sockets} {r r' : Decoded} {n : Int}
    (hstrip : stripHeader a.packet = some r.packet)
    (hc : Entered c r.thread.metrics (totLen a.packet))
    (h : Expands r r' n) (hsmall : n < 2147549184) (hkept : r'.kept = true) :
    StepBalanced c (deliver k (getIPPlusTCPHeaderLength a.packet) r').thread.metrics ↔
      getIPPlusTCPHeaderLength r.packet = getIPPlusTCPHeaderLength a.packet ∧
        (OPENNOP_HEADER : Int) ≤ totLen a.packet + n ∧
          totLen a.packet + n < 65536 + OPENNOP_HEADER := by
  have hlt := totLen_lt a.packet
  have hlt' := totLen_lt r'.packet
  have hpos := h.nonneg
  have htot := h.totLen
  have hlength := tcpdata_lt r.packet
  rw [stepBalanced_deliver hc h hkept]
  rw [← getIPPlusTCPHeaderLength_eq] at hlength
  obtain ⟨-, ⟨-, j, hj, hheaders, hstripped⟩ | ⟨-, hlonger⟩⟩ := stripHeader_lengths hstrip
  · by_cases hzero : j = 0
    · rw [hzero, Nat.mul_zero, Nat.add_zero] at hheaders
      rw [hheaders, headerDifference_self, UInt64.add_zero, ofNat_inj_of_lt (by omega)
        (by simp only [OPENNOP_HEADER]; omega)]
      simp only [OPENNOP_HEADER, true_and] at hstripped ⊢
      omega
    · refine iff_of_false ?_ (fun hfits => hzero (by omega))
      rw [headerDifference_of_lt (by omega) (by omega), ← UInt64.ofNat_add,
        ofNat_inj_of_lt (by omega) (by simp only [OPENNOP_HEADER]; omega)]
      simp only [OPENNOP_HEADER]
      omega
  · refine iff_of_false ?_ (fun hfits => absurd hfits.1 (by omega))
    rw [headerDifference_of_lt hlonger (by omega), ← UInt64.ofNat_add,
      ofNat_inj_of_lt (by omega) (by simp only [OPENNOP_HEADER]; omega)]
    simp only [OPENNOP_HEADER]
    omega

/-- A packet without a session: the 16 bytes of the header are counted the wrong way round. -/
theorem forward_balanced_iff {c : WorkerCounters} (hstrip : stripHeader a.packet = some m)
    (hc : Entered c t.metrics (totLen a.packet)) :
    StepBalanced c (forward (getIPPlusTCPHeaderLength a.packet) t a.sessions m).thread.metrics ↔
      Coincides a.packet := by
  have hlt := totLen_lt a.packet
  have hlt' := totLen_lt m
  have hlength := tcpdata_lt m
  rw [← getIPPlusTCPHeaderLength_eq] at hlength
  have hle : getIPPlusTCPHeaderLength a.packet ≤ getIPPlusTCPHeaderLength m := by
    obtain ⟨-, ⟨-, j, -, hheaders, -⟩ | ⟨-, hlonger⟩⟩ := stripHeader_lengths hstrip
    · omega
    · omega
  have hbooks : StepBalanced c
        (forward (getIPPlusTCPHeaderLength a.packet) t a.sessions m).thread.metrics ↔
      totLen a.packet + OPENNOP_HEADER =
        totLen m + (getIPPlusTCPHeaderLength m - getIPPlusTCPHeaderLength a.packet) := by
    rw [← ofNat_inj_of_lt (by simp only [OPENNOP_HEADER]; omega) (by omega), UInt64.ofNat_add,
      UInt64.ofNat_add, ← headerDifference_of_le hle (by omega), forward, StepBalanced]
    dsimp only
    rw [hc.bytesin, hc.bytesout, hc.header, hc.compression, hc.deduplication]
    generalize UInt64.ofNat (totLen a.packet) = T
    generalize headerDifference (getIPPlusTCPHeaderLength m)
      (getIPPlusTCPHeaderLength a.packet) = D
    constructor
    · intro heq
      grind
    · intro heq
      grind
  rw [hbooks]
  obtain ⟨-, ⟨hdoff, j, hj, hheaders, hstripped⟩ | ⟨hdoff, -⟩⟩ := stripHeader_lengths hstrip
  · refine iff_of_false ?_ ?_
    · simp only [OPENNOP_HEADER] at hstripped ⊢
      omega
    · have hdata := tcph_le_tcpdata hdoff
      simp only [TCPHDR] at hdata
      rintro (⟨-, hshort, -, -⟩ | ⟨hzero, -⟩) <;> omega
  · exact stripHeader_coincides_iff hstrip hdoff

/-- **When the books of one packet balance.** -/
theorem deoptimizationStep_balanced_iff (hq : d.qlz.Sized)
    (h : deoptimizationStep d t a = some o) (haccepted : o.verdict ≠ .NF_DROP) :
    StepBalanced t.metrics o.thread.metrics ↔ Booked d t a := by
  unfold deoptimizationStep at h
  dsimp only at h
  split at h
  · cases h
  · split at h
    · split at h
      · cases h
      · rename_i m hstrip
        have hbooked : Booked d t a ↔
            (∃ s, getsession a.sessions (sockets m) = some s ∧ Fits d t a s m) ∨
              getsession a.sessions (sockets m) = none ∧ Coincides a.packet := by
          constructor
          · rintro ⟨m', hm', hfits⟩
            rw [hstrip] at hm'
            cases hm'
            exact hfits
          · intro hfits
            exact ⟨m, hstrip, hfits⟩
        rw [hbooked]
        rw [deoptimizeStripped] at h
        dsimp only at h
        split at h
        · rename_i s hs
          rw [Option.map_eq_some_iff] at h
          obtain ⟨r, hr, rfl⟩ := h
          have hkept : r.kept = true := by
            by_contra hdropped
            rw [deliver] at haccepted
            dsimp only at haccepted
            rw [if_neg hdropped] at haccepted
            exact haccepted rfl
          have hexp := fun hdoff => deoptimizeSegment_expands hdoff hr hkept
          have hgain := hexp (stripHeader_lengths hstrip).1
          have hsmall : gain d t a s m < 2147549184 := by
            rw [gain]
            dsimp only
            split
            · exact gained_lt hq
            · decide
          refine (deliver_balanced_iff (c := t.metrics) hstrip ⟨rfl, rfl, rfl, rfl, rfl⟩ hgain hsmall
            hkept).trans ?_
          constructor
          · rintro ⟨hheaders, hlower, hupper⟩
            exact Or.inl ⟨s, hs, hheaders, hlower, hupper⟩
          · rintro (⟨s', hs', hfits⟩ | ⟨hnone, -⟩)
            · rw [hs] at hs'
              cases hs'
              exact ⟨hfits.headers, hfits.lower, hfits.upper⟩
            · rw [hs] at hnone
              cases hnone
        · rename_i hs
          cases h
          refine (forward_balanced_iff hstrip ?_).trans ?_
          · exact ⟨rfl, rfl, rfl, rfl, rfl⟩
          · constructor
            · exact fun hcoincides => Or.inr ⟨hs, hcoincides⟩
            · rintro (⟨s, hs', -⟩ | ⟨-, hcoincides⟩)
              · rw [hs] at hs'
                cases hs'
              · exact hcoincides
    · cases h
      exact absurd rfl haccepted

/-- **When the books of the deoptimization thread balance**: over any run, for every packet it
accepts. -/
theorem deoptimizationThread_balanced_iff (hq : d.qlz.Sized) (t : Deoptimizer)
    (as : List Arrival) :
    ∀ step ∈ deoptimizationThread d t as, ∀ o, step.2 = some o → o.verdict ≠ .NF_DROP →
      (StepBalanced step.1.1.metrics o.thread.metrics ↔ Booked d step.1.1 step.1.2) := by
  intro step hstep o ho haccepted
  rw [deoptimizationThread_step hstep] at ho
  exact deoptimizationStep_balanced_iff hq ho haccepted

open Solowan.Codec in
/-- A header, and behind it a reference to the packet in `warmDictionaries`. -/
def referenceIn : Mem :=
  ofList (taggedSegment 1 2 0x10 1000 { synHeader 88 0 with deduplication := 1 }
    (encode 7 [{ fp := 65917187634061056
                 hash := 7
                 left := 0
                 right := 63
                 lit := []
                 body := List.replicate 64 7 }] []))

/-- The thread finds the session of the packet, and the packet that it refers to. -/
def referenceArrival : Arrival :=
  ⟨referenceIn, tableOf [established referenceIn 77 77],
    ⟨warmDictionaries.comp, warmDictionaries.comp⟩, ⟨false, true, false⟩⟩

/-- A packet of a known session, of which the decoder makes 64 bytes out of 24. -/
theorem deoptimizationThread_balanced_reference :
    ∃ o, deoptimizationThread sharedBox newDeoptimizer [referenceArrival] =
        [((newDeoptimizer, referenceArrival), some o)] ∧
      o.verdict ≠ .NF_DROP ∧
      (o.thread.metrics.bytesin, o.thread.metrics.bytesout,
        o.thread.metrics.diffBytesDeduplication, o.thread.metrics.diffBytesIpTcpHeader) =
          (84, 108, 40, 16) ∧
      StepBalanced newDeoptimizer.metrics o.thread.metrics := by
  have hrun : (deoptimizationStep sharedBox newDeoptimizer referenceArrival).map (fun o =>
        (decide (o.verdict = .NF_DROP), o.thread.metrics.bytesin, o.thread.metrics.bytesout,
          o.thread.metrics.diffBytesDeduplication, o.thread.metrics.diffBytesIpTcpHeader)) =
      some (false, 84, 108, 40, 16) := by decide +kernel
  have hstrip : (stripHeader referenceArrival.packet).bind (fun m =>
        (getsession referenceArrival.sessions (sockets m)).map fun s =>
          (gain sharedBox newDeoptimizer referenceArrival s m, getIPPlusTCPHeaderLength m)) =
      some (40, getIPPlusTCPHeaderLength referenceArrival.packet) := by decide +kernel
  have htot : totLen referenceArrival.packet = 84 := by decide
  rw [Option.map_eq_some_iff] at hrun
  obtain ⟨o, ho, hvalues⟩ := hrun
  simp only [Prod.mk.injEq, decide_eq_false_iff_not] at hvalues
  rw [Option.bind_eq_some_iff] at hstrip
  obtain ⟨m, hm, hstrip⟩ := hstrip
  rw [Option.map_eq_some_iff] at hstrip
  obtain ⟨s, hs, hlengths⟩ := hstrip
  obtain ⟨hgain, hheaders⟩ := Prod.mk.inj hlengths
  have hthread : deoptimizationThread sharedBox newDeoptimizer [referenceArrival] =
      [((newDeoptimizer, referenceArrival), some o)] := by
    simp [deoptimizationThread, ho]
  have hsized : QuickLZ.Sized sharedBox.qlz := fun _ _ hnone => absurd hnone (by simp [sharedBox])
  refine ⟨o, hthread, hvalues.1, by simp [hvalues.2], ?_⟩
  refine (deoptimizationThread_balanced_iff hsized newDeoptimizer [referenceArrival]
    ((newDeoptimizer, referenceArrival), some o) ?_ o rfl hvalues.1).mpr ?_
  · rw [hthread]
    exact List.mem_singleton_self _
  · refine ⟨m, hm, Or.inl ⟨s, hs, hheaders, ?_, ?_⟩⟩
    · rw [htot, hgain]
      decide
    · rw [htot, hgain]
      decide

/-- One byte of data behind a header, to the second host. -/
def segmentIn : Mem := ofList (taggedSegment 1 2 0x10 1000 (synHeader 88 0) [9])

/-- **A packet without a session is counted 32 bytes short**: the 16 bytes of its header are
subtracted from the counter they should be added to. -/
theorem unknown_session_unbalanced :
    ∃ o, deoptimizationThread sharedBox newDeoptimizer [takenWith segmentIn (tableOf [])] =
        [((newDeoptimizer, takenWith segmentIn (tableOf [])), some o)] ∧
      o.verdict = .NF_ACCEPT none ∧
      (o.thread.metrics.bytesin, o.thread.metrics.bytesout,
        o.thread.metrics.diffBytesIpTcpHeader) = (61, 45, 18446744073709551600) ∧
      ¬ StepBalanced newDeoptimizer.metrics o.thread.metrics := by
  have hrun : (deoptimizationStep sharedBox newDeoptimizer
      (takenWith segmentIn (tableOf []))).map (fun o =>
        (decide (o.verdict = .NF_ACCEPT none), (o.thread.metrics.bytesin, o.thread.metrics.bytesout,
          o.thread.metrics.diffBytesIpTcpHeader),
          decide (StepBalanced newDeoptimizer.metrics o.thread.metrics))) =
      some (true, (61, 45, 18446744073709551600), false) := by decide
  rw [Option.map_eq_some_iff] at hrun
  obtain ⟨o, ho, hvalues⟩ := hrun
  simp only [Prod.mk.injEq, decide_eq_true_eq, decide_eq_false_iff_not] at hvalues
  refine ⟨o, ?_, hvalues.1, ?_, hvalues.2.2⟩
  · simp [deoptimizationThread, ho]
  · simp [hvalues.2.1]

end Step

end Solowan.Worker
