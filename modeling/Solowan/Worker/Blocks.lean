/-
QuickLZ as the threads call it.

`tcp_compress` and `tcp_decompress` clear the states they hand to QuickLZ; the buffer `lzbuffer`
of the thread is as the last call has left it. What comes out is a function of the data alone, and
what the threads rely on in QuickLZ is a fact about its source.

* `quickLz_lawful`: blocks are restored, and grow by less than the 400 bytes that the buffers of
  the threads leave for it.
* `tcpCompressIn_eq`: what the function does to a packet does not depend on its buffer.
* `tcpDecompressIn_undoes`: a compressed packet is restored in any buffers.
-/

import Solowan.QuickLz.Leftovers
import Solowan.Worker.Receiving

namespace Solowan.Worker

open Solowan.Memory Solowan.Dictionary Solowan.Net Solowan.QuickLz

/-- The state after `memset`. -/
def clearedState : StateCompress := ⟨fun _ => 0, fun _ => 0⟩

/-- `qlz_compress` and `qlz_decompress`. The second is `none` too where it has not returned in
`fuel` rounds; a block from the first takes no more rounds than it has bytes. -/
def quickLz (fuel maxPktSize : Nat) : QuickLZ where
  compress bs :=
    let out := qlzCompress (ofList bs) (fun _ => 0) bs.length clearedState
    slice out.2.1 0 out.1
  decompress m :=
    (qlzDecompress fuel maxPktSize m (fun _ => 0) (fun _ => 0)).bind fun out =>
      if out.1 < 0 then none else some (slice out.2.1 0 out.1.toNat)

/-- The real QuickLZ keeps the law. -/
theorem quickLz_lawful {fuel maxPktSize : Nat} (hfuel : maxPktSize < fuel)
    (hmax : maxPktSize ≤ 0xffffffff - 400) : (quickLz fuel maxPktSize).Lawful maxPktSize where
  roundTrip bs m hne hlen hm := by
    have hpos : 0 < bs.length := List.length_pos_iff.mpr hne
    simp only [quickLz, length_slice] at hm
    obtain ⟨out, offset, hdec, hout, -⟩ := decompress_block hpos (Nat.le_trans hlen hmax) hlen
      (Nat.lt_of_le_of_lt hlen hfuel) hm (fun _ => 0) (fun _ => 0)
    simp only [quickLz, hdec, Option.bind_some]
    rw [if_neg (by omega), Int.toNat_natCast, hout, slice_ofList (by omega), List.drop_zero,
      List.take_length]
  growth bs hlen := by
    simp only [quickLz, length_slice]
    rcases Nat.eq_zero_or_pos bs.length with hzero | hpos
    · rw [hzero, qlzCompress, if_pos (Or.inl rfl)]
      exact Nat.zero_le _
    · obtain ⟨-, hle, -, -⟩ := compress_length hpos (Nat.le_trans hlen hmax) (ofList bs) (fun _ => 0)
        clearedState
      omega

/-! ### The two functions with their buffers -/

/-- `tcp_compress` with the buffer it is given: the bytes saved, the packet and the buffer. -/
def tcpCompressIn (lzbuffer m : Mem) : Nat × Mem × Mem :=
  if protocol m = IPPROTO_TCP then
    let oldsize := payloadSize m
    if oldsize > 0 then
      let out := qlzCompress (window m (tcpdata m)) lzbuffer oldsize clearedState
      let newsize := out.1 % 65536
      if newsize < oldsize then
        (oldsize - newsize, replaceData m (slice out.2.1 0 newsize) oldsize, out.2.1)
      else (0, m, out.2.1)
    else (0, m, lzbuffer)
  else (0, m, lzbuffer)

/-- `tcp_decompress` with the buffer it is given: the bytes gained or -1, the packet and the buffer.
It does not return in `fuel` rounds where it is `none`. -/
def tcpDecompressIn (fuel maxPktSize : Nat) (lzbuffer m : Mem) : Option (Int × Mem × Mem) :=
  if protocol m = IPPROTO_TCP then
    let oldsize : Int := (totLen m : Int) - ihl m * 4 - doff m * 4
    if oldsize > 0 then
      (qlzDecompress fuel maxPktSize (window m (tcpdata m)) lzbuffer (fun _ => 0)).map fun out =>
        if out.1 < 0 then (-1, m, out.2.1)
        else (out.1 - oldsize, replaceData m (slice out.2.1 0 out.1.toNat) oldsize, out.2.1)
    else some (-1, m, lzbuffer)
  else some (-1, m, lzbuffer)

section Buffers

variable {d : Daemon} {fuel maxPktSize n : Nat} {m lzbuffer : Mem} {f : Flow} {sq : UInt32}
  {area data : List UInt8}

/-- What comes out does not depend on the buffer. -/
theorem tcpCompressIn_eq (hq : d.qlz = quickLz fuel maxPktSize) (lzbuffer m : Mem) :
    (tcpCompressIn lzbuffer m).1 = (tcpCompress d m).1 ∧
      (tcpCompressIn lzbuffer m).2.1 = (tcpCompress d m).2 := by
  by_cases htcp : protocol m = IPPROTO_TCP
  · by_cases hpos : payloadSize m > 0
    · have hlen : (payload m).length = payloadSize m := length_slice _ _ _
      have hsmall : payloadSize m < 65536 := by
        unfold payloadSize
        omega
      have hcompress : d.qlz.compress (payload m) =
          slice (qlzCompress (ofList (payload m)) (fun _ => 0) (payloadSize m) clearedState).2.1 0
            (qlzCompress (ofList (payload m)) (fun _ => 0) (payloadSize m) clearedState).1 := by
        rw [hq, quickLz]
        dsimp only
        rw [hlen]
      have hsource : slice (window m (tcpdata m)) 0 (payloadSize m) =
          slice (ofList (payload m)) 0 (payloadSize m) := by
        rw [slice_window, Nat.add_zero, slice_ofList (by omega), List.drop_zero, ← hlen,
          List.take_length, hlen]
        rfl
      obtain ⟨hr, hblock⟩ := compress_independent (ofList (payload m)) (window m (tcpdata m))
        (fun _ => 0) lzbuffer (payloadSize m) clearedState clearedState hsource
      obtain ⟨-, hle, -, -⟩ := compress_length hpos (by omega) (ofList (payload m)) (fun _ => 0)
        clearedState
      have hlong := fun hlt => lt_compress_of_lt hpos hlt (ofList (payload m)) (fun _ => 0)
        clearedState
      simp only [tcpCompressIn, tcpCompress, if_pos htcp, if_pos hpos, hcompress, length_slice, hr]
      generalize qlzCompress (window m (tcpdata m)) lzbuffer (payloadSize m) clearedState = out at *
      generalize qlzCompress (ofList (payload m)) (fun _ => 0) (payloadSize m) clearedState = block at *
      rw [slice_take _ _ (Nat.mod_le _ _)]
      by_cases hshort : block.1 % 65536 < payloadSize m
      · -- From five bytes on the blocks are the same, and a shorter one is not used.
        have hfive : 5 ≤ payloadSize m := by
          by_contra hlt
          have := hlong (by omega)
          omega
        have hsame : slice out.2.1 0 (block.1 % 65536) = slice block.2.1 0 (block.1 % 65536) := by
          rw [← slice_take _ _ (Nat.mod_le block.1 65536), hblock hfive,
            slice_take _ _ (Nat.mod_le block.1 65536)]
        simp only [if_pos hshort, hsame, and_self]
      · simp only [if_neg hshort, and_self]
    · simp only [tcpCompressIn, tcpCompress, if_pos htcp, if_neg hpos, and_self]
  · simp only [tcpCompressIn, tcpCompress, if_neg htcp, and_self]

/-- The buffer is as large as the packets and what QuickLZ may add to them. -/
theorem tcpCompressIn_confined (hfits : payloadSize m ≤ BUFSIZE) (lzbuffer : Mem) :
    ∀ i, BUFSIZE + 400 ≤ i → (tcpCompressIn lzbuffer m).2.2 i = lzbuffer i := by
  intro i hi
  unfold tcpCompressIn
  split
  · dsimp only
    split
    · rename_i hpos
      obtain ⟨-, -, -, hout⟩ := compress_length hpos (by simp only [BUFSIZE] at hfits; omega)
        (window m (tcpdata m)) lzbuffer clearedState
      have hsame := hout i (by omega)
      split
      · exact hsame
      · exact hsame
    · rfl
  · rfl

/-- **A compressed packet is restored in any buffers.** When `tcp_compress` has made a segment
shorter, `tcp_decompress` on any memory that begins with the bytes sent gives the segment back and
returns what was saved. Neither writes behind the end of its `lzbuffer`. -/
theorem tcpDecompressIn_undoes (hq : d.qlz = quickLz fuel d.cfg.MAXPKTSIZE)
    (hmax : d.cfg.MAXPKTSIZE < 65536) (hfuel : d.cfg.MAXPKTSIZE < fuel)
    (h : Segment m n f sq area data) (htcp : f.protocol = IPPROTO_TCP) (hfits : totLen m ≤ BUFSIZE)
    (hsize : data.length ≤ d.cfg.MAXPKTSIZE) (lzbuffer : Mem)
    (hsaved : 0 < (tcpCompressIn lzbuffer m).1) :
    (∀ i, BUFSIZE + 400 ≤ i → (tcpCompressIn lzbuffer m).2.2 i = lzbuffer i) ∧
      ∀ m', slice m' 0 (totLen (tcpCompressIn lzbuffer m).2.1) =
          wholePacket (tcpCompressIn lzbuffer m).2.1 →
        ∀ lzbuffer', ∃ m'' lzbuffer'',
          tcpDecompressIn fuel d.cfg.MAXPKTSIZE lzbuffer' m' =
              some (((tcpCompressIn lzbuffer m).1 : Int), m'', lzbuffer'') ∧
            Segment m'' n f sq area data ∧ ∀ i, BUFSIZE + 400 ≤ i → lzbuffer'' i = lzbuffer' i := by
  have hlen := h.length
  have hbuf : totLen m ≤ 2048 := hfits
  have hlaw := quickLz_lawful hfuel (by omega)
  rw [← hq] at hlaw
  have hgrowth := hlaw.growth data hsize
  refine ⟨tcpCompressIn_confined (by rw [h.payloadSize]; omega) lzbuffer, ?_⟩
  intro m' hm' lzbuffer'
  obtain ⟨hsame, hpacket⟩ := tcpCompressIn_eq hq lzbuffer m
  rw [hsame] at hsaved ⊢
  rw [hpacket] at hm'
  obtain ⟨data', compressed, hcompresses, hseg, hiff⟩ := tcpCompress_segment (d := d) h htcp (by omega)
  have hyes := hiff.mpr hsaved
  subst hyes
  obtain ⟨rfl, hshort⟩ := hcompresses
  have hpos : 0 < data.length := by omega
  have hsaves : (tcpCompress d m).1 = data.length - (d.qlz.compress data).length := by
    have hproto : protocol m = IPPROTO_TCP := (segment_protocol h).trans htcp
    rw [tcpCompress, if_pos hproto]
    dsimp only
    rw [h.payloadSize, h.payload, Nat.mod_eq_of_lt (by omega), if_pos hpos, if_pos hshort]
  have hreceived := hseg.of_slice hm'
  have hblock : slice (window m' (tcpdata m')) 0 (d.qlz.compress data).length = d.qlz.compress data := by
    rw [slice_window, Nat.add_zero]
    exact hreceived.data
  rw [hq] at hblock
  simp only [quickLz, length_slice] at hblock
  obtain ⟨out, offset, hdec, hout, hkeep⟩ := decompress_block hpos (by omega) hsize
    (Nat.lt_of_le_of_lt hsize hfuel) hblock lzbuffer' (fun _ => 0)
  have hproto : protocol m' = IPPROTO_TCP := (segment_protocol hreceived).trans htcp
  have hne : 0 < (d.qlz.compress data).length :=
    List.length_pos_iff.mpr (hlaw.compress_ne_nil (List.length_pos_iff.mp hpos) hsize)
  have hold : (totLen m' : Int) - ihl m' * 4 - doff m' * 4 = (d.qlz.compress data).length := by
    have hlen' := hreceived.length
    have hdoff := hreceived.doff
    rw [hreceived.ihl]
    omega
  have hdata : slice out 0 data.length = data := by
    rw [hout, slice_ofList (by omega), List.drop_zero, List.take_length]
  refine ⟨replaceData m' data (d.qlz.compress data).length, out, ?_,
    segment_replaceData hreceived rfl (by omega), fun i hi => hkeep i (by omega)⟩
  rw [tcpDecompressIn, if_pos hproto]
  dsimp only
  rw [hold, if_pos (by omega), hdec, Option.map_some, if_neg (by omega), Int.toNat_natCast, hdata, hsaves,
    Nat.cast_sub (Nat.le_of_lt hshort)]

end Buffers

/-- A box with dictionaries for each worker and the real QuickLZ. -/
def quickLzBox (localID : UInt32) (h : localID ≠ 0) : Daemon :=
  ⟨Codec.smallBox false, Codec.firstByte, quickLz 2000 1500, localID, h⟩

/-- A run of one byte is sent as four of them and a copy, whatever is in the buffers. -/
theorem tcpDecompressIn_undoes_run :
    0 < (tcpCompressIn (fun _ => 255) segmentOut).1 ∧
      ∃ m lzbuffer, tcpDecompressIn 2000 1500 (fun _ => 1)
          (tcpCompressIn (fun _ => 255) segmentOut).2.1 =
            some (((tcpCompressIn (fun _ => 255) segmentOut).1 : Int), m, lzbuffer) ∧
        Segment m 5 (flow segmentOut) 1000 [] (List.replicate 64 7) := by
  have hsaved : 0 < (tcpCompressIn (fun _ => 255) segmentOut).1 := by decide +kernel
  obtain ⟨-, hrestores⟩ := tcpDecompressIn_undoes (d := quickLzBox 77 (by decide)) rfl
    (by decide) (by decide) segmentOut_taggable.segment (by decide) (by decide)
    (by decide) (fun _ => 255) hsaved
  obtain ⟨m, lzbuffer, hdec, hseg, -⟩ := hrestores _ rfl fun _ => 1
  exact ⟨hsaved, m, lzbuffer, hdec, hseg⟩

end Solowan.Worker
