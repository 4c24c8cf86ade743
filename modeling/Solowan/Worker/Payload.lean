/-
Transforming the TCP data of a packet (`opennopd/deduplication.c`, `opennopd/compression.c`).

The six functions share one shape: find the TCP data, hand it to the deduplicator or to
QuickLZ, and put the result back with `tot_len` adjusted. All but `tcp_decompress` take the
length of the data from `payloadSize`, which is the difference of the lengths in the headers
only where that is not negative.

QuickLZ is a parameter: `qlz_compress` is run on a fresh state every time, so that its
output is a function of its input, and `qlz_decompress` reads as much of the memory behind
the pointer it is given as it likes.
-/

import Solowan.Net.Checksum
import Solowan.Codec.Dedup
import Solowan.Codec.Uncomp

namespace Solowan.Worker

open Solowan.Memory Solowan.Dictionary Solowan.Codec Solowan.Net

/-- The two functions of QuickLZ. `decompress` is `none` when the size `qlz_decompress`
returns is negative as an `int`. -/
structure QuickLZ where
  compress : List UInt8 → List UInt8
  decompress : Mem → Option (List UInt8)

/-- What is fixed while the daemon runs. It does not start without an identity. -/
structure Daemon where
  cfg : Config
  H : PacketHash
  qlz : QuickLZ
  localID : UInt32
  identified : localID ≠ 0

/-- What the CLI can switch: `compression`, `deduplication`, `packetPipeline`. -/
structure Switches where
  compression : Bool
  deduplication : Bool
  packetPipeline : Bool
  deriving DecidableEq, Repr

/-- What a worker thread deduplicates with: its own dictionary, those all workers share,
and its buffer. -/
structure Dedup where
  dedupProcessor : Deduplicator
  shared : SharedDictionaries
  dedup_buffer : Mem

def OK : Int := 1

def ERROR : Int := -1

def HASH_NOT_FOUND : Int := -2

/-! ### The functions -/

/-- Put `bs` in the place of the `oldsize` bytes of TCP data. -/
def replaceData (m : Mem) (bs : List UInt8) (oldsize : Int) : Mem :=
  addTotLen (memcpy m (tcpdata m) bs) (bs.length - oldsize)

/-- `tcp_optimize`: the bytes saved, the packet and the dictionaries. It does not return
when an assertion of `dedup` fails. -/
def tcpOptimize (d : Daemon) (deduplication : Bool) (x : Dedup) (m : Mem) :
    Option (Nat × Mem × Dedup) :=
  if deduplication = true ∧ protocol m = IPPROTO_TCP then
    let oldsize := payloadSize m
    if oldsize > 0 then
      (dedup d.cfg d.H x.dedupProcessor x.shared (payload m) x.dedup_buffer).map fun o =>
        let newsize := o.optlen
        let x' : Dedup := ⟨o.pd, o.g, o.optpkt⟩
        if newsize < oldsize then
          (oldsize - newsize, replaceData m (slice o.optpkt 0 newsize) oldsize, x')
        else (0, m, x')
    else some (0, m, x)
  else some (0, m, x)

/-- `tcp_deoptimize`: the bytes gained or an error code. Any error of `uncomp` but a missing
fingerprint leaves the packet without its data. -/
def tcpDeoptimize (d : Daemon) (x : Dedup) (m : Mem) : Option (Int × Mem × Dedup) :=
  if protocol m = IPPROTO_TCP then
    let oldsize := payloadSize m
    if oldsize > 0 then
      let r := uncomp d.cfg d.H x.dedupProcessor x.shared x.dedup_buffer (window m (tcpdata m))
        oldsize
      let x' : Dedup := ⟨r.pd, r.g, r.packet⟩
      match r.exit with
      | .aborted => none
      | .overrun => none
      | .looping => none
      | .fpNotFound _ _ => some (HASH_NOT_FOUND, m, x')
      | _ =>
        some (if r.pktlen ≥ oldsize then ((r.pktlen - oldsize : Nat) : Int) else ERROR,
          replaceData m (slice r.packet 0 r.pktlen) oldsize, x')
    else some (ERROR, m, x)
  else some (ERROR, m, x)

/-- `tcp_cache_deoptim`. -/
def tcpCacheDeoptim (d : Daemon) (x : Dedup) (m : Mem) : Int × Dedup :=
  if protocol m = IPPROTO_TCP then
    if payloadSize m > 0 then
      let updated := updateCaches d.cfg d.H x.dedupProcessor x.shared (payload m)
      (OK, { x with dedupProcessor := updated.1, shared := updated.2 })
    else (ERROR, x)
  else (ERROR, x)

/-- `tcp_cache_optim`. -/
def tcpCacheOptim (d : Daemon) (x : Dedup) (m : Mem) : Option (Int × Dedup) :=
  if protocol m = IPPROTO_TCP then
    if payloadSize m > 0 then
      (putInCache d.cfg d.H x.dedupProcessor x.shared (payload m)).map fun o =>
        (OK, { x with dedupProcessor := o.pd, shared := o.g })
    else some (ERROR, x)
  else some (ERROR, x)

/-- `tcp_compress`: the bytes saved and the packet. The size QuickLZ returns is cut to a
`__u16`. -/
def tcpCompress (d : Daemon) (m : Mem) : Nat × Mem :=
  if protocol m = IPPROTO_TCP then
    let oldsize := payloadSize m
    if oldsize > 0 then
      let lzbuffer := d.qlz.compress (payload m)
      let newsize := lzbuffer.length % 65536
      if newsize < oldsize then
        (oldsize - newsize, replaceData m (lzbuffer.take newsize) oldsize)
      else (0, m)
    else (0, m)
  else (0, m)

/-- `tcp_decompress`: the bytes gained or -1. Its lengths are plain `int`s. -/
def tcpDecompress (d : Daemon) (m : Mem) : Int × Mem :=
  if protocol m = IPPROTO_TCP then
    let oldsize : Int := (totLen m : Int) - ihl m * 4 - doff m * 4
    if oldsize > 0 then
      match d.qlz.decompress (window m (tcpdata m)) with
      | none => (-1, m)
      | some lzbuffer => (lzbuffer.length - oldsize, replaceData m lzbuffer oldsize)
    else (-1, m)
  else (-1, m)

/-! ### What the functions do to a packet -/

section Packet

variable {d : Daemon} {x x' : Dedup} {m m' : Mem}

/-- New data leaves the headers alone, `tot_len` apart. -/
theorem sameSegment_replaceData (hdoff : 5 ≤ doff m) (bs : List UInt8) (oldsize : Int) :
    SameSegment m (replaceData m bs oldsize) :=
  (sameHeaders_memcpy bs (tcph_le_tcpdata hdoff)).toSameSegment.trans (sameSegment_addTotLen _ _)

/-- The total length follows the data. -/
theorem totLen_replaceData (hdoff : 5 ≤ doff m) (bs : List UInt8) (oldsize : Int) :
    (totLen (replaceData m bs oldsize) : Int) = (totLen m + (bs.length - oldsize)) % 65536 := by
  rw [replaceData, addTotLen, totLen_setTotLen,
    (sameHeaders_memcpy bs (tcph_le_tcpdata hdoff)).totLen]
  omega

/-- The length of the data follows it. -/
theorem payloadSize_replaceData (hdoff : 5 ≤ doff m) {bs : List UInt8} (hbs : bs.length < 65536) :
    payloadSize (replaceData m bs (payloadSize m)) = bs.length := by
  have hseg := sameSegment_replaceData hdoff bs (payloadSize m)
  have htot := totLen_replaceData hdoff bs (payloadSize m)
  have hold : (payloadSize m : Int) = (((totLen m : Int) - ihl m * 4) % 65536 - doff m * 4) % 65536 := by
    rw [payloadSize, tcpLen]
    omega
  have hnew : (payloadSize (replaceData m bs (payloadSize m)) : Int) =
      (((totLen (replaceData m bs (payloadSize m)) : Int) - ihl m * 4) % 65536 - doff m * 4) %
        65536 := by
    rw [payloadSize, tcpLen, hseg.kept.ihl, hseg.doff]
    omega
  omega

/-- `tcp_optimize` saves something exactly when the data has become shorter. -/
theorem tcpOptimize_shrinks {b : Bool} {n : Nat} (hdoff : 5 ≤ doff m)
    (h : tcpOptimize d b x m = some (n, m', x')) :
    SameSegment m m' ∧ (0 < n ↔ payloadSize m' < payloadSize m) := by
  have hlt : payloadSize m < 65536 := by
    unfold payloadSize
    omega
  unfold tcpOptimize at h
  split at h
  · dsimp only at h
    split at h
    · rw [Option.map_eq_some_iff] at h
      obtain ⟨o, -, ho⟩ := h
      split at ho
      · rename_i hshort
        cases ho
        refine ⟨sameSegment_replaceData hdoff _ _, ?_⟩
        rw [payloadSize_replaceData hdoff (by rw [length_slice]; omega), length_slice]
        omega
      · cases ho
        exact ⟨.refl m, by omega⟩
    · cases h
      exact ⟨.refl m, by omega⟩
  · cases h
    exact ⟨.refl m, by omega⟩

/-- So does `tcp_compress`. -/
theorem tcpCompress_shrinks (d : Daemon) (hdoff : 5 ≤ doff m) :
    SameSegment m (tcpCompress d m).2 ∧
      (0 < (tcpCompress d m).1 ↔ payloadSize (tcpCompress d m).2 < payloadSize m) := by
  have hlt : payloadSize m < 65536 := by
    unfold payloadSize
    omega
  unfold tcpCompress
  dsimp only
  split
  · split
    · split
      · rename_i hshort
        have hlen : ((d.qlz.compress (payload m)).take
            ((d.qlz.compress (payload m)).length % 65536)).length =
              (d.qlz.compress (payload m)).length % 65536 :=
          List.length_take_of_le (Nat.mod_le _ _)
        refine ⟨sameSegment_replaceData hdoff _ _, ?_⟩
        rw [payloadSize_replaceData hdoff (by omega), hlen]
        omega
      · exact ⟨.refl m, by simp⟩
    · exact ⟨.refl m, by simp⟩
  · exact ⟨.refl m, by simp⟩

/-- The packet has become `n` bytes shorter, all of them bytes of its data. -/
structure Shortened (m m' : Mem) (n : Nat) : Prop where
  same : SameSegment m m'
  totLen : totLen m' + n = totLen m
  consistent : Consistent m'

theorem Shortened.refl (hcons : Consistent m) : Shortened m m 0 :=
  ⟨.refl m, Nat.add_zero _, hcons⟩

theorem shortened_replaceData (hdoff : 5 ≤ doff m) (hcons : Consistent m) {bs : List UInt8}
    (hbs : bs.length ≤ payloadSize m) :
    Shortened m (replaceData m bs (payloadSize m)) (payloadSize m - bs.length) := by
  have hlt := totLen_lt m
  have hsame := sameSegment_replaceData hdoff bs (payloadSize m)
  have htot := totLen_replaceData hdoff bs (payloadSize m)
  have hsize := payloadSize_of_consistent hcons
  unfold Consistent at hcons
  refine ⟨hsame, by omega, ?_⟩
  unfold Consistent
  rw [hsame.kept.ihl, hsame.doff]
  omega

/-- What `tcp_optimize` reports is by how much the packet has become shorter. -/
theorem tcpOptimize_shortened {b : Bool} {n : Nat} (hdoff : 5 ≤ doff m) (hcons : Consistent m)
    (h : tcpOptimize d b x m = some (n, m', x')) : Shortened m m' n := by
  unfold tcpOptimize at h
  split at h
  · dsimp only at h
    split at h
    · rw [Option.map_eq_some_iff] at h
      obtain ⟨o, -, ho⟩ := h
      split at ho
      · rename_i hshort
        cases ho
        have hdata := shortened_replaceData hdoff hcons
          (show (slice o.optpkt 0 o.optlen).length ≤ payloadSize m by
            rw [length_slice]
            exact Nat.le_of_lt hshort)
        rw [length_slice] at hdata
        exact hdata
      · cases ho
        exact .refl hcons
    · cases h
      exact .refl hcons
  · cases h
    exact .refl hcons

/-- So is what `tcp_compress` reports. -/
theorem tcpCompress_shortened (d : Daemon) (hdoff : 5 ≤ doff m) (hcons : Consistent m) :
    Shortened m (tcpCompress d m).2 (tcpCompress d m).1 := by
  unfold tcpCompress
  dsimp only
  split
  · split
    · split
      · rename_i hshort
        have hlen : ((d.qlz.compress (payload m)).take
            ((d.qlz.compress (payload m)).length % 65536)).length =
              (d.qlz.compress (payload m)).length % 65536 :=
          List.length_take_of_le (Nat.mod_le _ _)
        have hdata := shortened_replaceData hdoff hcons (hlen.trans_le (Nat.le_of_lt hshort))
        rw [hlen] at hdata
        exact hdata
      · exact .refl hcons
    · exact .refl hcons
  · exact .refl hcons

end Packet

end Solowan.Worker
