/-
The optimization thread on a well-formed segment.

On a segment (`Net.Segment`) each function that transforms the data, and the thread as a
whole, is described by what it does to the data alone. The option that announces the
accelerator, the marked sequence number and the header are all in the description of the
packet that is sent (`optimizationStep_sent`).
-/

import Solowan.Codec.RoundTrip
import Solowan.Net.Segment
import Solowan.Worker.Optimization

namespace Solowan.Worker

open Solowan.Memory Solowan.Dictionary Solowan.Net Solowan.Sessions

/-! ### The data of a segment -/

section Data

variable {d : Daemon} {x : Dedup} {m : Mem} {n : Nat} {f : Flow} {sq : UInt32}
  {area data : List UInt8}

theorem segment_protocol (h : Segment m n f sq area data) : protocol m = f.protocol :=
  congrArg Flow.protocol h.flow

theorem segment_saddr (h : Segment m n f sq area data) : saddr m = f.saddr :=
  congrArg Flow.saddr h.flow

/-- The sockets of a packet are those of its connection. -/
theorem segment_sockets {m' : Mem} {n' : Nat} {sq' : UInt32} {area' data' : List UInt8}
    (h : Segment m n f sq area data) (h' : Segment m' n' f sq' area' data') :
    sockets m' = sockets m :=
  sockets_of_flow (h'.flow.trans h.flow.symm)

theorem segment_flags {m' : Mem} {n' : Nat} {sq' : UInt32} {area' data' : List UInt8}
    (h : Segment m n f sq area data) (h' : Segment m' n' f sq' area' data') :
    flags m' = flags m :=
  congrArg Flow.flags (h'.flow.trans h.flow.symm)

theorem segment_replaceData (h : Segment m n f sq area data) {bs : List UInt8} {k : Int}
    (hk : k = data.length) (hfit : 4 * n + TCPHDR + area.length + bs.length < 65536) :
    Segment (replaceData m bs k) n f sq area bs :=
  h.replace (by rw [hk]) hfit

theorem segment_markSeq (h : Segment m n f sq area data) (transformed : Bool) :
    Segment (markSeq m transformed) n f (if transformed then sq + 8000 else sq) area data := by
  cases transformed with
  | false => exact h
  | true =>
    rw [markSeq, if_pos rfl, if_pos rfl, h.seq]
    exact h.setSeq (sq + 8000)

/-- The header in front of the data. -/
theorem segment_addHeader (h : Segment m n f sq area data) (oh : OpennopHeader)
    (hfit : 4 * n + TCPHDR + area.length + data.length + OPENNOP_HEADER < 65536) :
    Segment (addHeader m oh) n f sq area (oh.bytes ++ data) := by
  have hmove : memmove m (tcpdata m + OPENNOP_HEADER) (tcpdata m) (payloadSize m) =
      memcpy m (tcpdata m + OPENNOP_HEADER) data := by
    rw [memmove, ← Net.payload, h.payload]
  have hlen := oh.length_bytes
  rw [addHeader, hmove, memcpy_prepend m (by rw [hlen])]
  apply h.replace
  · rw [List.length_append, hlen]
    omega
  · rw [List.length_append, hlen]
    omega

/-- `tcp_optimize`, on what `dedup` makes of the data. -/
theorem tcpOptimize_segment (h : Segment m n f sq area data) (hp : f.protocol = IPPROTO_TCP)
    (hdata : data ≠ []) {o : Codec.Optimized}
    (ho : Codec.dedup d.cfg d.H x.dedupProcessor x.shared data x.dedup_buffer = some o) :
    (o.optlen < data.length → ∃ m',
      tcpOptimize d true x m = some (data.length - o.optlen, m', ⟨o.pd, o.g, o.optpkt⟩) ∧
        Segment m' n f sq area (slice o.optpkt 0 o.optlen)) ∧
      (data.length ≤ o.optlen →
        tcpOptimize d true x m = some (0, m, ⟨o.pd, o.g, o.optpkt⟩)) := by
  have hpos : 0 < data.length := List.length_pos_iff.mpr hdata
  have hlt := totLen_lt m
  have hlen := h.length
  have htcp : protocol m = IPPROTO_TCP := (segment_protocol h).trans hp
  rw [tcpOptimize, if_pos ⟨rfl, htcp⟩, h.payloadSize, if_pos hpos, h.payload, ho, Option.map_some]
  dsimp only
  constructor
  · intro hshort
    rw [if_pos hshort]
    refine ⟨_, rfl, segment_replaceData h rfl ?_⟩
    rw [length_slice]
    omega
  · intro hlong
    rw [if_neg (by omega)]

theorem tcpOptimize_nil (h : Segment m n f sq area []) (x : Dedup) :
    tcpOptimize d true x m = some (0, m, x) := by
  rw [tcpOptimize, h.payloadSize]
  split <;> rfl

/-- What `tcp_compress` makes of the data: the output of QuickLZ when that is shorter. -/
def Compresses (d : Daemon) (data data' : List UInt8) (compressed : Bool) : Prop :=
  if compressed then data' = d.qlz.compress data ∧ data'.length < data.length else data' = data

theorem tcpCompress_segment (h : Segment m n f sq area data) (hp : f.protocol = IPPROTO_TCP)
    (hsize : (d.qlz.compress data).length < 65536) :
    ∃ data' compressed, Compresses d data data' compressed ∧
      Segment (tcpCompress d m).2 n f sq area data' ∧
      (compressed = true ↔ 0 < (tcpCompress d m).1) := by
  have hlt := totLen_lt m
  have hlen := h.length
  have htcp : protocol m = IPPROTO_TCP := (segment_protocol h).trans hp
  rw [tcpCompress, if_pos htcp]
  dsimp only
  rw [h.payloadSize, h.payload, Nat.mod_eq_of_lt hsize, List.take_length]
  by_cases hshort : (d.qlz.compress data).length < data.length
  · rw [if_pos (by omega), if_pos hshort]
    refine ⟨_, true, ⟨rfl, hshort⟩, segment_replaceData h rfl (by omega), ?_⟩
    simp only [true_iff]
    omega
  · have hnone : ∀ {c : Prop} [Decidable c], (if c then
        (if (d.qlz.compress data).length < data.length then
          (data.length - (d.qlz.compress data).length,
            replaceData m (d.qlz.compress data) data.length)
        else (0, m)) else (0, m)) = (0, m) := by
      intro c _
      rw [if_neg hshort, ite_self]
    rw [hnone]
    exact ⟨data, false, rfl, h, by simp⟩

/-- What deduplication makes of the data: nothing of an empty packet. Any other is stored,
and is replaced by its compressed form when that is shorter. -/
structure Deduplicates (d : Daemon) (x x' : Dedup) (data data' : List UInt8) (shortened : Bool) :
    Prop where
  empty : data = [] → data' = [] ∧ shortened = false ∧ x' = x
  stored : data ≠ [] → ∃ optpkt compress o,
    Codec.cacheAndCompressIfNeeded d.cfg d.H x.dedupProcessor x.shared data optpkt compress =
        some o ∧
      x'.dedupProcessor = o.pd ∧ x'.shared = o.g ∧
      (shortened = true → compress = true ∧ o.optlen < data.length ∧
        data' = slice o.optpkt 0 o.optlen)
  same : shortened = false → data' = data

/-- The dictionaries take the data, which is to be compressed or only cached. -/
def Stores (d : Daemon) (x : Dedup) (data : List UInt8) (compress : Bool) : Prop :=
  ∀ optpkt, ∃ o, Codec.cacheAndCompressIfNeeded d.cfg d.H x.dedupProcessor x.shared data optpkt
    compress = some o

theorem tcpOptimize_deduplicates (h : Segment m n f sq area data) (hp : f.protocol = IPPROTO_TCP)
    (hstores : Stores d x data true) :
    ∃ r m' x' data' shortened, tcpOptimize d true x m = some (r, m', x') ∧
      Segment m' n f sq area data' ∧ Deduplicates d x x' data data' shortened ∧
      (shortened = true ↔ 0 < r) ∧ data'.length ≤ data.length := by
  by_cases hdata : data = []
  · subst hdata
    exact ⟨0, m, x, [], false, tcpOptimize_nil h x, h,
      ⟨fun _ => ⟨rfl, rfl, rfl⟩, fun hne => absurd rfl hne, fun _ => rfl⟩, by simp, Nat.le_refl _⟩
  · obtain ⟨o, ho⟩ := hstores x.dedup_buffer
    obtain ⟨hshort, hlong⟩ := tcpOptimize_segment h hp hdata ho
    by_cases hlt : o.optlen < data.length
    · obtain ⟨m', hopt, hseg⟩ := hshort hlt
      refine ⟨_, m', _, _, true, hopt, hseg, ?_, ?_, ?_⟩
      · exact ⟨fun he => absurd he hdata, fun _ => ⟨_, true, o, ho, rfl, rfl, fun _ => ⟨rfl, hlt, rfl⟩⟩,
          fun h => by cases h⟩
      · simp only [true_iff]
        omega
      · rw [length_slice]
        omega
    · refine ⟨0, m, _, data, false, hlong (by omega), h, ?_, by simp, Nat.le_refl _⟩
      exact ⟨fun he => absurd he hdata, fun _ => ⟨_, true, o, ho, rfl, rfl, fun h => by cases h⟩, fun _ => rfl⟩

theorem tcpCacheOptim_deduplicates (h : Segment m n f sq area data)
    (hp : f.protocol = IPPROTO_TCP) (hstores : Stores d x data false) :
    ∃ r x', tcpCacheOptim d x m = some (r, x') ∧ Deduplicates d x x' data data false := by
  have htcp : protocol m = IPPROTO_TCP := (segment_protocol h).trans hp
  rw [tcpCacheOptim, if_pos htcp, h.payloadSize, h.payload]
  by_cases hdata : data = []
  · subst hdata
    exact ⟨_, _, rfl, fun _ => ⟨rfl, rfl, rfl⟩, fun hne => absurd rfl hne, fun _ => rfl⟩
  · obtain ⟨o, ho⟩ := hstores (ofList [])
    rw [if_pos (List.length_pos_iff.mpr hdata), Codec.putInCache, ho, Option.map_some]
    exact ⟨_, _, rfl, fun he => absurd he hdata, fun _ => ⟨_, false, o, ho, rfl, rfl, fun h => by cases h⟩,
      fun _ => rfl⟩

/-- What becomes of the data of an accelerated packet: it is deduplicated into `middle`, and
that is compressed, each as far as the switches say. -/
structure Transformed (d : Daemon) (sw : Switches) (x x' : Dedup) (data middle wire : List UInt8)
    (deduplicated compressed : Bool) : Prop where
  on : sw.deduplication = true → Deduplicates d x x' data middle deduplicated
  off : sw.deduplication = false → middle = data ∧ deduplicated = false ∧ x' = x
  compresses : Compresses d middle wire compressed
  compression : compressed = true → sw.compression = true
  shorter : middle.length ≤ data.length

/-- Compressed data is shorter. -/
theorem Compresses.length_le {data' : List UInt8} {compressed : Bool}
    (h : Compresses d data data' compressed) : data'.length ≤ data.length := by
  cases compressed with
  | true => exact Nat.le_of_lt h.2
  | false => exact Nat.le_of_eq (congrArg List.length h)

/-- The accelerated packet, its marked sequence number and the amounts of its header. -/
structure Accelerated (d : Daemon) (sw : Switches) (x : Dedup) (n : Nat) (f : Flow)
    (sq : UInt32) (area data middle wire : List UInt8) (deduplicated compressed : Bool)
    (e : Encoded) : Prop where
  segment : Segment e.packet n f (if deduplicated || compressed then sq + 8000 else sq) area wire
  transformed : Transformed d sw x e.thread.dedup data middle wire deduplicated compressed
  compression : (e.thread.redEl ≠ 0 ∨ e.thread.redElComp ≠ 0) ↔ compressed = true
  deduplication : e.thread.redElDedup ≠ 0 ↔ deduplicated = true

theorem optimize_accelerated {t : Optimizer} {sw : Switches} (h : Segment m n f sq area data)
    (hp : f.protocol = IPPROTO_TCP) (hsw : sw.deduplication = true)
    (hstores : Stores d t.dedup data true)
    (hsize : ∀ bs : List UInt8, bs.length ≤ data.length → (d.qlz.compress bs).length < 65536) :
    ∃ e middle wire deduplicated compressed, optimize d sw.compression t m = some e ∧
      Accelerated d sw t.dedup n f sq area data middle wire deduplicated compressed e := by
  obtain ⟨r, m', x', middle, dd, hopt, hseg, hded, hr, hle⟩ :=
    tcpOptimize_deduplicates h hp hstores
  rw [optimize, hopt, Option.map_some]
  dsimp only
  by_cases hc : sw.compression = true
  · obtain ⟨wire, c, hcomp, hseg', hc'⟩ := tcpCompress_segment hseg hp (hsize middle hle)
    simp only [hc, if_true]
    refine ⟨_, middle, wire, dd, c, rfl, ?_, ?_, ?_, ?_⟩
    · have hmark : (decide (r > 0) || (true && decide ((tcpCompress d m').1 > 0))) = (dd || c) := by
        rw [Bool.eq_iff_iff]
        simp [hr, hc']
      rw [hmark]
      exact segment_markSeq hseg' _
    · exact ⟨fun _ => hded, by simp [hsw], hcomp, fun _ => hc, hle⟩
    · simp only [ne_eq, not_true_eq_false, false_or, hc']
      omega
    · simp only [hr]
      omega
  · rw [Bool.eq_false_of_not_eq_true hc]
    refine ⟨_, middle, middle, dd, false, rfl, ?_, ?_, ?_, ?_⟩
    · have hmark : (decide (r > 0) || (false && decide (0 > 0))) = (dd || false) := by
        rw [Bool.eq_iff_iff]
        simp [hr]
      rw [← hmark]
      exact segment_markSeq hseg _
    · exact ⟨fun _ => hded, by simp [hsw], rfl, fun h => (by cases h), hle⟩
    · simp
    · simp only [hr]
      omega

/-- **The accelerated branch on a segment.** -/
theorem accelerate_accelerated {t : Optimizer} {sw : Switches} (fresh : Bool)
    (h : Segment m n f sq area data) (hp : f.protocol = IPPROTO_TCP)
    (hstores : sw.deduplication = true → Stores d t.dedup data fresh)
    (hsize : ∀ bs : List UInt8, bs.length ≤ data.length → (d.qlz.compress bs).length < 65536) :
    ∃ e middle wire deduplicated compressed, accelerate d sw fresh t m = some e ∧
      Accelerated d sw t.dedup n f sq area data middle wire deduplicated compressed e := by
  rw [accelerate]
  by_cases hsw : sw.deduplication = true
  · rw [if_pos hsw]
    cases fresh with
    | true =>
      rw [if_pos rfl]
      exact optimize_accelerated (t := { t with redEl := 0, redElComp := 0, redElDedup := 0 }) h hp
        hsw (hstores hsw) hsize
    | false =>
      rw [if_neg (by decide), cacheOnly]
      obtain ⟨r, x', hcache, hded⟩ := tcpCacheOptim_deduplicates h hp (hstores hsw)
      rw [hcache, Option.map_some]
      refine ⟨_, data, data, false, false, rfl, h, ?_, by simp, by simp⟩
      exact ⟨fun _ => hded, by simp [hsw], rfl, fun h => (by cases h), Nat.le_refl _⟩
  · have hoff : sw.deduplication = false := Bool.eq_false_of_not_eq_true hsw
    rw [if_neg hsw]
    by_cases hc : sw.compression = true
    · rw [if_pos hc, compressOnly]
      obtain ⟨wire, c, hcomp, hseg', hc'⟩ := tcpCompress_segment h hp (hsize data (Nat.le_refl _))
      refine ⟨_, data, wire, false, c, rfl, ?_, ?_, ?_, by simp⟩
      · have hmark : decide ((tcpCompress d m).1 > 0) = (false || c) := by
          rw [Bool.eq_iff_iff]
          simp [hc']
        rw [← hmark]
        exact segment_markSeq hseg' _
      · exact ⟨by simp [hoff], fun _ => ⟨rfl, rfl, rfl⟩, hcomp, fun _ => hc, Nat.le_refl _⟩
      · simp only [hc']
        omega
    · rw [if_neg hc]
      refine ⟨_, data, data, false, false, rfl, h, ?_, by simp, by simp⟩
      exact ⟨by simp [hoff], fun _ => ⟨rfl, rfl, rfl⟩, rfl, fun h => (by cases h), Nat.le_refl _⟩

end Data

/-! ### The packet that is sent -/

section Sent

variable {d : Daemon} {t : Optimizer} {a : Arrival} {n pad : Nat} {f : Flow} {sq : UInt32}
  {items : List TcpOption} {data : List UInt8} {s : Session}

/-- The size of the buffer a packet lies in. -/
def BUFSIZE : Nat := 2048

/-- A segment that the option can be added to. -/
structure Taggable (m : Mem) (n : Nat) (f : Flow) (sq : UInt32) (items : List TcpOption)
    (pad : Nat) (data : List UInt8) : Prop where
  segment : Segment m n f sq (optionBytes items ++ List.replicate pad 0) data
  wellFormed : ∀ x ∈ items, x.WellFormed
  absent : ∀ x ∈ items, ¬ x.Is OPENNOP_OPTION
  room : (optionBytes (withoutNops items)).length + 3 ≤ 40
  fits : totLen m ≤ BUFSIZE

/-- The options of the packet with option 32 in front, at the value given. -/
def taggedOptions (value : UInt8) (items : List TcpOption) (pad : Nat) : List UInt8 :=
  shortOption OPENNOP_OPTION value ++ (optionBytes (withoutNops items) ++ List.replicate pad 0)

/-- What the thread does with the option: it is not found, and it is set. -/
theorem Taggable.tag {m : Mem} (h : Taggable m n f sq items pad data) :
    getTcpOption m OPENNOP_OPTION = some 0 ∧
      ∃ m' addoff pad', setTcpOption m OPENNOP_OPTION.toNat 3 1 = some (0, m') ∧
        Segment m' n f sq (taggedOptions 1 items pad') data ∧
        totLen m' = totLen m + addoff * 4 ∧ addoff * 4 ≤ 4 := by
  have hlength : 4 * doff m - TCPHDR = (optionBytes items ++ List.replicate pad 0).length := by
    rw [h.segment.doff]
    omega
  have hopts : HoldsOptions m items pad :=
    ⟨h.segment.doff_ge, h.wellFormed, by rw [hlength]; exact h.segment.area⟩
  have hnum : TCPOPT_NOP < OPENNOP_OPTION := by decide
  refine ⟨getTcpOption_absent hopts hnum h.absent, ?_⟩
  have hfits := h.fits
  simp only [BUFSIZE] at hfits
  obtain ⟨m', addoff, pad', hset, hsmall, hseg, htot⟩ := h.segment.insertOption h.wellFormed 1 hnum
    h.absent (show 2 ≤ 3 by omega) (by omega) h.room (by omega)
  exact ⟨m', addoff, pad', hset, hseg, htot, by omega⟩

/-- A packet of a known session gets the option, and then its data is dealt with. -/
theorem optimizationStep_tagged (h : Taggable a.packet n f sq items pad data)
    (hon : a.switches.compression = true ∨ a.switches.deduplication = true ∨
      a.switches.packetPipeline = true)
    (hdata : isData a.packet = true) (hs : getsession a.sessions (sockets a.packet) = some s) :
    ∃ m' addoff pad', Segment m' n f sq (taggedOptions 1 items pad') data ∧
      totLen m' = totLen a.packet + addoff * 4 ∧ addoff * 4 ≤ 4 ∧
      setTcpOption a.packet OPENNOP_OPTION.toNat 3 1 = some (0, m') ∧
      optimizationStep d t a = tagPacket d a.switches
        { t with
          dedup := { t.dedup with shared := a.shared }
          metrics :=
            { t.metrics with
              bytesin := t.metrics.bytesin + UInt64.ofNat (totLen a.packet) } }
        (a.sessions.update (sockets a.packet)
          (saveacceleratorid (sockets a.packet).largerIP d.localID (saddr a.packet)))
        (sockets a.packet)
        (saveacceleratorid (sockets a.packet).largerIP d.localID (saddr a.packet) s)
        (getIPPlusTCPHeaderLength a.packet) m' := by
  obtain ⟨hget, m', addoff, pad', hset, hseg, htot, hsmall⟩ := h.tag
  refine ⟨m', addoff, pad', hseg, htot, hsmall, hset, ?_⟩
  rw [optimizationStep]
  dsimp only
  rw [if_pos hon, hget]
  dsimp only
  rw [if_neg (not_not.mpr rfl), hs]
  dsimp only
  rw [if_pos hdata, hset]
  dsimp only
  rw [if_neg (by decide)]

/-- Noting an accelerator leaves the sequence numbers alone. -/
@[simp]
theorem checkseqnumber_saveacceleratorid (largerIP saddr sq id addr : UInt32) (s : Session) :
    checkseqnumber largerIP saddr sq (saveacceleratorid largerIP id addr s) =
      checkseqnumber largerIP saddr sq s := by
  unfold checkseqnumber saveacceleratorid
  by_cases hzero : largerIP ≠ 0
  · by_cases haddr : addr = largerIP <;> simp [hzero, haddr]
  · simp [hzero]

/-- A packet that meets the acceleration condition, by what is made of its data. -/
theorem tagPacket_met {sw : Switches} {sessions : SessionTable} {k : Sockets} {headersBefore : Nat}
    {m : Mem} {fresh : Bool} {e : Encoded} (hmet : accelerates d.localID k (saddr m) s = true)
    (hfresh : checkseqnumber k.largerIP (saddr m) (seq m) s = fresh)
    (he : accelerate d sw fresh t m = some e) :
    tagPacket d sw t sessions k s headersBefore m =
      some (emit { e.thread with seqNo := e.thread.seqNo + 1 }
        (if sw.deduplication && fresh then
          sessions.update k (updateseqnumber k.largerIP (saddr m) (seq m)) else sessions)
        k headersBefore (addHeader e.packet (e.header d.localID s.queue)) e.calls true) := by
  simp only [tagPacket, hmet, hfresh, he, if_true, Bool.not_true, Bool.false_or, Option.map_some]

/-- A packet that does not. -/
theorem tagPacket_unmet {sw : Switches} {sessions : SessionTable} {k : Sockets}
    {headersBefore : Nat} {m : Mem} {e : Encoded}
    (hmet : accelerates d.localID k (saddr m) s = false) (he : pass d sw t m = some e) :
    tagPacket d sw t sessions k s headersBefore m =
      some (emit { e.thread with seqNo := e.thread.seqNo + 1 }
        (if sw.deduplication then
          sessions.update k (updateseqnumber k.largerIP (saddr m) (seq m)) else sessions)
        k headersBefore (addHeader e.packet (e.header d.localID s.queue)) e.calls true) := by
  simp only [tagPacket, hmet, he, Bool.false_eq_true, if_false, Bool.not_false, Bool.true_or,
    Bool.and_true, Option.map_some]

theorem flag_ne_zero (p : Prop) [Decidable p] : (if p then (1 : UInt8) else 0) ≠ 0 ↔ p := by
  split <;> simp_all

/-- The header of a packet that has been transformed. -/
structure Announcement (localID : UInt32) (deduplicated compressed : Bool) (oh : OpennopHeader) :
    Prop where
  opennopID : oh.opennopID = localID
  pattern : oh.pattern = OPENNOP_PATTERN
  compression : oh.compression ≠ 0 ↔ compressed = true
  deduplication : oh.deduplication ≠ 0 ↔ deduplicated = true

/-- **What the thread sends** of a segment that it accelerates. -/
theorem optimizationStep_sent (h : Taggable a.packet n f sq items pad data)
    (hp : f.protocol = IPPROTO_TCP)
    (hon : a.switches.compression = true ∨ a.switches.deduplication = true ∨
      a.switches.packetPipeline = true)
    (hdata : isData a.packet = true) (hs : getsession a.sessions (sockets a.packet) = some s)
    (hmet : accelerates d.localID (sockets a.packet) (saddr a.packet)
      (saveacceleratorid (sockets a.packet).largerIP d.localID (saddr a.packet) s) = true)
    (hstores : a.switches.deduplication = true →
      Stores d { t.dedup with shared := a.shared } data
        (checkseqnumber (sockets a.packet).largerIP (saddr a.packet) sq s))
    (hsize : ∀ bs : List UInt8, bs.length ≤ data.length → (d.qlz.compress bs).length < 65536) :
    ∃ o oh pad' middle wire deduplicated compressed, optimizationStep d t a = some o ∧
      o.verdict = .NF_ACCEPT (some (wholePacket o.packet)) ∧
      Segment o.packet n f (if deduplicated || compressed then sq + 8000 else sq)
        (taggedOptions 1 items pad') (oh.bytes ++ wire) ∧
      4 * n + TCPHDR + (taggedOptions 1 items pad').length + data.length ≤ BUFSIZE + 4 ∧
      Announcement d.localID deduplicated compressed oh ∧
      Transformed d a.switches { t.dedup with shared := a.shared } o.thread.dedup data middle wire
        deduplicated compressed := by
  obtain ⟨m', addoff, pad', hseg, htot, hsmall, -, hstep⟩ := optimizationStep_tagged (d := d)
    (t := t) h hon hdata hs
  have haddr : saddr m' = saddr a.packet :=
    (segment_saddr hseg).trans (segment_saddr h.segment).symm
  have hfresh : checkseqnumber (sockets a.packet).largerIP (saddr m') (seq m')
      (saveacceleratorid (sockets a.packet).largerIP d.localID (saddr a.packet) s) =
        checkseqnumber (sockets a.packet).largerIP (saddr a.packet) sq s := by
    rw [checkseqnumber_saveacceleratorid, haddr, hseg.seq]
  obtain ⟨e, middle, wire, dd, c, he, hacc⟩ := accelerate_accelerated (t := { t with
      dedup := { t.dedup with shared := a.shared }
      metrics :=
        { t.metrics with bytesin := t.metrics.bytesin + UInt64.ofNat (totLen a.packet) } })
    (checkseqnumber (sockets a.packet).largerIP (saddr a.packet) sq s) hseg hp hstores hsize
  have hroom : 4 * n + TCPHDR + (taggedOptions 1 items pad').length + data.length ≤
      BUFSIZE + 4 := by
    have hlen := hseg.length
    have hfits := h.fits
    omega
  have hfit : 4 * n + TCPHDR + (taggedOptions 1 items pad').length + wire.length +
      OPENNOP_HEADER < 65536 := by
    have hwire := hacc.transformed.compresses.length_le
    have hmiddle := hacc.transformed.shorter
    simp only [BUFSIZE] at hroom
    simp only [OPENNOP_HEADER]
    omega
  refine ⟨_, e.header d.localID _, pad', middle, wire, dd, c,
    hstep.trans (tagPacket_met (by rw [haddr]; exact hmet) hfresh he), rfl,
    (segment_addHeader hacc.segment _ hfit).checksum, hroom, ?_, hacc.transformed⟩
  refine ⟨rfl, rfl, ?_, ?_⟩
  · rw [← hacc.compression]
    exact flag_ne_zero _
  · rw [← hacc.deduplication]
    exact flag_ne_zero _

/-- A segment to be deduplicated that the dictionaries do not take: the call for it does not
return. -/
theorem optimizationStep_refused (h : Taggable a.packet n f sq items pad data)
    (hp : f.protocol = IPPROTO_TCP) (hsw : a.switches.deduplication = true)
    (hdata : isData a.packet = true) (hs : getsession a.sessions (sockets a.packet) = some s)
    (hmet : accelerates d.localID (sockets a.packet) (saddr a.packet)
      (saveacceleratorid (sockets a.packet).largerIP d.localID (saddr a.packet) s) = true)
    (hfresh : checkseqnumber (sockets a.packet).largerIP (saddr a.packet) sq s = true)
    (hne : data ≠ [])
    (hnone : ∀ optpkt, Codec.cacheAndCompressIfNeeded d.cfg d.H t.dedup.dedupProcessor a.shared data
      optpkt true = none) :
    optimizationStep d t a = none := by
  obtain ⟨m', addoff, pad', hseg, -, -, -, hstep⟩ := optimizationStep_tagged (d := d) (t := t) h
    (Or.inr (Or.inl hsw)) hdata hs
  have haddr : saddr m' = saddr a.packet :=
    (segment_saddr hseg).trans (segment_saddr h.segment).symm
  have htcp : protocol m' = IPPROTO_TCP := (segment_protocol hseg).trans hp
  rw [hstep, tagPacket, haddr, hseg.seq, checkseqnumber_saveacceleratorid]
  simp only [hmet, hfresh, accelerate, hsw, if_true, optimize, tcpOptimize, htcp, hseg.payloadSize,
    hseg.payload, List.length_pos_iff.mpr hne, and_self, gt_iff_lt, Codec.dedup, hnone,
    Option.map_none]

end Sent

/-! ### Small packets -/

/-- The bytes of a segment without options between two hosts of one network. -/
def plainSegment (src dst flags : UInt8) (sq : Nat) (data : List UInt8) : List UInt8 :=
  [0x45, 0] ++ (beBytes 2 (40 + data.length) ++
    ([0, 0, 0, 0, 64, 6, 0, 0, 10, 0, 0, src, 10, 0, 0, dst, 0x30, 0x39, 0x30, 0x39] ++
      (beBytes 4 sq ++ ([0, 0, 0, 1, 0x50, flags, 0xff, 0xff, 0, 0, 0, 0] ++ data))))

/-- Such a segment can be tagged. -/
theorem plainSegment_taggable (src dst flags : UInt8) {sq : Nat} {data : List UInt8}
    (hdata : 40 + data.length ≤ BUFSIZE) (hsq : sq < 4294967296) :
    Taggable (ofList (plainSegment src dst flags sq data)) 5
      (flow (ofList (plainSegment src dst flags sq data))) (UInt32.ofNat sq) [] 0 data := by
  have hihl : ihl (ofList (plainSegment src dst flags sq data)) = 5 := by
    rw [ihl, show ofList (plainSegment src dst flags sq data) 0 = 0x45 from rfl]
    rfl
  have htcph : tcph (ofList (plainSegment src dst flags sq data)) = 20 := by rw [tcph, hihl]
  have hdoff : doff (ofList (plainSegment src dst flags sq data)) = 5 := by
    rw [doff, htcph, show ofList (plainSegment src dst flags sq data) 32 = 0x50 from rfl]
    rfl
  have htot : totLen (ofList (plainSegment src dst flags sq data)) = 40 + data.length := by
    have hbytes : slice (ofList (plainSegment src dst flags sq data)) 2 2 =
        beBytes 2 (40 + data.length) := rfl
    simp only [BUFSIZE] at hdata
    rw [totLen, loadBE, hbytes, beNat_beBytes]
    omega
  have hseq : loadBE (ofList (plainSegment src dst flags sq data)) 24 4 = sq := by
    have hbytes : slice (ofList (plainSegment src dst flags sq data)) 24 4 = beBytes 4 sq := rfl
    rw [loadBE, hbytes, beNat_beBytes]
    omega
  have hslice : slice (ofList (plainSegment src dst flags sq data)) 40 data.length = data := by
    have hlen : (plainSegment src dst flags sq data).length = 40 + data.length := by
      simp [plainSegment]
      omega
    rw [slice_ofList (by omega)]
    exact List.take_length
  have htcpdata : tcpdata (ofList (plainSegment src dst flags sq data)) = 40 := by
    rw [tcpdata, htcph, hdoff]
  refine ⟨⟨hihl, Nat.le_refl 5, rfl, ?_, ?_, ?_, rfl, ?_⟩, by simp, by simp, by decide, ?_⟩
  · rw [seq, htcph, hseq]
  · rw [hdoff]
    rfl
  · rw [htot, htcpdata]
  · rw [htcpdata]
    exact hslice
  · rw [htot]
    exact hdata

/-- A table that holds the sessions of a list. -/
def tableOf (l : List Session) : SessionTable :=
  ⟨fun hash => l.filter fun s => bucket s.toSockets == hash, fun _ => 0, 1⟩

/-- An established session for the packet in `m`. -/
def established (m : Mem) (larger smaller : UInt32) : Session :=
  { newSession (sockets m) 0 with
    largerIPAccelerator := larger
    smallerIPAccelerator := smaller
    state := .TCP_ESTABLISHED }

/-- A box that deduplicates with shared dictionaries. -/
def sharedBox : Daemon :=
  ⟨Codec.smallBox true, Codec.firstByte, ⟨id, fun _ => none⟩, 77, by decide⟩

def noCounts : WorkerCounters := ⟨0, 0, 0, 0, 0, 0, 0, 0, 0, 0⟩

/-- Sixty-four bytes from the first host to the second. -/
def segmentOut : Mem := ofList (plainSegment 1 2 0x10 1000 (List.replicate 64 7))

theorem segmentOut_taggable :
    Taggable segmentOut 5 (flow segmentOut) 1000 [] 0 (List.replicate 64 7) :=
  plainSegment_taggable 1 2 0x10 (by decide) (by decide)

end Solowan.Worker
