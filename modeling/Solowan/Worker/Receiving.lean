/-
The deoptimization thread on a well-formed segment.

The counterpart of `Worker.Sending`: each function that restores the data is described by
what it does to the data of a segment, and `deoptimizeSegment_restores` puts them together
for a packet whose data was transformed as the optimization thread does it.
-/

import Solowan.Worker.Deoptimization
import Solowan.Worker.Sending

namespace Solowan.Worker

open Solowan.Memory Solowan.Dictionary Solowan.Net Solowan.Sessions

/-- What the code relies on in QuickLZ, for blocks of at most `size` bytes: a compressed block
is restored from any memory that starts with it, and a block that does not compress grows by
400 bytes at most. -/
structure QuickLZ.Lawful (q : QuickLZ) (size : Nat) : Prop where
  roundTrip : ∀ bs m, bs ≠ [] → bs.length ≤ size →
    slice m 0 (q.compress bs).length = q.compress bs → q.decompress m = some bs
  growth : ∀ bs, bs.length ≤ size → (q.compress bs).length ≤ bs.length + 400

/-- A compressed block is not empty: an empty one could not be told from another. -/
theorem QuickLZ.Lawful.compress_ne_nil {q : QuickLZ} {size : Nat} (h : q.Lawful size)
    {bs : List UInt8} (hbs : bs ≠ []) (hsize : bs.length ≤ size) : q.compress bs ≠ [] := by
  intro hnil
  obtain ⟨b, bs, rfl⟩ := List.exists_cons_of_ne_nil hbs
  have hfirst : q.decompress (ofList (q.compress ((b + 1) :: bs))) = some (b :: bs) := by
    apply h.roundTrip _ _ hbs hsize
    rw [hnil]
    rfl
  have hother : q.decompress (ofList (q.compress ((b + 1) :: bs))) = some ((b + 1) :: bs) :=
    h.roundTrip _ _ (List.cons_ne_nil _ _) hsize (by
      rw [slice_ofList (by omega), List.drop_zero, List.take_length])
  rw [hfirst] at hother
  simp at hother

/-! ### The header -/

section Header

variable {m : Mem} {n : Nat} {f : Flow} {sq : UInt32} {value : UInt8} {rest data : List UInt8}
  {oh : OpennopHeader}

/-- The header of a segment is found. -/
theorem announced_segment
    (h : Segment m n f sq (shortOption OPENNOP_OPTION value ++ rest) (oh.bytes ++ data))
    (hvalue : value ≠ 0) (hpattern : oh.pattern = OPENNOP_PATTERN) :
    getTcpOption m OPENNOP_OPTION = some value.toUInt64 ∧
      announced m value.toUInt64 = true ∧ opennopHeader m = oh := by
  obtain ⟨m', hget, -, -⟩ := h.overwriteOption 0
  have hoh : opennopHeader m = oh := by
    have hslice := (slice_split h.data).1
    rw [oh.length_bytes] at hslice
    exact readHeader_of_slice hslice
  have hne : value.toUInt64 ≠ 0 := by
    intro hzero
    apply hvalue
    rw [← UInt8.toUInt8_toUInt64 value, hzero]
    rfl
  have hlen : ¬ incomingLen m < OPENNOP_HEADER := by
    rw [h.incomingLen, List.length_append, oh.length_bytes]
    omega
  refine ⟨hget, ?_, hoh⟩
  rw [announced, hoh, hpattern]
  simp [hne, hlen]

/-- The header of a segment is taken off. -/
theorem stripHeader_segment {hdr : List UInt8}
    (h : Segment m n f sq (shortOption OPENNOP_OPTION value ++ rest) (hdr ++ data))
    (hlen : hdr.length = OPENNOP_HEADER) :
    ∃ m', stripHeader m = some m' ∧
      Segment m' n f sq (shortOption OPENNOP_OPTION 0 ++ rest) data := by
  have hinc : incomingLen m - OPENNOP_HEADER = data.length := by
    rw [h.incomingLen, List.length_append, hlen]
    omega
  have hmove : memmove m (tcpdata m) (tcpdata m + OPENNOP_HEADER) data.length =
      memcpy m (tcpdata m) data := by
    rw [memmove, ← hlen, (slice_split h.data).2]
  have hsplit : hdr ++ data =
      (hdr ++ data).take data.length ++ (hdr ++ data).drop data.length :=
    (List.take_append_drop _ _).symm
  have hmoved : Segment (memcpy m (tcpdata m) data) n f sq
      (shortOption OPENNOP_OPTION value ++ rest) (data ++ (hdr ++ data).drop data.length) := by
    rw [hsplit] at h
    apply h.overwrite
    rw [List.length_take, List.length_append]
    omega
  obtain ⟨m₁, -, hset, hseg⟩ := hmoved.overwriteOption 0
  refine ⟨checksum (addTotLen m₁ (-OPENNOP_HEADER)), ?_, (hseg.truncate ?_).checksum⟩
  · rw [stripHeader, hinc, hmove]
    exact congrArg (Option.map _) hset
  · rw [List.length_drop, List.length_append, hlen]
    omega

end Header

/-! ### The data -/

section Data

variable {d : Daemon} {x : Dedup} {m : Mem} {n : Nat} {f : Flow} {sq : UInt32}
  {area wire data : List UInt8}

theorem segment_unmarkSeq (h : Segment m n f sq area data) :
    Segment (unmarkSeq m) n f (sq - 8000) area data := by
  rw [unmarkSeq, h.seq]
  exact h.setSeq _

/-- `tcp_decompress` on a compressed segment. -/
theorem tcpDecompress_segment (h : Segment m n f sq area (d.qlz.compress data))
    (hp : f.protocol = IPPROTO_TCP) {size : Nat} (hq : d.qlz.Lawful size) (hdata : data ≠ [])
    (hsize : data.length ≤ size) (hfit : 4 * n + TCPHDR + area.length + data.length < 65536) :
    ∃ m', tcpDecompress d m = ((data.length : Int) - (d.qlz.compress data).length, m') ∧
      Segment m' n f sq area data := by
  have htcp : protocol m = IPPROTO_TCP := (segment_protocol h).trans hp
  have hne := hq.compress_ne_nil hdata hsize
  have hpos : 0 < (d.qlz.compress data).length := List.length_pos_iff.mpr hne
  have hold : (totLen m : Int) - ihl m * 4 - doff m * 4 = (d.qlz.compress data).length := by
    have hlen := h.length
    have hdoff := h.doff
    rw [h.ihl]
    omega
  have hdec : d.qlz.decompress (window m (tcpdata m)) = some data := by
    apply hq.roundTrip _ _ hdata hsize
    rw [slice_window, Nat.add_zero]
    exact h.data
  rw [tcpDecompress, if_pos htcp]
  dsimp only
  rw [hold, if_pos (by omega), hdec]
  exact ⟨_, rfl, segment_replaceData h rfl hfit⟩

/-- `tcp_deoptimize` on a segment that `uncomp` accepts. -/
theorem tcpDeoptimize_segment (h : Segment m n f sq area wire) (hp : f.protocol = IPPROTO_TCP)
    (hwire : wire ≠ []) (hle : wire.length ≤ data.length)
    (hunc : ∀ output m, slice m 0 wire.length = wire → Codec.Accepted d.cfg d.H x.dedupProcessor
      x.shared data (Codec.uncomp d.cfg d.H x.dedupProcessor x.shared output m wire.length))
    (hfit : 4 * n + TCPHDR + area.length + data.length < 65536) :
    ∃ r m' x', tcpDeoptimize d x m = some (r, m', x') ∧ 0 ≤ r ∧ Segment m' n f sq area data ∧
      x'.dedupProcessor.ps =
        (Codec.updateCaches d.cfg d.H x.dedupProcessor x.shared data).1.ps ∧
      x'.dedupProcessor.fps =
        (Codec.updateCaches d.cfg d.H x.dedupProcessor x.shared data).1.fps ∧
      x'.shared = (Codec.updateCaches d.cfg d.H x.dedupProcessor x.shared data).2 := by
  have htcp : protocol m = IPPROTO_TCP := (segment_protocol h).trans hp
  have hpos : 0 < wire.length := List.length_pos_iff.mpr hwire
  have hacc := hunc x.dedup_buffer (window m (tcpdata m))
    (by rw [slice_window, Nat.add_zero]; exact h.data)
  rw [tcpDeoptimize, if_pos htcp]
  dsimp only
  rw [h.payloadSize, if_pos hpos, hacc.exit]
  have hlen := congrArg List.length hacc.output
  rw [length_slice] at hlen
  dsimp only
  rw [hacc.output, hlen, if_pos hle]
  exact ⟨_, _, _, rfl, Int.natCast_nonneg _, segment_replaceData h rfl hfit, hacc.ps, hacc.fps,
    hacc.g⟩

/-- The dictionaries have taken in a packet as `update_caches` does. -/
def Remembers (d : Daemon) (x x' : Dedup) (data : List UInt8) : Prop :=
  (data = [] → x' = x) ∧
    (data ≠ [] →
      x'.dedupProcessor.ps =
          (Codec.updateCaches d.cfg d.H x.dedupProcessor x.shared data).1.ps ∧
        x'.dedupProcessor.fps =
          (Codec.updateCaches d.cfg d.H x.dedupProcessor x.shared data).1.fps ∧
        x'.shared = (Codec.updateCaches d.cfg d.H x.dedupProcessor x.shared data).2)

theorem cacheDeoptim_remembers {r : Decoded} (h : Segment r.packet n f sq area data)
    (hp : f.protocol = IPPROTO_TCP) :
    Remembers d r.thread.dedup (cacheDeoptim d r).thread.dedup data := by
  have htcp : protocol r.packet = IPPROTO_TCP := (segment_protocol h).trans hp
  rw [cacheDeoptim, tcpCacheDeoptim, if_pos htcp, h.payloadSize, h.payload]
  by_cases hdata : data = []
  · subst hdata
    exact ⟨fun _ => rfl, fun hne => absurd rfl hne⟩
  · rw [if_pos (List.length_pos_iff.mpr hdata)]
    exact ⟨fun he => absurd he hdata, fun _ => ⟨rfl, rfl, rfl⟩⟩

/-! ### Undoing what was done -/

/-- What is known of the data that arrives: how it was transformed, and that `uncomp` accepts
it if it was deduplicated. -/
structure Restorable (d : Daemon) (sw : Switches) (x : Dedup) (n : Nat) (f : Flow)
    (area data middle wire : List UInt8) (deduplicated compressed : Bool) : Prop where
  protocol : f.protocol = IPPROTO_TCP
  fits : 4 * n + TCPHDR + area.length + data.length < 65536
  qlz : d.qlz.Lawful data.length
  compresses : Compresses d middle wire compressed
  compression : compressed = true → sw.compression = true
  shorter : middle.length ≤ data.length
  plain : deduplicated = false → middle = data
  off : sw.deduplication = false → deduplicated = false
  accepted : deduplicated = true → middle ≠ [] ∧ ∀ output m, slice m 0 middle.length = middle →
    Codec.Accepted d.cfg d.H x.dedupProcessor x.shared data
      (Codec.uncomp d.cfg d.H x.dedupProcessor x.shared output m middle.length)

theorem decompress_segment {sw : Switches} {middle : List UInt8} {deduplicated : Bool} {r : Decoded}
    (hr : Restorable d sw x n f area data middle wire deduplicated true)
    (h : Segment r.packet n f sq area wire) (last : Bool) :
    (decompress d last r).2.kept = r.kept ∧
      (decompress d last r).2.thread.dedup = r.thread.dedup ∧
      Segment (decompress d last r).2.packet n f (if last then sq - 8000 else sq) area middle := by
  obtain ⟨rfl, hlt⟩ := hr.compresses
  have hmiddle : middle ≠ [] := by
    rintro rfl
    simp at hlt
  have hle := hr.shorter
  obtain ⟨m', hdec, hseg⟩ := tcpDecompress_segment h hr.protocol hr.qlz hmiddle hle
    (Nat.lt_of_le_of_lt (by omega) hr.fits)
  rw [decompress, hdec]
  dsimp only
  rw [if_neg (by omega)]
  refine ⟨rfl, rfl, ?_⟩
  cases last with
  | false => exact hseg
  | true => exact segment_unmarkSeq hseg

theorem deoptimize_segment {sw : Switches} {compressed : Bool} {middle : List UInt8} {r : Decoded}
    (k : Sockets) (redComp : Int)
    (hr : Restorable d sw r.thread.dedup n f area data middle wire true compressed)
    (h : Segment r.packet n f sq area middle) :
    ∃ r', deoptimize d k redComp r = some r' ∧ r'.kept = r.kept ∧
      Segment r'.packet n f (sq - 8000) area data ∧
      Remembers d r.thread.dedup r'.thread.dedup data := by
  obtain ⟨hne, hunc⟩ := hr.accepted rfl
  obtain ⟨v, m', x', hdeo, hv, hseg, hdict⟩ := tcpDeoptimize_segment h hr.protocol hne hr.shorter
    hunc hr.fits
  have hdata : data ≠ [] := by
    rintro rfl
    exact hne (List.length_eq_zero_iff.mp (Nat.le_zero.mp hr.shorter))
  rw [deoptimize, hdeo, Option.map_some]
  dsimp only
  rw [if_neg (by simp only [ERROR, HASH_NOT_FOUND]; omega)]
  exact ⟨_, rfl, rfl, segment_unmarkSeq hseg, fun he => absurd he hdata, fun _ => hdict⟩

/-- **The flagged data is restored**, and remembered where that is switched on. -/
theorem restore_segment {sw : Switches} {k : Sockets} {middle : List UInt8}
    {deduplicated compressed : Bool} {r : Decoded}
    (hr : Restorable d sw r.thread.dedup n f area data middle wire deduplicated compressed)
    (hflag : (compressed || deduplicated) = true) (h : Segment r.packet n f sq area wire) :
    ∃ r', restore d sw k compressed deduplicated r = some r' ∧ r'.kept = r.kept ∧
      Segment r'.packet n f (sq - 8000) area data ∧
      (sw.deduplication = true → Remembers d r.thread.dedup r'.thread.dedup data) ∧
      (sw.deduplication = false → r'.thread.dedup = r.thread.dedup) := by
  rw [restore]
  by_cases hsw : sw.deduplication = true
  · rw [if_pos hsw]
    cases deduplicated with
    | true =>
      cases compressed with
      | true =>
        rw [hr.compression rfl]
        obtain ⟨hkept, hded, hseg⟩ := decompress_segment hr h false
        obtain ⟨r', hr', hkept', hseg', hrem⟩ := deoptimize_segment k (decompress d false r).1
          (r := (decompress d false r).2) (by rw [hded]; exact hr) hseg
        rw [hded] at hrem
        exact ⟨r', hr', hkept'.trans hkept, hseg', fun _ => hrem, by simp [hsw]⟩
      | false =>
        rw [Bool.and_false]
        have hwire : wire = middle := hr.compresses
        rw [hwire] at h
        obtain ⟨r', hr', hkept', hseg', hrem⟩ := deoptimize_segment k 0 hr h
        exact ⟨r', hr', hkept', hseg', fun _ => hrem, by simp [hsw]⟩
    | false =>
      have hc : compressed = true := by simpa using hflag
      subst hc
      rw [hr.compression rfl]
      obtain ⟨hkept, hded, hseg⟩ := decompress_segment hr h true
      have hmiddle := hr.plain rfl
      subst hmiddle
      refine ⟨_, rfl, hkept, hseg, fun _ => ?_, by simp [hsw]⟩
      have := cacheDeoptim_remembers (d := d) hseg hr.protocol
      rw [hded] at this
      exact this
  · have hoff : sw.deduplication = false := Bool.eq_false_of_not_eq_true hsw
    have hd := hr.off hoff
    subst hd
    have hc : compressed = true := by simpa using hflag
    subst hc
    rw [if_neg hsw, hr.compression rfl]
    obtain ⟨hkept, hded, hseg⟩ := decompress_segment hr h true
    have hmiddle := hr.plain rfl
    subst hmiddle
    exact ⟨_, rfl, hkept, hseg, by simp [hoff], fun _ => hded⟩

end Data

/-! ### The packet that is received -/

/-- The accelerator that the session has for the destination of a packet from `saddr`. -/
def destinationAccelerator (k : Sockets) (saddr : UInt32) (s : Session) : UInt32 :=
  if saddr = k.largerIP then s.smallerIPAccelerator else s.largerIPAccelerator

/-- Noting the accelerator of the source does not change that of the destination. -/
theorem acceleratesDestination_of_eq {k : Sockets} {localID saddr : UInt32} {s : Session}
    (hend : saddr = k.largerIP ∨ saddr = k.smallerIP)
    (h : destinationAccelerator k saddr s = localID) (v : UInt32) :
    acceleratesDestination localID k saddr (saveacceleratorid k.largerIP v saddr s) = true := by
  unfold acceleratesDestination saveacceleratorid
  unfold destinationAccelerator at h
  by_cases hlarger : saddr = k.largerIP
  · rw [if_pos hlarger] at h
    split <;> simp [hlarger, h]
  · rw [if_neg hlarger] at h
    have hsmaller := hend.resolve_left hlarger
    split <;> simp_all

section Received

variable {d : Daemon} {t : Deoptimizer} {a : Arrival} {n : Nat} {f : Flow} {sq : UInt32}
  {rest data middle wire : List UInt8} {deduplicated compressed : Bool} {oh : OpennopHeader}
  {idA : UInt32} {s : Session}

theorem segment_isData {m m' : Mem} {n' : Nat} {sq' : UInt32} {area data area' data' : List UInt8}
    (h : Segment m n f sq area data) (h' : Segment m' n' f sq' area' data') :
    isData m' = isData m :=
  isData_of_flow (h'.flow.trans h.flow.symm)

/-- The data of a packet of a known session, at the accelerator of its destination. -/
theorem deoptimizeSegment_restores {sw : Switches} {k : Sockets} {area : List UInt8} {r : Decoded}
    (h : Segment r.packet n f (if deduplicated || compressed then sq + 8000 else sq) area wire)
    (hoh : Announcement idA deduplicated compressed oh) (hid : idA ≠ 0)
    (hr : Restorable d sw r.thread.dedup n f area data middle wire deduplicated compressed)
    (hdata : isData r.packet = true)
    (hdest : acceleratesDestination d.localID k (saddr r.packet)
      (saveacceleratorid k.largerIP idA (saddr r.packet) s) = true) :
    ∃ r', deoptimizeSegment d sw k s oh r = some r' ∧ r'.kept = r.kept ∧
      Segment r'.packet n f sq area data ∧
      (sw.deduplication = true → Remembers d r.thread.dedup r'.thread.dedup data) ∧
      (sw.deduplication = false → r'.thread.dedup = r.thread.dedup) := by
  have hc : decide (oh.compression ≠ 0) = compressed := by
    rw [Bool.eq_iff_iff, decide_eq_true_eq, hoh.compression]
  have hd : decide (oh.deduplication ≠ 0) = deduplicated := by
    rw [Bool.eq_iff_iff, decide_eq_true_eq, hoh.deduplication]
  rw [deoptimizeSegment, hoh.opennopID, hdata, decide_eq_true hid, Bool.true_and, if_pos rfl]
  dsimp only
  rw [hc, hd]
  by_cases hflag : (compressed || deduplicated) = true
  · rw [if_pos hflag, if_pos hdest]
    rw [Bool.or_comm, if_pos hflag] at h
    obtain ⟨r', hr', hkept, hseg, hon, hoff⟩ := restore_segment (k := k)
      (r := { r with
        sessions := r.sessions.update k (saveacceleratorid k.largerIP idA (saddr r.packet)) })
      hr hflag h
    rw [UInt32.add_sub_cancel] at hseg
    exact ⟨r', hr', hkept, hseg, hon, hoff⟩
  · rw [if_neg hflag]
    simp only [Bool.not_eq_true, Bool.or_eq_false_iff] at hflag
    obtain ⟨rfl, rfl⟩ := hflag
    have hwire : wire = data := Eq.trans hr.compresses (hr.plain rfl)
    subst hwire
    have hseg : Segment r.packet n f sq area wire := h
    by_cases hsw : sw.deduplication = true
    · rw [if_pos hsw]
      exact ⟨_, rfl, rfl, hseg, fun _ => cacheDeoptim_remembers hseg hr.protocol, by simp [hsw]⟩
    · rw [if_neg hsw]
      exact ⟨_, rfl, rfl, hseg, fun h => absurd h hsw, fun _ => rfl⟩

/-- **What the thread makes of a packet that an accelerator has sent.** -/
theorem deoptimizationStep_received
    (h : Segment a.packet n f (if deduplicated || compressed then sq + 8000 else sq)
      (shortOption OPENNOP_OPTION 1 ++ rest) (oh.bytes ++ wire))
    (hoh : Announcement idA deduplicated compressed oh) (hid : idA ≠ 0)
    (hr : Restorable d a.switches { t.dedup with shared := a.shared } n f
      (shortOption OPENNOP_OPTION 0 ++ rest) data middle wire deduplicated compressed)
    (hdata : isData a.packet = true) (hs : getsession a.sessions (sockets a.packet) = some s)
    (hdest : destinationAccelerator (sockets a.packet) (saddr a.packet) s = d.localID) :
    ∃ o, deoptimizationStep d t a = some o ∧
      o.verdict = .NF_ACCEPT (some (wholePacket o.packet)) ∧
      Segment o.packet n f sq (shortOption OPENNOP_OPTION 0 ++ rest) data ∧
      (a.switches.deduplication = true →
        Remembers d { t.dedup with shared := a.shared } o.thread.dedup data) ∧
      (a.switches.deduplication = false → o.thread.dedup = { t.dedup with shared := a.shared }) := by
  obtain ⟨hget, hann, hread⟩ := announced_segment h (by decide) hoh.pattern
  obtain ⟨m, hstrip, hseg⟩ := stripHeader_segment h oh.length_bytes
  have hsock := segment_sockets h hseg
  have haddr : saddr m = saddr a.packet := (segment_saddr hseg).trans (segment_saddr h).symm
  rw [deoptimizationStep]
  dsimp only
  rw [hget]
  dsimp only
  rw [if_pos hann, hstrip]
  dsimp only
  rw [deoptimizeStripped, hsock, hs, hread]
  dsimp only
  obtain ⟨r, hres, hkept, hseg', hon, hoff⟩ := deoptimizeSegment_restores (d := d)
    (k := sockets a.packet) (s := s)
    (r := ⟨⟨{ t.dedup with shared := a.shared }, oh.seqNo + 1, _⟩, a.sessions, m, [], true⟩)
    hseg hoh hid hr (by rw [segment_isData h hseg]; exact hdata)
    (by
      rw [haddr]
      exact acceleratesDestination_of_eq (saddr_sockets a.packet) hdest idA)
  rw [hres, Option.map_some]
  refine ⟨_, rfl, ?_, ?_, hon, hoff⟩
  · simp [deliver, hkept]
  · simp only [deliver, hkept, if_true]
    exact hseg'.checksum

end Received

end Solowan.Worker
