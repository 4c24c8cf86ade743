/-
The lengths that are computed for the TCP data of a packet.

The fetcher and the deoptimization thread compare one with the size of a header, and the four
functions that deduplicate take one for the length of the data. Nobody checks the headers of
the packet before: where they reach behind the packet, the difference wraps.

* `lengths_exact_iff`: for a packet that the fetcher queues, and whatever the thread finds that
  takes it, every length is the difference it is meant to be if the headers end inside the
  packet, the option that is added does not take `tot_len` beyond 16 bits, and a header that is
  taken off stands behind a whole TCP header. With a whole TCP header this is needed as well.
* `overlong_header_reaches_optimizer`: the fetcher does not check that.
-/

import Solowan.Fetcher.Dispatch
import Solowan.Net.OptionWalk

namespace Solowan.Fetcher

open Solowan.Memory Solowan.Dictionary Solowan.Net Solowan.Sessions Solowan.Worker

/-! ### Exact lengths -/

/-- The length of the data is what is left of `tot_len` behind the headers. -/
def PayloadExact (m : Mem) : Prop := (payloadSize m : Int) = totLen m - 4 * ihl m - 4 * doff m

/-- So is the length that is compared with the size of a header, if option 32 is found; and a
packet that passes the guards has room for a header. -/
def GuardExact (m : Mem) : Prop :=
  ∀ option, getTcpOption m OPENNOP_OPTION = some option → option ≠ 0 →
    (incomingLen m : Int) = totLen m - 4 * ihl m - 4 * doff m ∧
      (announced m option = true → 4 * ihl m + 4 * doff m + OPENNOP_HEADER ≤ totLen m)

section Exact

variable {m m' : Mem}

theorem payloadExact_iff : PayloadExact m ↔ Consistent m := by
  constructor
  · intro h
    unfold PayloadExact at h
    unfold Consistent
    omega
  · intro h
    have hpay := payloadSize_of_consistent h
    unfold Consistent at h
    unfold PayloadExact
    omega

theorem guardExact_iff : GuardExact m ↔
    ∀ option, getTcpOption m OPENNOP_OPTION = some option → option ≠ 0 → Consistent m := by
  constructor
  · intro h option hopt hne
    have hexact := (h option hopt hne).1
    unfold Consistent
    omega
  · intro h option hopt hne
    have hcons := h option hopt hne
    have hinc := incomingLen_of_consistent hcons
    unfold Consistent at hcons
    refine ⟨by omega, fun hann => ?_⟩
    unfold announced at hann
    simp only [Bool.and_eq_true, Bool.not_eq_true', decide_eq_false_iff_not] at hann
    omega

/-- The guards leave room for a header. -/
theorem incomingLen_of_announced {option : UInt64} (h : announced m option = true) :
    OPENNOP_HEADER ≤ incomingLen m := by
  unfold announced at h
  simp only [Bool.and_eq_true, Bool.not_eq_true', decide_eq_false_iff_not] at h
  omega

end Exact

/-! ### The option that is added -/

/-- The dwords by which `__set_tcp_option` lengthens the option area: none if the option is there
with its length, and else what is missing once the no-operations are gone. -/
def lengthening (m : Mem) (tcpoptnum tcpoptlen : Nat) : Nat :=
  match if doff m > 5 then walk m (opt m) (optArea m) (setStop m tcpoptnum tcpoptlen) WALK 0
    else some none with
  | some none =>
    match if doff m > 5 then compact (opt m) (optArea m) (WALK * WALK) 0 m else some (m, 0) with
    | some (_, optspace) => addOff optspace tcpoptlen
    | none => 0
  | _ => 0

section Option

variable {m m' : Mem} {num len space : Nat} {data : UInt64} {r : Int}

theorem insertOption_grown (h : insertOption m num len data space = some (r, m')) (hr : r ≠ -1) :
    5 ≤ doff m ∧ doff m' = doff m + addOff space len ∧
      totLen m' = (totLen m + 4 * addOff space len) % 65536 := by
  unfold insertOption at h
  dsimp only at h
  split at h
  · rename_i hroom
    split at h
    · cases h
    · rename_i hneg
      cases h
      have hdoff : 5 ≤ doff m := by omega
      have hwrite : SameHeaders m
          (writeOption (growOptions m (addOff space len)) num len data space) :=
        sameHeaders_writeOption hdoff
      refine ⟨hdoff, ?_, ?_⟩
      · unfold putOption
        dsimp only
        split
        · rw [doff_setTotLen, doff_setDoff, hwrite.doff]
          omega
        · rw [doff_setTotLen, hwrite.doff]
          omega
      · unfold putOption
        dsimp only
        rw [totLen_setTotLen]
        split
        · rw [totLen_setDoff, hwrite.totLen, Nat.mul_comm]
        · rw [hwrite.totLen, Nat.mul_comm]
  · cases h
    exact absurd rfl hr

/-- An option that is set lengthens the area by so much, and `tot_len` with it. -/
theorem setTcpOption_grown (h : setTcpOption m num len data = some (r, m')) (hr : r ≠ -1) :
    5 ≤ doff m ∧ doff m' = doff m + lengthening m num len ∧
      totLen m' = (totLen m + 4 * lengthening m num len) % 65536 := by
  unfold setTcpOption at h
  unfold lengthening setStop
  dsimp only at h
  split at h
  · cases h
  · rename_i i hfound
    cases h
    obtain ⟨hdoff, hsame⟩ := sameHeaders_found data len hfound
    rw [hfound]
    refine ⟨by omega, hsame.doff, ?_⟩
    rw [hsame.totLen, Nat.mul_zero, Nat.add_zero, Nat.mod_eq_of_lt (totLen_lt m)]
  · rename_i hfound
    rw [hfound]
    split at h
    · cases h
    · rename_i m₁ space hcompact
      have hsame := sameHeaders_compacted hcompact
      obtain ⟨hdoff, hgrown, htot⟩ := insertOption_grown h hr
      rw [hcompact]
      dsimp only
      rw [← hsame.doff, ← hsame.totLen]
      exact ⟨hdoff, hgrown, htot⟩

/-- Behind an option that was set, the lengths agree if they did before and `tot_len` has not
wrapped. -/
theorem consistent_setTcpOption (h : setTcpOption m num len data = some (r, m')) (hr : r ≠ -1) :
    Consistent m' ↔ Consistent m ∧ totLen m + 4 * lengthening m num len < 65536 := by
  obtain ⟨hdoff, hgrown, htot⟩ := setTcpOption_grown h hr
  have hihl := (setTcpOption_kept h).1.ihl
  have hlt := totLen_lt m
  unfold Consistent
  rw [hgrown, htot, hihl]
  omega

end Option

/-! ### What the optimization thread hands over -/

/-- What the optimization thread finds with a packet makes it hand the data of `m` to
`tcp_optimize` or to `tcp_cache_optim`: deduplication is on, and the packet is a data segment of
a known session that has no option 32 and becomes `m` when it gets it. -/
structure Handed (a : Arrival) (m : Mem) : Prop where
  deduplication : a.switches.deduplication = true
  option : getTcpOption a.packet OPENNOP_OPTION = some 0
  known : getsession a.sessions (sockets a.packet) ≠ none
  data : isData a.packet = true
  set : ∃ r, r ≠ -1 ∧ setTcpOption a.packet OPENNOP_OPTION.toNat 3 1 = some (r, m)

/-- The thread does so: its step goes on with `m`. -/
structure HandsOver (d : Daemon) (t : Optimizer) (a : Arrival) (m : Mem) : Prop
    extends Handed a m where
  step : ∃ t' sessions k s headersBefore,
    optimizationStep d t a = tagPacket d a.switches t' sessions k s headersBefore m

theorem Handed.handsOver {a : Arrival} {m : Mem} (h : Handed a m) (d : Daemon) (t : Optimizer) :
    HandsOver d t a m := by
  refine ⟨h, ?_⟩
  obtain ⟨r, hr, hset⟩ := h.set
  obtain ⟨s, hs⟩ := Option.ne_none_iff_exists'.mp h.known
  rw [optimizationStep]
  dsimp only
  rw [if_pos (Or.inr (Or.inl h.deduplication)), h.option]
  dsimp only
  rw [if_neg (by simp), hs]
  dsimp only
  rw [if_pos h.data, hset]
  dsimp only
  rw [if_neg hr]
  exact ⟨_, _, _, _, _, rfl⟩

/-! ### What the deoptimization thread hands over -/

/-- What `tcp_decompress` leaves of a packet; nothing else is left to undo when it is `last`. -/
def unpack (d : Daemon) (last : Bool) (m : Mem) : Mem :=
  let (redComp, m) := tcpDecompress d m
  if redComp < 0 then m else if last then unmarkSeq m else m

/-- What the deoptimization thread finds with a packet makes it hand the data of `m` to
`tcp_deoptimize` or to `tcp_cache_deoptim`: deduplication is on, the packet is announced and
loses its header, and what is left is a data segment of a known session from an accelerator. If it
has a flag, this box is the accelerator of its destination; if it is to be decompressed, that
comes first. -/
structure Restored (d : Daemon) (a : Arrival) (stripped m : Mem) : Prop where
  deduplication : a.switches.deduplication = true
  announced : ∃ option, getTcpOption a.packet OPENNOP_OPTION = some option ∧
    announced a.packet option = true
  strip : stripHeader a.packet = some stripped
  data : isData stripped = true ∧ (opennopHeader a.packet).opennopID ≠ 0
  known : ∃ s, getsession a.sessions (sockets stripped) = some s ∧
    ((opennopHeader a.packet).compression ≠ 0 ∨ (opennopHeader a.packet).deduplication ≠ 0 →
      acceleratesDestination d.localID (sockets stripped) (saddr stripped)
        (saveacceleratorid (sockets stripped).largerIP (opennopHeader a.packet).opennopID
          (saddr stripped) s) = true)
  packet : m =
    if a.switches.compression && decide ((opennopHeader a.packet).compression ≠ 0) then
      unpack d (!decide ((opennopHeader a.packet).deduplication ≠ 0)) stripped
    else stripped

/-- The thread does so: its step calls one of the two on `m`. -/
structure HandsBack (d : Daemon) (t : Deoptimizer) (a : Arrival) (stripped m : Mem) : Prop
    extends Restored d a stripped m where
  step : ∃ k headersBefore redComp, ∃ r : Decoded, r.packet = m ∧
    (deoptimizationStep d t a = (deoptimize d k redComp r).map (deliver k headersBefore) ∨
      deoptimizationStep d t a = some (deliver k headersBefore (cacheDeoptim d r)))

theorem decompress_packet (d : Daemon) (last : Bool) (r : Decoded) :
    (decompress d last r).2.packet = unpack d last r.packet := by
  rw [decompress, unpack]
  dsimp only
  split <;> rfl

/-- With deduplication on, one of the two functions gets what is left of a packet. -/
theorem restore_calls (d : Daemon) {sw : Switches} (h : sw.deduplication = true) (k : Sockets)
    (compressPresent dedupPresent : Bool) (r : Decoded) :
    ∃ redComp r', r'.packet =
        (if sw.compression && compressPresent then unpack d (!dedupPresent) r.packet
          else r.packet) ∧
      (restore d sw k compressPresent dedupPresent r = deoptimize d k redComp r' ∨
        restore d sw k compressPresent dedupPresent r = some (cacheDeoptim d r')) := by
  rw [restore, if_pos h]
  by_cases hcomp : (sw.compression && compressPresent) = true
  · rw [if_pos hcomp, if_pos hcomp]
    refine ⟨(decompress d (!dedupPresent) r).1, _, decompress_packet d (!dedupPresent) r, ?_⟩
    cases dedupPresent with
    | true => exact Or.inl rfl
    | false => exact Or.inr rfl
  · rw [if_neg hcomp, if_neg hcomp]
    cases dedupPresent with
    | true => exact ⟨0, r, rfl, Or.inl rfl⟩
    | false => exact ⟨0, r, rfl, Or.inr rfl⟩

theorem Restored.segment {d : Daemon} {a : Arrival} {stripped m : Mem} {s : Session}
    (h : Restored d a stripped m) (hdest : (opennopHeader a.packet).compression ≠ 0 ∨
      (opennopHeader a.packet).deduplication ≠ 0 →
        acceleratesDestination d.localID (sockets stripped) (saddr stripped)
          (saveacceleratorid (sockets stripped).largerIP (opennopHeader a.packet).opennopID
            (saddr stripped) s) = true) {r : Decoded} (hr : r.packet = stripped) :
    ∃ redComp r', r'.packet = m ∧
      (deoptimizeSegment d a.switches (sockets stripped) s (opennopHeader a.packet) r =
          deoptimize d (sockets stripped) redComp r' ∨
        deoptimizeSegment d a.switches (sockets stripped) s (opennopHeader a.packet) r =
          some (cacheDeoptim d r')) := by
  have hpacket := h.packet
  subst hr
  rw [deoptimizeSegment]
  dsimp only
  rw [if_pos (by simp [h.data])]
  by_cases hflag : (opennopHeader a.packet).compression ≠ 0 ∨
      (opennopHeader a.packet).deduplication ≠ 0
  · rw [if_pos (by simpa using hflag), if_pos (hdest hflag)]
    obtain ⟨redComp, r', hr', hcalls⟩ := restore_calls d h.deduplication (sockets r.packet)
      (decide ((opennopHeader a.packet).compression ≠ 0))
      (decide ((opennopHeader a.packet).deduplication ≠ 0)) { r with
        sessions := r.sessions.update (sockets r.packet) (saveacceleratorid
          (sockets r.packet).largerIP (opennopHeader a.packet).opennopID (saddr r.packet)) }
    exact ⟨redComp, r', by rw [hr', hpacket], hcalls⟩
  · rw [not_or, not_not, not_not] at hflag
    rw [if_neg (by simp [hflag]), if_pos h.deduplication]
    rw [hflag.1] at hpacket
    exact ⟨0, _, by rw [hpacket]; simp, Or.inr rfl⟩

theorem Restored.handsBack {d : Daemon} {a : Arrival} {stripped m : Mem}
    (h : Restored d a stripped m) (t : Deoptimizer) : HandsBack d t a stripped m := by
  refine ⟨h, ?_⟩
  obtain ⟨option, hopt, hann⟩ := h.announced
  obtain ⟨s, hs, hdest⟩ := h.known
  rw [deoptimizationStep]
  dsimp only
  rw [hopt]
  dsimp only
  rw [if_pos hann, h.strip]
  dsimp only
  rw [deoptimizeStripped]
  dsimp only
  rw [hs]
  dsimp only
  generalize hr : Decoded.mk _ a.sessions stripped [] true = r
  have hpacket : r.packet = stripped := by rw [← hr]
  obtain ⟨redComp, r', hr', hcall | hcall⟩ := h.segment hdest hpacket
  · rw [hcall]
    exact ⟨_, _, _, r', hr', Or.inl rfl⟩
  · rw [hcall]
    exact ⟨_, _, redComp, r', hr', Or.inr rfl⟩

/-- Behind a whole TCP header, a header is taken off with lengths that agree. -/
theorem consistent_stripHeader {m m' : Mem} {option : UInt64} (h : stripHeader m = some m')
    (hcons : Consistent m) (hdoff : 5 ≤ doff m) (hann : announced m option = true) :
    Consistent m' ∧ 5 ≤ doff m' := by
  have hlen := incomingLen_of_announced hann
  have hinc := incomingLen_of_consistent hcons
  have hlt := totLen_lt m
  rw [stripHeader] at h
  dsimp only at h
  obtain ⟨⟨r, m₂⟩, hset, rfl⟩ := Option.map_eq_some_iff.mp h
  have hmoved := sameHeaders_memmove (m := m) (tcpdata m + OPENNOP_HEADER)
    (incomingLen m - OPENNOP_HEADER) (tcph_le_tcpdata hdoff)
  obtain ⟨k, hk, hd, htot⟩ := setTcpOption_lengths hset (by rw [hmoved.doff]; exact hdoff)
  have hihl := (setTcpOption_kept hset).1.ihl
  rw [hmoved.doff] at hd
  rw [hmoved.totLen] at htot
  rw [hmoved.kept.ihl] at hihl
  unfold Consistent at hcons ⊢
  dsimp only
  have hsame := sameSegment_addTotLen m₂ (-OPENNOP_HEADER)
  have hcut : totLen (addTotLen m₂ (-OPENNOP_HEADER)) =
      (((totLen m₂ : Int) + -OPENNOP_HEADER) % 65536).toNat % 65536 := by
    rw [addTotLen, totLen_setTotLen]
  rw [ihl_checksum, doff_checksum, totLen_checksum, hsame.kept.ihl, hsame.doff, hcut, hd, htot, hihl]
  unfold OPENNOP_HEADER at hlen ⊢
  omega

/-- What `tcp_decompress` restores does not take `tot_len` beyond 16 bits. -/
def BlockFits (d : Daemon) (m : Mem) : Prop :=
  ∀ block, protocol m = IPPROTO_TCP → tcpdata m < totLen m →
    d.qlz.decompress (window m (tcpdata m)) = some block →
    tcpdata m ≤ (tcpdata m + block.length) % 65536

theorem consistent_unpack {m : Mem} (hcons : Consistent m) (hdoff : 5 ≤ doff m) (d : Daemon)
    (last : Bool) : Consistent (unpack d last m) ↔ BlockFits d m := by
  have hlengths : ∀ bs : List UInt8, tcpdata m < totLen m →
      (Consistent (replaceData m bs ((totLen m : Int) - ihl m * 4 - doff m * 4)) ↔
        tcpdata m ≤ (tcpdata m + bs.length) % 65536) := by
    intro bs hdata
    have htot := totLen_replaceData hdoff bs ((totLen m : Int) - ihl m * 4 - doff m * 4)
    have hsame := sameSegment_replaceData hdoff bs ((totLen m : Int) - ihl m * 4 - doff m * 4)
    unfold Consistent
    rw [hsame.kept.ihl, hsame.doff]
    unfold tcpdata tcph at hdata ⊢
    omega
  have hmark : ∀ m' : Mem, Consistent (unmarkSeq m') ↔ Consistent m' := by
    intro m'
    unfold Consistent unmarkSeq
    rw [ihl_setSeq, doff_setSeq, totLen_setSeq]
  unfold unpack tcpDecompress BlockFits
  by_cases htcp : protocol m = IPPROTO_TCP
  · by_cases hdata : tcpdata m < totLen m
    · have hsize : (totLen m : Int) - ihl m * 4 - doff m * 4 > 0 := by
        unfold tcpdata tcph at hdata
        omega
      simp only [if_pos htcp, if_pos hsize]
      cases hblock : d.qlz.decompress (window m (tcpdata m)) with
      | none => simp [hcons]
      | some block =>
        dsimp only
        have hiff := hlengths block hdata
        split
        · simpa [htcp, hdata] using hiff
        · split
          · rw [hmark]
            simpa [htcp, hdata] using hiff
          · simpa [htcp, hdata] using hiff
    · have hsize : ¬ (totLen m : Int) - ihl m * 4 - doff m * 4 > 0 := by
        unfold tcpdata tcph at hdata
        omega
      simp only [if_pos htcp, if_neg hsize]
      simp [hcons, hdata]
  · simp [htcp, hcons]

/-! ### A packet and the thread that takes it -/

/-- The arrival at which the copy of a delivered packet is taken. -/
def takenFrom (p : Delivery) (a : Arrival) : Arrival :=
  { a with packet := savePacket p.originalpacket p.ret }

/-- The lengths that the fetcher and the thread of a queue compute are exact: those of the guards,
and those of the four functions. -/
structure LengthsExact (d : Daemon) (t : Optimizer) (u : Deoptimizer) (p : Delivery) (a : Arrival)
    (q : Queued) : Prop where
  fetcher : GuardExact p.originalpacket
  optimize : ∀ queue m, q = .optimize queue m →
    ∀ m', HandsOver d t (takenFrom p a) m' → PayloadExact m'
  deoptimize : ∀ queue m, q = .deoptimize queue m → GuardExact (takenFrom p a).packet ∧
    ∀ stripped m', HandsBack d u (takenFrom p a) stripped m' → PayloadExact m'

/-- The headers end inside the packet. Beyond that, `tot_len` has room for the option that is
added, if a thread adds one, a header is taken off behind a whole TCP header only, and a block
that is restored does not take `tot_len` beyond 16 bits. -/
structure LengthsFit (d : Daemon) (p : Delivery) (a : Arrival) (option : UInt64) : Prop where
  fetcher : option ≠ 0 → Consistent p.originalpacket
  optimize : remoteId p.originalpacket option = 0 → ∀ m, Handed (takenFrom p a) m →
    Consistent (takenFrom p a).packet ∧ totLen (takenFrom p a).packet +
      4 * lengthening (takenFrom p a).packet OPENNOP_OPTION.toNat 3 < 65536
  deoptimize : remoteId p.originalpacket option ≠ 0 →
    (∀ value, getTcpOption (takenFrom p a).packet OPENNOP_OPTION = some value → value ≠ 0 →
      Consistent (takenFrom p a).packet) ∧
    ∀ stripped m, Restored d (takenFrom p a) stripped m → 5 ≤ doff (takenFrom p a).packet ∧
      ((a.switches.compression &&
          decide ((opennopHeader (takenFrom p a).packet).compression ≠ 0)) = true →
        BlockFits d stripped)

section Packet

variable {d : Daemon} {a : Arrival} {m stripped : Mem}

theorem Handed.exact_iff (h : Handed a m) : PayloadExact m ↔ Consistent a.packet ∧
    totLen a.packet + 4 * lengthening a.packet OPENNOP_OPTION.toNat 3 < 65536 := by
  obtain ⟨r, hr, hset⟩ := h.set
  rw [payloadExact_iff, consistent_setTcpOption hset hr]

theorem Restored.exact_iff (h : Restored d a stripped m) (hcons : Consistent a.packet)
    (hdoff : 5 ≤ doff a.packet) : PayloadExact m ↔
      ((a.switches.compression && decide ((opennopHeader a.packet).compression ≠ 0)) = true →
        BlockFits d stripped) := by
  obtain ⟨option, -, hann⟩ := h.announced
  obtain ⟨hcons', hdoff'⟩ := consistent_stripHeader h.strip hcons hdoff hann
  rw [payloadExact_iff, h.packet]
  split
  · rename_i hcomp
    rw [consistent_unpack hcons' hdoff']
    exact ⟨fun hfits _ => hfits, fun hfits => hfits hcomp⟩
  · rename_i hcomp
    exact ⟨fun _ hin => absurd hin hcomp, fun _ => hcons'⟩

/-- An announced packet has option 32. -/
theorem ne_zero_of_announced {option : UInt64} (h : announced m option = true) : option ≠ 0 := by
  unfold announced at h
  simp only [Bool.and_eq_true, decide_eq_true_eq] at h
  exact h.1.1

/-- **Every length is exact** where the headers of the packet fit. With a whole TCP header, that is
needed as well. -/
theorem lengths_exact_iff (d : Daemon) (t : Optimizer) (u : Deoptimizer) (f : FetcherState)
    (p : Delivery) (a : Arrival) :
    ((∀ option, getTcpOption p.originalpacket OPENNOP_OPTION = some option →
        queues f p option = true → LengthsFit d p a option) →
      ∀ o q, fetcherCallback d f p = some o → o.queued = some q → LengthsExact d t u p a q) ∧
    (5 ≤ doff (takenFrom p a).packet →
      (∀ o q, fetcherCallback d f p = some o → o.queued = some q → LengthsExact d t u p a q) →
      ∀ option, getTcpOption p.originalpacket OPENNOP_OPTION = some option →
        queues f p option = true → LengthsFit d p a option) := by
  constructor
  · intro h o q ho hqueue
    obtain ⟨option, queue, hopt, hq, rfl⟩ := queues_of_queued ho hqueue
    have hfit := h option hopt hq
    refine ⟨guardExact_iff.mpr fun option' hopt' hne => ?_, ?_, ?_⟩
    · rw [hopt] at hopt'
      cases hopt'
      exact hfit.fetcher hne
    · intro queue' m hm m' hover
      split at hm
      · rename_i hid
        exact hover.toHanded.exact_iff.mpr (hfit.optimize hid m' hover.toHanded)
      · cases hm
    · intro queue' m hm
      split at hm
      · cases hm
      · rename_i hid
        obtain ⟨hguard, hback⟩ := hfit.deoptimize hid
        refine ⟨guardExact_iff.mpr hguard, fun stripped m' hhands => ?_⟩
        have hrest := hhands.toRestored
        obtain ⟨value, hvalue, hann⟩ := hrest.announced
        obtain ⟨hdoff, hblock⟩ := hback stripped m' hrest
        exact (hrest.exact_iff (hguard value hvalue (ne_zero_of_announced hann)) hdoff).mpr hblock
  · intro hdoff h option hopt hq
    obtain ⟨o, queue, ho, hqueue⟩ := fetcherCallback_of_queues d hopt hq
    have hexact := h o _ ho hqueue
    refine ⟨fun hne => guardExact_iff.mp hexact.fetcher option hopt hne, ?_, ?_⟩
    · intro hid m hhanded
      exact hhanded.exact_iff.mp
        (hexact.optimize queue _ (if_pos hid) m (hhanded.handsOver d t))
    · intro hid
      obtain ⟨hguard, hback⟩ := hexact.deoptimize queue _ (if_neg hid)
      rw [guardExact_iff] at hguard
      refine ⟨hguard, fun stripped m hrest => ⟨hdoff, ?_⟩⟩
      obtain ⟨value, hvalue, hann⟩ := hrest.announced
      exact (hrest.exact_iff (hguard value hvalue (ne_zero_of_announced hann)) hdoff).mp
        (hback stripped m (hrest.handsBack u))

end Packet

/-! ### A segment whose headers fit, and one whose headers do not -/

/-- A worker that deduplicates and knows the session of a packet. -/
def deduplicatingFor (bytes : List UInt8) : Arrival :=
  ⟨ofList [], (fetcherOf bytes).sessions, initDictionary Codec.zeroed Codec.zeroed,
    ⟨false, true, false⟩⟩

/-- Sixty-four bytes of a client. -/
def clientSegment : List UInt8 := plainSegment 1 2 0x10 1000 (List.replicate 64 7)

set_option maxRecDepth 20000 in
/-- Its lengths are exact, and so is that of the data when the option has been added. -/
theorem clientSegment_lengths (t : Optimizer) (u : Deoptimizer) : ∀ o q,
    fetcherCallback sharedBox (fetcherOf clientSegment) (deliveryOf clientSegment) = some o →
      o.queued = some q →
      LengthsExact sharedBox t u (deliveryOf clientSegment) (deduplicatingFor clientSegment) q := by
  refine (lengths_exact_iff sharedBox t u _ _ _).1 fun option hopt _ => ?_
  have hzero : getTcpOption (deliveryOf clientSegment).originalpacket OPENNOP_OPTION = some 0 := by
    decide
  rw [hzero] at hopt
  cases hopt
  exact ⟨fun hne => absurd rfl hne, fun _ _ _ => by decide, fun hid => absurd (by decide) hid⟩

/-- A segment of 44 bytes whose data offset is that of a TCP header of 60. -/
def overlongSegment : List UInt8 :=
  [0x45, 0, 0, 44, 0, 0, 0, 0, 64, 6, 0, 0, 10, 0, 0, 1, 10, 0, 0, 2, 0x30, 0x39, 0x30, 0x39, 0, 0,
    0, 1, 0, 0, 0, 1, 0xf0, 0x10, 0xff, 0xff, 0, 0, 0, 0, 0, 0, 0, 0]

set_option maxRecDepth 20000 in
/-- The fetcher puts a packet into the queue of the optimization thread whose length has wrapped
when its data is handed over. -/
theorem overlong_header_reaches_optimizer : ∃ o q m,
    fetcherCallback sharedBox (fetcherOf overlongSegment) (deliveryOf overlongSegment) = some o ∧
      o.queued = some q ∧
      Handed (takenFrom (deliveryOf overlongSegment) (deduplicatingFor overlongSegment)) m ∧
      payloadSize m = 65500 ∧ (totLen m : Int) - 4 * ihl m - 4 * doff m = -36 ∧
      ∀ t u, ¬ LengthsExact sharedBox t u (deliveryOf overlongSegment)
        (deduplicatingFor overlongSegment) q := by
  have hopt : getTcpOption (deliveryOf overlongSegment).originalpacket OPENNOP_OPTION = some 0 := by
    decide
  have hq : queues (fetcherOf overlongSegment) (deliveryOf overlongSegment) 0 = true := by
    decide
  obtain ⟨o, queue, ho, hqueue⟩ := fetcherCallback_of_queues sharedBox hopt hq
  have hset : (setTcpOption (takenFrom (deliveryOf overlongSegment)
      (deduplicatingFor overlongSegment)).packet OPENNOP_OPTION.toNat 3 1).map
        (fun r => (r.1, payloadSize r.2, totLen r.2, ihl r.2, doff r.2)) =
      some (0, 65500, 44, 5, 15) := by decide
  obtain ⟨⟨r, m⟩, hset, hlengths⟩ := Option.map_eq_some_iff.mp hset
  simp only [Prod.mk.injEq] at hlengths
  obtain ⟨hr, hpay, htot, hihl, hdoff⟩ := hlengths
  have hhanded : Handed (takenFrom (deliveryOf overlongSegment)
      (deduplicatingFor overlongSegment)) m :=
    ⟨rfl, by decide, by decide, by decide, r, by rw [hr]; decide, hset⟩
  refine ⟨o, _, m, ho, hqueue, hhanded, hpay, by rw [htot, hihl, hdoff]; decide, ?_⟩
  intro t u hexact
  have hpayload := hexact.optimize queue _ rfl m (hhanded.handsOver sharedBox t)
  rw [PayloadExact, hpay, htot, hihl, hdoff] at hpayload
  cases hpayload

end Solowan.Fetcher
