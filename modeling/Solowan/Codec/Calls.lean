/-
What one call does to the dictionaries.

Every call of `dedup`, `put_in_cache`, `update_caches` and `uncomp` either leaves the
stores alone or stores one packet, which appends it to the log; short packets are never
stored (`logAfter`).

* `cacheAndCompressIfNeeded_thread`, `cacheAndCompressIfNeeded_shared`: the call returns,
  stores the packet, and what it sends is a packet in the format of `Codec.Format` whose
  references name packets of the log.
* `uncompThread_encode`: on such an input, and with any dictionary whatsoever, `uncomp`
  stays inside its input, and returns either a packet of the right hash, which it has
  stored as `update_caches` would, or another code, and then has stored nothing.
* `uncompShared_encode`: on such an input, a shared dictionary that has the packets
  referred to gives the packet back.
-/

import Solowan.Codec.Encoding
import Solowan.Codec.Decoding

namespace Solowan.Codec

open Solowan.Memory Solowan.Dictionary

/-- The log after a packet was handed to a dictionary. -/
def logAfter (log : Log) (packet : List UInt8) : Log :=
  if packet.length < BETA then log else log ++ [packet]

/-- What `optpkt`, `optlen` say about the packet: nothing was found, or the bytes are a
compressed packet that expands to it and whose references can be resolved. -/
def Sent (cfg : Config) (H : PacketHash) (fps : FPStore) (log : Log) (packet : List UInt8)
    (optpkt : Mem) (optlen : Nat) : Prop :=
  optlen = packet.length ∨
    optlen + 40 ≤ packet.length ∧ ∃ t ts tail,
      slice optpkt 0 optlen = encode (H packet) (t :: ts) tail ∧
      expand (t :: ts) tail = packet ∧ ts.length < cfg.FPPERPKT ∧
      ∀ u ∈ t :: ts, ∃ fpt, (Resolvable cfg H fps log fpt ∧ fpt.pktLen ≤ cfg.longestFound) ∧
        u.Names fpt

/-! ### Compressing -/

section Compress

variable {cfg : Config} {H : PacketHash} {pd : Deduplicator} {g : SharedDictionaries} {log : Log}
  {packet : List UInt8}

/-- The end of a call on an encoded packet: it returns. -/
theorem finishPacket_encoded (pd : Deduplicator) (g : SharedDictionaries) {s : Encoder} {ts : List Token} {tail : List UInt8}
    {found : Reference → Prop} (h : Encoded packet (H packet) found s ts tail)
    (hsize : packet.length ≤ cfg.MAXPKTSIZE) (optpkt : Mem) (compress : Bool) :
    ∃ o, finishPacket cfg pd g packet optpkt s compress = some o ∧ o.pd.ps = pd.ps ∧
      o.pd.fps = pd.fps ∧ o.g = g ∧
      (compress = true → o.optpkt = s.optpkt ∧ o.optlen = s.optlen) ∧
      (compress = false → o.optlen = packet.length) := by
  have horig := h.orig_le
  have hlen : s.optlen ≤ packet.length := by
    by_cases hts : ts = []
    · rw [h.plain hts]
    · have := (h.short hts).2
      omega
  cases compress with
  | false => exact ⟨_, rfl, rfl, rfl, rfl, fun hc => absurd hc (by decide), fun _ => rfl⟩
  | true =>
    have hok : (s.asserts && decide (s.optlen ≤ cfg.MAXPKTSIZE) &&
        decide (s.orig ≤ cfg.MAXPKTSIZE)) = true := by
      simp only [h.asserts, Bool.true_and, Bool.and_eq_true, decide_eq_true_eq]
      omega
    refine ⟨_, by rw [finishPacket, if_pos rfl, if_pos hok], rfl, rfl, rfl,
      fun _ => ⟨rfl, rfl⟩, fun hc => absurd hc (by decide)⟩

/-- An encoded packet as it is sent. -/
theorem Encoded.sent {fps : FPStore} {s : Encoder} {ts : List Token} {tail : List UInt8}
    (h : Encoded packet (H packet)
      (fun fpt => Resolvable cfg H fps log fpt ∧ fpt.pktLen ≤ cfg.longestFound) s ts tail)
    (hts : ts.length ≤ cfg.FPPERPKT) : Sent cfg H fps log packet s.optpkt s.optlen := by
  cases ts with
  | nil => exact Or.inl (h.plain rfl)
  | cons t ts =>
    have hne : t :: ts ≠ [] := List.cons_ne_nil t ts
    refine Or.inr ⟨(h.short hne).2, t, ts, tail, h.wire hne, h.expands, ?_, h.names⟩
    rw [List.length_cons] at hts
    omega

/-- A packet that is not short, with the thread dictionary: it is stored, and encoded by what
the lookups behind that have found. -/
theorem cacheAndCompressIfNeeded_long (pd : Deduplicator) (g : SharedDictionaries)
    (hmode : cfg.shared_dictionary_mode = false) (hlong : BETA ≤ packet.length) (optpkt : Mem)
    (compress : Bool) :
    ∃ pd', cacheAndCompressIfNeeded cfg H pd g packet optpkt compress =
        finishPacket cfg pd' g packet optpkt (encodePacket cfg packet (H packet)
          (threadCandidates cfg pd.fps (putPkt cfg pd.ps packet (H packet)).1 packet
            (calculateRelevantFPs cfg packet)) optpkt) compress ∧
      pd'.ps = (storePacket cfg pd packet (H packet) (calculateRelevantFPs cfg packet)).ps ∧
      pd'.fps = (storePacket cfg pd packet (H packet) (calculateRelevantFPs cfg packet)).fps := by
  rw [cacheAndCompressIfNeeded]
  dsimp only
  rw [if_neg (by omega), if_neg (by simp [hmode])]
  exact ⟨_, rfl, rfl, (storePacket_count cfg pd _ packet _ _).2⟩

/-- A call that compresses or caches a packet with the thread dictionary. -/
theorem cacheAndCompressIfNeeded_thread (g : SharedDictionaries) (hcfg : cfg.Valid)
    (hmode : cfg.shared_dictionary_mode = false) (h : pd.Represents cfg H log)
    (hsize : packet.length ≤ cfg.MAXPKTSIZE) (optpkt : Mem) (compress : Bool) :
    ∃ o, cacheAndCompressIfNeeded cfg H pd g packet optpkt compress = some o ∧
      o.pd.Represents cfg H (logAfter log packet) ∧
      (packet.length < BETA → o.pd.ps = pd.ps ∧ o.pd.fps = pd.fps) ∧
      (BETA ≤ packet.length →
        o.pd.ps = (storePacket cfg pd packet (H packet) (calculateRelevantFPs cfg packet)).ps ∧
        o.pd.fps = (storePacket cfg pd packet (H packet) (calculateRelevantFPs cfg packet)).fps) ∧
      (compress = true → Sent cfg H pd.fps log packet o.optpkt o.optlen) ∧
      (compress = false → o.optlen = packet.length) := by
  rw [logAfter]
  by_cases hshort : packet.length < BETA
  · rw [if_pos hshort, cacheAndCompressIfNeeded]
    dsimp only
    rw [if_pos hshort]
    refine ⟨_, rfl, h.of_stores rfl rfl, fun _ => ⟨rfl, rfl⟩, fun hlong => ?_, fun _ => Or.inl rfl,
      fun _ => rfl⟩
    omega
  · rw [if_neg hshort]
    have hlong : BETA ≤ packet.length := by omega
    have hfps := calculateRelevantFPs_length packet hcfg.fp_pos
    have hlongest : cfg.longestFound = cfg.MAXPKTSIZE := if_neg (by simp [hmode])
    obtain ⟨ts, tail, hlen, -, henc⟩ := encodePacket_spec (H packet)
      (fun fpt => Resolvable cfg H pd.fps log fpt ∧ fpt.pktLen ≤ cfg.longestFound) hsize
      hcfg.size_le
      (fun f fpt hmem => by
        obtain ⟨hm, hres⟩ := threadCandidates_matching hcfg h hlong hmem
        exact ⟨hm, hres, by rw [hlongest]; exact hm.fits⟩) optpkt
    rw [threadCandidates, List.length_map] at hlen
    obtain ⟨pd', hcall, hps, hfps'⟩ :=
      cacheAndCompressIfNeeded_long (H := H) pd g hmode hlong optpkt compress
    obtain ⟨o, hret, hpso, hfpso, -, hopt, hplain⟩ :=
      finishPacket_encoded pd' g henc hsize optpkt compress
    rw [hcall]
    have hstore := storePacket_represents hcfg h hlong hsize
    refine ⟨o, hret, hstore.of_stores (hpso.trans hps) (hfpso.trans hfps'),
      fun hlt => absurd hlt hshort, fun _ => ⟨hpso.trans hps, hfpso.trans hfps'⟩, ?_, hplain⟩
    intro hcomp
    rw [(hopt hcomp).1, (hopt hcomp).2]
    exact henc.sent (by omega)

/-- Everything that is found for the fingerprints of a packet fits the arrays of the batch
lookup. -/
def LookupFits (cfg : Config) (dict : Deduplicator) (packet : List UInt8) : Prop :=
  ∀ f ∈ calculateRelevantFPs cfg packet, FoundFits cfg dict packet f

/-- Nothing is found for a packet shorter than a fingerprinted string. -/
theorem lookupFits_of_short {dict : Deduplicator} (hshort : packet.length < BETA) :
    LookupFits cfg dict packet := by
  intro f _ e pktE hfound _
  obtain ⟨_, pkt, _, _, _, _, hchunk⟩ := getFPcontent_some hfound
  have hlen := congrArg List.length hchunk
  rw [length_slice, List.length_take, List.length_drop] at hlen
  omega

/-- Packets within the size the arrays are made for fit them. -/
theorem lookupFits_of_limit {dict : Deduplicator} (h : dict.Represents cfg H log)
    (hlimit : cfg.MAXPKTSIZE ≤ PKTSIZELIMIT) (packet : List UInt8) :
    LookupFits cfg dict packet := by
  intro f _ e pktE hfound hget
  obtain ⟨fpidx, _, rfl, hlive, _⟩ := getFPcontent_some hfound
  obtain ⟨_, _, q, hq, _⟩ := (h.fps _ fpidx).live hlive
  obtain ⟨_, his⟩ := getPkt_inv h.ps hq hget
  have hsize := (h.sizes q (packetAt_mem hq)).2
  rw [his.len]
  omega

/-- A call that compresses returns only if everything it finds fits. -/
theorem lookupFits_of_some {pd : Deduplicator} {optpkt : Mem} {o : Optimized}
    (hmode : cfg.shared_dictionary_mode = true)
    (h : cacheAndCompressIfNeeded cfg H pd g packet optpkt true = some o) :
    LookupFits cfg g.comp packet := by
  by_cases hshort : packet.length < BETA
  · exact lookupFits_of_short hshort
  · rw [cacheAndCompressIfNeeded] at h
    dsimp only at h
    rw [if_neg hshort, if_pos hmode, if_pos rfl] at h
    obtain ⟨candidates, hlookup, -⟩ := Option.bind_eq_some_iff.mp h
    exact sharedCandidates_isSome_iff.mp ⟨candidates, hlookup⟩

/-- A call that compresses or caches a packet with the shared dictionary. -/
theorem cacheAndCompressIfNeeded_shared (pd : Deduplicator) (hcfg : cfg.Valid)
    (hmode : cfg.shared_dictionary_mode = true) (h : g.comp.Represents cfg H log)
    (hsize : packet.length ≤ cfg.MAXPKTSIZE) (optpkt : Mem) (compress : Bool)
    (hfits : compress = true → LookupFits cfg g.comp packet) :
    ∃ o, cacheAndCompressIfNeeded cfg H pd g packet optpkt compress = some o ∧
      o.g.comp.Represents cfg H (logAfter log packet) ∧
      (packet.length < BETA → o.g = g) ∧
      (BETA ≤ packet.length →
        o.g = putPktAndFPsComp cfg g packet (H packet) (calculateRelevantFPs cfg packet)) ∧
      (compress = true → Sent cfg H g.comp.fps log packet o.optpkt o.optlen) ∧
      (compress = false → o.optlen = packet.length) := by
  rw [cacheAndCompressIfNeeded, logAfter]
  dsimp only
  by_cases hshort : packet.length < BETA
  · rw [if_pos hshort, if_pos hshort]
    refine ⟨_, rfl, h, fun _ => rfl, fun hlong => ?_, fun _ => Or.inl rfl, fun _ => rfl⟩
    omega
  · rw [if_neg hshort, if_neg hshort, if_pos hmode]
    have hlong : BETA ≤ packet.length := by omega
    have hfps := calculateRelevantFPs_length packet hcfg.fp_pos
    have hlongest : cfg.longestFound = min cfg.MAXPKTSIZE PKTSIZELIMIT := if_pos hmode
    -- What the lookup gives, when there is one, matches the packet.
    have hlookup : ∃ candidates,
        (if compress then sharedCandidates cfg g packet (calculateRelevantFPs cfg packet)
          else some []) = some candidates ∧
        candidates.length ≤ (calculateRelevantFPs cfg packet).length ∧
        ∀ f fpt, (f, some fpt) ∈ candidates → Matching cfg packet f fpt ∧
          Resolvable cfg H g.comp.fps log fpt ∧ fpt.pktLen ≤ cfg.longestFound := by
      cases compress with
      | false => exact ⟨[], rfl, Nat.zero_le _, fun _ _ hmem => absurd hmem List.not_mem_nil⟩
      | true =>
        obtain ⟨candidates, hfound⟩ := sharedCandidates_isSome_iff.mpr (hfits rfl)
        refine ⟨candidates, hfound, Nat.le_of_eq (sharedCandidates_length hfound), ?_⟩
        intro f fpt hmem
        obtain ⟨hm, hres, hfit⟩ := sharedCandidates_matching h hlong hfound hmem
        refine ⟨hm, hres, ?_⟩
        rw [hlongest]
        exact Nat.le_min.mpr ⟨hm.fits, hfit⟩
    obtain ⟨candidates, hfound, hcount, hmatching⟩ := hlookup
    obtain ⟨ts, tail, hlen, -, henc⟩ := encodePacket_spec (H packet)
      (fun fpt => Resolvable cfg H g.comp.fps log fpt ∧ fpt.pktLen ≤ cfg.longestFound)
      hsize hcfg.size_le hmatching optpkt
    obtain ⟨o, hret, -, -, hg, hopt, hplain⟩ := finishPacket_encoded
      (pd.count fun st =>
        { st with
          processedPackets := st.processedPackets + 1
          inputBytes := st.inputBytes + UInt64.ofNat packet.length })
      (putPktAndFPsComp cfg g packet (H packet) (calculateRelevantFPs cfg packet)) henc hsize optpkt compress
    rw [hfound, Option.bind_some]
    refine ⟨o, hret, ?_, fun hlt => absurd hlt hshort, fun _ => hg, ?_, hplain⟩
    · rw [hg]
      exact putPktAndFPs_represents hcfg h hlong hsize
    · intro hcomp
      rw [(hopt hcomp).1, (hopt hcomp).2]
      exact henc.sent (by omega)

end Compress

/-! ### Updating -/

section Update

variable {cfg : Config} {H : PacketHash} {pd : Deduplicator} {g : SharedDictionaries} {log : Log}
  {packet : List UInt8}

/-- The counters have no part in how a packet is stored. -/
theorem localUpdateCaches_count (cfg : Config) (pd : Deduplicator) (g : SharedDictionaries)
    (packet : List UInt8) (hash : UInt32) (f : Statistics → Statistics) :
    (localUpdateCaches cfg (pd.count f) g packet hash).1.ps =
        (localUpdateCaches cfg pd g packet hash).1.ps ∧
      (localUpdateCaches cfg (pd.count f) g packet hash).1.fps =
        (localUpdateCaches cfg pd g packet hash).1.fps ∧
      (localUpdateCaches cfg (pd.count f) g packet hash).2 =
        (localUpdateCaches cfg pd g packet hash).2 := by
  unfold localUpdateCaches
  split
  · exact ⟨rfl, rfl, rfl⟩
  · dsimp only
    split
    · exact ⟨rfl, rfl, rfl⟩
    · have := storePacket_count cfg pd f packet hash (calculateRelevantFPs cfg packet)
      exact ⟨this.1, this.2, rfl⟩

/-- `update_caches` is `local_update_caches` and some counting. -/
theorem updateCaches_stores (cfg : Config) (H : PacketHash) (pd : Deduplicator)
    (g : SharedDictionaries) (packet : List UInt8) :
    (updateCaches cfg H pd g packet).1.ps =
        (localUpdateCaches cfg pd g packet (H packet)).1.ps ∧
      (updateCaches cfg H pd g packet).1.fps =
        (localUpdateCaches cfg pd g packet (H packet)).1.fps ∧
      (updateCaches cfg H pd g packet).2 = (localUpdateCaches cfg pd g packet (H packet)).2 := by
  unfold updateCaches
  split
  · rename_i hshort
    rw [localUpdateCaches, if_pos hshort]
    exact ⟨rfl, rfl, rfl⟩
  · exact ⟨rfl, rfl, rfl⟩

theorem updateCaches_count (cfg : Config) (H : PacketHash) (pd : Deduplicator)
    (g : SharedDictionaries) (packet : List UInt8) (f : Statistics → Statistics) :
    (updateCaches cfg H (pd.count f) g packet).1.ps = (updateCaches cfg H pd g packet).1.ps ∧
      (updateCaches cfg H (pd.count f) g packet).1.fps =
        (updateCaches cfg H pd g packet).1.fps ∧
      (updateCaches cfg H (pd.count f) g packet).2 = (updateCaches cfg H pd g packet).2 := by
  obtain ⟨h1, h2, h3⟩ := updateCaches_stores cfg H (pd.count f) g packet
  obtain ⟨h1', h2', h3'⟩ := updateCaches_stores cfg H pd g packet
  obtain ⟨c1, c2, c3⟩ := localUpdateCaches_count cfg pd g packet (H packet) f
  exact ⟨h1.trans (c1.trans h1'.symm), h2.trans (c2.trans h2'.symm), h3.trans (c3.trans h3'.symm)⟩

/-- What `update_caches` does to the stores of the thread dictionary. -/
theorem updateCaches_thread (H : PacketHash) (pd : Deduplicator) (g : SharedDictionaries)
    (packet : List UInt8) (hmode : cfg.shared_dictionary_mode = false) :
    (packet.length < BETA → (updateCaches cfg H pd g packet).1.ps = pd.ps ∧
        (updateCaches cfg H pd g packet).1.fps = pd.fps) ∧
      (BETA ≤ packet.length →
        (updateCaches cfg H pd g packet).1.ps =
          (storePacket cfg pd packet (H packet) (calculateRelevantFPs cfg packet)).ps ∧
        (updateCaches cfg H pd g packet).1.fps =
          (storePacket cfg pd packet (H packet) (calculateRelevantFPs cfg packet)).fps) := by
  obtain ⟨hps, hfps, -⟩ := updateCaches_stores cfg H pd g packet
  rw [hps, hfps, localUpdateCaches]
  constructor
  · intro hshort
    rw [if_pos hshort]
    exact ⟨rfl, rfl⟩
  · intro hlong
    rw [if_neg (by omega), if_neg (by simp [hmode])]
    exact ⟨rfl, rfl⟩

/-- What `update_caches` does to the shared dictionaries. -/
theorem updateCaches_shared (H : PacketHash) (pd : Deduplicator) (g : SharedDictionaries)
    (packet : List UInt8) (hmode : cfg.shared_dictionary_mode = true) :
    (packet.length < BETA → (updateCaches cfg H pd g packet).2 = g) ∧
      (BETA ≤ packet.length → (updateCaches cfg H pd g packet).2 =
        putPktAndFPsDesc cfg g packet (H packet) (calculateRelevantFPs cfg packet)) := by
  obtain ⟨-, -, hg⟩ := updateCaches_stores cfg H pd g packet
  rw [hg, localUpdateCaches]
  constructor
  · intro hshort
    rw [if_pos hshort]
  · intro hlong
    rw [if_neg (by omega), if_pos hmode]

end Update

/-! ### Decompressing -/

/-- The codes other than `UNCOMP_OK`. -/
def UncompExit.IsError : UncompExit → Prop
  | .fpNotFound _ _ => True
  | .badPacketFormat => True
  | .badPacketHash => True
  | _ => False

/-- The call has returned `UNCOMP_OK` with output `q`, and has updated the dictionary as
`update_caches` does with `q`. -/
structure Accepted (cfg : Config) (H : PacketHash) (pd : Deduplicator) (g : SharedDictionaries)
    (q : List UInt8) (r : Uncompressed) : Prop where
  exit : r.exit = .ok
  output : slice r.packet 0 r.pktlen = q
  ps : r.pd.ps = (updateCaches cfg H pd g q).1.ps
  fps : r.pd.fps = (updateCaches cfg H pd g q).1.fps
  g : r.g = (updateCaches cfg H pd g q).2

/-- The call has returned another code with `*pktlen = 0`, and the dictionary is as it
was. -/
structure Rejected (pd : Deduplicator) (g : SharedDictionaries) (r : Uncompressed) : Prop where
  exit : r.exit.IsError
  pktlen : r.pktlen = 0
  ps : r.pd.ps = pd.ps
  fps : r.pd.fps = pd.fps
  g : r.g = g

section Decompress

variable {cfg : Config} {H : PacketHash} {pd : Deduplicator} {g : SharedDictionaries} {log : Log}
  {hash : UInt32} {optpkt packet : Mem} {optlen : Nat} {t : Token} {ts : List Token}
  {tail q : List UInt8}

/-- The counters have no part in what a call accepts or rejects. -/
theorem Accepted.of_count {f : Statistics → Statistics} {r : Uncompressed}
    (h : Accepted cfg H (pd.count f) g q r) : Accepted cfg H pd g q r := by
  obtain ⟨h1, h2, h3⟩ := updateCaches_count cfg H pd g q f
  exact ⟨h.exit, h.output, h.ps.trans h1, h.fps.trans h2, h.g.trans h3⟩

theorem Rejected.of_count {f : Statistics → Statistics} {r : Uncompressed}
    (h : Rejected (pd.count f) g r) : Rejected pd g r :=
  ⟨h.exit, h.pktlen, h.ps, h.fps, h.g⟩

theorem failUncomp_rejected (pd : Deduplicator) (g : SharedDictionaries) {exit : UncompExit}
    (h : exit.IsError) (d : Decoder) : Rejected pd g (failUncomp pd g exit d) :=
  ⟨h, rfl, rfl, rfl, rfl⟩

theorem UncompExit.IsMiss.isError {exit : UncompExit} (h : exit.IsMiss) : exit.IsError := by
  cases exit with
  | fpNotFound _ _ => trivial
  | badPacketFormat => trivial
  | _ => exact h.elim

/-- A decoded packet is stored when its hash is the one sent, and dropped otherwise. -/
theorem finishUncomp_spec (cfg : Config) (H : PacketHash) (pd : Deduplicator)
    (g : SharedDictionaries) (hash : UInt32) (optlen : Nat) {d : Decoder} (hq : slice d.packet 0 d.pktlen = q) :
    (finishUncomp cfg H pd g hash optlen d).cur = d.cur ∧
      (H q = hash → Accepted cfg H pd g q (finishUncomp cfg H pd g hash optlen d)) ∧
      (H q ≠ hash → Rejected pd g (finishUncomp cfg H pd g hash optlen d)) := by
  rw [finishUncomp]
  dsimp only
  rw [hq]
  by_cases hh : H q = hash
  · rw [if_pos hh]
    refine ⟨rfl, fun _ => ?_, fun hne => absurd hh hne⟩
    obtain ⟨hps, hfps, hg⟩ := updateCaches_stores cfg H pd g q
    have hcount := localUpdateCaches_count cfg (pd.count fun st =>
      { st with
        uncompressedPackets :=
          if d.pktlen > optlen then st.uncompressedPackets + 1 else st.uncompressedPackets })
      g q (H q) fun st => { st with outputBytes := st.outputBytes + UInt64.ofNat d.pktlen }
    have hcount' := localUpdateCaches_count cfg pd g q (H q) fun st =>
      { st with
        uncompressedPackets :=
          if d.pktlen > optlen then st.uncompressedPackets + 1 else st.uncompressedPackets }
    exact ⟨rfl, hq, hcount.1.trans (hcount'.1.trans hps.symm),
      hcount.2.1.trans (hcount'.2.1.trans hfps.symm), hcount.2.2.trans (hcount'.2.2.trans hg.symm)⟩
  · rw [if_neg hh]
    exact ⟨rfl, fun h => absurd h hh, fun _ => ⟨trivial, rfl, rfl, rfl, rfl⟩⟩

/-- The call on a compressed packet, with the thread dictionary, whatever it holds. -/
theorem uncompThread_encode (H : PacketHash) (pd : Deduplicator) (g : SharedDictionaries)
    (packet : Mem)
    (h : slice optpkt 0 optlen = encode hash (t :: ts) tail) (hlen : optlen < 65536)
    (hwf : ∀ u ∈ t :: ts, u.WellFormed)
    (hsize : (expand (t :: ts) tail).length ≤ cfg.MAXPKTSIZE) (hmax : cfg.MAXPKTSIZE ≤ 65534)
    (hfuel : ts.length < FUEL) :
    (uncompThread cfg H pd g packet optpkt optlen).cur.Within optlen ∧
      ((Rejected pd g (uncompThread cfg H pd g packet optpkt optlen) ∧
          (H (expand (t :: ts) tail) = hash → ∃ u ∈ t :: ts, ¬ u.ResolvesIn cfg pd)) ∨
        ∃ q, H q = hash ∧ Accepted cfg H pd g q (uncompThread cfg H pd g packet optpkt optlen) ∧
          ((∀ u ∈ t :: ts, u.ResolvesIn cfg pd) → q = expand (t :: ts) tail)) := by
  obtain ⟨d, hhead, hat⟩ := decodeHeader_encode packet h hlen hsize hmax
  have hsize' := hsize
  rw [expand_cons, List.length_append, List.length_append] at hsize'
  obtain ⟨d', hin, hloop⟩ := decodeLoop_tokens pd hat hwf hsize' hmax hfuel
  rw [uncompThread, hhead]
  dsimp only
  rcases hloop with ⟨hmiss, exit, hexit, hloop⟩ | ⟨hloop, out, hout, hat', hres⟩
  · rw [hloop]
    exact ⟨hin, Or.inl ⟨failUncomp_rejected pd g hexit.isError d', fun _ => hmiss⟩⟩
  · rw [hloop]
    dsimp only
    have hoff : d'.pktlen = (t.lit ++ out).length ∧ d'.orig = (t.lit ++ out).length :=
      ⟨hat'.pktlen, hat'.orig⟩
    have hle : (t.lit ++ out).length ≤ cfg.MAXPKTSIZE := by
      rw [List.length_append]
      omega
    rw [if_pos (by omega)]
    have hq : slice d'.packet 0 d'.pktlen = t.lit ++ out := by
      rw [hat'.pktlen]
      exact hat'.output
    obtain ⟨hcur, hok, hbad⟩ := finishUncomp_spec cfg H pd g hash optlen hq
    have hexp : (∀ u ∈ t :: ts, u.ResolvesIn cfg pd) → t.lit ++ out = expand (t :: ts) tail := by
      intro hall
      rw [hres hall, expand_cons, List.append_assoc]
    refine ⟨by rw [hcur]; exact hin, ?_⟩
    by_cases hh : H (t.lit ++ out) = hash
    · exact Or.inr ⟨_, hh, hok hh, hexp⟩
    · refine Or.inl ⟨hbad hh, fun hsent => ?_⟩
      by_contra hnone
      apply hh
      rw [hexp (fun u hu => by
        by_contra hu'
        exact hnone ⟨u, hu, hu'⟩)]
      exact hsent

/-- The call on a compressed packet, with a shared dictionary that has the packets
referred to. The tables have room for the descriptors, and the arrays for the strings. -/
theorem uncompShared_encode (pd : Deduplicator) (packet : Mem)
    (h : slice optpkt 0 optlen = encode hash (t :: ts) tail) (hlen : optlen < 65536)
    (hwf : ∀ u ∈ t :: ts, u.WellFormed)
    (hsize : (expand (t :: ts) tail).length ≤ cfg.MAXPKTSIZE) (hmax : cfg.MAXPKTSIZE ≤ 65534)
    (hroom : ts.length < MAX_FP_PER_PKT) (hres : ∀ u ∈ t :: ts, u.ResolvesIn cfg g.desc)
    (hfits : ∀ u ∈ t :: ts, u.body.length ≤ PKTSIZELIMIT)
    (hhash : H (expand (t :: ts) tail) = hash) :
    Accepted cfg H pd g (expand (t :: ts) tail)
      (uncompShared cfg H pd g packet optpkt optlen) := by
  obtain ⟨d, hhead, hat⟩ := decodeHeader_encode packet h hlen hsize hmax
  have hsize' := hsize
  rw [expand_cons, List.length_append, List.length_append] at hsize'
  have hfuel : ts.length < FUEL := by
    simp only [MAX_FP_PER_PKT, FUEL] at hroom ⊢
    omega
  obtain ⟨s, gap, us, hloop, hgap, hshape, hat', htable⟩ := decodeSharedLoop_tokens
    (s := ⟨d, []⟩) hat hwf hsize' hmax hfuel
  rw [List.nil_append] at htable
  have hbody : ∀ u ∈ t :: ts, u.body ≠ [] := by
    intro u hu hnil
    have h1 := (hwf u hu).body_length
    rw [hnil, List.length_nil] at h1
    omega
  have htokens : s.fptopkt = ((t :: ts).map Token.toPktChunk).zip (bodyOffsets 0 (t :: ts)) := by
    rw [htable, List.map_cons, bodyOffsets, List.zip_cons_cons, Nat.zero_add]
  have hfound : getPktsByFPsAndHash cfg g (s.fptopkt.map Prod.fst) =
      some ((t :: ts).length, (t :: ts).map fun u => ⟨u.body, u.body.length⟩) := by
    rw [htokens, List.map_fst_zip (by simp)]
    exact getPktsByFPsAndHash_tokens hwf hfits hres
  have hplaces : ¬ s.fptopkt.length > MAX_FP_PER_PKT := by
    rw [htokens, List.length_zip, List.length_map, length_bodyOffsets, Nat.min_self,
      List.length_cons]
    omega
  -- The output of the loop is the packet with other bytes in the gaps.
  have hgaps : slice s.packet 0 (expand (t :: ts) tail).length =
      [] ++ expand ({ t with body := gap } :: us) tail := by
    have hlen' : (expand (t :: ts) tail).length = (t.lit ++ gap ++ expand us tail).length := by
      rw [expand_cons, List.length_append, List.length_append, List.length_append,
        List.length_append, hgap, hshape.length_expand tail]
    rw [hlen', hat'.output, List.nil_append, expand_cons]
  have hshape' : SameShape (t :: ts) ({ t with body := gap } :: us) :=
    .cons ⟨rfl, rfl, hgap.symm⟩ hshape
  obtain ⟨m, hpaste, hm⟩ := pasteFrags_tokens hshape' hbody hgaps
  have hpktlen : s.pktlen = (expand (t :: ts) tail).length := by
    rw [hat'.pktlen, List.length_append, List.length_append, hgap, ← hshape.length_expand tail,
      expand_cons, List.length_append, List.length_append]
  have horig : s.orig = (expand (t :: ts) tail).length := by
    rw [hat'.orig, ← hat'.pktlen, hpktlen]
  rw [uncompShared, hhead]
  dsimp only
  rw [hloop]
  dsimp only
  rw [if_neg hplaces, resolveFrags, if_neg (by omega), hfound]
  dsimp only
  rw [List.getElem?_eq_none (by rw [htokens]; simp)]
  dsimp only
  rw [htokens, show bodyOffsets 0 (t :: ts) = bodyOffsets ([] : List UInt8).length (t :: ts) from
    rfl, hpaste]
  dsimp only
  refine (finishUncomp_spec cfg H pd g hash optlen (q := expand (t :: ts) tail) ?_).2.1 hhash
  show slice m 0 s.pktlen = _
  rw [hpktlen, hm, List.nil_append]

end Decompress

end Solowan.Codec
