/-
What the dictionary of a worker says about the packets it has stored.

The ring overwrites packets without a word to the fingerprint store, and an entry is cleared
only when a later fingerprint falls into its bucket. That an entry still describes the packet
it leads to follows from the ids alone.

* `History`: a dictionary with the packets it has stored, in order, after any sequence of calls,
  and `History.stored`: it is one that `putPkt` and `putFP` produce.
* `dictionary_sound`: every live entry that leads to a packet leads to the one it was made for.
* `dedup_never_expands`: what `dedup` makes of a packet.
-/

import Solowan.Codec.Integrity
import Solowan.Codec.Totality
import Solowan.Dictionary.Registering
import Solowan.Dictionary.Rolling

namespace Solowan.Codec

open Solowan.Memory Solowan.Dictionary

/-- A dictionary that a sequence of calls produces from a fresh one, with the packets that
were stored on the way. The calls of `uncomp` may be on any bytes. -/
inductive History (cfg : Config) (H : PacketHash) : Deduplicator → Log → Prop where
  | fresh (mem : RawMemory) : History cfg H (newDeduplicator mem) []
  | dedup {pd : Deduplicator} {log : Log} {g : SharedDictionaries} {packet : List UInt8}
      {optpkt : Mem} {o : Optimized} (h : History cfg H pd log)
      (hsize : packet.length ≤ cfg.MAXPKTSIZE) (ho : dedup cfg H pd g packet optpkt = some o) :
      History cfg H o.pd (logAfter log packet)
  | putInCache {pd : Deduplicator} {log : Log} {g : SharedDictionaries} {packet : List UInt8}
      {o : Optimized} (h : History cfg H pd log) (hsize : packet.length ≤ cfg.MAXPKTSIZE)
      (ho : putInCache cfg H pd g packet = some o) : History cfg H o.pd (logAfter log packet)
  | updateCaches {pd : Deduplicator} {log : Log} {g : SharedDictionaries} {packet : List UInt8}
      (h : History cfg H pd log) (hsize : packet.length ≤ cfg.MAXPKTSIZE) :
      History cfg H (updateCaches cfg H pd g packet).1 (logAfter log packet)
  | uncomp {pd : Deduplicator} {log : Log} {g : SharedDictionaries} {packet optpkt : Mem}
      {optlen : UInt16} {r : Uncompressed} (h : History cfg H pd log)
      (hr : uncomp cfg H pd g packet optpkt optlen.toNat = r) :
      History cfg H r.pd
        (if r.exit = .ok then logAfter log (slice r.packet 0 r.pktlen) else log)

/-! ### Invariants of the dictionary -/

section Invariants

variable {cfg : Config} {H : PacketHash} {pd : Deduplicator} {log : Log}
  {I : Deduplicator → Log → Prop}

/-- What a stored packet keeps, and the counters do not touch, holds after every call. -/
theorem History.invariant (hcfg : cfg.Valid) (hmode : cfg.shared_dictionary_mode = false)
    (hstores : ∀ {pd pd' : Deduplicator} {log : Log}, pd'.ps = pd.ps → pd'.fps = pd.fps →
      I pd log → I pd' log)
    (hfresh : ∀ mem, I (newDeduplicator mem) [])
    (hstore : ∀ {pd : Deduplicator} {log : Log} {p : List UInt8}, pd.Represents cfg H log →
      I pd log → BETA ≤ p.length → p.length ≤ cfg.MAXPKTSIZE →
      I (storePacket cfg pd p (H p) (calculateRelevantFPs cfg p)) (log ++ [p]))
    (h : History cfg H pd log) : pd.Represents cfg H log ∧ I pd log := by
  have hafter : ∀ {pd pd' : Deduplicator} {log : Log} {p : List UInt8}, pd.Represents cfg H log →
      I pd log → p.length ≤ cfg.MAXPKTSIZE →
      (p.length < BETA → pd'.ps = pd.ps ∧ pd'.fps = pd.fps) →
      (BETA ≤ p.length →
        pd'.ps = (storePacket cfg pd p (H p) (calculateRelevantFPs cfg p)).ps ∧
        pd'.fps = (storePacket cfg pd p (H p) (calculateRelevantFPs cfg p)).fps) →
      I pd' (logAfter log p) := by
    intro pd pd' log p hrep hi hsize hshort hlong
    unfold logAfter
    split
    · rename_i hlt
      exact hstores (hshort hlt).1 (hshort hlt).2 hi
    · rename_i hge
      have hlen : BETA ≤ p.length := by omega
      exact hstores (hlong hlen).1 (hlong hlen).2 (hstore hrep hi hlen hsize)
  have hcall : ∀ {pd : Deduplicator} {log : Log} {g : SharedDictionaries} {packet : List UInt8}
      {optpkt : Mem} {compress : Bool} {o : Optimized}, pd.Represents cfg H log → I pd log →
      packet.length ≤ cfg.MAXPKTSIZE →
      cacheAndCompressIfNeeded cfg H pd g packet optpkt compress = some o →
      o.pd.Represents cfg H (logAfter log packet) ∧ I o.pd (logAfter log packet) := by
    intro pd log g packet optpkt compress o hrep hi hsize ho
    obtain ⟨o', ho', hrep', hshort, hlong, -⟩ :=
      cacheAndCompressIfNeeded_thread g hcfg hmode hrep hsize optpkt compress
    rw [ho'] at ho
    cases ho
    exact ⟨hrep', hafter hrep hi hsize hshort hlong⟩
  have hupdate : ∀ {pd : Deduplicator} {log : Log} (g : SharedDictionaries) (packet : List UInt8),
      pd.Represents cfg H log → I pd log → packet.length ≤ cfg.MAXPKTSIZE →
      (Codec.updateCaches cfg H pd g packet).1.Represents cfg H (logAfter log packet) ∧
        I (Codec.updateCaches cfg H pd g packet).1 (logAfter log packet) := by
    intro pd log g packet hrep hi hsize
    obtain ⟨hshort, hlong⟩ := updateCaches_thread H pd g packet hmode
    exact ⟨updateCaches_represents hcfg hmode hrep hsize, hafter hrep hi hsize hshort hlong⟩
  induction h with
  | fresh mem => exact ⟨newDeduplicator_represents cfg H mem, hfresh mem⟩
  | dedup _ hsize ho ih => exact hcall ih.1 ih.2 hsize ho
  | putInCache _ hsize ho ih => exact hcall ih.1 ih.2 hsize ho
  | updateCaches _ hsize ih => exact hupdate _ _ ih.1 ih.2 hsize
  | @uncomp pd log g packet optpkt optlen r _ hr ih =>
    obtain ⟨htotal, -⟩ := uncomp_settles H pd g packet optpkt optlen.toNat hmode hcfg.size_le
    rw [hr] at htotal
    rcases htotal with ⟨hlen, hacc⟩ | hrej
    · rw [if_pos hacc.exit]
      obtain ⟨hrep, hi⟩ := hupdate g (slice r.packet 0 r.pktlen) ih.1 ih.2
        (by rw [length_slice]; exact hlen)
      exact ⟨hrep.of_stores hacc.ps hacc.fps, hstores hacc.ps hacc.fps hi⟩
    · have hexit : r.exit ≠ .ok := by
        intro hok
        have := hrej.exit
        rw [hok] at this
        exact this
      rw [if_neg hexit]
      exact ⟨ih.1.of_stores hrej.ps hrej.fps, hstores hrej.ps hrej.fps ih.2⟩

/-- Every dictionary that calls produce is reached by storing the packets of its log, one call of
`putPkt` or `putFP` at a time. -/
theorem History.stored (hcfg : cfg.Valid) (hmode : cfg.shared_dictionary_mode = false)
    (h : History cfg H pd log) :
    ∃ currPktId, Stored cfg H ⟨pd.ps, pd.fps, currPktId, [], log⟩ := by
  refine (History.invariant (I := fun pd log => ∃ currPktId,
    Stored cfg H ⟨pd.ps, pd.fps, currPktId, [], log⟩) hcfg hmode ?_ ?_ ?_ h).2
  · intro pd pd' log hps hfps hi
    rw [hps, hfps]
    exact hi
  · intro mem
    exact ⟨0, mem, .refl⟩
  · rintro pd log p - ⟨currPktId, hi⟩ hlen hsize
    exact ⟨_, hi.storePacket hlen hsize⟩

end Invariants

/-- The fingerprint of every live entry is the one of the string it stands for. -/
def FPStore.Exact (fps : FPStore) (log : Log) : Prop :=
  ∀ fpHash fpidx, 0 < (fps fpHash fpidx).pktId →
    ∃ p, packetAt log (fps fpHash fpidx).pktId = some p ∧ Fingerprints p (fps fpHash fpidx)

/-- What a live entry says: it sits in the bucket of its fingerprint, and when its packet is
found, it is the one stored under that id, which has the fingerprinted string at the
offset. -/
structure FPEntryB.Describes (e : FPEntryB) (cfg : Config) (H : PacketHash) (ps : PktStore)
    (log : Log) (fpHash : UInt32) : Prop where
  bucket : fpHash = hashFPStore cfg e.fp
  older : e.pktId < ps.pktId
  found : ∀ slot, getPkt cfg ps e.pktId = some slot → ∃ p, packetAt log e.pktId = some p ∧
    slot.Is H p ∧ e.offset + BETA ≤ slot.len ∧ e.fp = fullRfp (slice slot.pkt e.offset BETA)

/-- A registration of the string `f` of the packet `p` leaves the entries of the packets
that are found alone, but for those of the same fingerprint and string. -/
def Spares (cfg : Config) (ps : PktStore) (p : List UInt8) (f : FPEntryB) (fps fps' : FPStore) :
    Prop :=
  ∀ fpHash fpidx slot, 0 < (fps fpHash fpidx).pktId →
    getPkt cfg ps (fps fpHash fpidx).pktId = some slot →
      fps' fpHash fpidx = fps fpHash fpidx ∨ (fps fpHash fpidx).fp = f.fp ∧
        slice slot.pkt (fps fpHash fpidx).offset BETA = (p.drop f.offset).take BETA

section Sound

variable {cfg : Config} {H : PacketHash} {pd : Deduplicator} {log : Log}

theorem storePacket_exact (h : pd.Represents cfg H log) (hexact : FPStore.Exact pd.fps log)
    (p : List UInt8) :
    FPStore.Exact (storePacket cfg pd p (H p) (calculateRelevantFPs cfg p)).fps (log ++ [p]) := by
  have hid : (putPkt cfg pd.ps p (H p)).2 = log.length + 1 := h.ps.next
  refine putFPs_forall (Q := fun _ e => 0 < e.pktId →
    ∃ q, packetAt (log ++ [p]) e.pktId = some q ∧ Fingerprints q e) ?_ ?_ ?_ _
  · intro fpHash fpidx hlive
    obtain ⟨q, hq, hfp⟩ := hexact fpHash fpidx hlive
    exact ⟨q, packetAt_append_some hq, hfp⟩
  · intro fpHash e he
    unfold expire
    split
    · intro hlive
      exact absurd hlive (Nat.lt_irrefl 0)
    · exact he
  · intro f hf _
    dsimp only
    rw [hid]
    exact ⟨p, packetAt_last log p, calculateRelevantFPs_fullRfp cfg p f hf⟩

/-- **Dictionary soundness.** After any sequence of calls, and at each registration of the
next packet. -/
theorem dictionary_sound (hcfg : cfg.Valid) (hmode : cfg.shared_dictionary_mode = false)
    (h : History cfg H pd log) :
    (∀ fpHash fpidx, 0 < (pd.fps fpHash fpidx).pktId →
      FPEntryB.Describes (pd.fps fpHash fpidx) cfg H pd.ps log fpHash) ∧
      ∀ p, BETA ≤ p.length → p.length ≤ cfg.MAXPKTSIZE → ∀ done f todo st,
        (calculateRelevantFPs cfg p).reverse = done ++ f :: todo →
          let stored := putPkt cfg pd.ps p (H p)
          let before := putFPs cfg stored.1 stored.2 done.reverse pd.fps st
          Spares cfg stored.1 p f before.1
            (putFP cfg before.1 stored.1 f.fp stored.2 f.offset before.2).1 := by
  obtain ⟨hrep, hexact⟩ := History.invariant (I := fun pd log => FPStore.Exact pd.fps log) hcfg hmode
    (fun _ hfps hi => by rw [hfps]; exact hi)
    (fun _ _ _ hlive => absurd hlive (Nat.lt_irrefl 0))
    (fun hrep hi _ _ => storePacket_exact hrep hi _) h
  constructor
  · intro fpHash fpidx hlive
    obtain ⟨-, hbucket, p, hp, hoff⟩ := (hrep.fps fpHash fpidx).live hlive
    obtain ⟨q, hq, hfp⟩ := hexact fpHash fpidx hlive
    rw [hp] at hq
    cases hq
    refine ⟨hbucket.symm, ?_, ?_⟩
    · have hrange := packetAt_range hp
      rw [hrep.ps.next]
      omega
    · intro slot hslot
      obtain ⟨-, his⟩ := getPkt_inv hrep.ps hp hslot
      refine ⟨p, hp, his, ?_, ?_⟩
      · rw [his.len]
        exact hoff
      · rw [his.slice hoff, fullRfp_take]
        exact hfp
  · intro p hlen _ done f todo st hsplit
    dsimp only
    intro fpHash fpidx slot hlive hslot
    have hstored : (putPkt cfg pd.ps p (H p)).1.Holds cfg H (log ++ [p]) :=
      putPkt_holds hcfg.pktStore hrep.ps p
    have hid : (putPkt cfg pd.ps p (H p)).2 = log.length + 1 := hrep.ps.next
    have hf : f ∈ calculateRelevantFPs cfg p := by
      rw [← List.mem_reverse, hsplit]
      simp
    obtain ⟨hsel, -⟩ := calculateRelevantFPs_selected cfg hlen f hf
    have hnext : (putPkt cfg pd.ps p (H p)).2 ≤ (putPkt cfg pd.ps p (H p)).1.pktId := by
      rw [hid, hstored.next]
      simp
    have hkeeps := putFP_keeps cfg f.fp hnext f.offset fpHash fpidx
      (putFPs cfg (putPkt cfg pd.ps p (H p)).1 (putPkt cfg pd.ps p (H p)).2 done.reverse pd.fps
        st).2 hlive hslot
    rcases hkeeps with hsame | ⟨hfp, slot', hslot', hstring⟩
    · exact Or.inl hsame
    · refine Or.inr ⟨hfp, ?_⟩
      rw [hid] at hslot'
      obtain ⟨-, his⟩ := getPkt_inv hstored (packetAt_last log p) hslot'
      rw [hstring, his.slice hsel]

end Sound

/-! ### What `dedup` makes of a packet -/

/-- The string of the fingerprint `f` of `packet` is in a packet of the dictionary. -/
def Found (cfg : Config) (fps : FPStore) (ps : PktStore) (packet : List UInt8) (f : FPEntryB) :
    Prop :=
  getFPcontent cfg fps ps f.fp ((packet.drop f.offset).take BETA) ≠ none

/-- The packet found is a slot of the ring, by a live entry with the fingerprint. -/
def InSlot (cfg : Config) (fps : FPStore) (ps : PktStore) (fpt : Reference) : Prop :=
  ∃ fpidx slot, (fps (hashFPStore cfg fpt.fp) fpidx).fp = fpt.fp ∧
    0 < (fps (hashFPStore cfg fpt.fp) fpidx).pktId ∧
    getPkt cfg ps (fps (hashFPStore cfg fpt.fp) fpidx).pktId = some slot ∧
    fpt.pktLen = slot.len ∧ fpt.pkt = slot.pkt ∧ fpt.pktHash = slot.hash

/-- The descriptor of a token names a packet of the dictionary, by a fingerprint it is
registered under and its hash, and the interval is a string of at least `BETA` bytes inside
that packet, which is what the token stands for. -/
def Token.Inside (u : Token) (cfg : Config) (fps : FPStore) (ps : PktStore) : Prop :=
  ∃ fpidx slot, (fps (hashFPStore cfg u.fp) fpidx).fp = u.fp ∧
    0 < (fps (hashFPStore cfg u.fp) fpidx).pktId ∧
    getPkt cfg ps (fps (hashFPStore cfg u.fp) fpidx).pktId = some slot ∧ slot.hash = u.hash ∧
    u.left ≤ u.right ∧ u.right < slot.len ∧ BETA ≤ u.right - u.left + 1 ∧
    u.body = slice slot.pkt u.left (u.right - u.left + 1)

section Compression

variable {cfg : Config} {H : PacketHash} {pd : Deduplicator} {packet : List UInt8}

/-- A fingerprint is found when there is a candidate for it. -/
theorem threadCandidates_found {fps : FPStore} {ps : PktStore} {pktFps : List FPEntryB}
    {f : FPEntryB} {fpt : Reference}
    (h : (f, some fpt) ∈ threadCandidates cfg fps ps packet pktFps) :
    f ∈ pktFps ∧ Found cfg fps ps packet f ∧ InSlot cfg fps ps fpt := by
  obtain ⟨f', hf', heq⟩ := List.mem_map.mp h
  simp only [threadCandidate, Prod.mk.injEq] at heq
  obtain ⟨rfl, heq⟩ := heq
  obtain ⟨e, hfound, heq⟩ := Option.bind_eq_some_iff.mp heq
  obtain ⟨slot, hslot, rfl⟩ := Option.map_eq_some_iff.mp heq
  obtain ⟨fpidx, -, hent, hlive, hfp, -, -⟩ := getFPcontent_some hfound
  refine ⟨hf', ?_, fpidx, slot, ?_⟩
  · rw [Found, hfound]
    exact Option.some_ne_none e
  · dsimp only
    rw [hfp, hent]
    exact ⟨hfp, hlive, hslot, rfl, rfl, rfl⟩

/-- There is a candidate for every fingerprint that is found. -/
theorem exists_threadCandidate {fps : FPStore} {ps : PktStore} {pktFps : List FPEntryB}
    {f : FPEntryB} (hf : f ∈ pktFps) (h : Found cfg fps ps packet f) :
    ∃ fpt, (f, some fpt) ∈ threadCandidates cfg fps ps packet pktFps := by
  obtain ⟨e, hfound⟩ := Option.ne_none_iff_exists'.mp h
  obtain ⟨-, slot, -, -, -, hslot, -⟩ := getFPcontent_some hfound
  have hcand : ∃ fpt, threadCandidate cfg fps ps packet f = (f, some fpt) := by
    rw [threadCandidate, hfound, Option.bind_some, hslot, Option.map_some]
    exact ⟨_, rfl⟩
  obtain ⟨fpt, hfpt⟩ := hcand
  exact ⟨fpt, List.mem_map.mpr ⟨f, hf, hfpt⟩⟩

/-- **`dedup` never expands a packet and never aborts.** -/
theorem dedup_never_expands (hcfg : cfg.Valid) (hmode : cfg.shared_dictionary_mode = false)
    (h : Reachable cfg H pd) (g : SharedDictionaries) (packet : List UInt8)
    (hlong : BETA ≤ packet.length) (hsize : packet.length ≤ cfg.MAXPKTSIZE) (optpkt : Mem) :
    ∃ o, dedup cfg H pd g packet optpkt = some o ∧
      ((∀ f ∈ calculateRelevantFPs cfg packet,
          ¬ Found cfg pd.fps (putPkt cfg pd.ps packet (H packet)).1 packet f) →
        o.optlen = packet.length) ∧
      ((∃ f ∈ calculateRelevantFPs cfg packet,
          Found cfg pd.fps (putPkt cfg pd.ps packet (H packet)).1 packet f) →
        o.optlen + 40 ≤ packet.length ∧ ∃ ts tail, 1 ≤ ts.length ∧
          slice o.optpkt 0 o.optlen = encode (H packet) ts tail ∧ expand ts tail = packet ∧
          o.optlen = 6 + 18 * ts.length + (ts.map fun u => u.lit.length).sum + tail.length ∧
          ∀ u ∈ ts, Token.Inside u cfg pd.fps (putPkt cfg pd.ps packet (H packet)).1) := by
  obtain ⟨log, hlog⟩ := h.represents hcfg hmode
  obtain ⟨ts, tail, -, hnil, henc⟩ := encodePacket_spec (H packet)
    (InSlot cfg pd.fps (putPkt cfg pd.ps packet (H packet)).1) hsize hcfg.size_le
    (fun f fpt hmem => ⟨(threadCandidates_matching hcfg hlog hlong hmem).1,
      (threadCandidates_found hmem).2.2⟩) optpkt
  obtain ⟨pd', hcall, -, -⟩ := cacheAndCompressIfNeeded_long (H := H) pd g hmode hlong optpkt true
  obtain ⟨o, hret, -, -, -, hopt, -⟩ := finishPacket_encoded pd' g henc hsize optpkt true
  obtain ⟨hbuf, hoptlen⟩ := hopt rfl
  refine ⟨o, by rw [dedup, hcall, hret], ?_, ?_⟩
  · intro hnone
    rw [hoptlen]
    apply henc.plain
    rw [hnil]
    intro f fpt hmem
    obtain ⟨hf, hfound, -⟩ := threadCandidates_found hmem
    exact hnone f hf hfound
  · rintro ⟨f, hf, hfound⟩
    obtain ⟨fpt, hmem⟩ := exists_threadCandidate hf hfound
    have hne : ts ≠ [] := fun hempty => hnil.mp hempty f fpt hmem
    obtain ⟨hwire, hshort⟩ := henc.short hne
    rw [hbuf, hoptlen]
    refine ⟨hshort, ts, tail, List.length_pos_of_ne_nil hne, henc.wire hne, henc.expands, ?_, ?_⟩
    · rw [hwire, length_encode]
    · intro u hu
      obtain ⟨fpt, ⟨fpidx, slot, hfp, hlive, hslot, hlen, hpkt, hhash⟩, hnames⟩ := henc.names u hu
      have hbody := hnames.body
      have hbeta := hnames.long
      rw [hbody, length_slice] at hbeta
      refine ⟨fpidx, slot, ?_, ?_, ?_, ?_, hnames.left_le, ?_, hbeta, ?_⟩
      · rw [hnames.fp]
        exact hfp
      · rw [hnames.fp]
        exact hlive
      · rw [hnames.fp]
        exact hslot
      · rw [hnames.hash]
        exact hhash.symm
      · rw [← hlen]
        exact hnames.right_lt
      · rw [← hpkt]
        exact hbody

end Compression

theorem fullRfp_7 : fullRfp (List.replicate 64 7) = 65917187634061056 := by decide +kernel

/-- The dictionary of `afterOne`, with the fingerprint worked out. -/
theorem afterOne_pd : afterOne.pd = ⟨afterOne.pd.compStats,
    (putFP (smallBox false) (newDeduplicator zeroed).fps
      (putPkt (smallBox false) (newDeduplicator zeroed).ps (List.replicate 64 7) 7).1
      65917187634061056 1 0 .zero).1,
    (putPkt (smallBox false) (newDeduplicator zeroed).ps (List.replicate 64 7) 7).1⟩ := by
  obtain ⟨o, ho, -, -, hstored, -⟩ := cacheAndCompressIfNeeded_thread
    (initDictionary zeroed zeroed) (smallBox_valid false) rfl
    (newDeduplicator_represents (smallBox false) firstByte zeroed)
    (show (List.replicate 64 (7 : UInt8)).length ≤ 1500 by decide) (ofList []) false
  obtain ⟨hps, hfps⟩ := hstored (by decide)
  have hone : afterOne = o := Option.some.inj ((Option.some_get _).trans ho)
  rw [calculateRelevantFPs_short _ (by decide), fullRfp_7] at hps hfps
  rw [hone]
  obtain ⟨pd, g, optpkt, optlen⟩ := o
  obtain ⟨st, fps, ps⟩ := pd
  dsimp only at hps hfps ⊢
  rw [hps, hfps]
  rfl

/-- A dictionary that has stored one packet. -/
theorem afterOne_history :
    History (smallBox false) firstByte afterOne.pd (logAfter [] (List.replicate 64 7)) :=
  .putInCache (.fresh zeroed) (by decide) (Option.some_get _).symm

/-- The entry of that packet describes it. -/
theorem dictionary_sound_afterOne :
    ∃ fpHash fpidx, 0 < (afterOne.pd.fps fpHash fpidx).pktId ∧
      FPEntryB.Describes (afterOne.pd.fps fpHash fpidx) (smallBox false) firstByte afterOne.pd.ps
        (logAfter [] (List.replicate 64 7)) fpHash := by
  have hlive : ∃ fpHash fpidx, 0 < (afterOne.pd.fps fpHash fpidx).pktId :=
    ⟨hashFPStore (smallBox false) (fullRfp (List.replicate 64 7)), ⟨2, by decide⟩, by decide +kernel⟩
  obtain ⟨fpHash, fpidx, hlive⟩ := hlive
  exact ⟨fpHash, fpidx, hlive,
    (dictionary_sound (smallBox_valid false) rfl afterOne_history).1 fpHash fpidx hlive⟩

/-- The same packet again: its fingerprint is found, and it is sent as one reference. -/
theorem dedup_never_expands_afterOne :
    ∃ o, dedup (smallBox false) firstByte afterOne.pd afterOne.g (List.replicate 64 7)
        (ofList []) = some o ∧ o.optlen + 40 ≤ 64 ∧
      ∃ ts tail, 1 ≤ ts.length ∧
        slice o.optpkt 0 o.optlen = encode (firstByte (List.replicate 64 7)) ts tail ∧
        expand ts tail = List.replicate 64 7 := by
  have hreach : Reachable (smallBox false) firstByte afterOne.pd :=
    .cacheAndCompress (.fresh zeroed) (by decide) (Option.some_get _).symm
  obtain ⟨o, ho, -, hcomp⟩ := dedup_never_expands
    (smallBox_valid false) rfl hreach afterOne.g (List.replicate 64 7) (by decide) (by decide) (ofList [])
  have hfound : ∃ f ∈ calculateRelevantFPs (smallBox false) (List.replicate 64 7),
      Found (smallBox false) afterOne.pd.fps (putPkt (smallBox false) afterOne.pd.ps
        (List.replicate 64 7) (firstByte (List.replicate 64 7))).1 (List.replicate 64 7) f := by
    refine ⟨⟨fullRfp (List.replicate 64 7), 0, 0⟩, by decide +kernel, ?_⟩
    unfold Found
    decide +kernel
  obtain ⟨hshort, ts, tail, hts, hwire, hexp, -⟩ := hcomp hfound
  exact ⟨o, ho, hshort, ts, tail, hts, hwire, hexp⟩

end Solowan.Codec
