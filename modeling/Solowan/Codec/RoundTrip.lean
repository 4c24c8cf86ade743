/-
Compressor and decompressor in lockstep.

A link carries packets from one optimization worker to one deoptimization worker. Each
packet is compressed or only cached on one side; the other side gets the compressed form
and calls `uncomp`, or gets the packet as it is and calls `update_caches` (`transfer`).
The two dictionaries start empty and, as long as every packet arrives, represent the same
log: that is the invariant `Lockstep`, which one transfer keeps (`transfer_lockstep`) and
a run therefore keeps from step to step (`transferAll_lockstep`).

Both dictionary modes are covered: `lockstep_thread` and `lockstep_shared` state the round
trip for fresh dictionaries.
-/

import Solowan.Codec.Calls

namespace Solowan.Codec

open Solowan.Memory Solowan.Dictionary

/-! ### Resolving references -/

section Resolve

variable {cfg : Config} {H : PacketHash} {pd : Deduplicator} {fps : FPStore} {log : Log}
  {t : Token} {fpt : Reference}

theorem Token.Names.wellFormed (h : t.Names fpt) (hfits : fpt.pktLen ≤ cfg.MAXPKTSIZE)
    (hmax : cfg.MAXPKTSIZE ≤ 65534) : t.WellFormed := by
  have hlt := h.right_lt
  refine ⟨h.left_le, by omega, ?_⟩
  rw [h.body, length_slice]

theorem Token.Names.length_le (h : t.Names fpt) : t.body.length ≤ fpt.pktLen := by
  have hlt := h.right_lt
  rw [h.body, length_slice]
  omega

/-- A reference into the log is resolved by every dictionary that represents the log and
has the same index, when the packets of the log have different hashes. The entry found
may be another one, but the packet is the same. -/
theorem Token.Names.resolvesIn (h : t.Names fpt) (hres : Resolvable cfg H fps log fpt)
    (hag : fps.Agree pd.fps) (hpd : pd.Represents cfg H log)
    (hinj : ∀ p ∈ log, ∀ q ∈ log, H p = H q → p = q) : t.ResolvesIn cfg pd := by
  obtain ⟨fpidx, q, hfp, hq, hwin, hlen, hhash, hbytes⟩ := hres
  have hentry := hag (hashFPStore cfg fpt.fp) fpidx
  rw [hentry.pktId] at hq hwin
  rw [hentry.fp] at hfp
  obtain ⟨pkt, hget, his⟩ := getPkt_some hpd.ps hq hwin
  obtain ⟨e, he⟩ := getFPhash_isSome hfp hget
  obtain ⟨fpidx', pkt', rfl, hfp', hget', hhash'⟩ := getFPhash_some he
  have hne : fpt.fp ≠ UINT64_MAX := by
    have hlive := (hpd.fps (hashFPStore cfg fpt.fp) fpidx).live (packetAt_range hq).1
    rw [← hfp]
    exact hlive.1
  have hok := hpd.fps (hashFPStore cfg fpt.fp) fpidx'
  obtain ⟨-, -, q', hq', -⟩ := hok.live (hok.pktId_pos hpd.ps.next (by rw [hfp']; exact hne) hget')
  obtain ⟨-, his'⟩ := getPkt_inv hpd.ps hq' hget'
  have hsame : q' = q := by
    apply hinj q' (packetAt_mem hq') q (packetAt_mem hq)
    rw [← his'.hash, hhash', his.hash]
  subst hsame
  have hright := h.right_lt
  have hleft := h.left_le
  refine ⟨pkt', ?_, ?_, ?_⟩
  · rw [getPktByHash, h.fp, h.hash, hhash, ← his.hash, he, Option.bind_some, hget']
  · rw [his'.len]
    omega
  · rw [h.body]
    apply slice_congr
    intro i hi
    have := slice_eq_apply (his'.bytes.trans hbytes.symm) (i := t.left + i) (by omega)
    simpa using this

end Resolve

/-! ### The link -/

/-- The state of both ends: the deduplicator of the optimization worker with the shared
dictionaries of its box, and those of the deoptimization worker. -/
structure Link where
  comp : Deduplicator
  gA : SharedDictionaries
  desc : Deduplicator
  gB : SharedDictionaries

/-- A packet on its way, with the buffers used for it: whether it is given to `dedup` or
to `put_in_cache`, and what is in the output buffer of `dedup`, behind the bytes received
on the other side, and in the output buffer of `uncomp`. -/
structure Input where
  packet : List UInt8
  compress : Bool
  optpkt : Mem
  received : Mem
  output : Mem

/-- What the other side makes of a packet. -/
inductive Delivery where
  | updated
  | decoded (exit : UncompExit) (packet : List UInt8)

/-- One packet from end to end; there is no result when `dedup` does not return. -/
def transfer (cfg : Config) (H : PacketHash) (l : Link) (x : Input) : Option (Delivery × Link) :=
  (cacheAndCompressIfNeeded cfg H l.comp l.gA x.packet x.optpkt x.compress).map fun o =>
    if x.compress = true ∧ o.optlen < x.packet.length then
      let r := uncomp cfg H l.desc l.gB x.output
        (memcpy x.received 0 (slice o.optpkt 0 o.optlen)) o.optlen
      (.decoded r.exit (slice r.packet 0 r.pktlen), ⟨o.pd, o.g, r.pd, r.g⟩)
    else
      let u := updateCaches cfg H l.desc l.gB x.packet
      (.updated, ⟨o.pd, o.g, u.1, u.2⟩)

/-- A sequence of packets; the result lists what was delivered and the state after every
step. -/
def transferAll (cfg : Config) (H : PacketHash) : Link → List Input →
    Option (List (Delivery × Link))
  | _, [] => some []
  | l, x :: xs =>
    (transfer cfg H l x).bind fun step =>
      (transferAll cfg H step.2 xs).map fun rest => step :: rest

/-- `uncomp`, if it was called, has returned `UNCOMP_OK` and the packet. -/
def Delivery.Faithful (packet : List UInt8) : Delivery → Prop
  | .updated => True
  | .decoded exit out => exit = .ok ∧ out = packet

/-- Two dictionaries with the same content: the next id, the length, hash and bytes of
every packet in the ring, and the fingerprint stores. What the code has not written is no
part of it: the slots never used, what a longer packet left behind a shorter one, and the
offsets of unused fingerprint entries. -/
structure SameContent (cfg : Config) (pd pd' : Deduplicator) : Prop where
  pktId : pd.ps.pktId = pd'.ps.pktId
  packets : ∀ id, 1 ≤ id → id < pd.ps.pktId → pd.ps.pktId ≤ id + cfg.PKTSTORESIZE →
    ∃ e e', getPkt cfg pd.ps id = some e ∧ getPkt cfg pd'.ps id = some e' ∧ e.len = e'.len ∧
      e.hash = e'.hash ∧ slice e.pkt 0 e.len = slice e'.pkt 0 e'.len
  fps : pd.fps.Agree pd'.fps

/-! ### The invariant -/

/-- Two dictionaries that represent the same log and have the same index. -/
structure Lockstep (cfg : Config) (H : PacketHash) (log : Log) (pd pd' : Deduplicator) :
    Prop where
  comp : pd.Represents cfg H log
  desc : pd'.Represents cfg H log
  agree : pd.fps.Agree pd'.fps

/-- The dictionaries in use: those of the two workers, or those of the two boxes. -/
def Link.dictionaries (cfg : Config) (l : Link) : Deduplicator × Deduplicator :=
  if cfg.shared_dictionary_mode then (l.gA.comp, l.gB.desc) else (l.comp, l.desc)

/-- The ends of a link are in lockstep. -/
def Link.InStep (cfg : Config) (H : PacketHash) (log : Log) (l : Link) : Prop :=
  Lockstep cfg H log (l.dictionaries cfg).1 (l.dictionaries cfg).2

section Step

variable {cfg : Config} {H : PacketHash} {log : Log} {pd pd' : Deduplicator} {l : Link} {x : Input}

theorem newDeduplicator_lockstep (cfg : Config) (H : PacketHash) (mem mem' : RawMemory) :
    Lockstep cfg H [] (newDeduplicator mem) (newDeduplicator mem') :=
  ⟨newDeduplicator_represents cfg H mem, newDeduplicator_represents cfg H mem',
    newDeduplicator_agree mem mem'⟩

theorem Lockstep.of_stores {qd qd' : Deduplicator} (h : Lockstep cfg H log pd pd')
    (hps : qd.ps = pd.ps) (hfps : qd.fps = pd.fps) (hps' : qd'.ps = pd'.ps)
    (hfps' : qd'.fps = pd'.fps) : Lockstep cfg H log qd qd' := by
  refine ⟨h.comp.of_stores hps hfps, h.desc.of_stores hps' hfps', ?_⟩
  rw [hfps, hfps']
  exact h.agree

/-- Dictionaries in lockstep have the same content. -/
theorem Lockstep.sameContent (h : Lockstep cfg H log pd pd') : SameContent cfg pd pd' := by
  have hnext := h.comp.ps.next
  have hnext' := h.desc.ps.next
  refine ⟨hnext.trans hnext'.symm, ?_, h.agree⟩
  intro id hid hlt hwin
  rw [hnext] at hlt hwin
  obtain ⟨p, hp⟩ := exists_packetAt log hid (by omega)
  obtain ⟨e, hget, his⟩ := getPkt_some h.comp.ps hp hwin
  obtain ⟨e', hget', his'⟩ := getPkt_some h.desc.ps hp hwin
  refine ⟨e, e', hget, hget', ?_, ?_, ?_⟩
  · rw [his.len, his'.len]
  · rw [his.hash, his'.hash]
  · rw [his.len, his'.len, his.bytes, his'.bytes]

/-- A dictionary with the content of one that represents a log represents the log too. -/
theorem Lockstep.of_sameContent (h : pd.Represents cfg H log) (hsame : SameContent cfg pd pd') :
    Lockstep cfg H log pd pd' := by
  have hnext := h.ps.next
  refine ⟨h, ⟨⟨hsame.pktId.symm.trans hnext, ?_⟩, ?_, h.sizes⟩, hsame.fps⟩
  · intro id p hp hwin
    have hrange := packetAt_range hp
    obtain ⟨e, e', hget, hget', hlen, hhash, hbytes⟩ := hsame.packets id (by omega) (by omega)
      (by omega)
    have his := (getPkt_inv h.ps hp hget).2
    have hslot : pd'.ps.pkts (id &&& (cfg.PKTSTORESIZE - 1)) = e' :=
      (getPkt_eq_some_iff.mp hget').2.2
    rw [hslot]
    refine ⟨hlen.symm.trans his.len, hhash.symm.trans his.hash, ?_⟩
    rw [← hlen, his.len, his.bytes] at hbytes
    exact hbytes.symm
  · intro fpHash fpidx
    have hok := h.fps fpHash fpidx
    have hag := hsame.fps fpHash fpidx
    refine ⟨?_, ?_⟩
    · rw [← hag.pktId, ← hag.fp]
      intro hlive
      obtain ⟨hfp, hbkt, p, hp, hoff⟩ := hok.live hlive
      rw [hag.offset hfp] at hoff
      exact ⟨hfp, hbkt, p, hp, hoff⟩
    · rw [← hag.pktId, ← hag.fp]
      exact hok.empty

/-- The two ways of storing a packet keep the lockstep. -/
theorem Lockstep.storePacket {p : List UInt8} (hcfg : cfg.Valid) (h : Lockstep cfg H log pd pd')
    (hlen : BETA ≤ p.length) (hsize : p.length ≤ cfg.MAXPKTSIZE) :
    Lockstep cfg H (log ++ [p]) (storePacket cfg pd p (H p) (calculateRelevantFPs cfg p))
      (storePacket cfg pd' p (H p) (calculateRelevantFPs cfg p)) :=
  ⟨storePacket_represents hcfg h.comp hlen hsize, storePacket_represents hcfg h.desc hlen hsize,
    storePacket_agree hcfg h.comp h.desc h.agree hlen⟩

theorem Lockstep.putPktAndFPs {p : List UInt8} (hcfg : cfg.Valid) (h : Lockstep cfg H log pd pd')
    (hlen : BETA ≤ p.length) (hsize : p.length ≤ cfg.MAXPKTSIZE) :
    Lockstep cfg H (log ++ [p]) (putPktAndFPs cfg pd p (H p) (calculateRelevantFPs cfg p))
      (putPktAndFPs cfg pd' p (H p) (calculateRelevantFPs cfg p)) :=
  ⟨putPktAndFPs_represents hcfg h.comp hlen hsize, putPktAndFPs_represents hcfg h.desc hlen hsize,
    putPktAndFPs_agree h.comp h.desc h.agree hlen⟩

/-- What a link relies on when a compressed packet arrives: `uncomp` accepts it and gives
the packet back. -/
theorem uncomp_in_step (hcfg : cfg.Valid) (output : Mem) {fps : FPStore} {packet : List UInt8}
    {optpkt m : Mem} {optlen : Nat} {pd : Deduplicator} {g : SharedDictionaries}
    (hsent : Sent cfg H fps log packet optpkt optlen) (hlt : optlen < packet.length)
    (hsize : packet.length ≤ cfg.MAXPKTSIZE)
    (hm : slice m 0 optlen = slice optpkt 0 optlen)
    (hdesc : (if cfg.shared_dictionary_mode then g.desc else pd).Represents cfg H log)
    (hag : fps.Agree (if cfg.shared_dictionary_mode then g.desc else pd).fps)
    (hinj : ∀ p ∈ log, ∀ q ∈ log, H p = H q → p = q) :
    Accepted cfg H pd g packet (uncomp cfg H pd g output m optlen) := by
  rcases hsent with hplain | ⟨-, t, ts, tail, hwire, hexp, hts, hnames⟩
  · omega
  have hmax := hcfg.size_le
  have hwf : ∀ u ∈ t :: ts, u.WellFormed := by
    intro u hu
    obtain ⟨fpt, ⟨-, hfits⟩, hu⟩ := hnames u hu
    exact hu.wellFormed (Nat.le_trans hfits cfg.longestFound_le) hmax
  have hres : ∀ u ∈ t :: ts,
      u.ResolvesIn cfg (if cfg.shared_dictionary_mode then g.desc else pd) := by
    intro u hu
    obtain ⟨fpt, ⟨hres, -⟩, hu⟩ := hnames u hu
    exact hu.resolvesIn hres hag hdesc hinj
  have hroom : ts.length < MAX_FP_PER_PKT := Nat.lt_of_lt_of_le hts hcfg.fp_le
  have hle : (expand (t :: ts) tail).length ≤ cfg.MAXPKTSIZE := by
    rw [hexp]
    exact hsize
  rw [uncomp]
  by_cases hmode : cfg.shared_dictionary_mode = true
  · have hlongest : cfg.longestFound ≤ PKTSIZELIMIT := by
      rw [Config.longestFound, if_pos hmode]
      exact Nat.min_le_right _ _
    have hfits : ∀ u ∈ t :: ts, u.body.length ≤ PKTSIZELIMIT := by
      intro u hu
      obtain ⟨fpt, ⟨-, hfit⟩, hu⟩ := hnames u hu
      exact Nat.le_trans hu.length_le (Nat.le_trans hfit hlongest)
    rw [if_pos hmode] at hres ⊢
    have hacc := uncompShared_encode (H := H) (pd.count fun st =>
        { st with
          inputBytes := st.inputBytes + UInt64.ofNat optlen
          processedPackets := st.processedPackets + 1 })
      output (hm.trans hwire) (by omega) hwf hle hmax hroom hres hfits
      (by rw [hexp])
    rw [hexp] at hacc
    exact hacc.of_count
  · rw [if_neg hmode] at hres ⊢
    have hfuel : ts.length < FUEL := by
      simp only [MAX_FP_PER_PKT, FUEL] at hroom ⊢
      omega
    obtain ⟨-, hout⟩ := uncompThread_encode H (pd.count fun st =>
        { st with
          inputBytes := st.inputBytes + UInt64.ofNat optlen
          processedPackets := st.processedPackets + 1 })
      g output (hm.trans hwire) (by omega) hwf hle hmax hfuel
    rcases hout with ⟨-, hmiss⟩ | ⟨q, -, hacc, hq⟩
    · obtain ⟨u, hu, hno⟩ := hmiss (by rw [hexp])
      exact absurd (hres u hu) hno
    · rw [hq hres, hexp] at hacc
      exact hacc.of_count

/-- Storing the packet on one side and updating the other keeps the lockstep. -/
theorem inStep_update (hcfg : cfg.Valid) (h : l.InStep cfg H log) {packet : List UInt8}
    (hsize : packet.length ≤ cfg.MAXPKTSIZE) {optpkt : Mem} {compress : Bool} {o : Optimized}
    (ho : cacheAndCompressIfNeeded cfg H l.comp l.gA packet optpkt compress = some o)
    {desc : Deduplicator} {gB : SharedDictionaries}
    (hps : desc.ps = (updateCaches cfg H l.desc l.gB packet).1.ps)
    (hfps : desc.fps = (updateCaches cfg H l.desc l.gB packet).1.fps)
    (hg : gB = (updateCaches cfg H l.desc l.gB packet).2) :
    (⟨o.pd, o.g, desc, gB⟩ : Link).InStep cfg H (logAfter log packet) := by
  unfold Link.InStep Link.dictionaries at h ⊢
  by_cases hmode : cfg.shared_dictionary_mode = true
  · rw [if_pos hmode] at h ⊢
    dsimp only at h ⊢
    obtain ⟨o', ho', -, hshort, hlong, -, -⟩ :=
      cacheAndCompressIfNeeded_shared l.comp hcfg hmode h.comp hsize optpkt compress fun hcomp => by
        subst hcomp
        exact lookupFits_of_some hmode ho
    rw [ho'] at ho
    cases ho
    obtain ⟨hshort', hlong'⟩ := updateCaches_shared H l.desc l.gB packet hmode
    unfold logAfter
    split
    · rename_i hlt
      rw [hg, hshort hlt, hshort' hlt]
      exact h
    · rename_i hge
      rw [hg, hlong (by omega), hlong' (by omega)]
      exact h.putPktAndFPs hcfg (by omega) hsize
  · have hmode' : cfg.shared_dictionary_mode = false := by simpa using hmode
    rw [if_neg hmode] at h ⊢
    dsimp only at h ⊢
    obtain ⟨o', ho', -, hshort, hlong, -, -⟩ :=
      cacheAndCompressIfNeeded_thread l.gA hcfg hmode' h.comp hsize optpkt compress
    rw [ho'] at ho
    cases ho
    obtain ⟨hshort', hlong'⟩ := updateCaches_thread H l.desc l.gB packet hmode'
    unfold logAfter
    split
    · rename_i hlt
      exact h.of_stores (hshort hlt).1 (hshort hlt).2 (hps.trans (hshort' hlt).1)
        (hfps.trans (hshort' hlt).2)
    · rename_i hge
      have hlen : BETA ≤ packet.length := by omega
      exact (h.storePacket hcfg hlen hsize).of_stores (hlong hlen).1 (hlong hlen).2
        (hps.trans (hlong' hlen).1) (hfps.trans (hlong' hlen).2)

/-- What the first side sends, in either mode. -/
theorem inStep_sent (hcfg : cfg.Valid) (h : l.InStep cfg H log)
    (hsize : x.packet.length ≤ cfg.MAXPKTSIZE)
    (hfits : cfg.shared_dictionary_mode = true → x.compress = true →
      LookupFits cfg l.gA.comp x.packet) :
    ∃ o, cacheAndCompressIfNeeded cfg H l.comp l.gA x.packet x.optpkt x.compress = some o ∧
      (x.compress = true → Sent cfg H (l.dictionaries cfg).1.fps log x.packet o.optpkt
        o.optlen) := by
  unfold Link.InStep Link.dictionaries at h
  unfold Link.dictionaries
  by_cases hmode : cfg.shared_dictionary_mode = true
  · rw [if_pos hmode] at h ⊢
    obtain ⟨o, ho, -, -, -, hsent, -⟩ := cacheAndCompressIfNeeded_shared l.comp hcfg hmode
      h.comp hsize x.optpkt x.compress (hfits hmode)
    exact ⟨o, ho, hsent⟩
  · rw [if_neg hmode] at h ⊢
    obtain ⟨o, ho, -, -, -, hsent, -⟩ := cacheAndCompressIfNeeded_thread l.gA hcfg
      (by simpa using hmode) h.comp hsize x.optpkt x.compress
    exact ⟨o, ho, hsent⟩

/-- Packets within the size the arrays of the shared mode are made for always fit them. -/
theorem Link.InStep.lookupFits (h : l.InStep cfg H log)
    (hlimit : cfg.shared_dictionary_mode = true → cfg.MAXPKTSIZE ≤ PKTSIZELIMIT)
    (hmode : cfg.shared_dictionary_mode = true) (packet : List UInt8) :
    LookupFits cfg l.gA.comp packet := by
  unfold Link.InStep Link.dictionaries at h
  rw [if_pos hmode] at h
  exact lookupFits_of_limit h.comp (hlimit hmode) packet

/-- **One packet keeps the lockstep**, and is delivered. -/
theorem transfer_lockstep (hcfg : cfg.Valid)
    (hlimit : cfg.shared_dictionary_mode = true → cfg.MAXPKTSIZE ≤ PKTSIZELIMIT)
    (h : l.InStep cfg H log) (hsize : x.packet.length ≤ cfg.MAXPKTSIZE)
    (hinj : ∀ p ∈ log, ∀ q ∈ log, H p = H q → p = q) :
    ∃ d l', transfer cfg H l x = some (d, l') ∧ d.Faithful x.packet ∧
      l'.InStep cfg H (logAfter log x.packet) := by
  obtain ⟨o, ho, hsent⟩ := inStep_sent hcfg h hsize fun hmode _ => h.lookupFits hlimit hmode _
  rw [transfer, ho, Option.map_some]
  by_cases hcomp : x.compress = true ∧ o.optlen < x.packet.length
  · rw [if_pos hcomp]
    have hdict : (l.dictionaries cfg).2 =
        if cfg.shared_dictionary_mode then l.gB.desc else l.desc := by
      unfold Link.dictionaries
      split <;> rfl
    have hdesc := h.desc
    have hag := h.agree
    rw [hdict] at hdesc hag
    have hacc := uncomp_in_step (m := memcpy x.received 0 (slice o.optpkt 0 o.optlen)) hcfg x.output
      (hsent hcomp.1) hcomp.2 hsize
      (slice_memcpy_self' (by simp)) hdesc hag hinj
    exact ⟨_, _, rfl, ⟨hacc.exit, hacc.output⟩,
      inStep_update hcfg h hsize ho hacc.ps hacc.fps hacc.g⟩
  · rw [if_neg hcomp]
    exact ⟨_, _, rfl, trivial, inStep_update hcfg h hsize ho rfl rfl rfl⟩

/-- **Every run keeps the lockstep**: each packet is delivered, and after each step the
dictionaries have the same content. -/
theorem transferAll_lockstep (hcfg : cfg.Valid)
    (hlimit : cfg.shared_dictionary_mode = true → cfg.MAXPKTSIZE ≤ PKTSIZELIMIT)
    (xs : List Input) (packets : List (List UInt8))
    (h : l.InStep cfg H log) (hlog : ∀ p ∈ log, p ∈ packets)
    (hxs : ∀ x ∈ xs, x.packet ∈ packets ∧ x.packet.length ≤ cfg.MAXPKTSIZE)
    (hinj : ∀ p ∈ packets, ∀ q ∈ packets, H p = H q → p = q) :
    ∃ steps, transferAll cfg H l xs = some steps ∧
      List.Forall₂ (fun x step => step.1.Faithful x.packet ∧
        SameContent cfg (step.2.dictionaries cfg).1 (step.2.dictionaries cfg).2) xs steps := by
  induction xs generalizing l log with
  | nil => exact ⟨[], rfl, .nil⟩
  | cons x xs ih =>
    obtain ⟨hmem, hsize⟩ := hxs x List.mem_cons_self
    obtain ⟨d, l', hstep, hd, hl'⟩ := transfer_lockstep hcfg hlimit h hsize
      fun p hp q hq => hinj p (hlog p hp) q (hlog q hq)
    have hlog' : ∀ p ∈ logAfter log x.packet, p ∈ packets := by
      intro p hp
      unfold logAfter at hp
      split at hp
      · exact hlog p hp
      · rcases List.mem_append.mp hp with hp | hp
        · exact hlog p hp
        · rw [List.mem_singleton.mp hp]
          exact hmem
    obtain ⟨steps, hrun, hsteps⟩ := ih hl' hlog' fun y hy => hxs y (List.mem_cons_of_mem x hy)
    refine ⟨(d, l') :: steps, ?_, .cons ⟨hd, Lockstep.sameContent hl'⟩ hsteps⟩
    rw [transferAll, hstep, Option.bind_some, hrun, Option.map_some]

end Step

/-! ### Fresh dictionaries -/

/-- **Round trip with the dictionaries of two workers.** -/
theorem lockstep_thread {cfg : Config} {H : PacketHash} (hcfg : cfg.Valid)
    (hmode : cfg.shared_dictionary_mode = false) (memC memD : RawMemory)
    (gA gB : SharedDictionaries) (xs : List Input)
    (hsize : ∀ x ∈ xs, x.packet.length ≤ cfg.MAXPKTSIZE)
    (hhash : ∀ x ∈ xs, ∀ y ∈ xs, H x.packet = H y.packet → x.packet = y.packet) :
    ∃ steps, transferAll cfg H ⟨newDeduplicator memC, gA, newDeduplicator memD, gB⟩ xs =
        some steps ∧
      List.Forall₂ (fun x step => step.1.Faithful x.packet ∧
        SameContent cfg step.2.comp step.2.desc) xs steps := by
  have hstart : (⟨newDeduplicator memC, gA, newDeduplicator memD, gB⟩ : Link).InStep cfg H [] := by
    simp only [Link.InStep, Link.dictionaries, hmode]
    exact newDeduplicator_lockstep cfg H memC memD
  have hrun := transferAll_lockstep hcfg (by simp [hmode]) xs (xs.map Input.packet) hstart
    (by simp)
    (fun x hx => ⟨List.mem_map_of_mem hx, hsize x hx⟩)
    (by simpa [List.forall_mem_map] using hhash)
  simpa [Link.dictionaries, hmode] using hrun

/-- **Round trip with the dictionaries of two boxes.** -/
theorem lockstep_shared {cfg : Config} {H : PacketHash} (hcfg : cfg.Stores)
    (hlimit : cfg.MAXPKTSIZE ≤ PKTSIZELIMIT) (hmode : cfg.shared_dictionary_mode = true)
    (memComp memDesc memComp' memDesc' : RawMemory) (pdA pdB : Deduplicator) (xs : List Input)
    (hsize : ∀ x ∈ xs, x.packet.length ≤ cfg.MAXPKTSIZE)
    (hhash : ∀ x ∈ xs, ∀ y ∈ xs, H x.packet = H y.packet → x.packet = y.packet) :
    ∃ steps, transferAll cfg H
        ⟨pdA, initDictionary memComp memDesc, pdB, initDictionary memComp' memDesc'⟩ xs =
          some steps ∧
      List.Forall₂ (fun x step => step.1.Faithful x.packet ∧
        SameContent cfg step.2.gA.comp step.2.gB.desc) xs steps := by
  have hvalid : cfg.Valid := by
    refine { hcfg with size_le := ?_ }
    simp only [PKTSIZELIMIT] at hlimit
    omega
  have hstart : (⟨pdA, initDictionary memComp memDesc, pdB, initDictionary memComp' memDesc'⟩ :
      Link).InStep cfg H [] := by
    simp only [Link.InStep, Link.dictionaries, hmode]
    exact newDeduplicator_lockstep cfg H memComp memDesc'
  have hrun := transferAll_lockstep hvalid (fun _ => hlimit) xs (xs.map Input.packet) hstart
    (by simp)
    (fun x hx => ⟨List.mem_map_of_mem hx, hsize x hx⟩)
    (by simpa [List.forall_mem_map] using hhash)
  simpa [Link.dictionaries, hmode] using hrun

/-! ### A small box -/

/-- A box with a ring of two packets. -/
def smallBox (shared : Bool) : Config := ⟨1500, 2, 256, 8, shared⟩

theorem smallBox_stores (shared : Bool) : (smallBox shared).Stores :=
  ⟨⟨1, rfl⟩, ⟨8, rfl⟩, by simp [smallBox], by simp [smallBox], by decide +revert⟩

theorem smallBox_valid (shared : Bool) : (smallBox shared).Valid :=
  { smallBox_stores shared with size_le := by simp [smallBox] }

/-- A hash that tells packets with different first bytes apart. -/
def firstByte : PacketHash := fun bs => (bs.headD 0).toUInt32

/-- Memory that was never written. -/
def zeroed : RawMemory := ⟨fun _ => ⟨ofList [], 0, 0⟩, fun _ _ => 0⟩

/-- Four packets, the second of which repeats the first. -/
def fourPackets : List Input :=
  [⟨List.replicate 64 7, true, ofList [], ofList [], ofList []⟩,
    ⟨List.replicate 64 7, true, ofList [], ofList [], ofList []⟩,
    ⟨List.replicate 80 9, false, ofList [], ofList [], ofList []⟩,
    ⟨List.replicate 80 9, true, ofList [], ofList [], ofList []⟩]

theorem fourPackets_size : ∀ x ∈ fourPackets, x.packet.length ≤ 1500 := by
  simp [fourPackets]

theorem fourPackets_hash : ∀ x ∈ fourPackets, ∀ y ∈ fourPackets,
    firstByte x.packet = firstByte y.packet → x.packet = y.packet := by
  simp [fourPackets, firstByte, List.replicate_succ]

theorem lockstep_thread_small :
    ∃ steps, transferAll (smallBox false) firstByte
        ⟨newDeduplicator zeroed, initDictionary zeroed zeroed, newDeduplicator zeroed,
          initDictionary zeroed zeroed⟩ fourPackets = some steps ∧
      List.Forall₂ (fun x step => step.1.Faithful x.packet ∧
        SameContent (smallBox false) step.2.comp step.2.desc) fourPackets steps :=
  lockstep_thread (smallBox_valid false) rfl zeroed zeroed _ _ fourPackets fourPackets_size
    fourPackets_hash

theorem lockstep_shared_small :
    ∃ steps, transferAll (smallBox true) firstByte
        ⟨newDeduplicator zeroed, initDictionary zeroed zeroed, newDeduplicator zeroed,
          initDictionary zeroed zeroed⟩ fourPackets = some steps ∧
      List.Forall₂ (fun x step => step.1.Faithful x.packet ∧
        SameContent (smallBox true) step.2.gA.comp step.2.gB.desc) fourPackets steps :=
  lockstep_shared (smallBox_stores true) (by decide) rfl zeroed zeroed zeroed zeroed _ _
    fourPackets fourPackets_size fourPackets_hash

end Solowan.Codec
