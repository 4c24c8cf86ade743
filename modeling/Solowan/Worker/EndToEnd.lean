/-
One segment from end to end.

* `accelerated_segment_carried`: what the optimization thread of one box makes of a segment,
  the deoptimization thread of the other undoes, provided that the packets found for it fit the
  arrays of the shared mode. The segment that leaves the second box is the one that entered the
  first, with option 32 added, and the dictionaries of the two boxes have the same content as
  before.
* `accelerated_segment_transparent_iff`: where they do not fit, the first box does not get that
  far (`longPacket_not_carried`).
-/

import Solowan.Codec.Soundness
import Solowan.Worker.Receiving

namespace Solowan.Worker

open Solowan.Memory Solowan.Dictionary Solowan.Codec Solowan.Net Solowan.Sessions

/-- Two boxes that run the same code with the same parameters. -/
structure Peers (dA dB : Daemon) : Prop where
  cfg : dB.cfg = dA.cfg
  H : dB.H = dA.H
  qlz : dB.qlz = dA.qlz

/-- The link from the optimization thread that has the dictionaries `xA` to the deoptimization
thread that has `xB`. -/
def linkOf (xA xB : Dedup) : Link := ⟨xA.dedupProcessor, xA.shared, xB.dedupProcessor, xB.shared⟩

section Dictionaries

variable {d : Daemon} {xA xA' xB xB' : Dedup} {log : Log} {data middle : List UInt8}
  {deduplicated : Bool}

/-- Dictionaries in lockstep take the data, if what they find for it fits the arrays of the
shared mode. -/
theorem stores_of_inStep {compress : Bool} (hcfg : d.cfg.Valid)
    (h : (linkOf xA xB).InStep d.cfg d.H log) (hsize : data.length ≤ d.cfg.MAXPKTSIZE)
    (hfits : d.cfg.shared_dictionary_mode = true → compress = true →
      LookupFits d.cfg xA.shared.comp data) : Stores d xA data compress := by
  intro optpkt
  obtain ⟨o, ho, -⟩ := inStep_sent (x := ⟨data, compress, optpkt, optpkt, optpkt⟩) hcfg h hsize
    hfits
  exact ⟨o, ho⟩

/-- What was deduplicated on one side is accepted by `uncomp` on the other. -/
theorem accepted_of_inStep (hcfg : d.cfg.Valid) (h : (linkOf xA xB).InStep d.cfg d.H log)
    (hsize : data.length ≤ d.cfg.MAXPKTSIZE)
    (hinj : ∀ p ∈ log, ∀ q ∈ log, d.H p = d.H q → p = q)
    (hded : Deduplicates d xA xA' data middle true) :
    middle ≠ [] ∧ ∀ output m, slice m 0 middle.length = middle →
      Accepted d.cfg d.H xB.dedupProcessor xB.shared data
        (uncomp d.cfg d.H xB.dedupProcessor xB.shared output m middle.length) := by
  have hdata : data ≠ [] := by
    intro hnil
    cases (hded.empty hnil).2.1
  obtain ⟨optpkt, compress, o, ho, -, -, hshort⟩ := hded.stored hdata
  obtain ⟨hcomp, hlt, rfl⟩ := hshort rfl
  subst hcomp
  obtain ⟨o', ho', hsent⟩ :=
    inStep_sent (x := ⟨data, true, optpkt, optpkt, optpkt⟩) hcfg h hsize
      fun hmode _ => lookupFits_of_some hmode ho
  obtain rfl : o = o' := Option.some.inj (ho.symm.trans ho')
  have hdict : ((linkOf xA xB).dictionaries d.cfg).2 =
      if d.cfg.shared_dictionary_mode then xB.shared.desc else xB.dedupProcessor := by
    unfold Link.dictionaries
    split <;> rfl
  have hdesc := h.desc
  have hag := h.agree
  rw [hdict] at hdesc hag
  constructor
  · rcases hsent rfl with hplain | ⟨-, u, us, tail, hwire, -⟩
    · exact absurd hplain (Nat.ne_of_lt hlt)
    · intro hnil
      have hlen := length_encode (d.H data) (u :: us) tail
      rw [← hwire, hnil, List.length_nil] at hlen
      omega
  · intro output m hm
    rw [length_slice] at hm ⊢
    exact uncomp_in_step hcfg output (hsent rfl) hlt hsize hm hdesc hag hinj

/-- Both sides have taken in the data: they are in lockstep again. -/
theorem inStep_of_remembers (hcfg : d.cfg.Valid) (h : (linkOf xA xB).InStep d.cfg d.H log)
    (hsize : data.length ≤ d.cfg.MAXPKTSIZE)
    (hded : Deduplicates d xA xA' data middle deduplicated) (hrem : Remembers d xB xB' data) :
    ∃ log', (linkOf xA' xB').InStep d.cfg d.H log' := by
  by_cases hdata : data = []
  · rw [(hded.empty hdata).2.2, hrem.1 hdata]
    exact ⟨log, h⟩
  · obtain ⟨optpkt, compress, o, ho, hpd, hg, -⟩ := hded.stored hdata
    obtain ⟨hps, hfps, hgB⟩ := hrem.2 hdata
    refine ⟨logAfter log data, ?_⟩
    have hstep := inStep_update hcfg h hsize ho hps hfps hgB
    rw [linkOf, hpd, hg]
    exact hstep

end Dictionaries

theorem QuickLZ.Lawful.mono {q : QuickLZ} {size size' : Nat} (h : q.Lawful size)
    (hle : size' ≤ size) : q.Lawful size' where
  roundTrip bs m hne hlen := h.roundTrip bs m hne (Nat.le_trans hlen hle)
  growth bs hlen := h.growth bs (Nat.le_trans hlen hle)

/-- The segment gets through both boxes: the first sends it, and in any memory that starts with
the bytes sent the second accepts it as it was. -/
def Transparent (dA dB : Daemon) (tA : Optimizer) (a : Arrival) (tB : Deoptimizer)
    (sessionsB : SessionTable) (sharedB : SharedDictionaries) (n pad : Nat) (f : Flow)
    (sq : UInt32) (items : List TcpOption) (data : List UInt8) : Prop :=
  ∃ oA, optimizationStep dA tA a = some oA ∧
    oA.verdict = .NF_ACCEPT (some (wholePacket oA.packet)) ∧
    ∀ mB, slice mB 0 (totLen oA.packet) = wholePacket oA.packet →
      ∃ oB pad', deoptimizationStep dB tB ⟨mB, sessionsB, sharedB, a.switches⟩ = some oB ∧
        oB.verdict = .NF_ACCEPT (some (wholePacket oB.packet)) ∧
        Segment oB.packet n f sq (taggedOptions 0 items pad') data ∧
        totLen oB.packet + (optionBytes items ++ List.replicate pad 0).length =
          totLen a.packet + (taggedOptions 0 items pad').length ∧
        SameContent dA.cfg ((linkOf oA.thread.dedup oB.thread.dedup).dictionaries dA.cfg).1
          ((linkOf oA.thread.dedup oB.thread.dedup).dictionaries dA.cfg).2

/-- The packets found for the data fit the arrays they are copied to, if the data is looked up in
a shared dictionary: that is when it is to be deduplicated and is no retransmission. -/
def ArraysSuffice (d : Daemon) (a : Arrival) (s : Session) (sq : UInt32) (data : List UInt8) :
    Prop :=
  d.cfg.shared_dictionary_mode = true → a.switches.deduplication = true →
    checkseqnumber (sockets a.packet).largerIP (saddr a.packet) sq s = true →
      LookupFits d.cfg a.shared.comp data

/-- **One segment is carried.** A segment that the first box accelerates, with whatever
switches, reaches the second box, which is the accelerator of the destination. That one
accepts it as it was: the same connection (with its acknowledgement number and flags), sequence
number and data, the same options but for the NOPs, and option 32 with the value 0. -/
theorem accelerated_segment_carried {dA dB : Daemon} (hpeers : Peers dA dB)
    (hcfg : dA.cfg.Valid) (hqlz : dA.qlz.Lawful dA.cfg.MAXPKTSIZE)
    {tA : Optimizer} {mA : Mem} {sessionsA : SessionTable} {sharedA : SharedDictionaries}
    {sw : Switches} {n pad : Nat} {f : Flow} {sq : UInt32} {items : List TcpOption}
    {data : List UInt8} (h : Taggable mA n f sq items pad data)
    (htcp : f.protocol = IPPROTO_TCP) (hdata : isData mA = true)
    (hsize : data.length ≤ dA.cfg.MAXPKTSIZE)
    (hon : sw.compression = true ∨ sw.deduplication = true ∨
      sw.packetPipeline = true)
    {sA : Session} (hsA : getsession sessionsA (sockets mA) = some sA)
    (hmet : accelerates dA.localID (sockets mA) (saddr mA)
      (saveacceleratorid (sockets mA).largerIP dA.localID (saddr mA) sA) = true)
    {tB : Deoptimizer} {sessionsB : SessionTable} {sharedB : SharedDictionaries} {sB : Session}
    (hsB : getsession sessionsB (sockets mA) = some sB)
    (hdest : destinationAccelerator (sockets mA) (saddr mA) sB = dB.localID)
    {log : Log}
    (hlog : ((linkOf { tA.dedup with shared := sharedA }
      { tB.dedup with shared := sharedB }).dictionaries dA.cfg).1.Represents dA.cfg dA.H log)
    (hsame : SameContent dA.cfg
      ((linkOf { tA.dedup with shared := sharedA }
        { tB.dedup with shared := sharedB }).dictionaries dA.cfg).1
      ((linkOf { tA.dedup with shared := sharedA }
        { tB.dedup with shared := sharedB }).dictionaries dA.cfg).2)
    (hinj : ∀ p ∈ log, ∀ q ∈ log, dA.H p = dA.H q → p = q)
    (harrays : ArraysSuffice dA ⟨mA, sessionsA, sharedA, sw⟩ sA sq data) :
    Transparent dA dB tA ⟨mA, sessionsA, sharedA, sw⟩ tB sessionsB sharedB n pad f sq items data := by
  have hin : (linkOf { tA.dedup with shared := sharedA }
      { tB.dedup with shared := sharedB }).InStep dA.cfg dA.H log :=
    Lockstep.of_sameContent hlog hsame
  have hmax := hcfg.size_le
  have hsmall : data.length ≤ BUFSIZE := by
    have := h.segment.length
    have := h.fits
    omega
  have hgrow : ∀ bs : List UInt8, bs.length ≤ data.length → (dA.qlz.compress bs).length < 65536 := by
    intro bs hbs
    have := hqlz.growth bs (by omega)
    simp only [BUFSIZE] at hsmall
    omega
  obtain ⟨oA, oh, pad', middle, wire, dd, c, hstep, hverdict, hseg, hroom, hoh, htr⟩ :=
    optimizationStep_sent (t := tA) (a := ⟨mA, sessionsA, sharedA, sw⟩) h htcp hon hdata hsA hmet
      (fun hsw => stores_of_inStep hcfg hin hsize fun hmode hfresh => harrays hmode hsw hfresh)
      hgrow
  refine ⟨oA, hstep, hverdict, ?_⟩
  intro mB hmB
  have hsegB := hseg.of_slice hmB
  have hsock := segment_sockets h.segment hsegB
  have haddr : saddr mB = saddr mA :=
    (segment_saddr hsegB).trans (segment_saddr h.segment).symm
  -- The code and the parameters of the second box are those of the first.
  obtain ⟨cfgB, HB, qlzB, idB, hidB⟩ := dB
  obtain ⟨hcfgB, hHB, hqlzB⟩ := hpeers
  dsimp only at hcfgB hHB hqlzB hdest
  subst hcfgB hHB hqlzB
  have hr : Restorable ⟨dA.cfg, dA.H, dA.qlz, idB, hidB⟩ sw
      { tB.dedup with shared := sharedB } n f (taggedOptions 0 items pad') data middle wire dd c :=
    { protocol := htcp
      fits := by
        have hlen : (taggedOptions 0 items pad').length = (taggedOptions 1 items pad').length := by
          simp [taggedOptions, shortOption]
        simp only [BUFSIZE] at hroom
        omega
      qlz := hqlz.mono hsize
      compresses := htr.compresses
      compression := htr.compression
      shorter := htr.shorter
      plain := by
        rintro rfl
        cases hsw : sw.deduplication with
        | true => exact (htr.on hsw).same rfl
        | false => exact (htr.off hsw).1
      off := fun hsw => (htr.off hsw).2.1
      accepted := by
        rintro rfl
        cases hsw : sw.deduplication with
        | true => exact accepted_of_inStep (d := dA) hcfg hin hsize hinj (htr.on hsw)
        | false => cases (htr.off hsw).2.1 }
  obtain ⟨oB, hstepB, hverdictB, hsegB', hremembers, hunchanged⟩ := deoptimizationStep_received
    (t := tB) (a := ⟨mB, sessionsB, sharedB, sw⟩) hsegB hoh dA.identified hr
    ((segment_isData h.segment hsegB).trans hdata) (by rw [hsock]; exact hsB)
    (by rw [hsock, haddr]; exact hdest)
  refine ⟨oB, pad', hstepB, hverdictB, hsegB', ?_, ?_⟩
  · have hlen := h.segment.length
    have hlen' := hsegB'.length
    simp only [taggedOptions] at hlen' ⊢
    omega
  · cases hsw : sw.deduplication with
    | true =>
      obtain ⟨log', hin'⟩ := inStep_of_remembers (d := dA) hcfg hin hsize (htr.on hsw) (hremembers hsw)
      exact hin'.sameContent
    | false =>
      rw [(htr.off hsw).2.2, hunchanged hsw]
      exact hsame

/-- A box that comes to the end of such a segment has found nothing that is too long. -/
theorem arraysSuffice_of_step {d : Daemon} {t : Optimizer} {a : Arrival} {n pad : Nat} {f : Flow}
    {sq : UInt32} {items : List TcpOption} {data : List UInt8} {s : Session} {o : Optimized}
    (h : Taggable a.packet n f sq items pad data) (htcp : f.protocol = IPPROTO_TCP)
    (hdata : isData a.packet = true) (hs : getsession a.sessions (sockets a.packet) = some s)
    (hmet : accelerates d.localID (sockets a.packet) (saddr a.packet)
      (saveacceleratorid (sockets a.packet).largerIP d.localID (saddr a.packet) s) = true)
    (hstep : optimizationStep d t a = some o) : ArraysSuffice d a s sq data := by
  intro hmode hsw hfresh
  by_contra hlong
  have hnone : ∀ optpkt, cacheAndCompressIfNeeded d.cfg d.H t.dedup.dedupProcessor a.shared data
      optpkt true = none := by
    intro optpkt
    by_contra hsome
    obtain ⟨o', ho'⟩ := Option.ne_none_iff_exists'.mp hsome
    exact hlong (lookupFits_of_some hmode ho')
  have hne : data ≠ [] := by
    rintro rfl
    exact hlong (lookupFits_of_short (by decide))
  have hrefused := optimizationStep_refused (t := t) h htcp hsw hdata hs hmet hfresh hne hnone
  rw [hrefused] at hstep
  cases hstep

/-- **End-to-end transparency**, and where it ends: a segment comes through exactly when the
packets found for it fit the arrays of the shared mode. -/
theorem accelerated_segment_transparent_iff {dA dB : Daemon} (hpeers : Peers dA dB)
    (hcfg : dA.cfg.Valid) (hqlz : dA.qlz.Lawful dA.cfg.MAXPKTSIZE)
    {tA : Optimizer} {mA : Mem} {sessionsA : SessionTable} {sharedA : SharedDictionaries}
    {sw : Switches} {n pad : Nat} {f : Flow} {sq : UInt32} {items : List TcpOption}
    {data : List UInt8} (h : Taggable mA n f sq items pad data)
    (htcp : f.protocol = IPPROTO_TCP) (hdata : isData mA = true)
    (hsize : data.length ≤ dA.cfg.MAXPKTSIZE)
    (hon : sw.compression = true ∨ sw.deduplication = true ∨
      sw.packetPipeline = true)
    {sA : Session} (hsA : getsession sessionsA (sockets mA) = some sA)
    (hmet : accelerates dA.localID (sockets mA) (saddr mA)
      (saveacceleratorid (sockets mA).largerIP dA.localID (saddr mA) sA) = true)
    {tB : Deoptimizer} {sessionsB : SessionTable} {sharedB : SharedDictionaries} {sB : Session}
    (hsB : getsession sessionsB (sockets mA) = some sB)
    (hdest : destinationAccelerator (sockets mA) (saddr mA) sB = dB.localID)
    {log : Log}
    (hlog : ((linkOf { tA.dedup with shared := sharedA }
      { tB.dedup with shared := sharedB }).dictionaries dA.cfg).1.Represents dA.cfg dA.H log)
    (hsame : SameContent dA.cfg
      ((linkOf { tA.dedup with shared := sharedA }
        { tB.dedup with shared := sharedB }).dictionaries dA.cfg).1
      ((linkOf { tA.dedup with shared := sharedA }
        { tB.dedup with shared := sharedB }).dictionaries dA.cfg).2)
    (hinj : ∀ p ∈ log, ∀ q ∈ log, dA.H p = dA.H q → p = q) :
    Transparent dA dB tA ⟨mA, sessionsA, sharedA, sw⟩ tB sessionsB sharedB n pad f sq items data ↔
      ArraysSuffice dA ⟨mA, sessionsA, sharedA, sw⟩ sA sq data := by
  constructor
  · rintro ⟨oA, hstep, -⟩
    exact arraysSuffice_of_step (a := ⟨mA, sessionsA, sharedA, sw⟩) h htcp hdata hsA hmet hstep
  · intro harrays
    exact accelerated_segment_carried hpeers hcfg hqlz h htcp hdata hsize hon hsA hmet hsB hdest
      hlog hsame hinj harrays

/-! ### Two small boxes -/

/-- Blocks that are stored behind their length. -/
def storedBlocks : QuickLZ where
  compress bs := leBytes 4 bs.length ++ bs
  decompress m := some (slice m 4 (loadLE m 0 4))

theorem storedBlocks_lawful {size : Nat} (h : size < 4294967296) : storedBlocks.Lawful size where
  roundTrip bs m _ hlen hm := by
    obtain ⟨hhead, hbody⟩ := slice_split hm
    rw [length_leBytes] at hhead hbody
    have hload : loadLE m 0 4 = bs.length := by
      rw [loadLE, hhead, leNat_leBytes, Nat.mod_eq_of_lt (by omega)]
    have hslice : storedBlocks.decompress m = some (slice m 4 (loadLE m 0 4)) := rfl
    rw [hslice, hload]
    exact congrArg some hbody
  growth bs _ := by
    simp only [storedBlocks, List.length_append, length_leBytes]
    omega

/-- A box with dictionaries for each worker. -/
def threadBox (localID : UInt32) (h : localID ≠ 0) : Daemon :=
  ⟨smallBox false, firstByte, storedBlocks, localID, h⟩

/-- Dictionaries in which the data of `segmentOut` is stored. -/
def warmDedup : Dedup where
  dedupProcessor := storePacket (smallBox false) (newDeduplicator zeroed) (List.replicate 64 7)
    (firstByte (List.replicate 64 7)) (calculateRelevantFPs (smallBox false) (List.replicate 64 7))
  shared := initDictionary zeroed zeroed
  dedup_buffer := ofList []

theorem warmDedup_lockstep : (linkOf warmDedup warmDedup).InStep (smallBox false) firstByte
    [List.replicate 64 7] :=
  (newDeduplicator_lockstep _ _ zeroed zeroed).storePacket (smallBox_valid false) (by decide)
    (by decide)

/-- The data of `segmentOut` is sent as a reference to itself. -/
theorem segmentOut_transparent :
    Transparent (threadBox 77 (by decide)) (threadBox 88 (by decide)) (.start warmDedup 0 0 0 noCounts)
      ⟨segmentOut, tableOf [established segmentOut 88 0], warmDedup.shared, ⟨false, true, false⟩⟩
      (.start warmDedup noCounts) (tableOf [established segmentOut 88 0]) warmDedup.shared 5 0
      (flow segmentOut) 1000 [] (List.replicate 64 7) := by
  have hpeers : Peers (threadBox 77 (by decide)) (threadBox 88 (by decide)) := ⟨rfl, rfl, rfl⟩
  have hs : getsession (tableOf [established segmentOut 88 0]) (sockets segmentOut) =
      some (established segmentOut 88 0) := by decide
  have harrays : ArraysSuffice (threadBox 77 (by decide))
      ⟨segmentOut, tableOf [established segmentOut 88 0], warmDedup.shared, ⟨false, true, false⟩⟩
      (established segmentOut 88 0) 1000 (List.replicate 64 7) := by
    intro hmode
    cases hmode
  refine Iff.mpr ?_ harrays
  exact accelerated_segment_transparent_iff hpeers (smallBox_valid false)
    (storedBlocks_lawful (by decide)) segmentOut_taggable (by decide) (by decide)
    (by decide) (Or.inr (Or.inl rfl)) hs (by decide) hs (by decide)
    warmDedup_lockstep.comp warmDedup_lockstep.sameContent (by simp)

/-! ### A packet that is too long -/

/-- A packet that is longer than the arrays of the shared mode. -/
def longData : List UInt8 := List.replicate 64 7 ++ List.replicate 1496 0

theorem length_longData : longData.length = 1560 := by
  rw [longData, List.length_append, List.length_replicate, List.length_replicate]

/-- A box with shared dictionaries, packets of up to 2000 bytes and one fingerprint for each. -/
def longBox (localID : UInt32) (h : localID ≠ 0) : Daemon :=
  ⟨⟨2000, 2, 256, 1, true⟩, firstByte, storedBlocks, localID, h⟩

theorem longBox_valid (localID : UInt32) (h : localID ≠ 0) : (longBox localID h).cfg.Valid :=
  { pktStore := ⟨1, rfl⟩
    fpStore := ⟨8, rfl⟩
    fpStore_ge := by simp [longBox]
    fp_pos := by simp [longBox]
    fp_le := by simp [longBox, MAX_FP_PER_PKT]
    size_le := by simp [longBox] }

theorem near_ne : (77 : UInt32) ≠ 0 := by decide

/-- The dictionary in which that packet is stored. -/
def longStored : Deduplicator :=
  putPktAndFPs (longBox 77 near_ne).cfg (newDeduplicator zeroed) longData (firstByte longData)
    (calculateRelevantFPs (longBox 77 near_ne).cfg longData)

def longDedup : Dedup := ⟨newDeduplicator zeroed, ⟨longStored, longStored⟩, ofList []⟩

theorem longDedup_lockstep : (linkOf longDedup longDedup).InStep (longBox 77 (by decide)).cfg
    firstByte [longData] :=
  (newDeduplicator_lockstep _ _ zeroed zeroed).putPktAndFPs (longBox_valid 77 (by decide))
    (by rw [length_longData]; decide) (by rw [length_longData]; decide)

theorem fullRfp_longData : fullRfp longData = 65917187634061056 := by
  rw [← fullRfp_7]
  unfold fullRfp longData
  apply List.foldl_ext
  intro fp i hi
  have hlt : i < 64 := List.mem_range.mp hi
  rw [List.getD_append _ _ _ _ (by simpa using hlt)]

set_option maxRecDepth 20000 in
theorem longStored_found :
    ((getFPcontent (longBox 77 (by decide)).cfg longStored.fps longStored.ps 65917187634061056
      (List.replicate 64 7)).bind fun e =>
        (getPkt (longBox 77 (by decide)).cfg longStored.ps e.pktId).map PktEntry.len) =
      some 1560 := by
  rw [longStored, calculateRelevantFPs_one rfl, fullRfp_longData]
  decide

/-- The packet is found, and does not fit. -/
theorem longData_not_fits : ¬ LookupFits (longBox 77 (by decide)).cfg longStored longData := by
  intro hfits
  obtain ⟨e, hfound, hlen⟩ := Option.bind_eq_some_iff.mp longStored_found
  obtain ⟨pktE, hget, hlen⟩ := Option.map_eq_some_iff.mp hlen
  have hmem : (⟨65917187634061056, 0, 0⟩ : FPEntryB) ∈
      calculateRelevantFPs (longBox 77 (by decide)).cfg longData := by
    rw [calculateRelevantFPs_one rfl, fullRfp_longData]
    exact List.mem_singleton_self _
  have hfit := hfits _ hmem e pktE hfound hget
  rw [hlen] at hfit
  exact absurd hfit (by decide)

/-- The segment with that packet as its data. -/
def longSegment : Mem := ofList (plainSegment 1 2 0x10 1000 longData)

theorem longSegment_taggable : Taggable longSegment 5 (flow longSegment) 1000 [] 0 longData :=
  plainSegment_taggable 1 2 0x10 (by rw [length_longData]; decide) (by decide)

/-- **A packet that was sent before** is found in the dictionary of the first box and does not
get through, although the two dictionaries have the same content and all else is in order. -/
theorem longPacket_not_carried :
    Taggable longSegment 5 (flow longSegment) 1000 [] 0 longData ∧ isData longSegment = true ∧
      longData.length ≤ (longBox 77 (by decide)).cfg.MAXPKTSIZE ∧
      accelerates 77 (sockets longSegment) (saddr longSegment)
        (saveacceleratorid (sockets longSegment).largerIP 77 (saddr longSegment)
          (established longSegment 88 0)) = true ∧
      destinationAccelerator (sockets longSegment) (saddr longSegment)
        (established longSegment 88 0) = 88 ∧
      (linkOf longDedup longDedup).InStep (longBox 77 (by decide)).cfg firstByte [longData] ∧
      ¬ Transparent (longBox 77 (by decide)) (longBox 88 (by decide)) (.start longDedup 0 0 0 noCounts)
        ⟨longSegment, tableOf [established longSegment 88 0], longDedup.shared,
          ⟨false, true, false⟩⟩
        (.start longDedup noCounts) (tableOf [established longSegment 88 0]) longDedup.shared 5 0
        (flow longSegment) 1000 [] longData := by
  have hdata : isData longSegment = true := by decide
  have hs : getsession (tableOf [established longSegment 88 0]) (sockets longSegment) =
      some (established longSegment 88 0) := by decide
  have hmet : accelerates 77 (sockets longSegment) (saddr longSegment)
      (saveacceleratorid (sockets longSegment).largerIP 77 (saddr longSegment)
        (established longSegment 88 0)) = true := by decide
  refine ⟨longSegment_taggable, hdata, by rw [length_longData]; decide, hmet, by decide,
    longDedup_lockstep, ?_⟩
  rintro ⟨oA, hstep, -⟩
  have harrays : ArraysSuffice (longBox 77 (by decide))
      ⟨longSegment, tableOf [established longSegment 88 0], longDedup.shared, ⟨false, true, false⟩⟩
      (established longSegment 88 0) 1000 longData :=
    arraysSuffice_of_step longSegment_taggable (by decide) hdata hs hmet hstep
  have hfresh : checkseqnumber (sockets longSegment).largerIP (saddr longSegment) 1000
      (established longSegment 88 0) = true := by decide
  exact longData_not_fits (harrays rfl rfl hfresh)

end Solowan.Worker
