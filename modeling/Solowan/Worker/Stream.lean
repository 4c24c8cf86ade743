/-
A stream of segments from end to end.

One worker of each box carries the segments of the connections that are bound to it. Between two
segments the CLI switches functions on and off, sessions come and go, and the buffers hold what
they hold. The dictionaries of the two workers must not drift apart: a segment that is restored is
also remembered on both sides, whether it was sent compressed, deduplicated, both, or as it was.

* `carry_restores`: one segment is restored, and the dictionaries stay in lockstep.
* `stream_transparent`: so is every segment of a stream, with the real QuickLZ on both sides.
-/

import Solowan.Worker.Blocks
import Solowan.Worker.EndToEnd

namespace Solowan.Worker

open Solowan.Memory Solowan.Dictionary Solowan.Codec Solowan.Net Solowan.Sessions

/-- A segment on its way, with what the two boxes find when it comes to them: their sessions, the
switches, and what lies behind the bytes received in the buffer of the second box. -/
structure Passage where
  packet : Mem
  sessionsA : SessionTable
  sessionsB : SessionTable
  switches : Switches
  received : Mem

/-- One segment through the optimization thread of the first box and the deoptimization thread of
the second; it is lost where netfilter drops it. The shared dictionaries are those that the thread
itself has left behind. -/
def carry (dA dB : Daemon) (tA : Optimizer) (tB : Deoptimizer) (x : Passage) :
    Option (Option Mem × Optimizer × Deoptimizer) :=
  (optimizationStep dA tA ⟨x.packet, x.sessionsA, tA.dedup.shared, x.switches⟩).bind fun oA =>
    match oA.verdict with
    | .NF_DROP => some (none, oA.thread, tB)
    | .NF_ACCEPT sent =>
      let m := memcpy x.received 0 (sent.getD (wholePacket x.packet))
      (deoptimizationStep dB tB ⟨m, x.sessionsB, tB.dedup.shared, x.switches⟩).map fun oB =>
        match oB.verdict with
        | .NF_DROP => (none, oA.thread, oB.thread)
        | .NF_ACCEPT _ => (some oB.packet, oA.thread, oB.thread)

/-- A stream of segments: what becomes of each, and the two threads behind it. -/
def carryAll (dA dB : Daemon) : Optimizer → Deoptimizer → List Passage →
    Option (List (Option Mem) × Optimizer × Deoptimizer)
  | tA, tB, [] => some ([], tA, tB)
  | tA, tB, x :: xs =>
    (carry dA dB tA tB x).bind fun step =>
      (carryAll dA dB step.2.1 step.2.2 xs).map fun rest => (step.1 :: rest.1, rest.2)

/-- What a segment says. -/
structure Content where
  dataOffset : Nat
  flow : Flow
  seq : UInt32
  options : List TcpOption
  padding : Nat
  data : List UInt8

/-- A data segment that both boxes work on: it has room for the option, its connection is
established between them, and something is switched on. -/
structure Accelerable (dA dB : Daemon) (x : Passage) (s : Content) : Prop where
  taggable : Taggable x.packet s.dataOffset s.flow s.seq s.options s.padding s.data
  tcp : s.flow.protocol = IPPROTO_TCP
  isData : isData x.packet = true
  size : s.data.length ≤ dA.cfg.MAXPKTSIZE
  on : x.switches.compression = true ∨ x.switches.deduplication = true ∨
    x.switches.packetPipeline = true
  source : ∃ sA, getsession x.sessionsA (sockets x.packet) = some sA ∧
    accelerates dA.localID (sockets x.packet) (saddr x.packet)
      (saveacceleratorid (sockets x.packet).largerIP dA.localID (saddr x.packet) sA) = true
  destination : ∃ sB, getsession x.sessionsB (sockets x.packet) = some sB ∧
    destinationAccelerator (sockets x.packet) (saddr x.packet) sB = dB.localID

/-- What such a segment is for the first box. -/
structure Sendable (d : Daemon) (a : Arrival) (s : Content) : Prop where
  taggable : Taggable a.packet s.dataOffset s.flow s.seq s.options s.padding s.data
  tcp : s.flow.protocol = IPPROTO_TCP
  isData : isData a.packet = true
  size : s.data.length ≤ d.cfg.MAXPKTSIZE
  on : a.switches.compression = true ∨ a.switches.deduplication = true ∨
    a.switches.packetPipeline = true
  source : ∃ sA, getsession a.sessions (sockets a.packet) = some sA ∧
    accelerates d.localID (sockets a.packet) (saddr a.packet)
      (saveacceleratorid (sockets a.packet).largerIP d.localID (saddr a.packet) sA) = true

theorem Accelerable.sendable {dA dB : Daemon} {x : Passage} {s : Content}
    (h : Accelerable dA dB x s) (shared : SharedDictionaries) :
    Sendable dA ⟨x.packet, x.sessionsA, shared, x.switches⟩ s :=
  ⟨h.taggable, h.tcp, h.isData, h.size, h.on, h.source⟩

/-- The segment as it leaves the second box: the NOPs among its options are gone, and option 32
with the value 0 stands before the others. -/
def Delivered (s : Content) (m : Option Mem) : Prop :=
  ∃ packet pad', m = some packet ∧
    Segment packet s.dataOffset s.flow s.seq (taggedOptions 0 s.options pad') s.data

section Step

variable {dA dB : Daemon} {tA : Optimizer} {tB : Deoptimizer} {log : Log} {x : Passage} {s : Content}
  {a : Arrival}

/-- Both sides have taken in the data: they are in lockstep again, and nothing else is in the log. -/
theorem inStep_logAfter {d : Daemon} {xA xA' xB xB' : Dedup} {data middle : List UInt8}
    {deduplicated : Bool} (hcfg : d.cfg.Valid) (h : (linkOf xA xB).InStep d.cfg d.H log)
    (hsize : data.length ≤ d.cfg.MAXPKTSIZE)
    (hded : Deduplicates d xA xA' data middle deduplicated) (hrem : Remembers d xB xB' data) :
    ∃ log', (linkOf xA' xB').InStep d.cfg d.H log' ∧ ∀ p ∈ log', p ∈ log ∨ p = data := by
  by_cases hdata : data = []
  · rw [(hded.empty hdata).2.2, hrem.1 hdata]
    exact ⟨log, h, fun p hp => Or.inl hp⟩
  · obtain ⟨optpkt, compress, o, ho, hpd, hg, -⟩ := hded.stored hdata
    obtain ⟨hps, hfps, hgB⟩ := hrem.2 hdata
    refine ⟨logAfter log data, ?_, fun p hp => ?_⟩
    · rw [linkOf, hpd, hg]
      exact inStep_update hcfg h hsize ho hps hfps hgB
    · unfold logAfter at hp
      split at hp
      · exact Or.inl hp
      · simpa using hp

/-- What the optimization thread sends of such a segment. -/
theorem Sendable.sent (hcfg : dA.cfg.Valid)
    (hlimit : dA.cfg.shared_dictionary_mode = true → dA.cfg.MAXPKTSIZE ≤ PKTSIZELIMIT)
    (hqlz : dA.qlz.Lawful dA.cfg.MAXPKTSIZE) {xB : Dedup}
    (hin : (linkOf { tA.dedup with shared := a.shared } xB).InStep dA.cfg dA.H log)
    (h : Sendable dA a s) :
    ∃ o oh pad' middle wire deduplicated compressed, optimizationStep dA tA a = some o ∧
      o.verdict = .NF_ACCEPT (some (wholePacket o.packet)) ∧
      Segment o.packet s.dataOffset s.flow
        (if deduplicated || compressed then s.seq + 8000 else s.seq)
        (taggedOptions 1 s.options pad') (oh.bytes ++ wire) ∧
      4 * s.dataOffset + TCPHDR + (taggedOptions 1 s.options pad').length + s.data.length ≤
        BUFSIZE + 4 ∧
      Announcement dA.localID deduplicated compressed oh ∧
      Transformed dA a.switches { tA.dedup with shared := a.shared } o.thread.dedup s.data middle wire
        deduplicated compressed := by
  obtain ⟨htag, htcp, hdata, hsize, hon, sA, hsA, hmet⟩ := h
  have hsmall : s.data.length ≤ BUFSIZE := by
    have := htag.segment.length
    have := htag.fits
    omega
  have hgrow : ∀ bs : List UInt8, bs.length ≤ s.data.length → (dA.qlz.compress bs).length < 65536 := by
    intro bs hbs
    have := hqlz.growth bs (by omega)
    simp only [BUFSIZE] at hsmall
    omega
  exact optimizationStep_sent htag htcp hon hdata hsA hmet
    (fun _ => stores_of_inStep hcfg hin hsize fun hmode _ => hin.lookupFits hlimit hmode s.data) hgrow

/-- What the other box makes of it, however much later: its dictionary is in lockstep with the one
that the segment was sent with. -/
theorem Sendable.restored (a' : Arrival) (hpeers : Peers dA dB) (hcfg : dA.cfg.Valid)
    (hlimit : dA.cfg.shared_dictionary_mode = true → dA.cfg.MAXPKTSIZE ≤ PKTSIZELIMIT)
    (hqlz : dA.qlz.Lawful dA.cfg.MAXPKTSIZE) (h : Sendable dA a s) {oA : Optimized}
    (hsent : optimizationStep dA tA a = some oA)
    (hin : (linkOf { tA.dedup with shared := a.shared }
      { tB.dedup with shared := a'.shared }).InStep dA.cfg dA.H log)
    (hinj : ∀ p ∈ log, ∀ q ∈ log, dA.H p = dA.H q → p = q)
    (hcopy : slice a'.packet 0 (totLen oA.packet) = wholePacket oA.packet)
    (hdedup : a'.switches.deduplication = a.switches.deduplication)
    (hcomp : a.switches.compression = true → a'.switches.compression = true)
    (hdest : ∃ sB, getsession a'.sessions (sockets a'.packet) = some sB ∧
      destinationAccelerator (sockets a'.packet) (saddr a'.packet) sB = dB.localID) :
    ∃ oB log', deoptimizationStep dB tB a' = some oB ∧
      oB.verdict = .NF_ACCEPT (some (wholePacket oB.packet)) ∧ Delivered s (some oB.packet) ∧
      (linkOf oA.thread.dedup oB.thread.dedup).InStep dA.cfg dA.H log' ∧
      ∀ p ∈ log', p ∈ log ∨ p = s.data := by
  obtain ⟨o, oh, pad', middle, wire, dd, c, hstep, -, hseg, hroom, hoh, htr⟩ :=
    h.sent hcfg hlimit hqlz hin
  rw [hsent] at hstep
  cases hstep
  have hsize := h.size
  have hsegB := hseg.of_slice hcopy
  have htag := h.taggable
  obtain ⟨sB, hsB, haccel⟩ := hdest
  -- The code and the parameters of the second box are those of the first.
  obtain ⟨cfgB, HB, qlzB, idB, hidB⟩ := dB
  obtain ⟨hcfgB, hHB, hqlzB⟩ := hpeers
  dsimp only at hcfgB hHB hqlzB haccel
  subst hcfgB hHB hqlzB
  have hr : Restorable ⟨dA.cfg, dA.H, dA.qlz, idB, hidB⟩ a'.switches
      { tB.dedup with shared := a'.shared } s.dataOffset s.flow (taggedOptions 0 s.options pad') s.data
      middle wire dd c :=
    { protocol := h.tcp
      fits := by
        have hlen : (taggedOptions 0 s.options pad').length = (taggedOptions 1 s.options pad').length := by
          simp [taggedOptions, shortOption]
        simp only [BUFSIZE] at hroom
        omega
      qlz := hqlz.mono hsize
      compresses := htr.compresses
      compression := fun hc => hcomp (htr.compression hc)
      shorter := htr.shorter
      plain := by
        rintro rfl
        cases hsw : a.switches.deduplication with
        | true => exact (htr.on hsw).same rfl
        | false => exact (htr.off hsw).1
      off := fun hsw => (htr.off (hdedup.symm.trans hsw)).2.1
      accepted := by
        rintro rfl
        cases hsw : a.switches.deduplication with
        | true => exact accepted_of_inStep (d := dA) hcfg hin hsize hinj (htr.on hsw)
        | false => cases (htr.off hsw).2.1 }
  obtain ⟨oB, hstepB, hverdictB, hsegB', hremembers, hunchanged⟩ := deoptimizationStep_received
    (t := tB) (a := a') hsegB hoh dA.identified hr
    ((segment_isData htag.segment hsegB).trans h.isData) hsB haccel
  refine ⟨oB, ?_⟩
  cases hsw : a.switches.deduplication with
  | true =>
    obtain ⟨log', hin', hlog'⟩ := inStep_logAfter (d := dA) hcfg hin hsize (htr.on hsw)
      (hremembers (hdedup.trans hsw))
    exact ⟨log', hstepB, hverdictB, ⟨oB.packet, pad', rfl, hsegB'⟩, hin', hlog'⟩
  | false =>
    refine ⟨log, hstepB, hverdictB, ⟨oB.packet, pad', rfl, hsegB'⟩, ?_, fun p hp => Or.inl hp⟩
    rw [(htr.off hsw).2.2, hunchanged (hdedup.trans hsw)]
    exact hin

/-- **One segment is restored**, and the dictionaries stay in lockstep. -/
theorem carry_restores (hpeers : Peers dA dB) (hcfg : dA.cfg.Valid)
    (hlimit : dA.cfg.shared_dictionary_mode = true → dA.cfg.MAXPKTSIZE ≤ PKTSIZELIMIT)
    (hqlz : dA.qlz.Lawful dA.cfg.MAXPKTSIZE)
    (hin : (linkOf tA.dedup tB.dedup).InStep dA.cfg dA.H log)
    (hinj : ∀ p ∈ log, ∀ q ∈ log, dA.H p = dA.H q → p = q) (hx : Accelerable dA dB x s) :
    ∃ m tA' tB' log', carry dA dB tA tB x = some (m, tA', tB') ∧ Delivered s m ∧
      (linkOf tA'.dedup tB'.dedup).InStep dA.cfg dA.H log' ∧ ∀ p ∈ log', p ∈ log ∨ p = s.data := by
  have hsendable := hx.sendable tA.dedup.shared
  have hown : (linkOf { tA.dedup with shared := tA.dedup.shared }
    { tB.dedup with shared := tB.dedup.shared }).InStep dA.cfg dA.H log := hin
  obtain ⟨oA, oh, pad', middle, wire, dd, c, hstep, hverdict, hseg, -⟩ :=
    hsendable.sent hcfg hlimit hqlz hown
  have hcopy : slice (memcpy x.received 0 (wholePacket oA.packet)) 0 (totLen oA.packet) =
      wholePacket oA.packet := slice_memcpy_self' (length_slice _ _ _)
  have hsegB := hseg.of_slice hcopy
  have hsock := segment_sockets hx.taggable.segment hsegB
  have haddr : saddr (memcpy x.received 0 (wholePacket oA.packet)) = saddr x.packet :=
    (segment_saddr hsegB).trans (segment_saddr hx.taggable.segment).symm
  have hdest := hx.destination
  rw [← hsock, ← haddr] at hdest
  obtain ⟨oB, log', hstepB, hverdictB, hdel, hin', hlog'⟩ := hsendable.restored
    ⟨memcpy x.received 0 (wholePacket oA.packet), x.sessionsB, tB.dedup.shared, x.switches⟩ hpeers
    hcfg hlimit hqlz hstep hown hinj hcopy rfl id hdest
  refine ⟨some oB.packet, oA.thread, oB.thread, log', ?_, hdel, hin', hlog'⟩
  rw [carry, hstep, Option.bind_some, hverdict]
  dsimp only [Option.getD_some]
  rw [hstepB, Option.map_some, hverdictB]

/-- A stream is restored segment by segment. -/
theorem carryAll_restores (hpeers : Peers dA dB) (hcfg : dA.cfg.Valid)
    (hlimit : dA.cfg.shared_dictionary_mode = true → dA.cfg.MAXPKTSIZE ≤ PKTSIZELIMIT)
    (hqlz : dA.qlz.Lawful dA.cfg.MAXPKTSIZE) {xs : List (Passage × Content)}
    (hin : (linkOf tA.dedup tB.dedup).InStep dA.cfg dA.H log)
    (hinj : ∀ p ∈ log ++ xs.map (·.2.data), ∀ q ∈ log ++ xs.map (·.2.data), dA.H p = dA.H q → p = q)
    (hxs : ∀ x ∈ xs, Accelerable dA dB x.1 x.2) :
    ∃ ms tA' tB' log', carryAll dA dB tA tB (xs.map (·.1)) = some (ms, tA', tB') ∧
      List.Forall₂ Delivered (xs.map (·.2)) ms ∧
      (linkOf tA'.dedup tB'.dedup).InStep dA.cfg dA.H log' := by
  induction xs generalizing tA tB log with
  | nil => exact ⟨[], tA, tB, log, rfl, .nil, hin⟩
  | cons x xs ih =>
    rw [List.map_cons] at hinj
    obtain ⟨m, tA', tB', log', hcarry, hdel, hin', hlog'⟩ := carry_restores hpeers hcfg hlimit hqlz
      hin
      (fun p hp q hq => hinj p (List.mem_append_left _ hp) q (List.mem_append_left _ hq))
      (hxs x List.mem_cons_self)
    have hmem : ∀ p ∈ log' ++ xs.map (·.2.data), p ∈ log ++ x.2.data :: xs.map (·.2.data) := by
      intro p hp
      rcases List.mem_append.mp hp with hp | hp
      · rcases hlog' p hp with hold | rfl
        · exact List.mem_append_left _ hold
        · exact List.mem_append_right _ List.mem_cons_self
      · exact List.mem_append_right _ (List.mem_cons_of_mem _ hp)
    obtain ⟨ms, tA'', tB'', log'', hall, hdels, hin''⟩ := ih hin'
      (fun p hp q hq => hinj p (hmem p hp) q (hmem q hq))
      fun y hy => hxs y (List.mem_cons_of_mem _ hy)
    refine ⟨m :: ms, tA'', tB'', log'', ?_, .cons hdel hdels, hin''⟩
    rw [List.map_cons, carryAll, hcarry, Option.bind_some, hall, Option.map_some]

end Step

/-- **A stream is transparent.** Two boxes with the real QuickLZ begin with dictionaries of the same
content, and in the shared mode no packet is longer than the arrays it is copied to. Whatever the
CLI switches in between, every accelerated segment of a stream of any length leaves the second box
as it came to the first, and the dictionaries have the same content again. -/
theorem stream_transparent {dA dB : Daemon} (hpeers : Peers dA dB) (hcfg : dA.cfg.Valid)
    (hlimit : dA.cfg.shared_dictionary_mode = true → dA.cfg.MAXPKTSIZE ≤ PKTSIZELIMIT) {fuel : Nat}
    (hqlz : dA.qlz = quickLz fuel dA.cfg.MAXPKTSIZE) (hfuel : dA.cfg.MAXPKTSIZE < fuel)
    {tA : Optimizer} {tB : Deoptimizer} {log : Log}
    (hlog : ((linkOf tA.dedup tB.dedup).dictionaries dA.cfg).1.Represents dA.cfg dA.H log)
    (hsame : SameContent dA.cfg ((linkOf tA.dedup tB.dedup).dictionaries dA.cfg).1
      ((linkOf tA.dedup tB.dedup).dictionaries dA.cfg).2)
    {xs : List (Passage × Content)} (hxs : ∀ x ∈ xs, Accelerable dA dB x.1 x.2)
    (hinj : ∀ p ∈ log ++ xs.map (·.2.data), ∀ q ∈ log ++ xs.map (·.2.data),
      dA.H p = dA.H q → p = q) :
    ∃ ms tA' tB', carryAll dA dB tA tB (xs.map (·.1)) = some (ms, tA', tB') ∧
      List.Forall₂ Delivered (xs.map (·.2)) ms ∧
      SameContent dA.cfg ((linkOf tA'.dedup tB'.dedup).dictionaries dA.cfg).1
        ((linkOf tA'.dedup tB'.dedup).dictionaries dA.cfg).2 := by
  have hmax := hcfg.size_le
  have hlaw := quickLz_lawful hfuel (by omega)
  rw [← hqlz] at hlaw
  have hin : (linkOf tA.dedup tB.dedup).InStep dA.cfg dA.H log := Lockstep.of_sameContent hlog hsame
  obtain ⟨ms, tA', tB', log', hall, hdels, hin'⟩ :=
    carryAll_restores hpeers hcfg hlimit hlaw hin hinj hxs
  exact ⟨ms, tA', tB', hall, hdels, hin'.sameContent⟩

/-! ### A stream of two segments -/

/-- The segment of `segmentOut` on its way between two boxes that know each other. -/
def passageOut (sw : Switches) : Passage where
  packet := segmentOut
  sessionsA := tableOf [established segmentOut 88 0]
  sessionsB := tableOf [established segmentOut 88 0]
  switches := sw
  received := fun _ => 255

def contentOut : Content := ⟨5, flow segmentOut, 1000, [], 0, List.replicate 64 7⟩

theorem passageOut_accelerable {sw : Switches} (hon : sw.compression = true ∨ sw.deduplication = true ∨
    sw.packetPipeline = true) :
    Accelerable (quickLzBox 77 (by decide)) (quickLzBox 88 (by decide)) (passageOut sw) contentOut := by
  have hs : getsession (tableOf [established segmentOut 88 0]) (sockets segmentOut) =
      some (established segmentOut 88 0) := by decide
  have hmet : accelerates 77 (sockets segmentOut) (saddr segmentOut)
      (saveacceleratorid (sockets segmentOut).largerIP 77 (saddr segmentOut)
        (established segmentOut 88 0)) = true := by decide
  have hdest : destinationAccelerator (sockets segmentOut) (saddr segmentOut)
      (established segmentOut 88 0) = 88 := by decide
  have hdata : isData segmentOut = true := by decide
  exact ⟨segmentOut_taggable, by decide, hdata, by decide, hon, ⟨_, hs, hmet⟩, ⟨_, hs, hdest⟩⟩

/-- The same segment twice, with deduplication switched on before the second. -/
def streamOut : List (Passage × Content) :=
  [(passageOut ⟨true, false, false⟩, contentOut), (passageOut ⟨true, true, false⟩, contentOut)]

theorem streamOut_data : ∀ p ∈ [List.replicate 64 7] ++ streamOut.map (·.2.data), p = List.replicate 64 7 := by
  simp [streamOut, contentOut]

/-- The segment is sent compressed, and then deduplicated and compressed. -/
theorem streamOut_transparent :
    ∃ ms tA tB, carryAll (quickLzBox 77 (by decide)) (quickLzBox 88 (by decide))
        (.start warmDedup 0 0 0 noCounts) (.start warmDedup noCounts) (streamOut.map (·.1)) =
          some (ms, tA, tB) ∧
      List.Forall₂ Delivered (streamOut.map (·.2)) ms ∧
      SameContent (smallBox false) ((linkOf tA.dedup tB.dedup).dictionaries (smallBox false)).1
        ((linkOf tA.dedup tB.dedup).dictionaries (smallBox false)).2 := by
  have hpeers : Peers (quickLzBox 77 (by decide)) (quickLzBox 88 (by decide)) := ⟨rfl, rfl, rfl⟩
  have hlog : ((linkOf (Optimizer.start warmDedup 0 0 0 noCounts).dedup
      (Deoptimizer.start warmDedup noCounts).dedup).dictionaries (smallBox false)).1.Represents
        (smallBox false) firstByte [List.replicate 64 7] := warmDedup_lockstep.comp
  have hxs : ∀ x ∈ streamOut,
      Accelerable (quickLzBox 77 (by decide)) (quickLzBox 88 (by decide)) x.1 x.2 := by
    intro x hx
    simp only [streamOut, List.mem_cons, List.not_mem_nil, or_false] at hx
    rcases hx with rfl | rfl
    · exact passageOut_accelerable (Or.inl rfl)
    · exact passageOut_accelerable (Or.inl rfl)
  exact stream_transparent hpeers (smallBox_valid false) (by decide) rfl (by decide) hlog
    warmDedup_lockstep.sameContent hxs
    fun p hp q hq _ => (streamOut_data p hp).trans (streamOut_data q hq).symm

end Solowan.Worker
