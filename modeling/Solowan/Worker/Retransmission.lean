/-
Retransmissions in the optimization thread (`checkseqnumber`, `updateseqnumber`,
`opennopd/sessionmanager.c`; `optimization_thread`, `opennopd/subsystems/worker.c`).

A segment whose sequence number is below the one stored for its direction is taken for a
retransmission. The number stored is that of the last segment that was deduplicated, and not
the one behind it: the last segment of a direction is not recognised when it comes again.

* `optimizationStep_recognised_iff`: what is sent when a segment is recognised, and when it is.
* `retransmissions_recognised_iff`: in a run a repeated segment is recognised if and only if one
  with a larger number has come in between.
* `last_segment_is_deduplicated_again`: none need have.
-/

import Solowan.Worker.Visits

namespace Solowan.Worker

open Solowan.Memory Solowan.Dictionary Solowan.Net Solowan.Sessions

/-! ### Repeated segments -/

/-- The two segments have the same direction and the same sequence number. -/
def SamePosition (m m' : Mem) : Prop :=
  (saddr m, source m, daddr m, dest m, seq m) = (saddr m', source m', daddr m', dest m', seq m')

instance (m m' : Mem) : Decidable (SamePosition m m') := inferInstanceAs (Decidable (_ = _))

/-- `tcp_optimize` has been called. -/
def PassedToOptimize (calls : List Call) : Prop :=
  ∃ before after, Call.tcpOptimize before after ∈ calls

/-- Both segments carry data of the same position, and the first was passed to `tcp_optimize`. -/
structure Retransmits (first x : Taken) : Prop where
  position : SamePosition first.arrival.packet x.arrival.packet
  sent : 0 < payloadSize first.arrival.packet
  data : 0 < payloadSize x.arrival.packet
  passed : PassedToOptimize first.result.calls

/-- The segment is taken for a retransmission: it is only remembered, and what is sent is the
packet with the option and a header that says so. -/
structure Recognised (a : Arrival) (o : Optimized) : Prop where
  calls : o.calls = [.tcpCacheOptim]
  added : o.addedOpennopHeader = true
  reason : (opennopHeader o.packet).reasonForNoOptimization = Reason.IS_A_RTX.toByte
  compression : (opennopHeader o.packet).compression = 0
  deduplication : (opennopHeader o.packet).deduplication = 0
  untransformed : ∃ result m, setTcpOption a.packet OPENNOP_OPTION.toNat 3 1 = some (result, m) ∧
    o.packet = checksum (addHeader m (opennopHeader o.packet))
  accepted : o.verdict = .NF_ACCEPT (some (wholePacket o.packet))

/-- From the first segment to `x` the session stays, the other threads leave the number of its
direction alone, and every segment that counts is eligible. -/
structure Uninterrupted (d : Daemon) (first : Taken) (between : List Taken) (x : Taken) : Prop where
  keeps : ∀ y ∈ between ++ [x],
    KeepsNumber (sockets x.arrival.packet) (saddr x.arrival.packet) y.visit.meanwhile
  steady : ∀ y ∈ first :: between,
    Steady d (sockets x.arrival.packet) (saddr x.arrival.packet) y.arrival
  headed : 5 ≤ ihl x.arrival.packet

/-- The segment is eligible, and one of its direction with a larger number has come in between. -/
def Overtaken (d : Daemon) (between : List Taken) (x : Taken) : Prop :=
  Eligible d x.arrival ∧ ∃ y ∈ between,
    Counts (sockets x.arrival.packet) (saddr x.arrival.packet) y.arrival.packet ∧
      seq x.arrival.packet < seq y.arrival.packet

section Step

variable {d : Daemon} {sw : Switches} {t : Optimizer} {a : Arrival} {o : Optimized} {m : Mem}
  {e : Encoded}

/-- A fresh segment is passed to `tcp_optimize`. -/
theorem accelerate_fresh (hsw : sw.deduplication = true) (h : accelerate d sw true t m = some e) :
    PassedToOptimize e.calls := by
  rw [accelerate, if_pos hsw, if_pos rfl, optimize, Option.map_eq_some_iff] at h
  obtain ⟨⟨n, m', x⟩, -, rfl⟩ := h
  exact ⟨_, _, List.mem_cons_self⟩

/-- Any other is only remembered. -/
theorem accelerate_stale (hsw : sw.deduplication = true)
    (h : accelerate d sw false t m = some e) :
    e.packet = m ∧ e.calls = [.tcpCacheOptim] ∧ e.cause = .IS_A_RTX ∧ e.thread.Clear := by
  rw [accelerate, if_pos hsw, if_neg Bool.false_ne_true, cacheOnly, Option.map_eq_some_iff] at h
  obtain ⟨⟨r, x⟩, -, rfl⟩ := h
  exact ⟨rfl, rfl, rfl, rfl, rfl, rfl⟩

theorem pass_cause (h : pass d sw t m = some e) : e.packet = m ∧ e.cause = .SESSION_CHECK := by
  unfold pass at h
  split at h
  · rw [cacheOnly, Option.map_eq_some_iff] at h
    obtain ⟨⟨r, x⟩, -, rfl⟩ := h
    exact ⟨rfl, rfl⟩
  · cases h
    exact ⟨rfl, rfl⟩

/-- A segment that is recognised is sent with its data as it was. -/
theorem Recognised.segment (h : Recognised a o) {n pad : Nat} {f : Flow} {sq : UInt32}
    {items : List TcpOption} {data : List UInt8} (htag : Taggable a.packet n f sq items pad data) :
    ∃ pad', Segment o.packet n f sq (taggedOptions 1 items pad')
      ((opennopHeader o.packet).bytes ++ data) := by
  obtain ⟨-, m', addoff, pad', hset, hseg, htot, hsmall⟩ := htag.tag
  obtain ⟨result, m, hset', hpacket⟩ := h.untransformed
  rw [hset] at hset'
  cases hset'
  have hlen := hseg.length
  have hfits := htag.fits
  simp only [BUFSIZE] at hfits
  refine ⟨pad', ?_⟩
  rw [hpacket]
  refine Segment.checksum ?_
  rw [← hpacket]
  refine segment_addHeader hseg _ ?_
  simp only [OPENNOP_HEADER]
  omega

/-- A segment that is recognised is not passed to `tcp_optimize`. -/
theorem Recognised.not_passed (h : Recognised a o) : ¬ PassedToOptimize o.calls := by
  rintro ⟨before, after, hmem⟩
  rw [h.calls] at hmem
  simp at hmem

/-- **The packet with the option in place.** -/
theorem tagPacket_recognised_iff {sessions : SessionTable} {k : Sockets} {s : Session}
    {headersBefore : Nat} {result : Int} (hsw : sw.deduplication = true)
    (hset : setTcpOption a.packet OPENNOP_OPTION.toNat 3 1 = some (result, m))
    (hok : result ≠ -1) (h : tagPacket d sw t sessions k s headersBefore m = some o) :
    Recognised a o ↔ accelerates d.localID k (saddr m) s = true ∧
      checkseqnumber k.largerIP (saddr m) (seq m) s = false := by
  have hdoff := (setTcpOption_kept hset).2.2 hok
  rw [tagPacket] at h
  dsimp only at h
  rw [Option.map_eq_some_iff] at h
  obtain ⟨e, he, rfl⟩ := h
  split at he
  · rename_i hmet
    simp only [hmet, true_and]
    cases hfresh : checkseqnumber k.largerIP (saddr m) (seq m) s with
    | true =>
      rw [hfresh] at he
      refine iff_of_false ?_ (by decide)
      intro hrec
      exact hrec.not_passed (accelerate_fresh hsw he)
    | false =>
      rw [hfresh] at he
      obtain ⟨hpacket, hcalls, hcause, hel, hcomp, hdedup⟩ := accelerate_stale hsw he
      refine iff_of_true ?_ rfl
      rw [hpacket]
      have hread := opennopHeader_emitted hdoff (e.header d.localID s.queue)
      constructor
      · exact hcalls
      · rfl
      · rw [emit, hread, Encoded.header, hcause]
      · rw [emit, hread, Encoded.header, hel, hcomp]
        rfl
      · rw [emit, hread, Encoded.header, hdedup]
        rfl
      · refine ⟨result, m, hset, ?_⟩
        rw [emit, hread]
      · rfl
  · rename_i hmet
    obtain ⟨hpacket, hcause⟩ := pass_cause he
    refine iff_of_false ?_ (fun h => hmet h.1)
    intro hrec
    have hreason := hrec.reason
    rw [emit, hpacket, opennopHeader_emitted hdoff, Encoded.header, hcause] at hreason
    exact absurd (show Reason.SESSION_CHECK.toByte = Reason.IS_A_RTX.toByte from hreason)
      (by decide)

/-- **One packet** is recognised exactly when it is eligible and its number is below the one
stored. -/
theorem optimizationStep_recognised_iff (hsw : a.switches.deduplication = true)
    (hihl : 5 ≤ ihl a.packet) (h : optimizationStep d t a = some o) :
    Recognised a o ↔ Eligible d a ∧ ∃ s, getsession a.sessions (sockets a.packet) = some s ∧
      checkseqnumber (sockets a.packet).largerIP (saddr a.packet) (seq a.packet) s = false := by
  have hsilent : o.calls = [] → ¬ Recognised a o := by
    intro hcalls hrec
    rw [hrec.calls] at hcalls
    cases hcalls
  unfold Eligible
  unfold optimizationStep at h
  dsimp only at h
  rw [if_pos (Or.inr (Or.inl hsw))] at h
  split at h
  · cases h
  · split at h
    · cases h
    · split at h
      · rename_i s hs
        simp only [hs, Option.some.injEq, exists_and_left, exists_eq_left']
        split at h
        · rename_i hdata
          simp only [hdata, true_and]
          split at h
          · cases h
          · rename_i result m hset
            simp only [hset, Option.some.injEq, Prod.mk.injEq]
            split at h
            · rename_i hfail
              cases h
              refine iff_of_false (hsilent rfl) ?_
              rintro ⟨⟨result', m', ⟨rfl, -⟩, hne, -⟩, -⟩
              exact hne hfail
            · rename_i hok
              have hflow := (edited_setTcpOption hset).flow hihl
              have haddr : saddr m = saddr a.packet := congrArg Flow.saddr hflow
              rw [tagPacket_recognised_iff hsw hset hok h, checkseqnumber_saveacceleratorid, haddr,
                (setTcpOption_kept hset).2.1]
              constructor
              · rintro ⟨hmet, hstale⟩
                exact ⟨⟨result, m, ⟨rfl, rfl⟩, hok, hmet⟩, hstale⟩
              · rintro ⟨⟨_, _, -, -, hmet⟩, hstale⟩
                exact ⟨hmet, hstale⟩
        · rename_i hdata
          cases h
          exact iff_of_false (hsilent rfl) (fun h => hdata h.1.1)
      · rename_i hs
        cases h
        refine iff_of_false (hsilent rfl) ?_
        simp [hs]

/-- A packet that is passed to `tcp_optimize` is eligible, and its number is not below the one
stored. -/
theorem optimizationStep_passed (hsw : a.switches.deduplication = true) (hihl : 5 ≤ ihl a.packet)
    (h : optimizationStep d t a = some o) (hpassed : PassedToOptimize o.calls) :
    Eligible d a ∧ ∃ s, getsession a.sessions (sockets a.packet) = some s ∧
      checkseqnumber (sockets a.packet).largerIP (saddr a.packet) (seq a.packet) s = true := by
  have hsilent : o.calls ≠ [] := by
    rintro hcalls
    obtain ⟨before, after, hmem⟩ := hpassed
    rw [hcalls] at hmem
    cases hmem
  unfold optimizationStep at h
  dsimp only at h
  rw [if_pos (Or.inr (Or.inl hsw))] at h
  split at h
  · cases h
  · split at h
    · cases h
    · split at h
      · rename_i s hs
        split at h
        · rename_i hdata
          split at h
          · cases h
          · rename_i result m hset
            split at h
            · cases h
              exact absurd rfl hsilent
            · rename_i hok
              have hflow := (edited_setTcpOption hset).flow hihl
              have haddr : saddr m = saddr a.packet := congrArg Flow.saddr hflow
              rw [tagPacket] at h
              dsimp only at h
              rw [Option.map_eq_some_iff, checkseqnumber_saveacceleratorid, haddr,
                (setTcpOption_kept hset).2.1] at h
              obtain ⟨e, he, rfl⟩ := h
              have hcalls : PassedToOptimize e.calls := hpassed
              have honly : ¬ PassedToOptimize [.tcpCacheOptim] := by
                rintro ⟨before, after, hmem⟩
                simp at hmem
              split at he
              · rename_i hmet
                refine ⟨⟨s, result, m, hs, hdata, hset, hok, hmet⟩, s, hs, ?_⟩
                by_contra hstale
                rw [Bool.not_eq_true] at hstale
                rw [hstale] at he
                rw [(accelerate_stale hsw he).2.1] at hcalls
                exact honly hcalls
              · rw [pass, if_pos hsw] at he
                rw [(cacheOnly_eq he).2.1] at hcalls
                exact absurd hcalls honly
        · cases h
          exact absurd rfl hsilent
      · cases h
        exact absurd rfl hsilent

end Step

/-! ### Whole runs -/

/-- Segments of the same position belong to the same direction. -/
theorem SamePosition.direction {m m' : Mem} (h : SamePosition m m') :
    sockets m = sockets m' ∧ saddr m = saddr m' ∧ seq m = seq m' := by
  simp only [SamePosition, Prod.mk.injEq] at h
  obtain ⟨h1, h2, h3, h4, h5⟩ := h
  exact ⟨by rw [sockets, h1, h2, h3, h4, ← sockets], h1, h5⟩

/-- **Which retransmissions are recognised.** In every run with deduplication on, a segment that
comes again is recognised exactly when it has been overtaken, whether or not the sequence numbers
have wrapped. -/
theorem retransmissions_recognised_iff {d : Daemon} {t : Optimizer} {sessions : SessionTable}
    {vs : List Visit} (hon : ∀ v ∈ vs, v.switches.deduplication = true)
    {past between rest : List Taken} {first x : Taken}
    (hrun : visits d t sessions vs = past ++ first :: (between ++ x :: rest))
    (hagain : Retransmits first x) (hsame : Uninterrupted d first between x) :
    Recognised x.arrival x.result ↔ Overtaken d between x := by
  obtain ⟨hk, haddr, hseq⟩ := hagain.position.direction
  obtain ⟨t₁, sessions₁, vs₁, harr, hstep, hmem, hsub, hrest⟩ := visits_append hrun
  have hfirst := hsame.steady first List.mem_cons_self
  have hsw : first.arrival.switches.deduplication = true := by
    rw [harr]
    exact hon _ hmem
  -- The first copy stores its number, which is that of the second.
  obtain ⟨heligible, s, hs, hfresh⟩ := optimizationStep_passed hsw hfirst.headed hstep hagain.passed
  have hzero : (sockets x.arrival.packet).largerIP ≠ 0 := by
    intro hzero
    rw [hk, checkseqnumber, hzero, if_neg (not_not.mpr rfl)] at hfresh
    cases hfresh
  have hends := saddr_sockets x.arrival.packet
  rw [hk] at hs
  rw [hk, haddr, hseq, checkseqnumber_eq hzero, Bool.not_eq_true', decide_eq_false_iff_not] at hfresh
  have hn : storedNumber first.arrival.sessions (sockets x.arrival.packet)
      (saddr x.arrival.packet) =
        some (storedSeq (sockets x.arrival.packet).largerIP (saddr x.arrival.packet) s) := by
    rw [storedNumber, hs, Option.map_some]
  obtain ⟨n₁, hn₁, hlt₁⟩ := optimizationStep_number hsw hstep hends hzero hfirst hn
  have hown : ¬ seq x.arrival.packet < n₁ := by
    rw [hlt₁, hseq]
    rintro (hlt | ⟨-, hlt⟩)
    · exact hfresh hlt
    · exact UInt32.lt_irrefl _ hlt
  -- What comes in between raises it.
  obtain ⟨n', hn', hlt⟩ := visits_number hends hzero (fun v hv => hon v (hsub hv)) hrest.symm
    hsame.keeps (fun y hy => hsame.steady y (List.mem_cons_of_mem _ hy)) hn₁
  obtain ⟨s', hs', rfl⟩ := Option.map_eq_some_iff.mp hn'
  obtain ⟨t₂, sessions₂, vs₂, harr₂, hstep₂, hmem₂, -⟩ := visits_append hrest.symm
  have hsw₂ : x.arrival.switches.deduplication = true := by
    rw [harr₂]
    exact hon _ (hsub hmem₂)
  rw [optimizationStep_recognised_iff hsw₂ hsame.headed hstep₂, Overtaken]
  simp only [hs', Option.some.injEq, exists_eq_left', checkseqnumber_eq hzero, Bool.not_eq_false',
    decide_eq_true_eq]
  rw [hlt, or_iff_right hown]

/-! ### The last segment -/

/-- A fresh segment with compression off: what the thread keeps, and what it does to the
sessions. -/
theorem tagPacket_optimized {d : Daemon} {t : Optimizer} {k : Sockets} {s : Session} {r : Nat}
    {m m' : Mem} {x : Dedup} (pipeline : Bool) (sessions : SessionTable) (headersBefore : Nat)
    (hmet : accelerates d.localID k (saddr m) s = true)
    (hfresh : checkseqnumber k.largerIP (saddr m) (seq m) s = true)
    (h : tcpOptimize d true t.dedup m = some (r, m', x)) :
    ∃ o oh marked, tagPacket d ⟨false, true, pipeline⟩ t sessions k s headersBefore m = some o ∧
      o.thread.dedup = x ∧ o.calls = [.tcpOptimize (payloadSize m) (payloadSize m')] ∧
      o.sessions = endSegment (sessions.update k (updateseqnumber k.largerIP (saddr m) (seq m))) k
        (rst (addHeader (markSeq m' marked) oh)) (fin (addHeader (markSeq m' marked) oh)) := by
  have he : ∃ e, accelerate d ⟨false, true, pipeline⟩ true t m = some e ∧ e.thread.dedup = x ∧
      e.calls = [.tcpOptimize (payloadSize m) (payloadSize m')] ∧
      ∃ marked, e.packet = markSeq m' marked := by
    rw [accelerate, if_pos rfl, if_pos rfl, optimize]
    dsimp only
    rw [h, Option.map_some]
    exact ⟨_, rfl, rfl, rfl, _, rfl⟩
  obtain ⟨e, he, hdedup, hcalls, marked, hpacket⟩ := he
  refine ⟨_, e.header d.localID s.queue, marked, tagPacket_met hmet hfresh he, hdedup, hcalls, ?_⟩
  rw [hpacket]
  rfl

open Solowan.Codec in
/-- Empty dictionaries. -/
def coldDedup : Dedup :=
  ⟨newDeduplicator zeroed, initDictionary zeroed zeroed, ofList []⟩

/-- A packet with what the thread finds; deduplication is on. -/
def arriveWith (p : Mem) (sessions : SessionTable) (shared : SharedDictionaries) : Arrival :=
  ⟨p, sessions, shared, ⟨false, true, false⟩⟩

theorem endSegment_open (t : SessionTable) (k : Sockets) : endSegment t k false false = t := by
  rw [endSegment, if_neg Bool.false_ne_true, closingsession]
  split
  · rfl
  · rw [if_neg Bool.false_ne_true]

section Plain

variable {p : Mem} {sq : UInt32} {data : List UInt8}
  (htag : Taggable p 5 (flow segmentOut) sq [] 0 data) {sessions : SessionTable} {s : Session}
  (hs : getsession sessions (sockets segmentOut) = some s)
  (hmet : accelerates sharedBox.localID (sockets segmentOut) (saddr segmentOut)
    (saveacceleratorid (sockets segmentOut).largerIP sharedBox.localID (saddr segmentOut) s) = true)

include htag hs

/-- A segment of the flow of `segmentOut` gets the option, and then its data is dealt with. -/
theorem plain_tagged (t : Optimizer) (shared : SharedDictionaries) :
    ∃ m pad t', Segment m 5 (flow segmentOut) sq (taggedOptions 1 [] pad) data ∧
      4 * 5 + TCPHDR + (taggedOptions 1 [] pad).length + data.length + OPENNOP_HEADER < 65536 ∧
      t'.dedup = { t.dedup with shared := shared } ∧ saddr m = saddr segmentOut ∧
      optimizationStep sharedBox t (arriveWith p sessions shared) =
        tagPacket sharedBox ⟨false, true, false⟩ t'
          (sessions.update (sockets segmentOut)
            (saveacceleratorid (sockets segmentOut).largerIP sharedBox.localID (saddr segmentOut)))
          (sockets segmentOut)
          (saveacceleratorid (sockets segmentOut).largerIP sharedBox.localID (saddr segmentOut) s)
          (getIPPlusTCPHeaderLength p) m := by
  have hflow := htag.segment.flow
  have hsock : sockets p = sockets segmentOut := sockets_of_flow hflow
  have haddr : saddr p = saddr segmentOut := congrArg Flow.saddr hflow
  obtain ⟨m, addoff, pad, hseg, htot, hsmall, -, hstep⟩ := optimizationStep_tagged (d := sharedBox)
    (t := t) (a := arriveWith p sessions shared) htag (Or.inr (Or.inl rfl))
    ((isData_of_flow hflow).trans (by decide)) ((congrArg _ hsock).trans hs)
  dsimp only [arriveWith] at hstep htot
  rw [hsock, haddr] at hstep
  refine ⟨m, pad, _, hseg, ?_, rfl, (segment_saddr hseg).trans (flow_saddr segmentOut), hstep⟩
  have hwhole := hseg.length
  have hfits := htag.fits
  simp only [OPENNOP_HEADER, BUFSIZE] at *
  omega

include hmet

/-- It is eligible in an established session. -/
theorem plain_eligible (shared : SharedDictionaries) :
    Eligible sharedBox (arriveWith p sessions shared) := by
  have hflow := htag.segment.flow
  have hsock : sockets p = sockets segmentOut := sockets_of_flow hflow
  have haddr : saddr p = saddr segmentOut := congrArg Flow.saddr hflow
  obtain ⟨-, m, -, -, hset, -⟩ := htag.tag
  refine ⟨s, 0, m, ?_, (isData_of_flow hflow).trans (by decide), hset, by decide, ?_⟩
  · exact (congrArg _ hsock).trans hs
  · dsimp only [arriveWith]
    rw [hsock, haddr]
    exact hmet

/-- A segment that is fresh in its session is passed to `tcp_optimize`, and its number is stored. -/
theorem plain_optimized (t : Optimizer) (shared : SharedDictionaries) {x : Dedup} {newsize : Nat}
    (hfresh : checkseqnumber (sockets segmentOut).largerIP (saddr segmentOut) sq s = true)
    (hopt : ∀ m pad, Segment m 5 (flow segmentOut) sq (taggedOptions 1 [] pad) data →
      ∃ r m' data', tcpOptimize sharedBox true { t.dedup with shared := shared } m = some (r, m', x) ∧
        Segment m' 5 (flow segmentOut) sq (taggedOptions 1 [] pad) data' ∧
        data'.length = newsize ∧ newsize ≤ data.length) :
    ∃ o, optimizationStep sharedBox t (arriveWith p sessions shared) = some o ∧
      o.thread.dedup = x ∧ o.calls = [.tcpOptimize data.length newsize] ∧
      getsession o.sessions (sockets segmentOut) = some
        (updateseqnumber (sockets segmentOut).largerIP (saddr segmentOut) sq
          (saveacceleratorid (sockets segmentOut).largerIP sharedBox.localID (saddr segmentOut)
            s)) := by
  obtain ⟨m, pad, t', hseg, hroom, ht', hsource, hstep⟩ := plain_tagged htag hs t shared
  obtain ⟨r, m', data', hopt', hseg', hlen, hle⟩ := hopt m pad hseg
  rw [← ht'] at hopt'
  have hfresh' : checkseqnumber (sockets segmentOut).largerIP (saddr m) (seq m)
      (saveacceleratorid (sockets segmentOut).largerIP sharedBox.localID (saddr segmentOut) s) =
        true := by
    rw [hsource, hseg.seq, checkseqnumber_saveacceleratorid]
    exact hfresh
  obtain ⟨o, oh, marked, ho, hdedup, hcalls, hsessions⟩ := tagPacket_optimized false
    (sessions.update (sockets segmentOut)
      (saveacceleratorid (sockets segmentOut).largerIP sharedBox.localID (saddr segmentOut)))
    (getIPPlusTCPHeaderLength p) (by rw [hsource]; exact hmet) hfresh' hopt'
  have hflags : flags (addHeader (markSeq m' marked) oh) = 0x10 :=
    (congrArg Flow.flags (segment_addHeader (segment_markSeq hseg' marked) oh (by omega)).flow).trans
      (by decide)
  have hrst : rst (addHeader (markSeq m' marked) oh) = false := by
    rw [rst, hflags]
    decide
  have hfin : fin (addHeader (markSeq m' marked) oh) = false := by
    rw [fin, hflags]
    decide
  refine ⟨o, hstep.trans ho, hdedup, ?_, ?_⟩
  · rw [hcalls, hseg.payloadSize, hseg'.payloadSize, hlen]
  · rw [hsessions, hrst, hfin, endSegment_open, getsession_update _ _ (by simp),
      getsession_update _ _ (by simp), hs, hsource, hseg.seq]
    rfl

/-- A segment below the number stored is only remembered. -/
theorem plain_remembered (t : Optimizer) (shared : SharedDictionaries) {c : Codec.Optimized}
    (hdata : data ≠ [])
    (hstale : checkseqnumber (sockets segmentOut).largerIP (saddr segmentOut) sq s = false)
    (hc : Codec.putInCache sharedBox.cfg sharedBox.H t.dedup.dedupProcessor shared data = some c) :
    ∃ o, optimizationStep sharedBox t (arriveWith p sessions shared) = some o := by
  obtain ⟨m, pad, t', hseg, -, ht', hsource, hstep⟩ := plain_tagged htag hs t shared
  have htcp : protocol m = IPPROTO_TCP := (segment_protocol hseg).trans (by decide)
  obtain ⟨e, he⟩ : ∃ e, accelerate sharedBox ⟨false, true, false⟩ false t' m = some e := by
    rw [accelerate, if_pos rfl, if_neg Bool.false_ne_true, cacheOnly, tcpCacheOptim, if_pos htcp,
      hseg.payloadSize, hseg.payload, if_pos (List.length_pos_iff.mpr hdata)]
    dsimp only
    rw [ht', hc]
    exact ⟨_, rfl⟩
  rw [hstep]
  refine ⟨_, tagPacket_met (by rw [hsource]; exact hmet) ?_ he⟩
  rw [checkseqnumber_saveacceleratorid, hsource, hseg.seq]
  exact hstale

end Plain

/-- What `tcp_optimize` makes of data that `dedup` returns from. -/
theorem tcpOptimize_plain {t : Optimizer} {shared : SharedDictionaries} {sq : UInt32}
    {data : List UInt8} {o : Codec.Optimized} (hdata : data ≠ [])
    (ho : Codec.dedup sharedBox.cfg sharedBox.H t.dedup.dedupProcessor shared data
      t.dedup.dedup_buffer = some o) (m : Mem) (pad : Nat)
    (hseg : Segment m 5 (flow segmentOut) sq (taggedOptions 1 [] pad) data) :
    ∃ r m' data', tcpOptimize sharedBox true { t.dedup with shared := shared } m =
        some (r, m', ⟨o.pd, o.g, o.optpkt⟩) ∧
      Segment m' 5 (flow segmentOut) sq (taggedOptions 1 [] pad) data' ∧
      data'.length = min o.optlen data.length ∧ min o.optlen data.length ≤ data.length := by
  obtain ⟨hshort, hlong⟩ := tcpOptimize_segment (d := sharedBox)
    (x := { t.dedup with shared := shared }) hseg (by decide) hdata ho
  by_cases hlt : o.optlen < data.length
  · obtain ⟨m', hopt, hseg'⟩ := hshort hlt
    exact ⟨_, m', _, hopt, hseg', by rw [length_slice]; omega, Nat.min_le_right _ _⟩
  · exact ⟨_, m, _, hlong (by omega), hseg, by omega, Nat.min_le_right _ _⟩

/-- And of none. -/
theorem tcpOptimize_none {t : Optimizer} {shared : SharedDictionaries} {sq : UInt32} (m : Mem)
    (pad : Nat) (hseg : Segment m 5 (flow segmentOut) sq (taggedOptions 1 [] pad) []) :
    ∃ r m' data', tcpOptimize sharedBox true { t.dedup with shared := shared } m =
        some (r, m', { t.dedup with shared := shared }) ∧
      Segment m' 5 (flow segmentOut) sq (taggedOptions 1 [] pad) data' ∧ data'.length = 0 ∧
      0 ≤ ([] : List UInt8).length := by
  have htcp : protocol m = IPPROTO_TCP := (segment_protocol hseg).trans (by decide)
  refine ⟨0, m, [], ?_, hseg, rfl, Nat.le_refl 0⟩
  rw [tcpOptimize, if_pos ⟨rfl, htcp⟩, hseg.payloadSize]
  rfl

/-- An acknowledgement behind the data of `segmentOut`. -/
def ackBehind : Mem := ofList (plainSegment 1 2 0x10 1064 [])

theorem ackBehind_taggable : Taggable ackBehind 5 (flow segmentOut) 1064 [] 0 [] := by
  have htag : Taggable ackBehind 5 (flow (ofList (plainSegment 1 2 0x10 1064 []))) 1064 [] 0 [] :=
    plainSegment_taggable 1 2 0x10 (by decide) (by decide)
  have hflow : flow (ofList (plainSegment 1 2 0x10 1064 [])) = flow segmentOut := by decide
  rw [hflow] at htag
  exact htag

/-- A packet that the thread takes when nothing else has happened. -/
def visitOf (p : Mem) (shared : SharedDictionaries) : Visit := ⟨p, id, shared, ⟨false, true, false⟩⟩

/-- The deoptimization thread stores a number for the other direction. -/
def otherStored (s : Session) : Session := { s with largerIPseq := 5000 }

def storeOther (sessions : SessionTable) : SessionTable :=
  sessions.update (sockets segmentOut) otherStored

theorem getsession_storeOther (sessions : SessionTable) :
    getsession (storeOther sessions) (sockets segmentOut) =
      (getsession sessions (sockets segmentOut)).map otherStored :=
  getsession_update _ _ fun _ => rfl

theorem keepsNumber_storeOther :
    KeepsNumber (sockets segmentOut) (saddr segmentOut) storeOther := by
  intro sessions n hn
  have hne : saddr segmentOut ≠ (sockets segmentOut).largerIP := by decide
  have hsame : storedSeq (sockets segmentOut).largerIP (saddr segmentOut) ∘ otherStored =
      storedSeq (sockets segmentOut).largerIP (saddr segmentOut) := by
    funext s
    rw [Function.comp_apply, storedSeq, storedSeq, if_neg hne, if_neg hne]
    rfl
  rw [storedNumber, getsession_storeOther, Option.map_map, hsame]
  exact hn

/-- A segment of the flow of `segmentOut` does not interrupt its session. -/
theorem plain_steady {p : Mem} {sq : UInt32} {data : List UInt8}
    (htag : Taggable p 5 (flow segmentOut) sq [] 0 data) {sessions : SessionTable} {s : Session}
    (hs : getsession sessions (sockets segmentOut) = some s)
    (hmet : accelerates sharedBox.localID (sockets segmentOut) (saddr segmentOut)
      (saveacceleratorid (sockets segmentOut).largerIP sharedBox.localID (saddr segmentOut) s) = true)
    (shared : SharedDictionaries) :
    Steady sharedBox (sockets segmentOut) (saddr segmentOut) (arriveWith p sessions shared) := by
  have hflags : flags p = 0x10 := (congrArg Flow.flags htag.segment.flow).trans (by decide)
  refine ⟨htag.segment.ihl.ge, fun _ _ _ => ⟨?_, fun hfin => ?_⟩, fun _ =>
    plain_eligible htag hs hmet shared⟩
  · dsimp only [arriveWith]
    rw [rst, hflags]
    decide
  · dsimp only [arriveWith] at hfin
    rw [fin, hflags] at hfin
    exact absurd hfin (by decide)

/-- A retransmission that is recognised: an acknowledgement has been sent since. -/
theorem overtaken_segment_is_recognised :
    ∃ x₁ x₂ x₃, visits sharedBox (.start coldDedup 0 0 0 noCounts)
          (tableOf [established segmentOut 88 0])
          [visitOf segmentOut coldDedup.shared, visitOf ackBehind coldDedup.shared,
            { visitOf segmentOut coldDedup.shared with meanwhile := storeOther }] = [x₁, x₂, x₃] ∧
      Retransmits x₁ x₃ ∧ Recognised x₃.arrival x₃.result := by
  have hlen : ((Codec.dedup sharedBox.cfg sharedBox.H coldDedup.dedupProcessor coldDedup.shared
      (List.replicate 64 7) coldDedup.dedup_buffer).bind fun o =>
        (Codec.putInCache sharedBox.cfg sharedBox.H o.pd coldDedup.shared (List.replicate 64 7)).map
          fun _ => ()) = some () := by decide
  rw [Option.bind_eq_some_iff] at hlen
  obtain ⟨c₁, hc₁, hlen⟩ := hlen
  rw [Option.map_eq_some_iff] at hlen
  obtain ⟨c₃, hc₃, -⟩ := hlen
  have hs₁ : getsession (tableOf [established segmentOut 88 0]) (sockets segmentOut) =
      some (established segmentOut 88 0) := by decide
  obtain ⟨o₁, ho₁, hdedup₁, hcalls₁, hs₂⟩ := plain_optimized segmentOut_taggable hs₁ (by decide)
    (.start coldDedup 0 0 0 noCounts) coldDedup.shared (by decide)
    (tcpOptimize_plain (List.cons_ne_nil _ _) hc₁)
  obtain ⟨o₂, ho₂, hdedup₂, -, hs₃⟩ := plain_optimized ackBehind_taggable hs₂ (by decide) o₁.thread
    coldDedup.shared (by decide) tcpOptimize_none
  have hs₄ := getsession_storeOther o₂.sessions
  rw [hs₃, Option.map_some] at hs₄
  obtain ⟨o₃, ho₃⟩ := plain_remembered segmentOut_taggable hs₄ (by decide) o₂.thread
    coldDedup.shared (List.cons_ne_nil _ _) (by decide) (by rw [hdedup₂, hdedup₁]; exact hc₃)
  obtain ⟨x₁, hx₁⟩ : ∃ x₁ : Taken, x₁ = ⟨visitOf segmentOut coldDedup.shared,
    arriveWith segmentOut (tableOf [established segmentOut 88 0]) coldDedup.shared, o₁⟩ := ⟨_, rfl⟩
  obtain ⟨x₂, hx₂⟩ : ∃ x₂ : Taken, x₂ = ⟨visitOf ackBehind coldDedup.shared,
    arriveWith ackBehind o₁.sessions coldDedup.shared, o₂⟩ := ⟨_, rfl⟩
  obtain ⟨x₃, hx₃⟩ : ∃ x₃ : Taken,
    x₃ = ⟨{ visitOf segmentOut coldDedup.shared with meanwhile := storeOther },
      arriveWith segmentOut (storeOther o₂.sessions) coldDedup.shared, o₃⟩ := ⟨_, rfl⟩
  have hrun : visits sharedBox (.start coldDedup 0 0 0 noCounts)
      (tableOf [established segmentOut 88 0])
      [visitOf segmentOut coldDedup.shared, visitOf ackBehind coldDedup.shared,
        { visitOf segmentOut coldDedup.shared with meanwhile := storeOther }] = [x₁, x₂, x₃] := by
    rw [hx₁, hx₂, hx₃]
    simp only [visits, Visit.arrival, visitOf, id, arriveWith] at ho₁ ho₂ ho₃ ⊢
    simp only [ho₁, ho₂, ho₃]
  have hdata : 0 < payloadSize segmentOut := by decide
  have hagain : Retransmits x₁ x₃ := by
    rw [hx₁, hx₃]
    refine ⟨rfl, hdata, hdata, ?_⟩
    rw [PassedToOptimize, hcalls₁]
    exact ⟨_, _, List.mem_singleton_self _⟩
  refine ⟨x₁, x₂, x₃, hrun, hagain, ?_⟩
  refine (retransmissions_recognised_iff ?_ (show _ = [] ++ x₁ :: ([x₂] ++ x₃ :: []) from hrun)
    hagain ?_).mpr ?_
  · intro v hv
    simp only [List.mem_cons, List.not_mem_nil, or_false] at hv
    rcases hv with rfl | rfl | rfl <;> rfl
  · subst hx₁ hx₂ hx₃
    refine ⟨?_, ?_, segmentOut_taggable.segment.ihl.ge⟩
    · intro y hy
      simp only [List.singleton_append, List.mem_cons, List.not_mem_nil, or_false] at hy
      rcases hy with rfl | rfl
      · exact fun _ _ h => h
      · exact keepsNumber_storeOther
    · intro y hy
      simp only [List.mem_cons, List.not_mem_nil, or_false] at hy
      rcases hy with rfl | rfl
      · exact plain_steady segmentOut_taggable hs₁ (by decide) _
      · exact plain_steady ackBehind_taggable hs₂ (by decide) _
  · subst hx₁ hx₂ hx₃
    have hbehind : sockets ackBehind = sockets segmentOut ∧ saddr ackBehind = saddr segmentOut ∧
        isData ackBehind = true := by decide
    exact ⟨plain_eligible segmentOut_taggable hs₄ (by decide) _, _, List.mem_singleton_self _,
      hbehind, show seq segmentOut < seq ackBehind by decide⟩

set_option maxRecDepth 20000 in
/-- The second copy of the data is a reference to the first. -/
theorem secondCopy_optlen :
    ((Codec.dedup sharedBox.cfg sharedBox.H coldDedup.dedupProcessor coldDedup.shared
      (List.replicate 64 7) coldDedup.dedup_buffer).bind fun o =>
        (Codec.dedup sharedBox.cfg sharedBox.H o.pd o.g (List.replicate 64 7) o.optpkt).map
          Codec.Optimized.optlen) = some 24 := by
  decide

/-- **The last segment of a direction is deduplicated again.** The thread alone, with empty
dictionaries: the second copy is sent as a reference to the first. -/
theorem last_segment_is_deduplicated_again :
    ∃ shared x₁ x₂, visits sharedBox (.start coldDedup 0 0 0 noCounts)
          (tableOf [established segmentOut 88 0])
          [visitOf segmentOut coldDedup.shared, visitOf segmentOut shared] = [x₁, x₂] ∧
      shared = x₁.result.thread.dedup.shared ∧ Retransmits x₁ x₂ ∧
      Uninterrupted sharedBox x₁ [] x₂ ∧ Deduplicated x₂.result.calls ∧
      ¬ Recognised x₂.arrival x₂.result := by
  have hlen := secondCopy_optlen
  rw [Option.bind_eq_some_iff] at hlen
  obtain ⟨c₁, hc₁, hlen⟩ := hlen
  rw [Option.map_eq_some_iff] at hlen
  obtain ⟨c₂, hc₂, hlen⟩ := hlen
  have hs₁ : getsession (tableOf [established segmentOut 88 0]) (sockets segmentOut) =
      some (established segmentOut 88 0) := by decide
  obtain ⟨o₁, ho₁, hdedup₁, hcalls₁, hs₂⟩ := plain_optimized segmentOut_taggable hs₁ (by decide)
    (.start coldDedup 0 0 0 noCounts) coldDedup.shared (by decide)
    (tcpOptimize_plain (List.cons_ne_nil _ _) hc₁)
  obtain ⟨o₂, ho₂, -, hcalls₂, -⟩ := plain_optimized segmentOut_taggable hs₂ (by decide) o₁.thread
    o₁.thread.dedup.shared (by decide)
    (tcpOptimize_plain (List.cons_ne_nil _ _) (by rw [hdedup₁]; exact hc₂))
  have hdeduplicated : Deduplicated o₂.calls := by
    refine ⟨_, _, by rw [hcalls₂]; exact List.mem_singleton_self _, ?_⟩
    rw [hlen]
    decide
  have hdata : 0 < payloadSize segmentOut := by decide
  have hsteady := plain_steady segmentOut_taggable hs₁ (by decide) coldDedup.shared
  refine ⟨o₁.thread.dedup.shared,
    ⟨visitOf segmentOut coldDedup.shared,
      arriveWith segmentOut (tableOf [established segmentOut 88 0]) coldDedup.shared, o₁⟩,
    ⟨visitOf segmentOut o₁.thread.dedup.shared,
      arriveWith segmentOut o₁.sessions o₁.thread.dedup.shared, o₂⟩, ?_, rfl, ?_, ?_, hdeduplicated, ?_⟩
  · simp only [visits, Visit.arrival, visitOf, id, arriveWith] at ho₁ ho₂ ⊢
    simp only [ho₁, ho₂]
  · refine ⟨rfl, hdata, hdata, ?_⟩
    rw [PassedToOptimize, hcalls₁]
    exact ⟨_, _, List.mem_singleton_self _⟩
  · refine ⟨?_, ?_, segmentOut_taggable.segment.ihl.ge⟩
    · intro y hy
      rw [List.mem_singleton.mp hy]
      exact fun _ _ h => h
    · intro y hy
      rw [List.mem_singleton.mp hy]
      exact hsteady
  · intro hrec
    obtain ⟨before, after, hmem, -⟩ := hdeduplicated
    exact hrec.not_passed ⟨before, after, hmem⟩

end Solowan.Worker
