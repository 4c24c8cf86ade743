/-
The flags of the header and the calls they report.

* `optimizationThread_flags_iff`: in a run of the optimization thread every header tells the
  truth about its packet if and only if every packet that is sent on untransformed finds
  the three amounts of the thread at zero.
* `optimizationThread_clear_iff`: they are zero if and only if neither call has shortened the
  last packet that was accelerated.
* `stale_deduplication_flag`: a header need not. After a packet that was deduplicated, a packet of
  a session whose other accelerator is not known yet is sent with `deduplication = 1`.
-/

import Solowan.Worker.Sending

namespace Solowan.Worker

open Solowan.Memory Solowan.Dictionary Solowan.Net Solowan.Sessions

/-! ### Headers that tell the truth -/

/-- `tcp_compress` has shortened the data. -/
def Compressed (calls : List Call) : Prop :=
  ∃ before after, Call.tcpCompress before after ∈ calls ∧ after < before

/-- `tcp_optimize` has shortened the data. -/
def Deduplicated (calls : List Call) : Prop :=
  ∃ before after, Call.tcpOptimize before after ∈ calls ∧ after < before

/-- The flags of a packet that carries a header report the calls made on this packet. -/
def FaithfulFlags (o : Optimized) : Prop :=
  o.addedOpennopHeader = true →
    ((opennopHeader o.packet).compression = 1 ↔ Compressed o.calls) ∧
      ((opennopHeader o.packet).deduplication = 1 ↔ Deduplicated o.calls)

/-- The packet gets a header although it does not meet the acceleration condition: the
branch in which the amounts are not cleared. -/
def passesUntransformed (d : Daemon) (a : Arrival) : Bool :=
  (a.switches.compression || a.switches.deduplication || a.switches.packetPipeline) &&
    match getsession a.sessions (sockets a.packet) with
    | none => false
    | some s =>
      isData a.packet && match setTcpOption a.packet OPENNOP_OPTION.toNat 3 1 with
        | none => false
        | some (result, m) =>
          decide (result ≠ -1) && !accelerates d.localID (sockets a.packet) (saddr m)
            (saveacceleratorid (sockets a.packet).largerIP d.localID (saddr a.packet) s)

/-- The packet meets the acceleration condition: the branch in which they are. -/
def accelerated (d : Daemon) (a : Arrival) : Bool :=
  (a.switches.compression || a.switches.deduplication || a.switches.packetPipeline) &&
    match getsession a.sessions (sockets a.packet) with
    | none => false
    | some s =>
      isData a.packet && match setTcpOption a.packet OPENNOP_OPTION.toNat 3 1 with
        | none => false
        | some (result, m) =>
          decide (result ≠ -1) && accelerates d.localID (sockets a.packet) (saddr m)
            (saveacceleratorid (sockets a.packet).largerIP d.localID (saddr a.packet) s)

/-- The amounts of the thread are zero. -/
def Optimizer.Clear (t : Optimizer) : Prop := t.redEl = 0 ∧ t.redElComp = 0 ∧ t.redElDedup = 0

/-- The amounts kept for a packet are those of the calls made on it. -/
structure Encoded.Faithful (e : Encoded) : Prop where
  compressed : (e.thread.redEl ≠ 0 ∨ e.thread.redElComp ≠ 0) ↔ Compressed e.calls
  deduplicated : e.thread.redElDedup ≠ 0 ↔ Deduplicated e.calls

section Step

variable {d : Daemon} {sw : Switches} {t : Optimizer} {m : Mem} {e : Encoded}

theorem kept_markSeq (m : Mem) (transformed : Bool) :
    Kept m (markSeq m transformed) ∧ doff (markSeq m transformed) = doff m := by
  unfold markSeq
  split
  · exact ⟨kept_setSeq _ _, doff_setSeq _ _⟩
  · exact ⟨Kept.refl m, rfl⟩

/-- A packet that is only remembered keeps its bytes, and the thread its amounts. -/
theorem cacheOnly_eq {cause : Reason} (h : cacheOnly d t m cause = some e) :
    e.packet = m ∧ e.calls = [.tcpCacheOptim] ∧ e.thread.redEl = t.redEl ∧
      e.thread.redElComp = t.redElComp ∧ e.thread.redElDedup = t.redElDedup := by
  rw [cacheOnly, Option.map_eq_some_iff] at h
  obtain ⟨⟨r, x⟩, -, rfl⟩ := h
  exact ⟨rfl, rfl, rfl, rfl, rfl⟩

/-- Calls that do not transform anything. -/
theorem not_transformed {calls : List Call} (h : calls = [.tcpCacheOptim] ∨ calls = []) :
    ¬ Compressed calls ∧ ¬ Deduplicated calls := by
  unfold Compressed Deduplicated
  rcases h with rfl | rfl <;> simp

/-- **The accelerated branch keeps the right amounts.** -/
theorem accelerate_faithful {fresh : Bool} (hdoff : 5 ≤ doff m)
    (h : accelerate d sw fresh t m = some e) : e.Faithful ∧ doff e.packet = doff m := by
  unfold accelerate at h
  dsimp only at h
  split at h
  · split at h
    · rw [optimize, Option.map_eq_some_iff] at h
      obtain ⟨⟨n, m', x⟩, hopt, rfl⟩ := h
      obtain ⟨hsame, hshrink⟩ := tcpOptimize_shrinks hdoff hopt
      have hdoff' : 5 ≤ doff m' := by rw [hsame.doff]; exact hdoff
      obtain ⟨hsame', hshrink'⟩ := tcpCompress_shrinks d hdoff'
      by_cases hc : sw.compression = true
      · simp only [hc, if_true]
        refine ⟨⟨?_, ?_⟩, ?_⟩
        · simp only [Compressed, List.mem_cons, List.not_mem_nil, or_false]
          constructor
          · intro hne
            exact ⟨_, _, Or.inr rfl, hshrink'.mp (by omega)⟩
          · rintro ⟨b, a, hmem | hmem, hlt⟩
            · cases hmem
            · cases hmem
              have := hshrink'.mpr hlt
              omega
        · simp only [Deduplicated, List.mem_cons, List.not_mem_nil, or_false]
          constructor
          · intro hne
            exact ⟨_, _, Or.inl rfl, hshrink.mp (by omega)⟩
          · rintro ⟨b, a, hmem | hmem, hlt⟩
            · cases hmem
              have := hshrink.mpr hlt
              omega
            · cases hmem
        · rw [(kept_markSeq _ _).2, hsame'.doff, hsame.doff]
      · simp only [hc]
        refine ⟨⟨?_, ?_⟩, ?_⟩
        · simp [Compressed]
        · simp only [Deduplicated, List.mem_cons, Bool.false_eq_true, if_false, List.not_mem_nil,
            or_false]
          constructor
          · intro hne
            exact ⟨_, _, rfl, hshrink.mp (by omega)⟩
          · rintro ⟨b, a, hmem, hlt⟩
            cases hmem
            have := hshrink.mpr hlt
            omega
        · rw [(kept_markSeq _ _).2]
          exact hsame.doff
    · obtain ⟨hpkt, hcalls, h1, h2, h3⟩ := cacheOnly_eq h
      obtain ⟨hnc, hnd⟩ := not_transformed (Or.inl hcalls)
      refine ⟨⟨?_, ?_⟩, by rw [hpkt]⟩
      · simp [h1, h2, hnc]
      · simp [h3, hnd]
  · split at h
    · cases h
      obtain ⟨hsame, hshrink⟩ := tcpCompress_shrinks d hdoff
      refine ⟨⟨?_, ?_⟩, ?_⟩
      · simp only [compressOnly, Compressed, List.mem_singleton]
        constructor
        · intro hne
          exact ⟨_, _, rfl, hshrink.mp (by omega)⟩
        · rintro ⟨b, a, hmem, hlt⟩
          cases hmem
          have := hshrink.mpr hlt
          omega
      · simp [compressOnly, Deduplicated]
      · exact ((kept_markSeq _ _).2).trans hsame.doff
    · cases h
      obtain ⟨hnc, hnd⟩ := not_transformed (Or.inr (Eq.refl ([] : List Call)))
      exact ⟨⟨by simp [hnc], by simp [hnd]⟩, rfl⟩

/-- The other branch keeps the amounts it finds. -/
theorem pass_keeps (h : pass d sw t m = some e) :
    e.packet = m ∧ (e.calls = [.tcpCacheOptim] ∨ e.calls = []) ∧
      e.thread.redEl = t.redEl ∧ e.thread.redElComp = t.redElComp ∧
      e.thread.redElDedup = t.redElDedup := by
  unfold pass at h
  split at h
  · obtain ⟨hpkt, hcalls, hred⟩ := cacheOnly_eq h
    exact ⟨hpkt, Or.inl hcalls, hred⟩
  · cases h
    exact ⟨rfl, Or.inr rfl, rfl, rfl, rfl⟩

theorem pass_faithful_iff (h : pass d sw t m = some e) :
    (e.Faithful ↔ t.Clear) ∧ doff e.packet = doff m := by
  obtain ⟨hpkt, hcalls, h1, h2, h3⟩ := pass_keeps h
  obtain ⟨hnc, hnd⟩ := not_transformed hcalls
  refine ⟨?_, by rw [hpkt]⟩
  constructor
  · intro hf
    have hc := mt hf.compressed.mp hnc
    have hd := mt hf.deduplicated.mp hnd
    rw [h1, h2] at hc
    rw [h3] at hd
    unfold Optimizer.Clear
    omega
  · rintro ⟨z1, z2, z3⟩
    exact ⟨by simp [h1, h2, z1, z2, hnc], by simp [h3, z3, hnd]⟩

/-- The bytes of a header go behind the fixed headers. -/
theorem sameHeaders_insert (hdata : tcph m + TCPHDR ≤ tcpdata m) (bs : List UInt8) :
    SameHeaders m (memcpy (memmove m (tcpdata m + OPENNOP_HEADER) (tcpdata m) (payloadSize m))
      (tcpdata m) bs) := by
  have hmove : SameHeaders m (memmove m (tcpdata m + OPENNOP_HEADER) (tcpdata m) (payloadSize m)) :=
    sameHeaders_memmove _ _ (by omega)
  exact hmove.trans (sameHeaders_memcpy bs (by rw [hmove.kept.tcph]; exact hdata))

/-- A header in front of the data leaves the other headers alone, the length apart. -/
theorem sameSegment_addHeader (hdata : tcph m + TCPHDR ≤ tcpdata m) (oh : OpennopHeader) :
    SameSegment m (addHeader m oh) :=
  (sameHeaders_insert hdata oh.bytes).toSameSegment.trans (sameSegment_addTotLen _ _)

theorem totLen_addHeader (hdata : tcph m + TCPHDR ≤ tcpdata m) (oh : OpennopHeader) :
    totLen (addHeader m oh) = (totLen m + OPENNOP_HEADER) % 65536 := by
  rw [addHeader, addTotLen, totLen_setTotLen, (sameHeaders_insert hdata oh.bytes).totLen]
  omega

/-- A header is read back from the packet it was put into. -/
theorem opennopHeader_emitted (hdoff : 5 ≤ doff m) (oh : OpennopHeader) :
    opennopHeader (checksum (addHeader m oh)) = oh := by
  have hdata := tcph_le_tcpdata hdoff
  have hsame := sameSegment_addHeader hdata oh
  have hpos : tcpdata (checksum (addHeader m oh)) = tcpdata m := by
    rw [tcpdata, (kept_checksum _).tcph, doff_checksum, ← tcpdata, hsame.tcpdata]
  apply readHeader_of_slice
  rw [hpos, slice_checksum (by rw [hsame.kept.tcph]; exact hdata), addHeader, addTotLen,
    slice_setTotLen (by simp only [TCPHDR] at hdata; omega)]
  exact slice_memcpy_self' (by simp)

/-- The flags of a packet that is tagged are those of its amounts. -/
theorem emit_faithful_iff {t' : Optimizer} {sessions : SessionTable} {k : Sockets}
    {headersBefore : Nat} {localID : UInt32} {queue : UInt8} (hdoff : 5 ≤ doff e.packet) :
    FaithfulFlags (emit t' sessions k headersBefore
      (addHeader e.packet (e.header localID queue)) e.calls true) ↔ e.Faithful := by
  unfold FaithfulFlags emit
  dsimp only
  rw [opennopHeader_emitted hdoff]
  simp only [Encoded.header, forall_const]
  have hone : ∀ (p : Prop) [Decidable p], ((if p then (1 : UInt8) else 0) = 1 ↔ p) := by
    intro p _
    split <;> simp_all
  rw [hone, hone]
  constructor
  · rintro ⟨h1, h2⟩
    exact ⟨h1, h2⟩
  · rintro ⟨h1, h2⟩
    exact ⟨h1, h2⟩

/-- A step puts a header in front of a packet that is accelerated or passed on, or it leaves the
packet without one and the amounts as they are. -/
theorem optimizationStep_cases {a : Arrival} {o : Optimized}
    (h : optimizationStep d t a = some o) :
    (accelerated d a = false ∧ passesUntransformed d a = false ∧
        o.addedOpennopHeader = false ∧ (o.thread.Clear ↔ t.Clear)) ∨
      ∃ (t' : Optimizer) (met fresh : Bool) (m : Mem) (e : Encoded) (sessions : SessionTable)
        (queue : UInt8),
        accelerated d a = met ∧ passesUntransformed d a = !met ∧ 5 ≤ doff m ∧
          (met = true → accelerate d a.switches fresh t' m = some e) ∧
          (met = false → pass d a.switches t' m = some e) ∧ (t'.Clear ↔ t.Clear) ∧
          o = emit { e.thread with seqNo := e.thread.seqNo + 1 } sessions (sockets a.packet)
            (getIPPlusTCPHeaderLength a.packet) (addHeader e.packet (e.header d.localID queue))
            e.calls true := by
  unfold optimizationStep at h
  unfold accelerated passesUntransformed
  dsimp only at h
  split at h
  · rename_i hon
    have hon' : (a.switches.compression || a.switches.deduplication ||
        a.switches.packetPipeline) = true := by
      rcases hon with hon | hon | hon <;> simp [hon]
    simp only [hon', Bool.true_and]
    split at h
    · cases h
    · split at h
      · cases h
      · split at h
        · rename_i s hs
          simp only [hs]
          split at h
          · rename_i hdata
            simp only [hdata, Bool.true_and]
            cases hset : setTcpOption a.packet OPENNOP_OPTION.toNat 3 1 with
            | none =>
              rw [hset] at h
              cases h
            | some r =>
              obtain ⟨result, m⟩ := r
              rw [hset] at h
              dsimp only at h ⊢
              obtain ⟨-, -, hdoff⟩ := setTcpOption_kept hset
              split at h
              · rename_i hfail
                cases h
                exact Or.inl ⟨by simp [hfail], by simp [hfail], rfl, Iff.rfl⟩
              · rename_i hok
                rw [tagPacket] at h
                dsimp only at h
                rw [Option.map_eq_some_iff] at h
                obtain ⟨e, he, rfl⟩ := h
                simp only [decide_eq_true hok, Bool.true_and]
                split at he
                · rename_i hmet
                  exact Or.inr ⟨_, true, _, m, e, _, _, hmet, by rw [hmet], hdoff hok,
                    fun _ => he, Bool.noConfusion, Iff.rfl, rfl⟩
                · rename_i hmet
                  have hunmet := Bool.eq_false_of_not_eq_true hmet
                  exact Or.inr ⟨_, false, true, m, e, _, _, hunmet, by rw [hunmet], hdoff hok,
                    Bool.noConfusion, fun _ => he, Iff.rfl, rfl⟩
          · rename_i hdata
            cases h
            exact Or.inl ⟨by simp [hdata], by simp [hdata], rfl, Iff.rfl⟩
        · rename_i hs
          cases h
          exact Or.inl ⟨by simp [hs], by simp [hs], rfl, Iff.rfl⟩
  · rename_i hoff
    cases h
    simp only [not_or, Bool.not_eq_true] at hoff
    exact Or.inl ⟨by simp [hoff], by simp [hoff], rfl, Iff.rfl⟩

/-- **One packet**: its flags are right unless it is passed on untransformed while the
amounts of an earlier packet are still there. -/
theorem optimizationStep_flags_iff {a : Arrival} {o : Optimized}
    (h : optimizationStep d t a = some o) :
    FaithfulFlags o ↔ (passesUntransformed d a = true → t.Clear) := by
  rcases optimizationStep_cases h with ⟨-, hpass, hplain, -⟩ |
    ⟨t', met, fresh, m, e, sessions, queue, -, hpass, hdoff, haccelerate, hstale, hclear, rfl⟩
  · simp [FaithfulFlags, hplain, hpass]
  · rw [hpass]
    cases met with
    | true =>
      obtain ⟨hf, hd⟩ := accelerate_faithful hdoff (haccelerate rfl)
      rw [emit_faithful_iff (by rw [hd]; exact hdoff)]
      simp [hf]
    | false =>
      obtain ⟨hf, hd⟩ := pass_faithful_iff (hstale rfl)
      rw [emit_faithful_iff (by rw [hd]; exact hdoff), hf, hclear]
      simp

/-- Neither call has shortened the data. -/
def Unshortened (calls : List Call) : Prop := ¬ Compressed calls ∧ ¬ Deduplicated calls

theorem Encoded.Faithful.clear_iff (h : e.Faithful) : e.thread.Clear ↔ Unshortened e.calls := by
  rw [Unshortened, ← h.compressed, ← h.deduplicated, Optimizer.Clear]
  omega

/-- **What a packet leaves behind**: the amounts of the calls made on it when it is accelerated,
and those that it found when it is not. -/
theorem optimizationStep_clear_iff {a : Arrival} {o : Optimized}
    (h : optimizationStep d t a = some o) :
    o.thread.Clear ↔ if accelerated d a then Unshortened o.calls else t.Clear := by
  rcases optimizationStep_cases h with ⟨hmet, -, -, hclear⟩ |
    ⟨t', met, fresh, m, e, sessions, queue, hmet, -, hdoff, haccelerate, hstale, hclear, rfl⟩
  · rw [hmet, if_neg Bool.false_ne_true, hclear]
  · rw [hmet]
    cases met with
    | true => exact (accelerate_faithful hdoff (haccelerate rfl)).1.clear_iff
    | false =>
      obtain ⟨-, -, h1, h2, h3⟩ := pass_keeps (hstale rfl)
      rw [if_neg Bool.false_ne_true, ← hclear]
      simp only [emit, Optimizer.Clear, h1, h2, h3]

end Step

/-! ### Whole runs -/

/-- Every step of a run is a step of the thread. -/
theorem optimizationThread_step {d : Daemon} {t : Optimizer} {as : List Arrival}
    {step : (Optimizer × Arrival) × Optimized} (h : step ∈ optimizationThread d t as) :
    optimizationStep d step.1.1 step.1.2 = some step.2 := by
  induction as generalizing t with
  | nil => simp [optimizationThread] at h
  | cons a as ih =>
    rw [optimizationThread] at h
    split at h
    · simp at h
    · rename_i o ho
      rcases List.mem_cons.mp h with rfl | hmem
      · exact ho
      · exact ih hmem

/-- The last packet that was accelerated. -/
def lastAccelerated (d : Daemon) (past : List ((Optimizer × Arrival) × Optimized)) :
    Option ((Optimizer × Arrival) × Optimized) :=
  past.reverse.find? fun step => accelerated d step.1.2

/-- What a thread that began as `t` has in the three amounts after `past`. -/
def ClearAfter (d : Daemon) (t : Optimizer) (past : List ((Optimizer × Arrival) × Optimized)) :
    Prop :=
  match lastAccelerated d past with
  | none => t.Clear
  | some step => Unshortened step.2.calls

/-- **The amounts are those of the last packet that was accelerated**, and what the memory held
before when none was. -/
theorem optimizationThread_clear_iff {d : Daemon} {t : Optimizer} {as : List Arrival}
    {past rest : List ((Optimizer × Arrival) × Optimized)} {step : (Optimizer × Arrival) × Optimized}
    (h : optimizationThread d t as = past ++ step :: rest) :
    step.1.1.Clear ↔ ClearAfter d t past := by
  induction past generalizing t as with
  | nil =>
    cases as with
    | nil => cases h
    | cons a as =>
      rw [optimizationThread] at h
      split at h
      · cases h
      · obtain ⟨rfl, -⟩ := List.cons.inj h
        rfl
  | cons first past ih =>
    cases as with
    | nil => cases h
    | cons a as =>
      rw [optimizationThread] at h
      split at h
      · cases h
      · rename_i o ho
        obtain ⟨rfl, hrest⟩ := List.cons.inj h
        rw [ih hrest, ClearAfter, ClearAfter, lastAccelerated, lastAccelerated, List.reverse_cons,
          List.find?_append]
        cases past.reverse.find? fun step => accelerated d step.1.2 with
        | some last => rfl
        | none =>
          dsimp only
          rw [optimizationStep_clear_iff ho]
          cases haccelerated : accelerated d a <;> simp [haccelerated]

/-- **Faithful header flags.** Over any run from the start of the thread, with whatever
sessions, shared dictionaries and switches each packet finds, and whatever the memory of
the three amounts held before. -/
theorem optimizationThread_flags_iff (d : Daemon) (x : Dedup) (redEl redElComp redElDedup : Nat)
    (metrics : WorkerCounters) (as : List Arrival) :
    (∀ step ∈ optimizationThread d (.start x redEl redElComp redElDedup metrics) as,
        FaithfulFlags step.2) ↔
      ∀ step ∈ optimizationThread d (.start x redEl redElComp redElDedup metrics) as,
        passesUntransformed d step.1.2 = true → step.1.1.Clear := by
  constructor
  · intro h step hstep
    exact (optimizationStep_flags_iff (optimizationThread_step hstep)).mp (h step hstep)
  · intro h step hstep
    exact (optimizationStep_flags_iff (optimizationThread_step hstep)).mpr (h step hstep)

/-! ### A stale flag -/

open Solowan.Codec in
/-- Shared dictionaries in which another worker has stored the data of `segmentOut`. -/
def warmDictionaries : SharedDictionaries :=
  putPktAndFPsComp (smallBox true) (initDictionary zeroed zeroed) (List.replicate 64 7)
    (firstByte (List.replicate 64 7)) (calculateRelevantFPs (smallBox true) (List.replicate 64 7))

/-- One byte from the first host to a third. -/
def otherSegment : Mem := ofList (plainSegment 1 3 0x10 1000 [9])

/-- A packet at `sharedBox`: the accelerator in front of the second host is known, the one in
front of the third is not. -/
def arriveAt (m : Mem) : Arrival :=
  ⟨m, tableOf [established segmentOut 88 0, established otherSegment 0 0], warmDictionaries,
    ⟨false, true, false⟩⟩

def freshOptimizer : Optimizer :=
  .start ⟨newDeduplicator Codec.zeroed, warmDictionaries, ofList []⟩ 0 0 0 noCounts

/-- The amount `tcp_optimize` saves is what the thread keeps. -/
theorem tagPacket_not_clear {d : Daemon} {sw : Switches} {t : Optimizer} {sessions : SessionTable}
    {k : Sockets} {s : Session} {headersBefore : Nat} {m m' : Mem} {r : Nat} {x : Dedup}
    (hsw : sw.deduplication = true) (hmet : accelerates d.localID k (saddr m) s = true)
    (hfresh : checkseqnumber k.largerIP (saddr m) (seq m) s = true)
    (h : tcpOptimize d true t.dedup m = some (r, m', x)) (hr : 0 < r) :
    ∃ o, tagPacket d sw t sessions k s headersBefore m = some o ∧ ¬ o.thread.Clear := by
  have he : ∃ e, accelerate d sw true t m = some e ∧ e.thread.redElDedup = r := by
    rw [accelerate]
    rw [if_pos hsw, if_pos rfl, optimize, h]
    exact ⟨_, rfl, rfl⟩
  obtain ⟨e, he, hred⟩ := he
  refine ⟨_, tagPacket_met hmet hfresh he, ?_⟩
  rintro ⟨-, -, hzero⟩
  have hzero' : e.thread.redElDedup = 0 := hzero
  omega

/-- The first packet is deduplicated, and the thread keeps the amount. -/
theorem segmentOut_deduplicated :
    ∃ o, optimizationStep sharedBox freshOptimizer (arriveAt segmentOut) = some o ∧
      ¬ o.thread.Clear := by
  have hs : getsession (arriveAt segmentOut).sessions (sockets segmentOut) =
      some (established segmentOut 88 0) := by decide
  obtain ⟨m', -, pad', hseg, -, -, -, hstep⟩ := optimizationStep_tagged (d := sharedBox)
    (t := freshOptimizer) (a := arriveAt segmentOut) segmentOut_taggable
    (Or.inr (Or.inl rfl)) (by decide) hs
  have haddr := (segment_saddr hseg).trans (flow_saddr segmentOut)
  have hmet : accelerates sharedBox.localID (sockets segmentOut) (saddr m')
      (saveacceleratorid (sockets segmentOut).largerIP sharedBox.localID (saddr segmentOut)
        (established segmentOut 88 0)) = true := by
    rw [haddr]
    decide
  have hfresh : checkseqnumber (sockets segmentOut).largerIP (saddr m') (seq m')
      (saveacceleratorid (sockets segmentOut).largerIP sharedBox.localID (saddr segmentOut)
        (established segmentOut 88 0)) = true := by
    rw [haddr, hseg.seq]
    decide
  have hlen : (Codec.dedup sharedBox.cfg sharedBox.H freshOptimizer.dedup.dedupProcessor
      warmDictionaries (List.replicate 64 7) freshOptimizer.dedup.dedup_buffer).map
        Codec.Optimized.optlen = some 24 := by decide +kernel
  rw [Option.map_eq_some_iff] at hlen
  obtain ⟨o, ho, hlen⟩ := hlen
  have htcp : (flow segmentOut).protocol = IPPROTO_TCP := by decide
  obtain ⟨m'', hopt, -⟩ := (tcpOptimize_segment (d := sharedBox)
    (x := { freshOptimizer.dedup with shared := warmDictionaries }) hseg htcp
    (List.cons_ne_nil _ _) ho).1 (by rw [hlen, List.length_replicate]; decide)
  rw [hstep]
  dsimp only [arriveAt]
  exact tagPacket_not_clear rfl hmet hfresh hopt (by rw [hlen, List.length_replicate]; decide)

/-- The second packet is accepted, whatever the thread has done before. -/
theorem otherSegment_passed (t : Optimizer) :
    ∃ o, optimizationStep sharedBox t (arriveAt otherSegment) = some o := by
  have htag : Taggable otherSegment 5 (flow otherSegment) 1000 [] 0 [9] :=
    { segment := by refine ⟨?_, ?_, rfl, ?_, ?_, ?_, ?_, ?_⟩ <;> decide
      wellFormed := by simp
      absent := by simp
      room := by decide
      fits := by decide }
  have hs : getsession (arriveAt otherSegment).sessions (sockets otherSegment) =
      some (established otherSegment 0 0) := by decide
  obtain ⟨m', -, pad', hseg, -, -, -, hstep⟩ := optimizationStep_tagged (d := sharedBox)
    (t := t) (a := arriveAt otherSegment) htag (Or.inr (Or.inl rfl)) (by decide) hs
  have haddr := (segment_saddr hseg).trans (flow_saddr otherSegment)
  have hmet : accelerates sharedBox.localID (sockets otherSegment) (saddr m')
      (saveacceleratorid (sockets otherSegment).largerIP sharedBox.localID (saddr otherSegment)
        (established otherSegment 0 0)) = false := by
    rw [haddr]
    decide
  have htcp : protocol m' = IPPROTO_TCP := (segment_protocol hseg).trans (by decide)
  have hpass : ∀ t' : Optimizer, ∃ e, pass sharedBox ⟨false, true, false⟩ t' m' = some e := by
    intro t'
    rw [pass, if_pos rfl, cacheOnly, tcpCacheOptim, if_pos htcp, hseg.payloadSize, hseg.payload,
      if_pos (by decide)]
    exact ⟨_, rfl⟩
  rw [hstep]
  dsimp only [arriveAt]
  exact ⟨_, tagPacket_unmet hmet (hpass _).choose_spec⟩

/-- **The flags of one packet can be those of another.** The second packet is sent on as it
is, with `deduplication = 1` in its header. -/
theorem stale_deduplication_flag :
    ¬ ∀ step ∈ optimizationThread sharedBox freshOptimizer
        [arriveAt segmentOut, arriveAt otherSegment], FaithfulFlags step.2 := by
  intro h
  obtain ⟨o, ho, hstale⟩ := segmentOut_deduplicated
  have hpass : passesUntransformed sharedBox (arriveAt otherSegment) = true := by decide
  obtain ⟨o', ho'⟩ := otherSegment_passed o.thread
  have hmem : ((o.thread, arriveAt otherSegment), o') ∈ optimizationThread sharedBox
      freshOptimizer [arriveAt segmentOut, arriveAt otherSegment] := by
    simp only [optimizationThread, ho, ho']
    exact List.mem_cons_of_mem _ List.mem_cons_self
  exact hstale ((optimizationStep_flags_iff ho').mp (h _ hmem) hpass)

end Solowan.Worker
