/-
The byte counters of the two threads.

Each thread counts the bytes that come in and go out, and separately what the decoders and
encoders and the headers add or take away. The counters are 64 bits wide and wrap, and the
difference of two header lengths is taken in 32 bits before it is added.

* `optimizationThread_balanced`: the counters of the optimizer account for every byte after
  every packet with consistent lengths, whichever branch it takes.
-/

import Solowan.Worker.FailSafe
import Solowan.Worker.HeaderFlags

namespace Solowan.Worker

open Solowan.Memory Solowan.Dictionary Solowan.Net Solowan.Sessions

/-! ### The books of the optimizer -/

/-- Every byte that came in went out or was saved, and every byte that went out came in or is
one of a header that was added. -/
def Balanced (c : WorkerCounters) : Prop :=
  c.bytesout + c.diffBytesCompression + c.diffBytesDeduplication =
    c.bytesin + c.diffBytesIpTcpHeader

instance (c : WorkerCounters) : Decidable (Balanced c) :=
  inferInstanceAs (Decidable (_ = _))

/-- Headers that have become longer. -/
theorem headerDifference_of_le {a b : Nat} (hab : b ≤ a) (ha : a < 4294967296) :
    headerDifference a b = UInt64.ofNat (a - b) := by
  rw [headerDifference, ← UInt32.ofNat_sub hab]
  exact UInt32.toUInt64_ofNat' (Nat.lt_of_le_of_lt (Nat.sub_le a b) ha)

theorem headerDifference_self (a : Nat) : headerDifference a a = 0 := by
  rw [headerDifference, UInt32.sub_self]
  rfl

section Optimizer

variable {d : Daemon} {sw : Switches} {t : Optimizer} {m m' : Mem} {e : Encoded}

/-- What happens to the data of a packet moves as many bytes to the counters as it takes from
the packet. -/
structure Saves (c c' : WorkerCounters) (m m' : Mem) : Prop where
  bytesin : c'.bytesin = c.bytesin
  bytesout : c'.bytesout = c.bytesout
  header : c'.diffBytesIpTcpHeader = c.diffBytesIpTcpHeader
  ihl : ihl m' = ihl m
  doff : doff m' = doff m
  shorter : totLen m' ≤ totLen m
  saved : c'.diffBytesCompression + c'.diffBytesDeduplication + UInt64.ofNat (totLen m') =
    c.diffBytesCompression + c.diffBytesDeduplication + UInt64.ofNat (totLen m)

theorem Saves.refl (c : WorkerCounters) (m : Mem) : Saves c c m m :=
  ⟨rfl, rfl, rfl, rfl, rfl, Nat.le_refl _, rfl⟩

theorem totLen_markSeq (m : Mem) (transformed : Bool) :
    totLen (markSeq m transformed) = totLen m := by
  cases transformed with
  | true => exact totLen_setSeq _ _
  | false => rfl

/-- Bytes that are counted where they are saved. -/
theorem Saves.of_shortened {c c' : WorkerCounters} {n : Nat} {transformed : Bool}
    (h : Shortened m m' n) (hin : c'.bytesin = c.bytesin) (hout : c'.bytesout = c.bytesout)
    (hheader : c'.diffBytesIpTcpHeader = c.diffBytesIpTcpHeader)
    (hsaved : c'.diffBytesCompression + c'.diffBytesDeduplication =
      c.diffBytesCompression + c.diffBytesDeduplication + UInt64.ofNat n) :
    Saves c c' m (markSeq m' transformed) := by
  obtain ⟨hkept, hdoff⟩ := kept_markSeq m' transformed
  refine ⟨hin, hout, hheader, hkept.ihl.trans h.same.kept.ihl, hdoff.trans h.same.doff, ?_, ?_⟩
  · rw [totLen_markSeq, ← h.totLen]
    exact Nat.le_add_right _ _
  · rw [totLen_markSeq, ← h.totLen, UInt64.ofNat_add, hsaved]
    grind

/-- Compression alone. -/
theorem compressOnly_saves (d : Daemon) (t : Optimizer) (hdoff : 5 ≤ doff m)
    (hcons : Consistent m) :
    Saves t.metrics (compressOnly d t m).thread.metrics m (compressOnly d t m).packet := by
  have hshort := tcpCompress_shortened d hdoff hcons
  rw [compressOnly]
  generalize tcpCompress d m = p at hshort ⊢
  obtain ⟨redEl, m'⟩ := p
  dsimp only at hshort ⊢
  split
  · refine .of_shortened hshort rfl rfl rfl ?_
    grind
  · rename_i hzero
    obtain rfl : redEl = 0 := by omega
    refine .of_shortened hshort rfl rfl rfl ?_
    simp

/-- The counters of both savings together. -/
theorem countOptimized_saved (compression : Bool) (redElDedup redElComp : Nat)
    (c : WorkerCounters) (hcomp : compression = false → redElComp = 0) :
    (countOptimized compression redElDedup redElComp c).diffBytesCompression +
        (countOptimized compression redElDedup redElComp c).diffBytesDeduplication =
      c.diffBytesCompression + c.diffBytesDeduplication +
        UInt64.ofNat (redElDedup + redElComp) := by
  have hzero : ∀ {n : Nat}, ¬ n > 0 → n = 0 := fun h => Nat.eq_zero_of_not_pos h
  rw [UInt64.ofNat_add]
  unfold countOptimized
  dsimp only
  by_cases hdedup : redElDedup > 0
  · by_cases hboth : compression = true ∧ redElComp > 0
    · simp only [if_pos hdedup, if_pos hboth]
      grind
    · have hnone : redElComp = 0 := by
        cases compression with
        | true => exact hzero fun h => hboth ⟨rfl, h⟩
        | false => exact hcomp rfl
      subst hnone
      simp only [if_pos hdedup, if_neg hboth]
      grind
  · obtain rfl := hzero hdedup
    by_cases hboth : compression = true ∧ redElComp > 0
    · simp only [if_neg hdedup, if_pos hboth]
      grind
    · have hnone : redElComp = 0 := by
        cases compression with
        | true => exact hzero fun h => hboth ⟨rfl, h⟩
        | false => exact hcomp rfl
      subst hnone
      simp only [if_neg hdedup, if_neg hboth]
      grind

theorem countOptimized_others (compression : Bool) (redElDedup redElComp : Nat)
    (c : WorkerCounters) :
    (countOptimized compression redElDedup redElComp c).bytesin = c.bytesin ∧
      (countOptimized compression redElDedup redElComp c).bytesout = c.bytesout ∧
      (countOptimized compression redElDedup redElComp c).diffBytesIpTcpHeader =
        c.diffBytesIpTcpHeader := by
  unfold countOptimized
  dsimp only
  split_ifs <;> exact ⟨rfl, rfl, rfl⟩

theorem Shortened.trans {m'' : Mem} {n n' : Nat} (h : Shortened m m' n)
    (h' : Shortened m' m'' n') : Shortened m m'' (n + n') := by
  refine ⟨h.same.trans h'.same, ?_, h'.consistent⟩
  have h1 := h.totLen
  have h2 := h'.totLen
  omega

/-- Deduplication, with compression or without. -/
theorem optimize_saves {compression : Bool} (h : optimize d compression t m = some e)
    (hdoff : 5 ≤ doff m) (hcons : Consistent m) :
    Saves t.metrics e.thread.metrics m e.packet := by
  rw [optimize, Option.map_eq_some_iff] at h
  obtain ⟨⟨redElDedup, m₁, x⟩, hopt, rfl⟩ := h
  have hfirst := tcpOptimize_shortened hdoff hcons hopt
  have hsecond : ∀ p, (if compression = true then tcpCompress d m₁ else (0, m₁)) = p →
      Shortened m₁ p.2 p.1 ∧ (compression = false → p.1 = 0) := by
    rintro p rfl
    cases compression with
    | true =>
      exact ⟨tcpCompress_shortened d (by rw [hfirst.same.doff]; exact hdoff) hfirst.consistent,
        fun h => absurd h (by decide)⟩
    | false => exact ⟨.refl hfirst.consistent, fun _ => rfl⟩
  dsimp only
  generalize (if compression = true then tcpCompress d m₁ else (0, m₁)) = p at hsecond ⊢
  obtain ⟨hshort, hcomp⟩ := hsecond p rfl
  obtain ⟨hin, hout, hheader⟩ := countOptimized_others compression redElDedup p.1 t.metrics
  exact .of_shortened (hfirst.trans hshort) hin hout hheader (countOptimized_saved _ _ _ _ hcomp)

theorem cacheOnly_saves {cause : Reason} (h : cacheOnly d t m cause = some e) :
    Saves t.metrics e.thread.metrics m e.packet := by
  rw [cacheOnly, Option.map_eq_some_iff] at h
  obtain ⟨⟨r, x⟩, -, rfl⟩ := h
  exact .refl _ _

theorem accelerate_saves {fresh : Bool} (h : accelerate d sw fresh t m = some e)
    (hdoff : 5 ≤ doff m) (hcons : Consistent m) :
    Saves t.metrics e.thread.metrics m e.packet := by
  unfold accelerate at h
  dsimp only at h
  split at h
  · split at h
    · have hsaves := optimize_saves h hdoff hcons
      exact hsaves
    · have hsaves := cacheOnly_saves h
      exact hsaves
  · split at h
    · cases h
      exact compressOnly_saves d _ hdoff hcons
    · cases h
      exact .refl _ _

theorem pass_saves (h : pass d sw t m = some e) : Saves t.metrics e.thread.metrics m e.packet := by
  unfold pass at h
  split at h
  · exact cacheOnly_saves h
  · cases h
    exact .refl _ _

/-- The end of a packet whose savings have been counted. -/
theorem emit_balanced {sessions : SessionTable} {k : Sockets} {headersBefore : Nat}
    {calls : List Call} {added : Bool}
    (hlonger : headersBefore ≤ getIPPlusTCPHeaderLength m)
    (h : t.metrics.bytesout + UInt64.ofNat (totLen m) +
        (t.metrics.diffBytesCompression + t.metrics.diffBytesDeduplication) =
      t.metrics.bytesin + t.metrics.diffBytesIpTcpHeader +
        UInt64.ofNat (getIPPlusTCPHeaderLength m - headersBefore) +
        if added then UInt64.ofNat OPENNOP_HEADER else 0) :
    Balanced (emit t sessions k headersBefore m calls added).thread.metrics := by
  have hlength : getIPPlusTCPHeaderLength (checksum m) = getIPPlusTCPHeaderLength m := by
    rw [getIPPlusTCPHeaderLength, ihl_checksum, doff_checksum, ← getIPPlusTCPHeaderLength]
  have hsmall : getIPPlusTCPHeaderLength m < 4294967296 := by
    have := doff_lt m
    unfold getIPPlusTCPHeaderLength ihl
    omega
  rw [emit, Balanced]
  dsimp only
  rw [totLen_checksum, hlength, headerDifference_of_le hlonger hsmall]
  grind

end Optimizer

/-! ### One packet of the optimizer -/

section Step

variable {d : Daemon} {t : Optimizer} {a : Arrival} {o : Optimized} {m m' : Mem}

/-- A packet with consistent lengths that leave room for what the thread adds. -/
structure Sound (m : Mem) : Prop where
  doff : 5 ≤ doff m
  consistent : 4 * ihl m + 4 * Net.doff m ≤ totLen m
  totLen : totLen m ≤ 2000

instance (m : Mem) : Decidable (Sound m) :=
  decidable_of_iff (5 ≤ doff m ∧ 4 * ihl m + 4 * doff m ≤ totLen m ∧ totLen m ≤ 2000)
    ⟨fun h => ⟨h.1, h.2.1, h.2.2⟩, fun h => ⟨h.1, h.2, h.3⟩⟩

/-- The option makes headers and packet longer by as much. -/
structure Optioned (m m' : Mem) (k : Nat) : Prop where
  ihl : ihl m' = ihl m
  doff : doff m' = doff m + k
  totLen : totLen m' = totLen m + 4 * k
  small : k ≤ 1

theorem optioned_setTcpOption {r : Int} {data : UInt64} (hm : Sound m)
    (h : setTcpOption m OPENNOP_OPTION.toNat 3 data = some (r, m')) : ∃ k, Optioned m m' k := by
  obtain ⟨k, hk, hdoff, htot⟩ := setTcpOption_lengths h hm.doff
  have htotal := hm.totLen
  refine ⟨k, (setTcpOption_kept h).1.ihl, hdoff, ?_, hk⟩
  rw [htot]
  exact Nat.mod_eq_of_lt (by omega)

theorem Optioned.headers {k : Nat} (h : Optioned m m' k) :
    getIPPlusTCPHeaderLength m' = getIPPlusTCPHeaderLength m + 4 * k := by
  rw [getIPPlusTCPHeaderLength, getIPPlusTCPHeaderLength, h.ihl, h.doff]
  omega

/-- A packet that got the option, and whose data was handled, gets the header. -/
theorem emit_tagged_balanced {c : WorkerCounters} {t : Optimizer} {sessions : SessionTable}
    {k : Sockets} {calls : List Call} {m₁ m₂ : Mem} {n : Nat} {oh : OpennopHeader} (hm : Sound m)
    (hc : Balanced c) (hoption : Optioned m m₁ n)
    (hsaves : Saves { c with bytesin := c.bytesin + UInt64.ofNat (totLen m) } t.metrics m₁ m₂) :
    Balanced (emit t sessions k (getIPPlusTCPHeaderLength m) (addHeader m₂ oh) calls
      true).thread.metrics := by
  have hdata : tcph m₂ + TCPHDR ≤ tcpdata m₂ := by
    apply tcph_le_tcpdata
    rw [hsaves.doff, hoption.doff]
    exact Nat.le_add_right_of_le hm.doff
  have hsame := sameSegment_addHeader hdata oh
  have hheaders : getIPPlusTCPHeaderLength (addHeader m₂ oh) =
      getIPPlusTCPHeaderLength m + 4 * n := by
    rw [getIPPlusTCPHeaderLength, hsame.kept.ihl, hsame.doff, hsaves.ihl, hsaves.doff,
      ← getIPPlusTCPHeaderLength, hoption.headers]
  have htot : totLen (addHeader m₂ oh) = totLen m₂ + OPENNOP_HEADER := by
    have hshorter := hsaves.shorter
    have hlonger := hoption.totLen
    have hsmall := hm.totLen
    have hone := hoption.small
    rw [totLen_addHeader hdata, OPENNOP_HEADER]
    exact Nat.mod_eq_of_lt (by omega)
  have hsaved := hsaves.saved
  rw [hoption.totLen, UInt64.ofNat_add] at hsaved
  unfold Balanced at hc
  refine emit_balanced (by rw [hheaders]; exact Nat.le_add_right _ _) ?_
  rw [hheaders, Nat.add_sub_cancel_left, htot, UInt64.ofNat_add, hsaves.bytesin, hsaves.bytesout,
    hsaves.header, if_pos rfl]
  dsimp only at hsaved ⊢
  grind

/-- A packet that got the option, or none, and is sent on as it is. -/
theorem emit_untagged_balanced {c : WorkerCounters} {t : Optimizer} {sessions : SessionTable}
    {k : Sockets} {calls : List Call} {n : Nat} (hc : Balanced c) (hoption : Optioned m m' n)
    (ht : t.metrics = { c with bytesin := c.bytesin + UInt64.ofNat (totLen m) }) :
    Balanced (emit t sessions k (getIPPlusTCPHeaderLength m) m' calls false).thread.metrics := by
  unfold Balanced at hc
  refine emit_balanced (by rw [hoption.headers]; exact Nat.le_add_right _ _) ?_
  rw [hoption.headers, Nat.add_sub_cancel_left, hoption.totLen, UInt64.ofNat_add, ht,
    if_neg (by decide)]
  grind

theorem optioned_refl (m : Mem) : Optioned m m 0 :=
  ⟨rfl, rfl, (Nat.add_zero _).symm, Nat.zero_le _⟩

/-- **One packet keeps the books balanced**, whichever branch it takes. -/
theorem optimizationStep_balanced (hm : Sound a.packet) (h : optimizationStep d t a = some o)
    (ht : Balanced t.metrics) : Balanced o.thread.metrics := by
  unfold optimizationStep at h
  dsimp only at h
  split at h
  · split at h
    · cases h
    · split at h
      · cases h
      · split at h
        · split at h
          · split at h
            · cases h
            · rename_i result m₁ hset
              obtain ⟨n, hoption⟩ := optioned_setTcpOption hm hset
              split at h
              · cases h
                exact emit_untagged_balanced ht hoption rfl
              · rw [tagPacket] at h
                dsimp only at h
                rw [Option.map_eq_some_iff] at h
                obtain ⟨e, he, rfl⟩ := h
                have hdoff : 5 ≤ doff m₁ := by
                  rw [hoption.doff]
                  exact Nat.le_add_right_of_le hm.doff
                have hcons : Consistent m₁ := by
                  have hold := hm.consistent
                  unfold Consistent
                  rw [hoption.ihl, hoption.doff, hoption.totLen]
                  omega
                refine emit_tagged_balanced hm ht hoption ?_
                split at he
                · exact accelerate_saves he hdoff hcons
                · exact pass_saves he
          · cases h
            exact emit_untagged_balanced ht (optioned_refl _) rfl
        · cases h
          -- The packet is not touched at all.
          unfold Balanced at ht ⊢
          dsimp only
          rw [headerDifference_self]
          grind
  · cases h
    exact ht

/-- So does a run, from any books that balance. -/
theorem balanced_of_run {as : List Arrival} (ht : Balanced t.metrics)
    (has : ∀ a ∈ as, Sound a.packet) :
    ∀ step ∈ optimizationThread d t as, Balanced step.2.thread.metrics := by
  induction as generalizing t with
  | nil =>
    intro step hstep
    cases hstep
  | cons a as ih =>
    intro step hstep
    rw [optimizationThread] at hstep
    split at hstep
    · cases hstep
    · rename_i o ho
      have hnext := optimizationStep_balanced (has a List.mem_cons_self) ho ht
      rcases List.mem_cons.mp hstep with rfl | hmem
      · exact hnext
      · exact ih hnext (fun b hb => has b (List.mem_cons_of_mem a hb)) step hmem

/-- **The books of the optimizer balance** after every packet of every run over packets with
consistent lengths, with whatever sessions, shared dictionaries and switches each of them
finds. -/
theorem optimizationThread_balanced (d : Daemon) (x : Dedup) (redEl redElComp redElDedup : Nat)
    {as : List Arrival} (has : ∀ a ∈ as, Sound a.packet) :
    ∀ step ∈ optimizationThread d (.start x redEl redElComp redElDedup noCounts) as,
      Balanced step.2.thread.metrics :=
  balanced_of_run rfl has

/-- Two packets of one run: the first is deduplicated, the second only gets a header. -/
theorem optimizationThread_balanced_two :
    ∃ o₁ o₂, optimizationThread sharedBox freshOptimizer
          [arriveAt segmentOut, arriveAt otherSegment] =
        [((freshOptimizer, arriveAt segmentOut), o₁), ((o₁.thread, arriveAt otherSegment), o₂)] ∧
      Balanced o₁.thread.metrics ∧ Balanced o₂.thread.metrics := by
  obtain ⟨o₁, ho₁, -⟩ := segmentOut_deduplicated
  obtain ⟨o₂, ho₂⟩ := otherSegment_passed o₁.thread
  have hrun : optimizationThread sharedBox freshOptimizer
      [arriveAt segmentOut, arriveAt otherSegment] =
      [((freshOptimizer, arriveAt segmentOut), o₁),
        ((o₁.thread, arriveAt otherSegment), o₂)] := by
    simp only [optimizationThread, ho₁, ho₂]
  have hsound : ∀ a ∈ [arriveAt segmentOut, arriveAt otherSegment], Sound a.packet := by
    simp only [List.forall_mem_cons, List.not_mem_nil, false_implies, implies_true, and_true]
    constructor <;> decide
  have hbooks : ∀ step ∈ optimizationThread sharedBox freshOptimizer
      [arriveAt segmentOut, arriveAt otherSegment], Balanced step.2.thread.metrics :=
    optimizationThread_balanced sharedBox _ 0 0 0 hsound
  rw [hrun, List.forall_mem_cons, List.forall_mem_cons] at hbooks
  exact ⟨o₁, o₂, hrun, hbooks.1, hbooks.2.1⟩

end Step

end Solowan.Worker
