/-
Which packets the fetcher puts into which queue.

* `fetcherCallback_queued`: the queue of a packet, from the packet and the session table.
* `dispatch_agrees_iff`: the thread that gets the packet finds what it expects, except for a
  packet with option 32 whose header names no accelerator, as long as the tests of the fetcher
  do not read behind the bytes that were received.
* `zero_id_reaches_optimizer`: a packet that arrives where it is not expected.
-/

import Solowan.Fetcher.Callback
import Solowan.Net.OptionBounds
import Solowan.Worker.Deoptimization
import Solowan.Worker.Sending

namespace Solowan.Fetcher

open Solowan.Memory Solowan.Net Solowan.Sessions Solowan.Worker

/-! ### The queues -/

/-- The packet is put into a queue. -/
def queues (f : FetcherState) (p : Delivery) (option : UInt64) : Bool :=
  let m := p.originalpacket
  p.running && decide (protocol m = IPPROTO_TCP) && decide (p.id ≠ 0) &&
    (decide (option = 0) || announced m option) && !syn m &&
    match getsession f.sessions (sockets m) with
    | some _ => decide (option ≠ 2)
    | none => ack m && decide (remoteId m option ≠ 0)

/-- Where the fetcher puts a packet: nowhere, or into the queue its accelerator says. -/
theorem fetcherCallback_queued {d : Daemon} {f : FetcherState} {p : Delivery} {option : UInt64}
    {o : Fetched} (hopt : getTcpOption p.originalpacket OPENNOP_OPTION = some option)
    (h : fetcherCallback d f p = some o) :
    (queues f p option = false → o.queued = none) ∧
      (queues f p option = true → ∃ queue, o.queued = some
        (if remoteId p.originalpacket option = 0 then
          .optimize queue (savePacket p.originalpacket p.ret)
        else .deoptimize queue (savePacket p.originalpacket p.ret))) := by
  unfold fetcherCallback at h
  unfold queues
  dsimp only at h ⊢
  split at h
  · rename_i hrun
    split at h
    · rename_i htcp
      rw [hopt] at h
      dsimp only at h
      split at h
      · rename_i hbad
        cases h
        simp [FetcherState.discard, hbad]
      · rename_i hgood
        have hgood' : (decide (option = 0) || announced p.originalpacket option) = true := by
          by_cases h0 : option = 0
          · simp [h0]
          · simp only [ne_eq, h0, not_false_eq_true, true_and, Bool.not_eq_false] at hgood
            simp [hgood]
        rw [hrun, decide_eq_true htcp.1, decide_eq_true htcp.2, hgood']
        split at h
        · rename_i hsyn
          rw [hsyn]
          refine ⟨fun _ => ?_, by simp⟩
          rw [synSegment] at h
          dsimp only at h
          rw [Option.map_eq_some_iff] at h
          obtain ⟨e, -, rfl⟩ := h
          rfl
        · rename_i hsyn
          rw [Bool.eq_false_of_not_eq_true hsyn]
          cases hs : getsession f.sessions (sockets p.originalpacket) with
          | some s =>
            rw [hs] at h
            cases h
            rw [knownSegment]
            dsimp only
            split
            · rename_i h2
              simp [FetcherState.discard, h2]
            · rename_i h2
              exact ⟨by simp [h2], fun _ => ⟨s.queue, rfl⟩⟩
          | none =>
            rw [hs] at h
            cases h
            rw [unknownSegment]
            dsimp only
            split
            · rename_i hnew
              simp [hnew]
            · rename_i hnew
              simp only [not_and, not_not] at hnew
              refine ⟨fun _ => rfl, ?_⟩
              intro hq
              simp only [Bool.true_and, Bool.not_false, Bool.and_eq_true, decide_eq_true_eq] at hq
              exact absurd (hnew hq.1) hq.2
    · rename_i htcp
      cases h
      simp only [not_and] at htcp
      refine ⟨fun _ => rfl, ?_⟩
      intro hq
      simp only [Bool.and_eq_true, decide_eq_true_eq] at hq
      exact absurd hq.1.1.1.2 (htcp hq.1.1.1.1.2)
  · rename_i hrun
    cases h
    simp [FetcherState.conclude, hrun]

/-- The session that a segment from an accelerator creates. -/
theorem unknownSegment_entered {f : FetcherState} {p : Delivery} {remoteID : UInt32}
    (hack : ack p.originalpacket = true) (hid : remoteID ≠ 0)
    (hs : getsession f.sessions (sockets p.originalpacket) = none) :
    (unknownSegment f p remoteID).queued = some (.deoptimize
        (opennopHeader p.originalpacket).queuenum (savePacket p.originalpacket p.ret)) ∧
      (∃ s, getsession (unknownSegment f p remoteID).state.sessions (sockets p.originalpacket) =
        some s ∧ s.queue = (opennopHeader p.originalpacket).queuenum) ∧
      (unknownSegment f p remoteID).state.sessions.Single (sockets p.originalpacket) := by
  rw [unknownSegment]
  dsimp only
  rw [if_pos ⟨hack, hid⟩]
  refine ⟨rfl, ?_, (single_insertsession hs _).update (by simp)⟩
  rw [getsession_update _ _ (by simp), getsession_insertsession hs, Option.map_some]
  exact ⟨_, rfl, by simp [newSession]⟩

/-- A packet is queued only after a look at its options. -/
theorem fetcherCallback_option {d : Daemon} {f : FetcherState} {p : Delivery} {o : Fetched}
    (h : fetcherCallback d f p = some o) (hq : o.queued ≠ none) :
    ∃ option, getTcpOption p.originalpacket OPENNOP_OPTION = some option := by
  unfold fetcherCallback at h
  dsimp only at h
  split at h
  · split at h
    · split at h
      · cases h
      · rename_i option hopt
        exact ⟨option, hopt⟩
    · cases h
      exact absurd rfl hq
  · cases h
    exact absurd rfl hq

/-- A packet without option 32 passes the guards, and so does one that is announced. -/
theorem not_refused {m : Mem} {option : UInt64}
    (hgood : option = 0 ∨ announced m option = true) :
    ¬ (option ≠ 0 ∧ announced m option = false) := by
  rintro ⟨hne, hbad⟩
  rcases hgood with hgood | hgood
  · exact hne hgood
  · rw [hbad] at hgood
    cases hgood

/-- A segment that is neither refused nor a SYN is dealt with by its session. -/
theorem fetcherCallback_segment {f : FetcherState} {p : Delivery} {option : UInt64} (d : Daemon)
    (hrun : p.running = true) (htcp : protocol p.originalpacket = IPPROTO_TCP) (hid : p.id ≠ 0)
    (hopt : getTcpOption p.originalpacket OPENNOP_OPTION = some option)
    (hgood : option = 0 ∨ announced p.originalpacket option = true)
    (hsyn : syn p.originalpacket = false) :
    fetcherCallback d f p = some
      (match getsession f.sessions (sockets p.originalpacket) with
      | some s =>
        knownSegment { f with bytesin := f.bytesin + UInt64.ofNat (totLen p.originalpacket) } p
          option (remoteId p.originalpacket option) s
      | none =>
        unknownSegment { f with bytesin := f.bytesin + UInt64.ofNat (totLen p.originalpacket) } p
          (remoteId p.originalpacket option)) := by
  rw [fetcherCallback]
  dsimp only
  rw [if_pos hrun, if_pos ⟨htcp, hid⟩, hopt]
  dsimp only
  rw [if_neg (not_refused hgood), if_neg (by simp [hsyn])]
  cases getsession f.sessions (sockets p.originalpacket) with
  | none => rfl
  | some s => rfl

/-- The callback returns from a packet that it queues. -/
theorem fetcherCallback_of_queues {f : FetcherState} {p : Delivery} {option : UInt64} (d : Daemon)
    (hopt : getTcpOption p.originalpacket OPENNOP_OPTION = some option)
    (hq : queues f p option = true) :
    ∃ o queue, fetcherCallback d f p = some o ∧ o.queued = some
      (if remoteId p.originalpacket option = 0 then
        .optimize queue (savePacket p.originalpacket p.ret)
      else .deoptimize queue (savePacket p.originalpacket p.ret)) := by
  have hguards := hq
  unfold queues at hguards
  simp only [Bool.and_eq_true, Bool.or_eq_true, decide_eq_true_eq, Bool.not_eq_true'] at hguards
  obtain ⟨⟨⟨⟨⟨hrun, htcp⟩, hid⟩, hgood⟩, hsyn⟩, -⟩ := hguards
  have ho := fetcherCallback_segment (f := f) d hrun htcp hid hopt hgood hsyn
  obtain ⟨queue, hqueue⟩ := (fetcherCallback_queued hopt ho).2 hq
  exact ⟨_, queue, ho, hqueue⟩

/-- What is in a queue is the copy of a packet that was put there. -/
theorem queues_of_queued {d : Daemon} {f : FetcherState} {p : Delivery} {o : Fetched} {q : Queued}
    (h : fetcherCallback d f p = some o) (hqueued : o.queued = some q) :
    ∃ option queue, getTcpOption p.originalpacket OPENNOP_OPTION = some option ∧
      queues f p option = true ∧
      q = if remoteId p.originalpacket option = 0 then
          .optimize queue (savePacket p.originalpacket p.ret)
        else .deoptimize queue (savePacket p.originalpacket p.ret) := by
  obtain ⟨option, hopt⟩ := fetcherCallback_option h (by rw [hqueued]; exact Option.some_ne_none q)
  obtain ⟨hnone, hsome⟩ := fetcherCallback_queued hopt h
  cases hq : queues f p option with
  | false =>
    rw [hnone hq] at hqueued
    cases hqueued
  | true =>
    obtain ⟨queue, hqueue⟩ := hsome hq
    rw [hqueued] at hqueue
    exact ⟨option, queue, hopt, hq, Option.some.inj hqueue⟩

/-! ### What the threads expect -/

/-- The tests of the deoptimization thread succeed. -/
def Announces (m : Mem) : Prop :=
  ∃ option, getTcpOption m OPENNOP_OPTION = some option ∧ announced m option = true

/-- What the threads assume of the packets in their queues: the first finds no option 32, the tests
of the second succeed, and it does not end. -/
def Expected (d : Daemon) : Queued → Prop
  | .optimize _ m => getTcpOption m OPENNOP_OPTION = some 0
  | .deoptimize _ m => Announces m ∧
    ∀ t a o, a.packet = m → deoptimizationStep d t a = some o → o.ends = false

/-- The optimization thread returns from a packet that it expects only if it has no option 32. -/
theorem optimizationStep_option {d : Daemon} {t : Optimizer} {a : Arrival} {o : Optimized}
    (hon : a.switches.compression = true ∨ a.switches.deduplication = true ∨
      a.switches.packetPipeline = true) (h : optimizationStep d t a = some o) :
    Expected d (.optimize 0 a.packet) := by
  rw [optimizationStep] at h
  dsimp only at h
  rw [if_pos hon] at h
  split at h
  · cases h
  · rename_i option hopt
    split at h
    · cases h
    · rename_i hzero
      rw [Expected, hopt, not_not.mp hzero]

/-- The deoptimization thread ends on the packets for which a test fails. -/
theorem deoptimizationStep_ends_iff {d : Daemon} {t : Deoptimizer} {a : Arrival} {o : Deoptimized}
    (h : deoptimizationStep d t a = some o) : o.ends = false ↔ Announces a.packet := by
  unfold deoptimizationStep at h
  unfold Announces
  dsimp only at h
  split at h
  · cases h
  · rename_i option hopt
    simp only [hopt, Option.some.injEq, exists_eq_left']
    split at h
    · rename_i hann
      refine iff_of_true ?_ hann
      split at h
      · cases h
      · rw [deoptimizeStripped] at h
        dsimp only at h
        split at h
        · rw [Option.map_eq_some_iff] at h
          obtain ⟨r, -, rfl⟩ := h
          rfl
        · cases h
          rfl
    · rename_i hann
      cases h
      exact iff_of_false (by simp [refuse]) hann

theorem expected_deoptimize_iff {d : Daemon} {queue : UInt8} {m : Mem} :
    Expected d (.deoptimize queue m) ↔ Announces m := by
  refine ⟨fun h => h.1, fun h => ⟨h, fun t a o ha ho => ?_⟩⟩
  rw [deoptimizationStep_ends_iff ho, ha]
  exact h

/-! ### When they get it -/

/-- The copy has the bytes that were received. -/
theorem savePacket_apply {m : Mem} {ret i : Nat} (h : i < ret) : savePacket m ret i = m i := by
  have hlen : i < (slice m 0 ret).length := by
    rw [length_slice]
    exact h
  have hin : savePacket m ret (0 + i) = (slice m 0 ret).getD i 0 := memcpy_apply_inside hlen
  rw [Nat.zero_add] at hin
  rw [hin, getD_slice h, Nat.zero_add]

/-- A segment is copied as a segment. -/
theorem segment_savePacket {m : Mem} {n ret : Nat} {f : Flow} {sq : UInt32} {area data : List UInt8}
    (h : Segment m n f sq area data) (hret : totLen m ≤ ret) :
    Segment (savePacket m ret) n f sq area data :=
  h.of_slice (slice_congr fun _ hi => savePacket_apply (by omega))

/-- The header of a packet with option 32 names no accelerator. -/
def NamesNoAccelerator (p : Delivery) (option : UInt64) : Prop :=
  option ≠ 0 ∧ (opennopHeader p.originalpacket).opennopID = 0

/-- The tests of the fetcher read received bytes only: the look at option 32 does, and where it
finds one, the header behind the TCP header was received. -/
structure Received (p : Delivery) (option : UInt64) : Prop where
  look : ReadsBelow p.originalpacket OPENNOP_OPTION p.ret
  header : option ≠ 0 → tcpdata p.originalpacket + OPENNOP_HEADER ≤ p.ret

section Received

variable {p : Delivery} {option : UInt64}

/-- The copy then has the option of the packet. -/
theorem Received.getTcpOption_savePacket (h : Received p option)
    (hopt : getTcpOption p.originalpacket OPENNOP_OPTION = some option) :
    getTcpOption (savePacket p.originalpacket p.ret) OPENNOP_OPTION = some option :=
  h.look.getTcpOption_congr (by decide) (fun _ hi => savePacket_apply hi) hopt

/-- And it passes the guards that the packet has passed. -/
theorem Received.announces_savePacket (h : Received p option)
    (hopt : getTcpOption p.originalpacket OPENNOP_OPTION = some option)
    (hann : announced p.originalpacket option = true) (hne : option ≠ 0) :
    Announces (savePacket p.originalpacket p.ret) := by
  have hheaders := h.look.headers
  have hheader := h.header hne
  have hsame : SameHeaders p.originalpacket (savePacket p.originalpacket p.ret) :=
    sameHeaders_of_apply fun i hi => savePacket_apply (by unfold opt at hheaders; omega)
  have hinc : incomingLen (savePacket p.originalpacket p.ret) = incomingLen p.originalpacket := by
    rw [incomingLen, tcpLen, hsame.totLen, hsame.kept.ihl, hsame.doff, incomingLen, tcpLen]
  have hpattern : (opennopHeader (savePacket p.originalpacket p.ret)).pattern =
      (opennopHeader p.originalpacket).pattern := by
    rw [opennopHeader, hsame.tcpdata, readHeader, opennopHeader, readHeader]
    refine congrArg UInt32.ofNat (loadLE_congr fun i hi => savePacket_apply ?_)
    unfold OPENNOP_HEADER at hheader
    omega
  refine ⟨option, h.getTcpOption_savePacket hopt, ?_⟩
  rw [announced, hinc, hpattern, ← announced]
  exact hann

/-- What is found in the queue is then decided by the header alone. -/
theorem Received.expected_iff (h : Received p option) (d : Daemon) (queue : UInt8)
    (hopt : getTcpOption p.originalpacket OPENNOP_OPTION = some option)
    (hgood : option = 0 ∨ announced p.originalpacket option = true) :
    Expected d (if remoteId p.originalpacket option = 0 then
        .optimize queue (savePacket p.originalpacket p.ret)
      else .deoptimize queue (savePacket p.originalpacket p.ret)) ↔
      ¬ NamesNoAccelerator p option := by
  have hcopy := h.getTcpOption_savePacket hopt
  unfold NamesNoAccelerator
  by_cases h0 : option = 0
  · have hid : remoteId p.originalpacket option = 0 := by simp [remoteId, h0]
    rw [if_pos hid, Expected, hcopy, h0]
    simp
  · by_cases hno : (opennopHeader p.originalpacket).opennopID = 0
    · have hid : remoteId p.originalpacket option = 0 := by simp [remoteId, hno]
      rw [if_pos hid, Expected, hcopy]
      simp [h0, hno]
    · have hid : remoteId p.originalpacket option ≠ 0 := by simp [remoteId, h0, hno]
      rw [if_neg hid, expected_deoptimize_iff]
      exact iff_of_true (h.announces_savePacket hopt (hgood.resolve_left h0) h0) fun hbad =>
        hno hbad.2

end Received

/-- A packet that is queued has passed the guards of the fetcher. -/
theorem guards_of_queues {f : FetcherState} {p : Delivery} {option : UInt64}
    (h : queues f p option = true) : option = 0 ∨ announced p.originalpacket option = true := by
  unfold queues at h
  simp only [Bool.and_eq_true, Bool.or_eq_true, decide_eq_true_eq] at h
  exact h.1.1.2

/-- **Dispatch.** For every packet and every session table, the thread that gets the packet
finds what it expects if the tests of the fetcher read received bytes only and the packet does not
have option 32 and a header that names no accelerator. Of the packets whose tests read received
bytes only, no others do. -/
theorem dispatch_agrees_iff (d : Daemon) (f : FetcherState) (p : Delivery) :
    ((∀ option, getTcpOption p.originalpacket OPENNOP_OPTION = some option →
        queues f p option = true → Received p option ∧ ¬ NamesNoAccelerator p option) →
      ∀ o q, fetcherCallback d f p = some o → o.queued = some q → Expected d q) ∧
    ((∀ option, getTcpOption p.originalpacket OPENNOP_OPTION = some option →
        queues f p option = true → Received p option) →
      (∀ o q, fetcherCallback d f p = some o → o.queued = some q → Expected d q) →
      ∀ option, getTcpOption p.originalpacket OPENNOP_OPTION = some option →
        queues f p option = true → ¬ NamesNoAccelerator p option) := by
  constructor
  · intro h o q ho hqueue
    obtain ⟨option, queue, hopt, hq, rfl⟩ := queues_of_queued ho hqueue
    obtain ⟨hreceived, hnames⟩ := h option hopt hq
    exact (hreceived.expected_iff d queue hopt (guards_of_queues hq)).mpr hnames
  · intro hreceived h option hopt hq
    obtain ⟨o, queue, ho, hqueue⟩ := fetcherCallback_of_queues d hopt hq
    exact ((hreceived option hopt hq).expected_iff d queue hopt (guards_of_queues hq)).mp
      (h o _ ho hqueue)

/-! ### Small packets -/

/-- The bytes of a segment with option 32 and a header. -/
def taggedSegment (src dst flags : UInt8) (sq : Nat) (oh : OpennopHeader) (data : List UInt8) :
    List UInt8 :=
  [0x45, 0] ++ (beBytes 2 (60 + data.length) ++
    ([0, 0, 0, 0, 64, 6, 0, 0, 10, 0, 0, src, 10, 0, 0, dst, 0x30, 0x39, 0x30, 0x39] ++
      (beBytes 4 sq ++ ([0, 0, 0, 1, 0x60, flags, 0xff, 0xff, 0, 0, 0, 0, 32, 3, 1, 0] ++
        (oh.bytes ++ data)))))

/-- A packet that is delivered as it was sent. -/
def deliveryOf (bytes : List UInt8) : Delivery := ⟨1, ofList bytes, bytes.length, 0, true⟩

/-- A fetcher that knows the session of a packet. -/
def fetcherOf (bytes : List UInt8) : FetcherState :=
  ⟨tableOf [established (ofList bytes) 0 0], 0, 0⟩

/-- A header from another accelerator. -/
def namedSegment : List UInt8 := taggedSegment 1 2 0x10 1000 (synHeader 88 0) [9]

theorem received_namedSegment : Received (deliveryOf namedSegment) 1 := by
  have hreach : ∀ i, Relation.ReflTransGen (Leads (deliveryOf namedSegment).originalpacket
      (getStop (deliveryOf namedSegment).originalpacket OPENNOP_OPTION)) 0 i → i = 0 :=
    fun i hi => eq_zero_of_stop (by decide) hi
  refine ⟨⟨by decide, fun i hi _ => ?_, fun i hi _ _ => ?_⟩, fun _ => by decide⟩
  · rw [hreach i hi]
    decide
  · rw [hreach i hi]
    decide

/-- It gets to the deoptimization thread, which takes its header off. -/
theorem namedSegment_expected : ∀ o q,
    fetcherCallback sharedBox (fetcherOf namedSegment) (deliveryOf namedSegment) = some o →
      o.queued = some q → Expected sharedBox q := by
  refine (dispatch_agrees_iff sharedBox (fetcherOf namedSegment) (deliveryOf namedSegment)).1 ?_
  intro option hopt _
  have hone : getTcpOption (deliveryOf namedSegment).originalpacket OPENNOP_OPTION = some 1 := by
    decide
  rw [hone] at hopt
  cases hopt
  exact ⟨received_namedSegment, fun hnames => absurd hnames.2 (by decide)⟩

/-- A header without an accelerator. -/
def anonymousSegment : List UInt8 := taggedSegment 1 2 0x10 1000 (synHeader 0 0) [9]

/-- It is put into the queue of the optimization thread. -/
theorem zero_id_reaches_optimizer :
    ¬ ∀ o q, fetcherCallback sharedBox (fetcherOf anonymousSegment) (deliveryOf anonymousSegment) =
      some o → o.queued = some q → Expected sharedBox q := by
  have hopt : getTcpOption (deliveryOf anonymousSegment).originalpacket OPENNOP_OPTION = some 1 := by
    decide
  have hq : queues (fetcherOf anonymousSegment) (deliveryOf anonymousSegment) 1 = true := by
    decide
  have hid : remoteId (deliveryOf anonymousSegment).originalpacket 1 = 0 := by decide
  have hcopy : getTcpOption (savePacket (deliveryOf anonymousSegment).originalpacket
      (deliveryOf anonymousSegment).ret) OPENNOP_OPTION = some 1 := by decide
  intro h
  obtain ⟨o, queue, ho, hqueue⟩ := fetcherCallback_of_queues sharedBox hopt hq
  rw [if_pos hid] at hqueue
  have hzero : getTcpOption _ OPENNOP_OPTION = some 0 := h o _ ho hqueue
  rw [hcopy] at hzero
  cases hzero

end Solowan.Fetcher
