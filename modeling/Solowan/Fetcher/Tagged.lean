/-
A segment from another accelerator in `fetcher_callback`: one that carries option 32, and the
header of the accelerator in front of its data.

* `fetcherCallback_entered`: the session that it creates when there is none.
* `fetcherCallback_known`: the queue it is put into when there is one.
-/

import Solowan.Fetcher.Dispatch
import Solowan.Worker.Receiving

namespace Solowan.Fetcher

open Solowan.Memory Solowan.Net Solowan.Sessions Solowan.Worker

/-- A delivery of a segment with the header `oh` of another accelerator, and option 32 of
value `value`, which the fetcher neither refuses nor takes for a SYN. -/
structure Tagged (p : Delivery) (value : UInt8) (oh : OpennopHeader) : Prop where
  running : p.running = true
  tcp : protocol p.originalpacket = IPPROTO_TCP
  id : p.id ≠ 0
  option : getTcpOption p.originalpacket OPENNOP_OPTION = some value.toUInt64
  announced : announced p.originalpacket value.toUInt64 = true
  header : opennopHeader p.originalpacket = oh
  accelerator : oh.opennopID ≠ 0
  syn : syn p.originalpacket = false

section Tagged

variable {d : Daemon} {f : FetcherState} {p : Delivery} {value : UInt8} {oh : OpennopHeader}
  {s : Session}

theorem Tagged.of_segment {n : Nat} {fl : Flow} {sq : UInt32} {rest data : List UInt8}
    (h : Segment p.originalpacket n fl sq (shortOption OPENNOP_OPTION value ++ rest)
      (oh.bytes ++ data))
    (hvalue : value ≠ 0) (hpattern : oh.pattern = OPENNOP_PATTERN) (hoh : oh.opennopID ≠ 0)
    (hrun : p.running = true) (htcp : protocol p.originalpacket = IPPROTO_TCP) (hid : p.id ≠ 0)
    (hsyn : Net.syn p.originalpacket = false) : Tagged p value oh := by
  obtain ⟨hopt, hann, hread⟩ := announced_segment h hvalue hpattern
  exact ⟨hrun, htcp, hid, hopt, hann, hread, hoh, hsyn⟩

theorem Tagged.value_ne_zero (h : Tagged p value oh) : value.toUInt64 ≠ 0 := by
  intro hzero
  have hann := h.announced
  rw [hzero, Worker.announced] at hann
  simp at hann

theorem Tagged.remoteId (h : Tagged p value oh) :
    Fetcher.remoteId p.originalpacket value.toUInt64 = oh.opennopID := by
  rw [Fetcher.remoteId, if_pos h.value_ne_zero, h.header]

/-- **A session is created** for a segment that has none. -/
theorem fetcherCallback_entered (h : Tagged p value oh) (hack : ack p.originalpacket = true)
    (hs : getsession f.sessions (sockets p.originalpacket) = none) :
    ∃ o s, fetcherCallback d f p = some o ∧
      o.queued = some (.deoptimize oh.queuenum (savePacket p.originalpacket p.ret)) ∧
      getsession o.state.sessions (sockets p.originalpacket) = some s ∧
      s.queue = oh.queuenum ∧ o.state.sessions.Single (sockets p.originalpacket) := by
  have hstep := fetcherCallback_segment (f := f) d h.running h.tcp h.id h.option (Or.inr h.announced)
    h.syn
  rw [hs] at hstep
  dsimp only at hstep
  rw [h.remoteId] at hstep
  obtain ⟨hqueued, ⟨s, hs', hqueue⟩, hsingle⟩ := unknownSegment_entered
    (f := ⟨f.sessions, f.packets, f.bytesin + UInt64.ofNat (totLen p.originalpacket)⟩) hack
    h.accelerator hs
  rw [h.header] at hqueued hqueue
  exact ⟨_, s, hstep, hqueued, hs', hqueue, hsingle⟩

/-- **A known session** says which queue the segment is put into. -/
theorem fetcherCallback_known (h : Tagged p value oh) (hvalue : value ≠ 2)
    (hs : getsession f.sessions (sockets p.originalpacket) = some s) :
    ∃ o, fetcherCallback d f p = some o ∧
      o.queued = some (.deoptimize s.queue (savePacket p.originalpacket p.ret)) ∧
      o.state.sessions = f.sessions.update (sockets p.originalpacket) fun s =>
        { s with lastactive := p.now, deadcounter := 0 } := by
  have hstep := fetcherCallback_segment (f := f) d h.running h.tcp h.id h.option (Or.inr h.announced)
    h.syn
  rw [hs] at hstep
  dsimp only at hstep
  rw [h.remoteId, knownSegment] at hstep
  dsimp only at hstep
  have hne : value.toUInt64 ≠ 2 := by
    intro htwo
    apply hvalue
    rw [← UInt8.toUInt8_toUInt64 value, htwo]
    rfl
  rw [if_neg hne, if_neg h.accelerator] at hstep
  exact ⟨_, hstep, rfl, rfl⟩

end Tagged

end Solowan.Fetcher
