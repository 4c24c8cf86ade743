/-
The fetcher (`fetcher_callback`, `opennopd/subsystems/fetcher.c`).

Every packet of the netfilter queue comes here first. The SYN segments are dealt with on the
spot: a new session is entered, and an accelerator announces itself to the other, or notes
that the other has done so. The remaining segments are put into a queue of the worker of
their session, for the optimization thread or for the deoptimization thread.

The fetcher looks at the packet in the buffer it was received in, where the bytes of earlier
packets follow it. A worker gets a copy of the bytes that were received, in a buffer that is
zero otherwise (`savePacket`).
-/

import Solowan.Sessions.Evolution
import Solowan.Worker.Thread

namespace Solowan.Fetcher

open Solowan.Memory Solowan.Net Solowan.Sessions Solowan.Worker

/-- What the fetcher keeps: the sessions, and its two counters. -/
structure FetcherState where
  sessions : SessionTable
  packets : UInt64
  bytesin : UInt64

/-- What netfilter hands over: the identifier of the packet, the buffer it lies in and the
number of its bytes `ret`. Next to it what the callback asks the system for: the time, and
whether the service is running. -/
structure Delivery where
  id : UInt32
  originalpacket : Mem
  ret : Nat
  now : UInt64
  running : Bool

/-- A packet in the queue of a worker. -/
inductive Queued where
  | optimize (queue : UInt8) (packet : Mem)
  | deoptimize (queue : UInt8) (packet : Mem)

/-- What has become of a packet: a verdict, or a place in a queue. -/
structure Fetched where
  state : FetcherState
  packet : Mem
  verdict : Option Verdict
  queued : Option Queued

/-- `get_freepacket_buffer`, which has a buffer, and `save_packet`. -/
def savePacket (originalpacket : Mem) (ret : Nat) : Mem :=
  memcpy (fun _ => 0) 0 (slice originalpacket 0 ret)

/-- The verdict that ends the callback, with the packet counted. -/
def FetcherState.conclude (f : FetcherState) (m : Mem) (v : Verdict) : Fetched :=
  ⟨{ f with packets := f.packets + 1 }, m, some v, none⟩

/-- A packet that is dropped is not counted. -/
def FetcherState.discard (f : FetcherState) (m : Mem) : Fetched := ⟨f, m, some .NF_DROP, none⟩

/-! ### SYN segments -/

/-- The option with the maximum segment size. -/
def MSS_OPTION : UInt8 := 2

/-- The session of a SYN segment: its times, its ends and its sequence number. -/
def openSession (k : Sockets) (m : Mem) (now : UInt64) (s : Session) : Session :=
  let s := { s with lastactive := now }
  let s := sourceisclient k.largerIP (saddr m) (daddr m) (!ack m) s
  let s := updateseq k.largerIP (saddr m) (seq m) s
  updateseqnumber k.largerIP (saddr m) (seq m) s

theorem inner_openSession (k : Sockets) (m : Mem) (now : UInt64) : Inner (openSession k m now) := by
  have hnow : Inner fun s : Session => { s with lastactive := now } := ⟨fun _ => rfl, fun _ => rfl⟩
  exact ((hnow.comp (inner_sourceisclient ..)).comp (inner_updateseq ..)).comp
    (inner_updateseqnumber ..)

/-- The header of a SYN segment. -/
def synHeader (localID : UInt32) (queue : UInt8) : OpennopHeader where
  seqNo := 0
  opennopID := localID
  compression := 0
  deduplication := 0
  reasonForNoOptimization := Reason.NOT_RELEVANT.toByte
  queuenum := queue
  pattern := OPENNOP_PATTERN

/-- No other accelerator has seen the segment: this one announces itself, if the segment has
a segment size that can be reduced. The header is written over the data. -/
def announce (localID : UInt32) (queue : UInt8) (m : Mem) : Option (Mem × Bool) :=
  match getTcpOption m MSS_OPTION with
  | none => none
  | some value =>
    let mms := value.toUInt16
    if mms > 68 then
      match setTcpOption m MSS_OPTION.toNat 4 (mms - 68).toUInt64 with
      | none => none
      | some (_, m) =>
        match setTcpOption m OPENNOP_OPTION.toNat 3 1 with
        | none => none
        | some (result, m) =>
          let m :=
            if result = -1 then m
            else addTotLen (memcpy m (tcpdata m) (synHeader localID queue).bytes) OPENNOP_HEADER
          some (checksum m, true)
    else some (m, false)

/-- The other accelerator has announced itself: its option is cleared and its header cut off. -/
def acknowledge (m : Mem) : Option Mem :=
  (setTcpOption m OPENNOP_OPTION.toNat 3 0).map fun (result, m) =>
    checksum (if result = -1 then m else addTotLen m (-OPENNOP_HEADER))

/-- A SYN segment, accepted here. -/
def synSegment (d : Daemon) (f : FetcherState) (p : Delivery) (remoteID : UInt32) :
    Option Fetched :=
  let m := p.originalpacket
  let k := sockets m
  let sessions :=
    match getsession f.sessions k with
    | some _ => f.sessions
    | none =>
      insertsession f.sessions k (if remoteID ≠ 0 then some (opennopHeader m).queuenum else none)
  let sessions := sessions.update k (openSession k m p.now)
  let queue := ((getsession sessions k).map Session.queue).getD 0
  let edited :=
    if remoteID = 0 then (announce d.localID queue m).map fun (m, announced) =>
      (m, if announced then some d.localID else none)
    else (acknowledge m).map fun m => (m, some remoteID)
  edited.map fun (m', accelerator) =>
    let sessions :=
      match accelerator with
      | none => sessions
      | some v => sessions.update k (saveacceleratorid k.largerIP v (saddr m'))
    let state := if ack m' then State.TCP_ESTABLISHED else .TCP_SYN_SENT
    { f with sessions := sessions.update k fun s => { s with state := state } }.conclude m'
      (.NF_ACCEPT (some (wholePacket m')))

/-! ### The other segments -/

/-- A segment of a known session: a keepalive is dropped, any other goes to the worker of
the session. -/
def knownSegment (f : FetcherState) (p : Delivery) (option : UInt64) (remoteID : UInt32)
    (s : Session) : Fetched :=
  let m := p.originalpacket
  let f :=
    { f with
      sessions := f.sessions.update (sockets m) fun s =>
        { s with lastactive := p.now, deadcounter := 0 } }
  if option = 2 then f.discard m
  else
    let packet := savePacket m p.ret
    ⟨{ f with packets := f.packets + 1 }, m, none,
      some (if remoteID = 0 then .optimize s.queue packet else .deoptimize s.queue packet)⟩

/-- A segment without a session: it creates one when it comes from an accelerator. -/
def unknownSegment (f : FetcherState) (p : Delivery) (remoteID : UInt32) : Fetched :=
  let m := p.originalpacket
  let k := sockets m
  if ack m = true ∧ remoteID ≠ 0 then
    let queue := (opennopHeader m).queuenum
    let record := fun s : Session =>
      updateseqnumber k.largerIP (saddr m) (seq m)
        (saveacceleratorid k.largerIP remoteID (saddr m) { s with state := .TCP_ESTABLISHED })
    ⟨{ f with
        sessions := (insertsession f.sessions k (some queue)).update k record
        packets := f.packets + 1 }, m, none, some (.deoptimize queue (savePacket m p.ret))⟩
  else f.conclude m (.NF_ACCEPT (some (wholePacket m)))

/-- The accelerator a packet comes from, 0 when it has none. -/
def remoteId (m : Mem) (option : UInt64) : UInt32 :=
  if option ≠ 0 then (opennopHeader m).opennopID else 0

/-- `fetcher_callback`. It does not return when one of the walks over the options does not. -/
def fetcherCallback (d : Daemon) (f : FetcherState) (p : Delivery) : Option Fetched :=
  let m := p.originalpacket
  if p.running then
    let f := { f with bytesin := f.bytesin + UInt64.ofNat (totLen m) }
    if protocol m = IPPROTO_TCP ∧ p.id ≠ 0 then
      match getTcpOption m OPENNOP_OPTION with
      | none => none
      | some option =>
        if option ≠ 0 ∧ announced m option = false then some (f.discard m)
        else if syn m then synSegment d f p (remoteId m option)
        else
          match getsession f.sessions (sockets m) with
          | some s => some (knownSegment f p option (remoteId m option) s)
          | none => some (unknownSegment f p (remoteId m option))
    else some (f.conclude m (.NF_ACCEPT none))
  else some (f.conclude m (.NF_ACCEPT none))

end Solowan.Fetcher
