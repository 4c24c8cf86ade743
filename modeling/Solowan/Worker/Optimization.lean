/-
The optimization thread (`optimization_thread`, `opennopd/subsystems/worker.c`).

A packet of a known session gets the option and the header that announce this accelerator.
When the accelerators at both ends are known, its data is also deduplicated, compressed or
both on the way.

The amounts saved, from which the flags of the header are set, are kept in variables of the
thread: they are cleared when a packet is accelerated, and are what the last accelerated
packet left in them when it is not.
-/

import Solowan.Worker.Thread

namespace Solowan.Worker

open Solowan.Memory Solowan.Dictionary Solowan.Net Solowan.Sessions

/-- The variables of the thread. The three amounts are not initialised when it starts. -/
structure Optimizer where
  dedup : Dedup
  seqNo : UInt32
  redEl : Nat
  redElComp : Nat
  redElDedup : Nat
  metrics : WorkerCounters

/-- The thread when it starts, on memory that was never written. -/
def Optimizer.start (x : Dedup) (redEl redElComp redElDedup : Nat) (metrics : WorkerCounters) :
    Optimizer :=
  ⟨x, 0, redEl, redElComp, redElDedup, metrics⟩

/-! ### Accelerating a packet -/

/-- The acceleration condition: this box is the accelerator of the source, another one is
known for the destination, and the session is established. -/
def accelerates (localID : UInt32) (k : Sockets) (saddr : UInt32) (s : Session) : Bool :=
  (decide (saddr = k.largerIP) && decide (s.largerIPAccelerator = localID) &&
      decide (s.smallerIPAccelerator ≠ 0) && decide (s.smallerIPAccelerator ≠ localID) ||
    decide (saddr = k.smallerIP) && decide (s.smallerIPAccelerator = localID) &&
      decide (s.largerIPAccelerator ≠ 0) && decide (s.largerIPAccelerator ≠ localID)) &&
    decide (s.state = .TCP_ESTABLISHED)

/-- What was done with the data of a packet. -/
structure Encoded where
  thread : Optimizer
  packet : Mem
  cause : Reason
  calls : List Call

/-- The sequence number of a packet whose data has been transformed. -/
def markSeq (m : Mem) (transformed : Bool) : Mem :=
  if transformed then setSeq m (seq m + 8000) else m

/-- Compression alone. -/
def compressOnly (d : Daemon) (t : Optimizer) (m : Mem) : Encoded :=
  let (redEl, m') := tcpCompress d m
  { thread :=
      { t with
        redEl := redEl
        redElComp := 0
        redElDedup := 0
        metrics :=
          if redEl > 0 then
            { t.metrics with
              diffBytesCompression := t.metrics.diffBytesCompression + UInt64.ofNat redEl
              packetsWithOnlyCompression := t.metrics.packetsWithOnlyCompression + 1 }
          else t.metrics }
    packet := markSeq m' (redEl > 0)
    cause := .NOT_RELEVANT
    calls := [.tcpCompress (payloadSize m) (payloadSize m')] }

/-- The counters of a packet that was handed to `tcp_optimize`. -/
def countOptimized (compression : Bool) (redElDedup redElComp : Nat) (c : WorkerCounters) :
    WorkerCounters :=
  let c :=
    if redElDedup > 0 then
      { c with
        diffBytesDeduplication := c.diffBytesDeduplication + UInt64.ofNat redElDedup }
    else c
  if compression = true ∧ redElComp > 0 then
    let c :=
      { c with diffBytesCompression := c.diffBytesCompression + UInt64.ofNat redElComp }
    if redElDedup > 0 then
      { c with
        packetsWithBothCompressionAndDeduplication :=
          c.packetsWithBothCompressionAndDeduplication + 1 }
    else { c with packetsWithOnlyCompression := c.packetsWithOnlyCompression + 1 }
  else if redElDedup > 0 then
    { c with packetsWithOnlyDeduplication := c.packetsWithOnlyDeduplication + 1 }
  else c

/-- Deduplication, followed by compression when that is on too. -/
def optimize (d : Daemon) (compression : Bool) (t : Optimizer) (m : Mem) : Option Encoded :=
  (tcpOptimize d true t.dedup m).map fun (redElDedup, m', x) =>
    let (redElComp, m'') := if compression then tcpCompress d m' else (0, m')
    { thread :=
        { t with
          dedup := x
          redEl := 0
          redElComp := redElComp
          redElDedup := redElDedup
          metrics := countOptimized compression redElDedup redElComp t.metrics }
      packet := markSeq m'' (redElDedup > 0 || (compression && redElComp > 0))
      cause := if redElComp > 0 ∨ redElDedup > 0 then .NOT_RELEVANT else .NO_OPT_GAIN
      calls := .tcpOptimize (payloadSize m) (payloadSize m') ::
        if compression then [.tcpCompress (payloadSize m') (payloadSize m'')] else [] }

/-- A packet that is only remembered. -/
def cacheOnly (d : Daemon) (t : Optimizer) (m : Mem) (cause : Reason) : Option Encoded :=
  (tcpCacheOptim d t.dedup m).map fun (_, x) => ⟨{ t with dedup := x }, m, cause, [.tcpCacheOptim]⟩

/-- The branch for a packet that meets the acceleration condition; `fresh` is the result of
`checkseqnumber`. -/
def accelerate (d : Daemon) (sw : Switches) (fresh : Bool) (t : Optimizer) (m : Mem) :
    Option Encoded :=
  let t := { t with redEl := 0, redElComp := 0, redElDedup := 0 }
  if sw.deduplication then
    if fresh then optimize d sw.compression t m else cacheOnly d t m .IS_A_RTX
  else if sw.compression then some (compressOnly d t m)
  else some ⟨t, m, .NOT_RELEVANT, []⟩

/-- The branch for a packet that does not. -/
def pass (d : Daemon) (sw : Switches) (t : Optimizer) (m : Mem) : Option Encoded :=
  if sw.deduplication then cacheOnly d t m .SESSION_CHECK
  else some ⟨t, m, .SESSION_CHECK, []⟩

/-! ### The header -/

/-- The header of a packet, from the amounts saved. -/
def Encoded.header (e : Encoded) (localID : UInt32) (queue : UInt8) : OpennopHeader where
  seqNo := e.thread.seqNo
  opennopID := localID
  compression := if e.thread.redEl ≠ 0 ∨ e.thread.redElComp ≠ 0 then 1 else 0
  deduplication := if e.thread.redElDedup ≠ 0 then 1 else 0
  reasonForNoOptimization := e.cause.toByte
  queuenum := queue
  pattern := OPENNOP_PATTERN

/-- Put a header in front of the data. -/
def addHeader (m : Mem) (oh : OpennopHeader) : Mem :=
  addTotLen
    (memcpy (memmove m (tcpdata m + OPENNOP_HEADER) (tcpdata m) (payloadSize m)) (tcpdata m)
      oh.bytes) OPENNOP_HEADER

/-! ### One packet -/

/-- What the thread has done when it is back at the top of its loop. -/
structure Optimized where
  thread : Optimizer
  sessions : SessionTable
  packet : Mem
  calls : List Call
  addedOpennopHeader : Bool
  verdict : Verdict

/-- The end of the branch for a known session: the session moves on, and the packet is
accepted with its checksums recomputed. -/
def emit (t : Optimizer) (sessions : SessionTable) (k : Sockets) (headersBefore : Nat) (m : Mem)
    (calls : List Call) (addedOpennopHeader : Bool) : Optimized :=
  let m' := checksum m
  { thread :=
      { t with
        metrics :=
          { t.metrics with
            packets := t.metrics.packets + 1
            bytesout := t.metrics.bytesout + UInt64.ofNat (totLen m')
            diffBytesIpTcpHeader := t.metrics.diffBytesIpTcpHeader +
              headerDifference (getIPPlusTCPHeaderLength m') headersBefore +
              if addedOpennopHeader then UInt64.ofNat OPENNOP_HEADER else 0 } }
    sessions := endSegment sessions k (rst m) (fin m)
    packet := m'
    calls := calls
    addedOpennopHeader := addedOpennopHeader
    verdict := .NF_ACCEPT (some (wholePacket m')) }

/-- The packet with the option in place: its data is transformed or not, and the header is
put in front of it. -/
def tagPacket (d : Daemon) (sw : Switches) (t : Optimizer) (sessions : SessionTable) (k : Sockets)
    (s : Session) (headersBefore : Nat) (m : Mem) : Option Optimized :=
  let met := accelerates d.localID k (saddr m) s
  let fresh := checkseqnumber k.largerIP (saddr m) (seq m) s
  let stored := sw.deduplication && (!met || fresh)
  (if met then accelerate d sw fresh t m else pass d sw t m).map fun e =>
    emit { e.thread with seqNo := e.thread.seqNo + 1 }
      (if stored then sessions.update k (updateseqnumber k.largerIP (saddr m) (seq m))
        else sessions)
      k headersBefore (addHeader e.packet (e.header d.localID s.queue)) e.calls true

/-- One round of the loop. It does not return when a call does not, or when option 32 is
found: that branch follows the pointer it has just cleared. -/
def optimizationStep (d : Daemon) (t : Optimizer) (a : Arrival) : Option Optimized :=
  let m := a.packet
  let sw := a.switches
  let t := { t with dedup := { t.dedup with shared := a.shared } }
  if sw.compression = true ∨ sw.deduplication = true ∨ sw.packetPipeline = true then
    let headersBefore := getIPPlusTCPHeaderLength m
    let t :=
      { t with metrics := { t.metrics with bytesin := t.metrics.bytesin + UInt64.ofNat (totLen m) } }
    let k := sockets m
    match getTcpOption m OPENNOP_OPTION with
    | none => none
    | some option =>
      if option ≠ 0 then none
      else
        match getsession a.sessions k with
        | some s =>
          if isData m then
            let save := saveacceleratorid k.largerIP d.localID (saddr m)
            let sessions := a.sessions.update k save
            match setTcpOption m OPENNOP_OPTION.toNat 3 1 with
            | none => none
            | some (result, m) =>
              if result = -1 then some (emit t sessions k headersBefore m [] false)
              else tagPacket d sw t sessions k (save s) headersBefore m
          else some (emit t a.sessions k headersBefore m [] false)
        | none =>
          some
            { thread :=
                { t with
                  metrics :=
                    { t.metrics with
                      packets := t.metrics.packets + 1
                      bytesout := t.metrics.bytesout + UInt64.ofNat (totLen m)
                      diffBytesIpTcpHeader := t.metrics.diffBytesIpTcpHeader +
                        headerDifference (getIPPlusTCPHeaderLength m) headersBefore } }
              sessions := a.sessions
              packet := m
              calls := []
              addedOpennopHeader := false
              verdict := .NF_ACCEPT none }
  else
    some
      { thread := t
        sessions := a.sessions
        packet := m
        calls := []
        addedOpennopHeader := false
        verdict := .NF_ACCEPT none }

/-- The thread on a sequence of packets, as far as it gets: each step with the packet it
was taken for and the variables it started from. -/
def optimizationThread (d : Daemon) : Optimizer → List Arrival →
    List ((Optimizer × Arrival) × Optimized)
  | _, [] => []
  | t, a :: as =>
    match optimizationStep d t a with
    | none => []
    | some o => ((t, a), o) :: optimizationThread d o.thread as

end Solowan.Worker
