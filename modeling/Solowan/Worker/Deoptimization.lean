/-
The deoptimization thread (`deoptimization_thread`, `opennopd/subsystems/worker.c`).

A packet that carries option 32 loses its header. When its session is known, and this box is
the accelerator of the destination, the transformations its flags name are undone as far as
the switches allow. A packet whose data cannot be restored is dropped; the thread goes on
with the buffer it has just given back, so that a failed `tcp_decompress` does not keep
`tcp_deoptimize` from running on it.

The three branches for a packet that should not have been queued here drop it and end the
thread.
-/

import Solowan.Worker.Thread

namespace Solowan.Worker

open Solowan.Memory Solowan.Dictionary Solowan.Net Solowan.Sessions

/-- The variables of the thread. -/
structure Deoptimizer where
  dedup : Dedup
  expectedSeqNo : UInt32
  metrics : WorkerCounters

/-- The thread when it starts. -/
def Deoptimizer.start (x : Dedup) (metrics : WorkerCounters) : Deoptimizer := ⟨x, 0, metrics⟩

/-! ### Restoring the data -/

/-- A packet on its way through the thread; `kept` is `thispacket != NULL`. -/
structure Decoded where
  thread : Deoptimizer
  sessions : SessionTable
  packet : Mem
  calls : List Call
  kept : Bool

/-- The sequence number of a packet whose data has been restored. -/
def unmarkSeq (m : Mem) : Mem := setSeq m (seq m - 8000)

/-- `tcp_decompress`; nothing else is left to undo when it is `last`. -/
def decompress (d : Daemon) (last : Bool) (r : Decoded) : Int × Decoded :=
  let (redComp, m) := tcpDecompress d r.packet
  let calls := r.calls ++ [.tcpDecompress redComp]
  if redComp < 0 then (redComp, { r with packet := m, calls := calls, kept := false })
  else
    let c := r.thread.metrics
    (redComp,
      { r with
        thread :=
          { r.thread with
            metrics :=
              { c with
                diffBytesCompression := c.diffBytesCompression + UInt64.ofInt redComp
                packetsWithOnlyCompression :=
                  c.packetsWithOnlyCompression + if last then 1 else 0 } }
        packet := if last then unmarkSeq m else m
        calls := calls })

/-- The counters of a packet that `tcp_deoptimize` has restored. -/
def countDeoptimized (redComp redDedup : Int) (c : WorkerCounters) : WorkerCounters :=
  let c := { c with diffBytesDeduplication := c.diffBytesDeduplication + UInt64.ofInt redDedup }
  if redComp > 0 then
    { c with
      packetsWithBothCompressionAndDeduplication :=
        c.packetsWithBothCompressionAndDeduplication + 1 }
  else { c with packetsWithOnlyDeduplication := c.packetsWithOnlyDeduplication + 1 }

/-- `tcp_deoptimize`, after the sequence number of the packet was stored. -/
def deoptimize (d : Daemon) (k : Sockets) (redComp : Int) (r : Decoded) : Option Decoded :=
  let sessions :=
    r.sessions.update k (updateseqnumber k.largerIP (saddr r.packet) (seq r.packet))
  (tcpDeoptimize d r.thread.dedup r.packet).map fun (redDedup, m, x) =>
    let calls := r.calls ++ [.tcpDeoptimize redDedup]
    if redDedup = ERROR ∨ redDedup = HASH_NOT_FOUND then
      ⟨{ r.thread with dedup := x }, sessions, m, calls, false⟩
    else
      ⟨{ r.thread with
          dedup := x
          metrics := countDeoptimized redComp redDedup r.thread.metrics },
        sessions, unmarkSeq m, calls, r.kept⟩

/-- `tcp_cache_deoptim`. -/
def cacheDeoptim (d : Daemon) (r : Decoded) : Decoded :=
  { r with
    thread := { r.thread with dedup := (tcpCacheDeoptim d r.thread.dedup r.packet).2 }
    calls := r.calls ++ [.tcpCacheDeoptim] }

/-- The branch for a packet with a flag, at the accelerator of its destination. -/
def restore (d : Daemon) (sw : Switches) (k : Sockets) (compressPresent dedupPresent : Bool)
    (r : Decoded) : Option Decoded :=
  if sw.deduplication then
    let (redComp, r) :=
      if sw.compression && compressPresent then decompress d (!dedupPresent) r else (0, r)
    if dedupPresent then deoptimize d k redComp r else some (cacheDeoptim d r)
  else if sw.compression && compressPresent then some (decompress d true r).2
  else some r

/-- This box is the accelerator of the destination. -/
def acceleratesDestination (localID : UInt32) (k : Sockets) (saddr : UInt32) (s : Session) :
    Bool :=
  decide (saddr = k.largerIP) && decide (s.smallerIPAccelerator = localID) ||
    decide (saddr = k.smallerIP) && decide (s.largerIPAccelerator = localID)

/-- What happens to the data of a packet with the header `oh` in the session `s`. -/
def deoptimizeSegment (d : Daemon) (sw : Switches) (k : Sockets) (s : Session)
    (oh : OpennopHeader) (r : Decoded) : Option Decoded :=
  if isData r.packet && decide (oh.opennopID ≠ 0) then
    let save := saveacceleratorid k.largerIP oh.opennopID (saddr r.packet)
    let r := { r with sessions := r.sessions.update k save }
    let compressPresent := decide (oh.compression ≠ 0)
    let dedupPresent := decide (oh.deduplication ≠ 0)
    if compressPresent || dedupPresent then
      if acceleratesDestination d.localID k (saddr r.packet) (save s) then
        restore d sw k compressPresent dedupPresent r
      else some r
    else if sw.deduplication then some (cacheDeoptim d r)
    else some r
  else some r

/-! ### One packet -/

/-- Take the header off: the data moves up over it, option 32 is cleared whether or not it
can be, and the length and the checksums follow. -/
def stripHeader (m : Mem) : Option Mem :=
  let n := incomingLen m - OPENNOP_HEADER
  (setTcpOption (memmove m (tcpdata m) (tcpdata m + OPENNOP_HEADER) n)
    OPENNOP_OPTION.toNat 3 0).map fun (_, m) => checksum (addTotLen m (-OPENNOP_HEADER))

/-- What the thread has done when it is back at the top of its loop, or when it `ends`. -/
structure Deoptimized where
  thread : Deoptimizer
  sessions : SessionTable
  packet : Mem
  calls : List Call
  verdict : Verdict
  ends : Bool

/-- A packet that should not be here. -/
def refuse (t : Deoptimizer) (a : Arrival) : Deoptimized :=
  ⟨t, a.sessions, a.packet, [], .NF_DROP, true⟩

/-- The end of the branch for a known session. -/
def deliver (k : Sockets) (headersBefore : Nat) (r : Decoded) : Deoptimized :=
  let m := if r.kept then checksum r.packet else r.packet
  let c := r.thread.metrics
  { thread :=
      { r.thread with
        metrics :=
          { c with
            packets := c.packets + 1
            bytesout := c.bytesout + if r.kept then UInt64.ofNat (totLen m) else 0
            diffBytesIpTcpHeader := c.diffBytesIpTcpHeader +
              if r.kept then headerDifference headersBefore (getIPPlusTCPHeaderLength m) +
                UInt64.ofNat OPENNOP_HEADER
              else 0 } }
    sessions := endSegment r.sessions k (rst r.packet) (fin r.packet)
    packet := m
    calls := r.calls
    verdict := if r.kept then .NF_ACCEPT (some (wholePacket m)) else .NF_DROP
    ends := false }

/-- The branch without a session: the packet goes on as netfilter has it. -/
def forward (headersBefore : Nat) (t : Deoptimizer) (sessions : SessionTable) (m : Mem) :
    Deoptimized :=
  let c := t.metrics
  { thread :=
      { t with
        metrics :=
          { c with
            packets := c.packets + 1
            bytesout := c.bytesout + UInt64.ofNat (totLen m)
            diffBytesIpTcpHeader := c.diffBytesIpTcpHeader +
              headerDifference (getIPPlusTCPHeaderLength m) headersBefore -
              UInt64.ofNat OPENNOP_HEADER } }
    sessions := sessions
    packet := m
    calls := []
    verdict := .NF_ACCEPT none
    ends := false }

/-- A packet whose header `oh` has been taken off. -/
def deoptimizeStripped (d : Daemon) (t : Deoptimizer) (a : Arrival) (oh : OpennopHeader) (m : Mem) :
    Option Deoptimized :=
  let headersBefore := getIPPlusTCPHeaderLength a.packet
  let t :=
    { t with
      expectedSeqNo := oh.seqNo + 1
      metrics :=
        { t.metrics with
          sequenceGaps :=
            t.metrics.sequenceGaps + if oh.seqNo ≠ t.expectedSeqNo then 1 else 0 } }
  let k := sockets m
  match getsession a.sessions k with
  | some s =>
    (deoptimizeSegment d a.switches k s oh ⟨t, a.sessions, m, [], true⟩).map
      (deliver k headersBefore)
  | none => some (forward headersBefore t a.sessions m)

/-- One round of the loop. It does not return when a call does not. -/
def deoptimizationStep (d : Daemon) (t : Deoptimizer) (a : Arrival) : Option Deoptimized :=
  let m := a.packet
  let t :=
    { t with
      dedup := { t.dedup with shared := a.shared }
      metrics := { t.metrics with bytesin := t.metrics.bytesin + UInt64.ofNat (totLen m) } }
  match getTcpOption m OPENNOP_OPTION with
  | none => none
  | some option =>
    if announced m option then
      match stripHeader m with
      | none => none
      | some m' => deoptimizeStripped d t a (opennopHeader m) m'
    else some (refuse t a)

/-- The thread on a sequence of packets, up to the one that ends it or that it does not
return from: each step with the packet it was taken for and the variables it started from. -/
def deoptimizationThread (d : Daemon) : Deoptimizer → List Arrival →
    List ((Deoptimizer × Arrival) × Option Deoptimized)
  | _, [] => []
  | t, a :: as =>
    match deoptimizationStep d t a with
    | none => [((t, a), none)]
    | some o => ((t, a), some o) :: if o.ends then [] else deoptimizationThread d o.thread as

end Solowan.Worker
