/-
What the two threads of a worker have in common (`opennopd/subsystems/worker.c`).

A thread takes a packet from its queue, works on it, and hands it back to netfilter with a
verdict. Between two packets the other threads go on: the sessions, the dictionaries all
workers share and the switches of the CLI are whatever they have become when the next
packet is taken (`Arrival`), and only the variables of the thread itself are kept.
-/

import Solowan.Net.TcpOptions
import Solowan.Sessions.Table
import Solowan.Worker.Payload

namespace Solowan.Worker

open Solowan.Memory Solowan.Dictionary Solowan.Net Solowan.Sessions

/-- `struct workercounters`, without the fields the CLI keeps for its rates. -/
structure WorkerCounters where
  packets : UInt64
  bytesin : UInt64
  bytesout : UInt64
  diffBytesCompression : UInt64
  diffBytesDeduplication : UInt64
  diffBytesIpTcpHeader : UInt64
  packetsWithOnlyCompression : UInt64
  packetsWithOnlyDeduplication : UInt64
  packetsWithBothCompressionAndDeduplication : UInt64
  sequenceGaps : UInt64
  deriving DecidableEq, Repr

/-- `nfq_set_verdict`. A packet that is accepted without data is forwarded as netfilter has
it, with the bytes that were received. -/
inductive Verdict where
  | NF_DROP
  | NF_ACCEPT (data : Option (List UInt8))
  deriving DecidableEq, Repr

/-- The calls a thread makes on the TCP data of a packet, with the length of the data
before and after, or with the result. -/
inductive Call where
  | tcpCompress (before after : Nat)
  | tcpOptimize (before after : Nat)
  | tcpCacheOptim
  | tcpDecompress (result : Int)
  | tcpDeoptimize (result : Int)
  | tcpCacheDeoptim
  deriving DecidableEq, Repr

/-- A packet that a thread takes from its queue, and what it finds then. -/
structure Arrival where
  packet : Mem
  sessions : SessionTable
  shared : SharedDictionaries
  switches : Switches

/-- The number of an option that marks the packets of an accelerator. -/
def OPENNOP_OPTION : UInt8 := 32

/-- The guards for a packet whose option 32 has the value `option`: it is there, and behind it
a header with the pattern. -/
def announced (m : Mem) (option : UInt64) : Bool :=
  decide (option ≠ 0) && !decide (incomingLen m < OPENNOP_HEADER) &&
    decide ((opennopHeader m).pattern = OPENNOP_PATTERN)

/-- A segment that both threads work on: `syn == 0`, `ack == 1`, `fin == 0`. -/
def isData (m : Mem) : Bool := !syn m && ack m && !fin m

theorem isData_of_flow {m m' : Mem} (h : flow m' = flow m) : isData m' = isData m := by
  have hflags : flags m' = flags m := congrArg Flow.flags h
  rw [isData, syn, Net.ack, fin, hflags, ← fin, ← Net.ack, ← syn, ← isData]

/-- The whole packet, as it is passed to `nfq_set_verdict`. -/
def wholePacket (m : Mem) : List UInt8 := slice m 0 (totLen m)

/-- The difference of two header lengths, an `unsigned int` that is added to a counter. -/
def headerDifference (a b : Nat) : UInt64 := (UInt32.ofNat a - UInt32.ofNat b).toUInt64

end Solowan.Worker
