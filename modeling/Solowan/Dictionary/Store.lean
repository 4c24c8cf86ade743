/-
The packet store and the fingerprint store (`lib/dedup_common.c`).

The packet store is a ring of `PKTSTORESIZE` slots. A packet gets the next id and
overwrites the slot `id & (PKTSTORESIZE - 1)`; only the bytes it has are written, so
that what a longer packet left behind it stays in the slot. The fingerprint store
has `PKTS_PER_FP` entries for each bucket, and an entry names a packet by its id: it
is never told when the ring overwrites that packet, `getPkt` finds out from the id.

Neither the slots nor the offsets of unused entries are initialised by
`newDeduplicator`; both come in with the memory the allocator returned.
-/

import Mathlib.Data.List.FinRange
import Solowan.Dictionary.Fingerprint

namespace Solowan.Dictionary

open Solowan.Memory

/-- A slot of the packet store. -/
structure PktEntry where
  pkt : Mem
  len : Nat
  hash : UInt32

structure PktStore where
  pkts : Nat → PktEntry
  pktId : Nat

/-- One bucket of the fingerprint store. -/
abbrev FPEntry := Fin PKTS_PER_FP → FPEntryB

abbrev FPStore := UInt32 → FPEntry

structure Statistics where
  inputBytes : UInt64
  outputBytes : UInt64
  processedPackets : UInt64
  compressedPackets : UInt64
  numOfFPEntries : UInt64
  lastPktId : UInt64
  numberOfFPHashCollisions : UInt64
  numberOfFPCollisions : UInt64
  numberOfShortPkts : UInt64
  uncompressedPackets : UInt64
  errorsMissingFP : UInt64
  errorsMissingPacket : UInt64
  errorsPacketFormat : UInt64
  errorsPacketHash : UInt64
  deriving DecidableEq, Repr

/-- `memset(st, 0, sizeof(*st))`. -/
def Statistics.zero : Statistics := ⟨0, 0, 0, 0, 0, 0, 0, 0, 0, 0, 0, 0, 0, 0⟩

/-- A dictionary with its counters: the state of a `Deduplicator` in thread mode. The
two dictionaries of shared mode (`psComp`, `fpStoreComp`, `compSt` and `psDesc`,
`fpStoreDesc`, `descSt`) have the same three parts. -/
structure Deduplicator where
  compStats : Statistics
  fps : FPStore
  ps : PktStore

/-- Apply `f` to the counters. -/
def Deduplicator.count (pd : Deduplicator) (f : Statistics → Statistics) : Deduplicator :=
  { pd with compStats := f pd.compStats }

/-- The packet hash, `MurmurHash3_x86_32` under the fixed seed. -/
abbrev PacketHash := List UInt8 → UInt32

/-! ### Looking up -/

/-- The slot of packet `pktId`, unless the id is past the next one or too old. The ids
are never negative, so the window test is written without the subtraction. -/
def getPkt (cfg : Config) (pktStore : PktStore) (pktId : Nat) : Option PktEntry :=
  if pktStore.pktId < pktId then none
  else if pktId + cfg.PKTSTORESIZE < pktStore.pktId then none
  else some (pktStore.pkts (pktId &&& (cfg.PKTSTORESIZE - 1)))

/-- The first entry of a bucket that satisfies `p`. -/
def findBkt (fpp : FPEntry) (p : FPEntryB → Bool) : Option (Fin PKTS_PER_FP) :=
  (List.finRange PKTS_PER_FP).find? fun bkt => p (fpp bkt)

/-- The test of `getFPhash` on one entry. It does not ask for `pktId > 0`. -/
def matchesHash (cfg : Config) (pktStore : PktStore) (fp : UInt64) (pktHash : UInt32)
    (e : FPEntryB) : Bool :=
  e.fp == fp && match getPkt cfg pktStore e.pktId with
    | none => false
    | some pkt => pkt.hash == pktHash

/-- The test of `getFPcontent` on one entry. -/
def matchesContent (cfg : Config) (pktStore : PktStore) (fp : UInt64) (chunk : List UInt8)
    (e : FPEntryB) : Bool :=
  decide (e.pktId > 0) && e.fp == fp && match getPkt cfg pktStore e.pktId with
    | none => false
    | some pkt => decide (chunk = slice pkt.pkt e.offset BETA)

/-- The entry for a fingerprint in a packet of the given hash. -/
def getFPhash (cfg : Config) (fpStore : FPStore) (pktStore : PktStore) (fp : UInt64)
    (pktHash : UInt32) : Option FPEntryB :=
  let fpp := fpStore (hashFPStore cfg fp)
  (findBkt fpp (matchesHash cfg pktStore fp pktHash)).map fpp

/-- The packet that entry is for. `getFPhash` has found it with `getPkt` before it returns
the entry, so that this second lookup does not fail. -/
def getPktByHash (cfg : Config) (fpStore : FPStore) (pktStore : PktStore) (fp : UInt64)
    (pktHash : UInt32) : Option PktEntry :=
  (getFPhash cfg fpStore pktStore fp pktHash).bind fun fpp => getPkt cfg pktStore fpp.pktId

/-- The entry for a fingerprint in a packet that has the string `chunk` there. -/
def getFPcontent (cfg : Config) (fpStore : FPStore) (pktStore : PktStore) (fp : UInt64)
    (chunk : List UInt8) : Option FPEntryB :=
  let fpp := fpStore (hashFPStore cfg fp)
  (findBkt fpp (matchesContent cfg pktStore fp chunk)).map fpp

/-! ### Storing -/

/-- The slot of the next id overwritten with `pkt`. -/
def overwrite (cfg : Config) (pktStore : PktStore) (pkt : List UInt8) (pktHash : UInt32) :
    PktStore :=
  let pktIdx := pktStore.pktId &&& (cfg.PKTSTORESIZE - 1)
  let slot := pktStore.pkts pktIdx
  { pktStore with
    pkts := Function.update pktStore.pkts pktIdx
      ⟨memcpy slot.pkt 0 pkt, pkt.length, pktHash⟩ }

/-- Store a packet under the next id, which is returned. -/
def putPkt (cfg : Config) (pktStore : PktStore) (pkt : List UInt8) (pktHash : UInt32) :
    PktStore × Nat :=
  ({ overwrite cfg pktStore pkt pktHash with pktId := pktStore.pktId + 1 }, pktStore.pktId)

/-- The expiry test of `putFP` on one entry, for a packet stored under `pktId`. -/
def expire (cfg : Config) (pktId : Nat) (e : FPEntryB) : FPEntryB :=
  if e.pktId + cfg.PKTSTORESIZE < pktId then { e with pktId := 0 } else e

/-- The last empty position of a bucket, as the loop of `putFP` leaves it in
`emptyPos`. -/
def lastEmpty (fpp : FPEntry) : Option (Fin PKTS_PER_FP) :=
  (List.finRange PKTS_PER_FP).reverse.find? fun fpidx => (fpp fpidx).pktId == 0

/-- Whether the string of entry `e` and the string at `offset` of packet `pktId` are
the same in the packets stored for them. -/
def sameString (cfg : Config) (pktStore : PktStore) (e : FPEntryB) (pktId offset : Nat) : Bool :=
  match getPkt cfg pktStore pktId, getPkt cfg pktStore e.pktId with
  | some pktE, some pktEbis =>
    decide (slice pktEbis.pkt e.offset BETA = slice pktE.pkt offset BETA)
  | _, _ => false

/-- What `putFP` does with the bucket `fpp` of a fingerprint, once the expired entries
are cleared and the position for a new entry is chosen. -/
def registerFP (cfg : Config) (fpStore : FPStore) (pktStore : PktStore) (fpp : FPEntry)
    (emptyPos : Option (Fin PKTS_PER_FP)) (entry : FPEntryB) (st : Statistics) :
    FPStore × Statistics :=
  let kept := Function.update fpStore (hashFPStore cfg entry.fp) fpp
  let storedAt := fun fpidx =>
    Function.update fpStore (hashFPStore cfg entry.fp) (Function.update fpp fpidx entry)
  match findBkt fpp (fun e => e.fp == entry.fp) with
  | none => -- FP value not present
    match emptyPos with
    | some emptyPos => (storedAt emptyPos, { st with numOfFPEntries := st.numOfFPEntries + 1 })
    | none =>
      (kept, { st with numberOfFPHashCollisions := st.numberOfFPHashCollisions + 1 })
  | some fpidx => -- FP value present: update it unless the strings differ
    if sameString cfg pktStore (fpp fpidx) entry.pktId entry.offset then (storedAt fpidx, st)
    else match emptyPos with
      | some emptyPos => (storedAt emptyPos, { st with numOfFPEntries := st.numOfFPEntries + 1 })
      | none => (kept, st)

/-- Register string `offset` of the stored packet `pktId` under its fingerprint. -/
def putFP (cfg : Config) (fpStore : FPStore) (pktStore : PktStore) (fp : UInt64) (pktId : Nat)
    (offset : Nat) (st : Statistics) : FPStore × Statistics :=
  let fpp : FPEntry := fun fpidx => expire cfg pktId (fpStore (hashFPStore cfg fp) fpidx)
  registerFP cfg fpStore pktStore fpp (lastEmpty fpp) ⟨fp, pktId, offset⟩ st

/-- The loop `for (i = fpNum - 1; i >= 0; i--) putFP(...)`. -/
def putFPs (cfg : Config) (pktStore : PktStore) (pktId : Nat) (fpma : List FPEntryB)
    (fpStore : FPStore) (st : Statistics) : FPStore × Statistics :=
  fpma.reverse.foldl
    (fun acc e => putFP cfg acc.1 pktStore e.fp pktId e.offset acc.2) (fpStore, st)

/-- Store a packet and register its fingerprints: `putPkt`, then the `putFP` loop. -/
def storePacket (cfg : Config) (pd : Deduplicator) (packet : List UInt8)
    (computedPacketHash : UInt32) (pktFps : List FPEntryB) : Deduplicator :=
  let stored := putPkt cfg pd.ps packet computedPacketHash
  let registered := putFPs cfg stored.1 stored.2 pktFps pd.fps pd.compStats
  { compStats := registered.2, fps := registered.1, ps := stored.1 }

/-! ### Creation -/

/-- The memory the allocator hands to a new dictionary. -/
structure RawMemory where
  slots : Nat → PktEntry
  offsets : UInt32 → Fin PKTS_PER_FP → Nat

/-- A fresh dictionary: ids start at 1, every entry is empty and carries the mark of
an unused entry. -/
def newDeduplicator (mem : RawMemory) : Deduplicator where
  compStats := .zero
  fps := fun fpHash fpidx => ⟨UINT64_MAX, 0, mem.offsets fpHash fpidx⟩
  ps := ⟨mem.slots, 1⟩

end Solowan.Dictionary
