/-
Compression (`lib/solowan_rolling.c`).

`cacheAndCompressIfNeeded` looks every selected fingerprint of a packet up in the
dictionary. Where the string is found, the match is extended to both sides, the bytes
since the last match are copied to the output, and a reference to the matched interval
is written behind them; the offset in front of the copied bytes is known only then and
is patched in. The shared and the thread dictionary differ in how the fingerprints are
looked up and in how the packet is stored, and the loop in between is the same text
twice; here it is one definition, `encodeLoop`, over the result of the lookups.
-/

import Solowan.Codec.Format

namespace Solowan.Codec

open Solowan.Memory Solowan.Dictionary

/-- The packet a fingerprint was found in, with the fingerprint as it is transmitted. -/
structure Reference extends DictElement where
  fp : UInt64

/-! ### Extending a match -/

/-- The bytes to the left of the two strings that are the same, `deltal`. -/
def matchLeft (packet : List UInt8) (ofs1 orig : Nat) (fpt : Reference) : Nat :=
  let liml := if ofs1 - orig < fpt.offset then ofs1 - orig else fpt.offset
  scanWhile (fun i => packet.getD (ofs1 - (i + 1)) 0 == fpt.pkt (fpt.offset - (i + 1))) liml

/-- The bytes to the right of the two strings that are the same, `deltar`. -/
def matchRight (packet : List UInt8) (ofs1 : Nat) (fpt : Reference) : Nat :=
  let limr :=
    if packet.length - ofs1 < fpt.pktLen - fpt.offset then packet.length - ofs1 - BETA
    else fpt.pktLen - fpt.offset - BETA
  scanWhile (fun i => packet.getD (ofs1 + i + BETA) 0 == fpt.pkt (fpt.offset + i + BETA)) limr

/-! ### The loop over the fingerprints -/

/-- The local variables of the loop. `asserts` is cleared by a failed assertion. -/
structure Encoder where
  optpkt : Mem
  poffsetFPD : Nat
  orig : Nat
  dest : Nat
  optlen : Nat
  firstoffs : Nat
  asserts : Bool

/-- The first match also writes the packet hash and leaves room for the offset. -/
def writeHeader (computedPacketHash : UInt32) (chunkLen : Nat) (s : Encoder) : Encoder :=
  if s.dest = 0 then
    { s with
      optpkt := memcpy s.optpkt 0 (hton32 computedPacketHash)
      dest := 4 + 2
      firstoffs := chunkLen % 65536 }
  else s

/-- The writes for one match: the chunk, its length at the place kept for it, the
descriptor, and the mark that no other follows. -/
def writeMatch (m : Mem) (poffsetFPD dest : Nat) (chunk : List UInt8) (c : PktChunk) : Mem :=
  let m := memcpy m dest chunk
  let m := memcpy m poffsetFPD (hton16 chunk.length)
  let dest := dest + chunk.length
  let m := memcpy m dest (hton64 c.fp)
  let dest := dest + 8
  let m := memcpy m dest (hton32 c.hash)
  let dest := dest + 4
  let m := memcpy m dest (hton16 c.left)
  let dest := dest + 2
  let m := memcpy m dest (hton16 c.right)
  let dest := dest + 2
  memcpy m dest (hton16 NO_MORE)

/-- The body of the loop for a fingerprint at `ofs1` that is not covered yet. -/
def encodeMatch (cfg : Config) (packet : List UInt8) (computedPacketHash : UInt32) (ofs1 : Nat)
    (fpt : Reference) (s : Encoder) : Encoder :=
  let ofs2 := fpt.offset
  let deltal := matchLeft packet ofs1 s.orig fpt
  let deltar := matchRight packet ofs1 fpt
  let chunk := (packet.drop s.orig).take (ofs1 - deltal - s.orig)
  let s := writeHeader computedPacketHash (ofs1 - deltal - s.orig) s
  let dest := s.dest + (ofs1 - deltal - s.orig) + 18
  { optpkt := writeMatch s.optpkt s.poffsetFPD s.dest chunk
      ⟨fpt.fp, fpt.pktHash, ofs2 - deltal, ofs2 + deltar + BETA - 1⟩
    poffsetFPD := dest - 2
    orig := ofs1 + deltar + BETA
    dest := dest
    optlen := dest % 65536
    firstoffs := s.firstoffs
    asserts := s.asserts && decide (ofs1 ≥ deltal + s.orig) &&
      decide (ofs2 + deltar + BETA - 1 < cfg.MAXPKTSIZE) }

/-- `memcpy(optpkt+dest, packet+orig, pktlen-orig)`. -/
def copyTail (packet : List UInt8) (s : Encoder) : Mem :=
  memcpy s.optpkt s.dest (packet.drop s.orig)

/-- The loop, over the fingerprints and what was found for them. It ends early when less
than a fingerprinted string is left. -/
def encodeLoop (cfg : Config) (packet : List UInt8) (computedPacketHash : UInt32) :
    List (FPEntryB × Option Reference) → Encoder → Encoder
  | [], s => s
  | (_, none) :: todo, s => encodeLoop cfg packet computedPacketHash todo s
  | (f, some fpt) :: todo, s =>
    if s.orig > f.offset then encodeLoop cfg packet computedPacketHash todo s
    else
      let s := encodeMatch cfg packet computedPacketHash f.offset fpt s
      if packet.length = s.orig then s
      else if s.orig + BETA > packet.length then
        { s with
          optpkt := copyTail packet s
          optlen := (s.optlen + (packet.length - s.orig)) % 65536
          orig := packet.length }
      else encodeLoop cfg packet computedPacketHash todo s

/-- What follows the loop: the rest of the packet, and two assertions on the first
offset. -/
def encodeEnd (cfg : Config) (packet : List UInt8) (s : Encoder) : Encoder :=
  let s :=
    if s.orig < packet.length then
      { s with
        optpkt := copyTail packet s
        optlen := (s.dest + packet.length - s.orig) % 65536 }
    else s
  if s.optlen < packet.length then
    { s with
      asserts := s.asserts && decide (ntoh16 s.optpkt 4 = s.firstoffs) &&
        decide (ntoh16 s.optpkt 4 < cfg.MAXPKTSIZE) }
  else s

/-- The compression of one packet into the buffer `optpkt`. -/
def encodePacket (cfg : Config) (packet : List UInt8) (computedPacketHash : UInt32)
    (candidates : List (FPEntryB × Option Reference)) (optpkt : Mem) : Encoder :=
  encodeEnd cfg packet (encodeLoop cfg packet computedPacketHash candidates
    ⟨optpkt, 4, 0, 0, packet.length, 0, true⟩)

/-! ### The two modes -/

/-- Thread dictionary: one `getFPcontent` for each fingerprint. -/
def threadCandidate (cfg : Config) (fps : FPStore) (ps : PktStore) (packet : List UInt8)
    (f : FPEntryB) : FPEntryB × Option Reference :=
  (f, (getFPcontent cfg fps ps f.fp ((packet.drop f.offset).take BETA)).bind fun fpp =>
    (getPkt cfg ps fpp.pktId).map fun storedPacket =>
      { pktLen := storedPacket.len, pkt := storedPacket.pkt, pktHash := storedPacket.hash,
        offset := fpp.offset, fp := fpp.fp })

def threadCandidates (cfg : Config) (fps : FPStore) (ps : PktStore) (packet : List UInt8)
    (pktFps : List FPEntryB) : List (FPEntryB × Option Reference) :=
  pktFps.map (threadCandidate cfg fps ps packet)

/-- Shared dictionary: the batch lookup, paired up again with the fingerprints. -/
def sharedCandidates (cfg : Config) (g : SharedDictionaries) (packet : List UInt8)
    (fptopkt : List FPEntryB) : Option (List (FPEntryB × Option Reference)) :=
  (getPktsByFPsAndContent cfg g packet fptopkt).map fun detectedRedundancy =>
    (fptopkt.zip detectedRedundancy).map fun (f, fpt) =>
      (f, if fpt.pktLen ≠ 0 then some { fpt with fp := f.fp } else none)

/-- What a call leaves behind. -/
structure Optimized where
  pd : Deduplicator
  g : SharedDictionaries
  optpkt : Mem
  optlen : Nat

/-- The end of a call: the counters and the last two assertions. A call that fails an
assertion does not return. -/
def finishPacket (cfg : Config) (pd : Deduplicator) (g : SharedDictionaries)
    (packet : List UInt8) (optpkt : Mem) (s : Encoder) (compress : Bool) : Option Optimized :=
  if compress then
    if s.asserts && decide (s.optlen ≤ cfg.MAXPKTSIZE) && decide (s.orig ≤ cfg.MAXPKTSIZE) then
      some
        { pd := pd.count fun st =>
            { st with
              outputBytes := st.outputBytes + UInt64.ofNat s.optlen
              compressedPackets :=
                if s.optlen < packet.length then st.compressedPackets + 1
                else st.compressedPackets }
          g := g
          optpkt := s.optpkt
          optlen := s.optlen }
    else none
  else
    some
      { pd := pd.count fun st =>
          { st with outputBytes := st.outputBytes + UInt64.ofNat packet.length }
        g := g
        optpkt := optpkt
        optlen := packet.length }

def cacheAndCompressIfNeeded (cfg : Config) (H : PacketHash) (pd : Deduplicator)
    (g : SharedDictionaries) (packet : List UInt8) (optpkt : Mem) (compress : Bool) :
    Option Optimized :=
  let pd := pd.count fun st =>
    { st with
      processedPackets := st.processedPackets + 1
      inputBytes := st.inputBytes + UInt64.ofNat packet.length }
  if packet.length < BETA then
    some
      { pd := pd.count fun st =>
          { st with
            numberOfShortPkts := st.numberOfShortPkts + 1
            outputBytes := st.outputBytes + UInt64.ofNat packet.length }
        g := g
        optpkt := optpkt
        optlen := packet.length }
  else
    let fps := calculateRelevantFPs cfg packet
    let computedPacketHash := H packet
    if cfg.shared_dictionary_mode then
      -- Nothing is looked up for a packet that is only cached.
      (if compress then sharedCandidates cfg g packet fps else some []).bind fun candidates =>
        let s := encodePacket cfg packet computedPacketHash candidates optpkt
        finishPacket cfg pd (putPktAndFPsComp cfg g packet computedPacketHash fps) packet optpkt s
          compress
    else
      -- The packet is stored before the lookups and its fingerprints after them.
      let stored := putPkt cfg pd.ps packet computedPacketHash
      let s := encodePacket cfg packet computedPacketHash
        (threadCandidates cfg pd.fps stored.1 packet fps) optpkt
      let pd := (storePacket cfg pd packet computedPacketHash fps).count fun st =>
        { st with lastPktId := UInt64.ofNat stored.2 }
      finishPacket cfg pd g packet optpkt s compress

def dedup (cfg : Config) (H : PacketHash) (pd : Deduplicator) (g : SharedDictionaries)
    (packet : List UInt8) (optpkt : Mem) : Option Optimized :=
  cacheAndCompressIfNeeded cfg H pd g packet optpkt true

def putInCache (cfg : Config) (H : PacketHash) (pd : Deduplicator) (g : SharedDictionaries)
    (packet : List UInt8) : Option Optimized :=
  cacheAndCompressIfNeeded cfg H pd g packet (ofList []) false

end Solowan.Codec
