/-
Decompression (`lib/uncomp.c`).

`uncomp` walks over the compressed packet with a pointer and a 16-bit count of the bytes
left, which are a `Cursor` here, and copies chunks and referenced strings to the output.
With the thread dictionary each reference is looked up and copied as soon as it is read;
with the shared dictionary the descriptors are collected first, looked up together, and
the strings are pasted into the gaps afterwards. The checks inside the loop compare
lengths with `MAX_PKT_SIZE()`, never with the bytes left.

A call may also not return: when one of the two assertions behind the thread-mode loop
fails, when the shared mode writes outside its tables, or when the loop does not end
(`UncompExit`).
-/

import Solowan.Memory.Cursor
import Solowan.Codec.Format

namespace Solowan.Codec

open Solowan.Memory Solowan.Dictionary

/-- How a call of `uncomp` ends: the four codes of `status`, with the two values stored
beside `UNCOMP_FP_NOT_FOUND`, and the ways in which it does not return. -/
inductive UncompExit where
  | ok
  | fpNotFound (fp : UInt64) (hash : UInt32)
  | badPacketFormat
  | badPacketHash
  | aborted
  | overrun
  | looping
  deriving DecidableEq, Repr

/-- What a call leaves behind. `cur` is the state of the input pointer, with the record of
what was read through it. -/
structure Uncompressed where
  exit : UncompExit
  pd : Deduplicator
  g : SharedDictionaries
  packet : Mem
  pktlen : Nat
  cur : Cursor

/-! ### Updating the dictionary -/

def localUpdateCaches (cfg : Config) (pd : Deduplicator) (g : SharedDictionaries)
    (packet : List UInt8) (computedPacketHash : UInt32) : Deduplicator × SharedDictionaries :=
  if packet.length < BETA then (pd, g)
  else
    let pktFps := calculateRelevantFPs cfg packet
    if cfg.shared_dictionary_mode then
      (pd, putPktAndFPsDesc cfg g packet computedPacketHash pktFps)
    else (storePacket cfg pd packet computedPacketHash pktFps, g)

def updateCaches (cfg : Config) (H : PacketHash) (pd : Deduplicator) (g : SharedDictionaries)
    (packet : List UInt8) : Deduplicator × SharedDictionaries :=
  if packet.length < BETA then (pd, g)
  else
    let updated := localUpdateCaches cfg pd g packet (H packet)
    (updated.1.count fun st =>
      { st with
        inputBytes := st.inputBytes + UInt64.ofNat packet.length
        outputBytes := st.outputBytes + UInt64.ofNat packet.length
        processedPackets := st.processedPackets + 1 },
      updated.2)

/-! ### The decoding loop -/

/-- The local variables of the loop; `orig` and `*pktlen` are 16 bits wide. -/
structure Decoder where
  cur : Cursor
  orig : Nat
  pktlen : Nat
  packet : Mem

/-- The bytes left of the input, `optlen`. -/
abbrev Decoder.left (d : Decoder) : Nat := d.cur.left

/-- The outcome of one iteration. -/
inductive Step (σ : Type) where
  | next (s : σ)
  | stop (exit : UncompExit) (s : σ)

def Step.map {σ τ : Type} (f : σ → τ) : Step σ → Step τ
  | .next s => .next (f s)
  | .stop exit s => .stop exit (f s)

/-- Bytes of a descriptor, the offset behind it included. -/
def DESCRIPTOR : Nat := 8 + 4 + 3 * 2

/-- `while (optlen >= 18) ...`, with the reason why it was left when it was left by a
`return` or a `break`. -/
def decodeLoop {σ : Type} (left : σ → Nat) (step : σ → Step σ) :
    Nat → σ → Option UncompExit × σ
  | 0, s => (if left s ≥ DESCRIPTOR then some .looping else none, s)
  | fuel + 1, s =>
    if left s ≥ DESCRIPTOR then
      match step s with
      | .next s => decodeLoop left step fuel s
      | .stop exit s => (some exit, s)
    else (none, s)

/-- Enough iterations for every loop that ends. -/
def FUEL : Nat := 65536

/-- Output `bs` at `packet + orig`. -/
def Decoder.put (d : Decoder) (bs : List UInt8) : Decoder :=
  { d with
    packet := memcpy d.packet d.orig bs
    orig := (d.orig + bs.length) % 65536
    pktlen := (d.pktlen + bs.length) % 65536 }

/-- Leave a gap of `n` bytes at `packet + orig`. -/
def Decoder.skip (d : Decoder) (n : Nat) : Decoder :=
  { d with
    orig := (d.orig + n) % 65536
    pktlen := (d.pktlen + n) % 65536 }

/-- Copy the next `n` bytes of the input to the output. -/
def Decoder.copyChunk (optpkt : Mem) (n : Nat) (d : Decoder) : Decoder :=
  { d.put (slice optpkt d.cur.pos n) with cur := d.cur.advance n }

/-- Copy all that is left of the input to the output. -/
def Decoder.copyRest (optpkt : Mem) (d : Decoder) : Decoder :=
  { d.put (slice optpkt d.cur.pos d.cur.left) with cur := d.cur.drain }

/-- The end of an iteration: the offset of the next descriptor, and the bytes in front of
it or, behind the last descriptor, all that is left. -/
def decodeOffset (cfg : Config) (optpkt : Mem) (d : Decoder) : Step Decoder :=
  let offset := ntoh16 optpkt d.cur.pos
  let d := { d with cur := d.cur.advance 2 }
  if offset = NO_MORE then
    if d.orig + d.cur.left > cfg.MAXPKTSIZE then .stop .badPacketFormat d
    else .next (d.copyRest optpkt)
  else
    if d.orig + offset > cfg.MAXPKTSIZE then .stop .badPacketFormat d
    else .next (d.copyChunk optpkt offset)

/-- One iteration with the thread dictionary. -/
def decodeStep (cfg : Config) (pd : Deduplicator) (optpkt : Mem) (d : Decoder) : Step Decoder :=
  let tentativeFP := ntoh64 optpkt d.cur.pos
  let d := { d with cur := d.cur.advance 8 }
  let tentativePktHash := ntoh32 optpkt d.cur.pos
  let d := { d with cur := d.cur.advance 4 }
  match getPktByHash cfg pd.fps pd.ps tentativeFP tentativePktHash with
  | none => .stop (.fpNotFound tentativeFP tentativePktHash) d
  | some storedPkt =>
    let left := ntoh16 optpkt d.cur.pos
    let d := { d with cur := d.cur.advance 2 }
    let right := ntoh16 optpkt d.cur.pos
    let d := { d with cur := d.cur.advance 2 }
    if left > right ∨ right ≥ storedPkt.len ∨ d.orig + right - left > cfg.MAXPKTSIZE then
      .stop .badPacketFormat d
    else decodeOffset cfg optpkt (d.put (slice storedPkt.pkt left (right - left + 1)))

/-- The local variables of the loop with the shared dictionary: also the descriptors read
so far, each with the place its string goes to (`fptopkt`, `tablePtrFrag`). -/
structure SharedDecoder extends Decoder where
  fptopkt : List (PktChunk × Nat)

abbrev SharedDecoder.left (s : SharedDecoder) : Nat := s.cur.left

/-- One iteration with the shared dictionary. A descriptor is stored before it is looked at,
and nothing compares the number of descriptors with the places of the tables. -/
def decodeSharedStep (cfg : Config) (optpkt : Mem) (d : SharedDecoder) : Step SharedDecoder :=
  let fp := ntoh64 optpkt d.cur.pos
  let d := { d with cur := d.cur.advance 8 }
  let hash := ntoh32 optpkt d.cur.pos
  let d := { d with cur := d.cur.advance 4 }
  let left := ntoh16 optpkt d.cur.pos
  let d := { d with cur := d.cur.advance 2 }
  let right := ntoh16 optpkt d.cur.pos
  let d := { d with cur := d.cur.advance 2 }
  let d := { d with fptopkt := d.fptopkt ++ [(⟨fp, hash, left, right⟩, d.orig)] }
  if left > right ∨ d.orig + right - left > cfg.MAXPKTSIZE then .stop .badPacketFormat d
  else
    (decodeOffset cfg optpkt (d.toDecoder.skip (right - left + 1))).map fun d' => ⟨d', d.fptopkt⟩

/-! ### The whole call -/

/-- What stands in front of the loop: the packet hash, the first offset and the chunk it
announces. -/
def decodeHeader (cfg : Config) (optpkt : Mem) (optlen : Nat) (packet : Mem) :
    UInt32 × Step Decoder :=
  let d : Decoder := ⟨Cursor.start optlen, 0, 0, packet⟩
  let sentPktHash := ntoh32 optpkt d.cur.pos
  let d := { d with cur := d.cur.advance 4 }
  let offset := ntoh16 optpkt d.cur.pos
  let d := { d with cur := d.cur.advance 2 }
  if offset > 0 then
    if offset > cfg.MAXPKTSIZE then (sentPktHash, .stop .badPacketFormat d)
    else (sentPktHash, .next (d.copyChunk optpkt offset))
  else (sentPktHash, .next d)

/-- The counter that goes with an exit. -/
def countExit (exit : UncompExit) (st : Statistics) : Statistics :=
  match exit with
  | .fpNotFound _ _ => { st with errorsMissingFP := st.errorsMissingFP + 1 }
  | .badPacketFormat => { st with errorsPacketFormat := st.errorsPacketFormat + 1 }
  | .badPacketHash => { st with errorsPacketHash := st.errorsPacketHash + 1 }
  | _ => st

/-- Return another code than `UNCOMP_OK`: `*pktlen = 0`, and nothing but a counter
changes. -/
def failUncomp (pd : Deduplicator) (g : SharedDictionaries) (exit : UncompExit) (d : Decoder) :
    Uncompressed :=
  ⟨exit, pd.count (countExit exit), g, d.packet, 0, d.cur⟩

/-- The end of a call that has decoded a packet: its hash is compared with the one sent,
and the packet is stored. -/
def finishUncomp (cfg : Config) (H : PacketHash) (pd : Deduplicator) (g : SharedDictionaries)
    (sentPktHash : UInt32) (orig_optlen : Nat) (d : Decoder) : Uncompressed :=
  let pd := pd.count fun st =>
    { st with
      uncompressedPackets :=
        if d.pktlen > orig_optlen then st.uncompressedPackets + 1 else st.uncompressedPackets }
  let packet := slice d.packet 0 d.pktlen
  let computedPacketHash := H packet
  if computedPacketHash = sentPktHash then
    let pd := pd.count fun st =>
      { st with outputBytes := st.outputBytes + UInt64.ofNat d.pktlen }
    let updated := localUpdateCaches cfg pd g packet computedPacketHash
    ⟨.ok, updated.1, updated.2, d.packet, d.pktlen, d.cur⟩
  else failUncomp pd g .badPacketHash d

/-- Paste the strings found for the descriptors; the first one of length zero is a
failure. -/
def pasteFrags : List ((PktChunk × Nat) × PktFrag) → Mem → Option PktChunk × Mem
  | [], m => (none, m)
  | ((fpt, dst), pktfr) :: todo, m =>
    if pktfr.pktFragLen = 0 then (some fpt, m)
    else pasteFrags todo (memcpy m dst pktfr.pktFrag)

/-- What follows the loop with the shared dictionary. -/
def resolveFrags (cfg : Config) (H : PacketHash) (pd : Deduplicator) (g : SharedDictionaries)
    (sentPktHash : UInt32) (optlen : Nat) (s : SharedDecoder) : Uncompressed :=
  if s.pktlen > cfg.MAXPKTSIZE ∨ s.orig > cfg.MAXPKTSIZE then
    failUncomp pd g .badPacketFormat s.toDecoder
  else
    match getPktsByFPsAndHash cfg g (s.fptopkt.map Prod.fst) with
    | none => failUncomp pd g .overrun s.toDecoder
    | some (curr, pktfr) =>
      match s.fptopkt[curr]? with
      | some (fpt, _) => failUncomp pd g (.fpNotFound fpt.fp fpt.hash) s.toDecoder
      | none => -- all of them were found
        match pasteFrags (s.fptopkt.zip pktfr) s.packet with
        | (some fpt, packet) =>
          failUncomp pd g (.fpNotFound fpt.fp fpt.hash) { s.toDecoder with packet := packet }
        | (none, packet) =>
          finishUncomp cfg H pd g sentPktHash optlen { s.toDecoder with packet := packet }

/-- The call with the thread dictionary. -/
def uncompThread (cfg : Config) (H : PacketHash) (pd : Deduplicator) (g : SharedDictionaries)
    (packet : Mem) (optpkt : Mem) (optlen : Nat) : Uncompressed :=
  match decodeHeader cfg optpkt optlen packet with
  | (_, .stop exit d) => failUncomp pd g exit d
  | (sentPktHash, .next d) =>
    match decodeLoop Decoder.left (decodeStep cfg pd optpkt) FUEL d with
    | (some exit, d) => failUncomp pd g exit d
    | (none, d) =>
      if d.pktlen ≤ cfg.MAXPKTSIZE ∧ d.orig ≤ cfg.MAXPKTSIZE then
        finishUncomp cfg H pd g sentPktHash optlen d
      else failUncomp pd g .aborted d

/-- The call with the shared dictionary. What it returns after it has written outside
`fptopkt`, whose places are followed by other variables, is not defined. -/
def uncompShared (cfg : Config) (H : PacketHash) (pd : Deduplicator) (g : SharedDictionaries)
    (packet : Mem) (optpkt : Mem) (optlen : Nat) : Uncompressed :=
  match decodeHeader cfg optpkt optlen packet with
  | (_, .stop exit d) => failUncomp pd g exit d
  | (sentPktHash, .next d) =>
    let (exit, s) := decodeLoop SharedDecoder.left (decodeSharedStep cfg optpkt) FUEL ⟨d, []⟩
    if s.fptopkt.length > MAX_FP_PER_PKT then failUncomp pd g .overrun s.toDecoder
    else
      match exit with
      | some exit => failUncomp pd g exit s.toDecoder
      | none => resolveFrags cfg H pd g sentPktHash optlen s

def uncomp (cfg : Config) (H : PacketHash) (pd : Deduplicator) (g : SharedDictionaries)
    (packet : Mem) (optpkt : Mem) (optlen : Nat) : Uncompressed :=
  let pd := pd.count fun st =>
    { st with
      inputBytes := st.inputBytes + UInt64.ofNat optlen
      processedPackets := st.processedPackets + 1 }
  if cfg.shared_dictionary_mode then uncompShared cfg H pd g packet optpkt optlen
  else uncompThread cfg H pd g packet optpkt optlen

end Solowan.Codec
