/-
`qlz_decompress` (`lib/quicklz.c`).

Nothing is checked but the size: what the source says is copied, from wherever the table points.
A pointer in the table is an index into the destination. `last_hashed` begins a byte before the
destination; `next` is the place behind it. The loop of `qlz_decompress_core` need not end for a
source that no compressor made, and runs here for at most `fuel` rounds.

* `memcpyUp`: words are copied three bytes apart, so that a copy may overlap its source.
* `Decompressor.round`: a copy, up to four literals, or the rest of the destination.
-/

import Solowan.QuickLz.Compressor

namespace Solowan.QuickLz

open Solowan.Memory

/-- `memcpy_up` from `f` on. -/
def memcpyUp (m : Mem) (dst src n f : Nat) : Mem :=
  let m := memmove m (dst + f) (src + f) 4
  if f + (MINOFFSET + 1) < n then memcpyUp m dst src n (f + (MINOFFSET + 1)) else m
termination_by n - f
decreasing_by
  rw [MINOFFSET] at *
  omega

/-- `update_hash_upto`: the places from `next` to just before `stop` are entered in the table. -/
def updateHashUpto (m : Mem) (offset : Nat → Nat) (next stop : Nat) : Nat → Nat :=
  if next < stop then
    updateHashUpto m (Function.update offset (hashat m next) next) (next + 1) stop
  else offset
termination_by stop - next

/-- How many literals come next, at most four: the zeros below the lowest bit that is set. -/
def bitlut : List Nat := [4, 0, 1, 0, 2, 0, 1, 0, 3, 0, 1, 0, 2, 0, 1, 0]

/-- What the loop of `qlz_decompress_core` works on. -/
structure Decompressor where
  mem : Mem
  src : Nat
  dst : Nat
  cword : Nat
  offset : Nat → Nat
  next : Nat

section Round

variable (source : Mem) (size : Nat)

/-- A control word without flags makes place for the next one. -/
def Decompressor.refill (d : Decompressor) : Decompressor :=
  if d.cword = 1 then
    { d with cword := fastRead source d.src CWORD_LEN, src := d.src + CWORD_LEN }
  else d

/-- A copy: the hash in the upper twelve bits, the length in the lower four or in a third byte. -/
def Decompressor.copy (d : Decompressor) : Decompressor :=
  let fetch := fastRead source d.src 4
  let hash := (fetch >>> 4) &&& 0xfff
  let offset2 := d.offset hash
  let matchlen := if fetch &&& 0xf ≠ 0 then (fetch &&& 0xf) + 2 else (source (d.src + 2)).toNat
  let mem := memcpyUp d.mem d.dst offset2 matchlen 0
  { mem := mem
    src := d.src + if fetch &&& 0xf ≠ 0 then 2 else 3
    dst := d.dst + matchlen
    cword := d.cword >>> 1
    offset := updateHashUpto mem d.offset d.next (d.dst + 1)
    next := d.dst + matchlen }

/-- Up to four literals: four bytes are copied, as many as there are literals count. -/
def Decompressor.literals (d : Decompressor) : Decompressor :=
  let n := bitlut.getD (d.cword &&& 0xf) 0
  let mem := memcpy d.mem d.dst (slice source d.src 4)
  { mem := mem
    src := d.src + n
    dst := d.dst + n
    cword := d.cword >>> n
    offset := updateHashUpto mem d.offset d.next (d.dst + n - 2)
    next := max d.next (d.dst + n - 2) }

/-- Among the last literals a control word needs no look. -/
def Decompressor.skip (d : Decompressor) : Decompressor :=
  if d.cword = 1 then { d with src := d.src + CWORD_LEN, cword := 1 <<< 31 } else d

/-- `*dst = *src`. -/
def Decompressor.byte (d : Decompressor) : Decompressor :=
  { d with
    mem := memcpy d.mem d.dst [source d.src]
    dst := d.dst + 1
    src := d.src + 1
    cword := d.cword >>> 1 }

@[simp] theorem Decompressor.dst_skip (d : Decompressor) : d.skip.dst = d.dst := by
  unfold Decompressor.skip
  split <;> rfl

@[simp] theorem Decompressor.mem_skip (d : Decompressor) : d.skip.mem = d.mem := by
  unfold Decompressor.skip
  split <;> rfl

/-- `while (dst <= last_destination_byte)`: the rest is literals. -/
def Decompressor.rest (d : Decompressor) : Decompressor :=
  if d.dst < size then Decompressor.rest (d.skip.byte source) else d
termination_by size - d.dst
decreasing_by
  simp only [Decompressor.byte, Decompressor.dst_skip]
  omega

/-- The table after the last byte. -/
def Decompressor.finish (d : Decompressor) : Decompressor :=
  { d with offset := updateHashUpto d.mem d.offset d.next (size - 3), next := max d.next (size - 3) }

/-- A round: it goes on, or it fills the rest of the destination. -/
def Decompressor.round (d : Decompressor) : Decompressor ⊕ Decompressor :=
  let d := d.refill source
  if d.cword &&& 1 = 1 then .inl (d.copy source)
  else if d.dst + UNCONDITIONAL_MATCHLEN + UNCOMPRESSED_END + 1 < size then .inl (d.literals source)
  else .inr ((d.rest source size).finish size)

/-- The loop of `qlz_decompress_core`. -/
def decompressLoop : Nat → Decompressor → Option Decompressor
  | 0, _ => none
  | fuel + 1, d =>
    match d.round source size with
    | .inl d => decompressLoop fuel d
    | .inr d => some d

end Round

/-- `qlz_decompress_core`: it returns the size it was given. -/
def qlzDecompressCore (fuel : Nat) (source m : Mem) (size : Nat) (offset : Nat → Nat) :
    Option (Mem × (Nat → Nat)) :=
  let d : Decompressor := ⟨m, qlzSizeHeader source, 0, 1, offset, 0⟩
  (decompressLoop source size fuel d).map fun d => (d.mem, d.offset)

/-- `qlz_decompress`: the size or -1, the destination and the table. It does not return in
`fuel` rounds where it is `none`. -/
def qlzDecompress (fuel maxPktSize : Nat) (source m : Mem) (offset : Nat → Nat) :
    Option (Int × Mem × (Nat → Nat)) :=
  let dsiz := qlzSizeDecompressed source
  if dsiz > maxPktSize then some (-1, m, offset)
  else if source 0 &&& 1 = 1 then
    (qlzDecompressCore fuel source m dsiz offset).map fun out => (dsiz, out)
  else some (dsiz, memcpy m 0 (slice source (qlzSizeHeader source) dsiz), offset)

end Solowan.QuickLz
