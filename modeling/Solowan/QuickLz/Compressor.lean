/-
`qlz_compress` (`lib/quicklz.c`).

Source and destination are two memories, each addressed from the pointer the function is given;
the offsets in the hash table are relative to the source, as they are on a machine with 64-bit
pointers. `state->hash_counter` and `state->stream_counter` are not read at level 1.

* `compressLoop`, `literalLoop`: the two loops of `qlz_compress_core`; the first gives up when
  the output has grown too long.
* `qlzCompressCore`: 0 stands for giving up, what was written and the table stay as they are.
* `Compressor.lt_src_item`: every round of the first loop goes over at least a byte.
-/

import Mathlib.Logic.Function.Basic
import Solowan.QuickLz.Format

namespace Solowan.QuickLz

open Solowan.Memory

/-- `qlz_state_compress`: what was read at the place a hash was last seen, and the place. -/
structure StateCompress where
  cache : Nat → Nat
  offset : Nat → Nat

/-- `reset_table_compress`: the words stay. -/
def StateCompress.reset (state : StateCompress) : StateCompress :=
  { state with offset := fun _ => 0 }

/-- `fetch`, read at `src`, is entered in the table. -/
def StateCompress.enter (state : StateCompress) (fetch src : Nat) : StateCompress where
  cache := Function.update state.cache (hashFunc fetch) fetch
  offset := Function.update state.offset (hashFunc fetch) src

/-- `same`: the byte at `p` is repeated `n` times. -/
def same (m : Mem) (p : Nat) : Nat → Bool
  | 0 => true
  | n + 1 => if m (p + (n + 1)) = m p then same m p n else false

/-- What the loops of `qlz_compress_core` work on, beside the writer. -/
structure Compressor extends Writer where
  src : Nat
  fetch : Nat
  lits : Nat
  state : StateCompress

section Round

variable (source : Mem) (size destination : Nat)

/-- The output is too long for what it stands for: past the middle of the source it saves less
than one byte in 32. -/
def Compressor.tooLong (c : Compressor) : Prop :=
  c.src > size >>> 1 ∧ c.dst - destination > c.src - (c.src >>> 5)

instance (c : Compressor) : Decidable (c.tooLong size destination) :=
  inferInstanceAs (Decidable (_ ∧ _))

/-- The beginning of a round: where a group is complete the next one is begun. -/
def Compressor.refill (c : Compressor) : Except Compressor Compressor :=
  if c.cword &&& 1 = 1 then
    if c.tooLong size destination then .error c
    else .ok { c with toWriter := c.turn, fetch := fastRead source c.src 3 }
  else .ok c

/-- How far the bytes at `o` and at `src` agree, given that four of them do. -/
def matchLength (o src : Nat) : Nat :=
  if source (o + 4) = source (src + 4) then
    if source (o + 5) = source (src + 5) then
      let q := size - 1 - UNCOMPRESSED_END - src + 1
      let remaining := if q > 255 then 255 else q
      6 + scanWhile (fun i => source (o + (6 + i)) = source (src + (6 + i))) (remaining - 6)
    else 5
  else 4

/-- The place the table has for the three bytes at `src` can be copied from: it is far enough
back, or the byte before in a run of one byte. -/
def Compressor.matches (c : Compressor) : Prop :=
  let hash := hashFunc c.fetch
  let cached := c.fetch ^^^ c.state.cache hash
  let o := c.state.offset hash
  cached &&& 0xffffff = 0 ∧ o ≠ 0 ∧
    (c.src - o > MINOFFSET ∨
      (c.src = o + 1 ∧ c.lits ≥ 3 ∧ c.src > 3 ∧ same source (c.src - 3) 6 = true))

instance (c : Compressor) : Decidable (c.matches source) :=
  inferInstanceAs (Decidable (_ ∧ _))

/-- The length of the copy: three when the fourth bytes differ. -/
def Compressor.matchlen (c : Compressor) : Nat :=
  let hash := hashFunc c.fetch
  if c.fetch ^^^ c.state.cache hash ≠ 0 then 3
  else matchLength source size (c.state.offset hash) c.src

/-- A copy as it is written: the hash of its place and its length, in two bytes or in three. -/
def Compressor.copy (c : Compressor) : Compressor :=
  let hash := hashFunc c.fetch <<< 4
  let matchlen := c.matchlen source size
  { mem := if matchlen < 18 then fastWrite ((matchlen - 2) ||| hash) c.mem c.dst 2
      else fastWrite ((matchlen <<< 16) ||| hash) c.mem c.dst 3
    cwordPtr := c.cwordPtr
    dst := c.dst + if matchlen < 18 then 2 else 3
    cword := shiftIn c.cword true
    src := c.src + matchlen
    fetch := fastRead source (c.src + matchlen) 3
    lits := 0
    state := c.state.enter c.fetch c.src }

/-- `*dst = *src`, with its flag. -/
def Compressor.literal (c : Compressor) : Compressor where
  mem := memcpy c.mem c.dst [source c.src]
  cwordPtr := c.cwordPtr
  dst := c.dst + 1
  cword := shiftIn c.cword false
  src := c.src + 1
  fetch := fastRead source (c.src + 1) 3
  lits := c.lits + 1
  state := c.state.enter c.fetch c.src

/-- The rest of a round. -/
def Compressor.item (c : Compressor) : Compressor :=
  if c.matches source then c.copy source size else c.literal source

variable {source size destination} {c c' : Compressor}

theorem matchLength_ge (o src : Nat) : 4 ≤ matchLength source size o src := by
  unfold matchLength
  split
  · split
    · dsimp only
      omega
    · decide
  · exact Nat.le_refl 4

theorem Compressor.matchlen_ge (c : Compressor) (source : Mem) (size : Nat) : 3 ≤ c.matchlen source size := by
  unfold Compressor.matchlen
  dsimp only
  split
  · exact Nat.le_refl 3
  · exact Nat.le_trans (by decide) (matchLength_ge _ _)

theorem Compressor.src_refill (h : c.refill source size destination = .ok c') : c'.src = c.src := by
  unfold Compressor.refill at h
  split at h
  · split at h
    · cases h
    · cases h
      rfl
  · cases h
    rfl

theorem Compressor.lt_src_item (c : Compressor) (source : Mem) (size : Nat) : c.src < (c.item source size).src := by
  unfold Compressor.item
  split
  · have hlen := c.matchlen_ge source size
    simp only [Compressor.copy]
    omega
  · exact Nat.lt_succ_self _

end Round

/-! ### The loops -/

/-- `while (src <= last_matchstart)`. -/
def compressLoop (source : Mem) (size destination : Nat) (c : Compressor) :
    Except Compressor Compressor :=
  if _hround : c.src + UNCONDITIONAL_MATCHLEN + UNCOMPRESSED_END < size then
    match _hrefill : c.refill source size destination with
    | .error c' => .error c'
    | .ok c' => compressLoop source size destination (c'.item source size)
  else .ok c
termination_by size - c.src
decreasing_by
  have hlt := c'.lt_src_item source size
  rw [Compressor.src_refill _hrefill] at hlt
  omega

section Loop

variable {source : Mem} {size destination : Nat} {c c' : Compressor}

/-- Giving up changes nothing. -/
theorem Compressor.refill_error (h : c.refill source size destination = .error c') : c' = c := by
  unfold Compressor.refill at h
  split at h
  · split at h
    · injection h with h
      exact h.symm
    · cases h
  · cases h

theorem compressLoop_error (hround : c.src + UNCONDITIONAL_MATCHLEN + UNCOMPRESSED_END < size)
    (hrefill : c.refill source size destination = .error c') :
    compressLoop source size destination c = .error c := by
  rw [compressLoop, dif_pos hround]
  split
  · rename_i h
    rw [Compressor.refill_error h]
  · rename_i h
    rw [hrefill] at h
    cases h

theorem compressLoop_ok (hround : c.src + UNCONDITIONAL_MATCHLEN + UNCOMPRESSED_END < size)
    (hrefill : c.refill source size destination = .ok c') :
    compressLoop source size destination c =
      compressLoop source size destination (c'.item source size) := by
  rw [compressLoop, dif_pos hround]
  split
  · rename_i h
    rw [hrefill] at h
    cases h
  · rename_i h
    rw [hrefill] at h
    injection h with h
    rw [h]

theorem compressLoop_end (hround : ¬ c.src + UNCONDITIONAL_MATCHLEN + UNCOMPRESSED_END < size) :
    compressLoop source size destination c = .ok c := by
  rw [compressLoop, dif_neg hround]

end Loop

/-- A round of `while (src <= last_byte)`: the table is entered while three bytes are left. -/
def Compressor.tail (source : Mem) (size : Nat) (c : Compressor) : Compressor :=
  let c := { c with toWriter := c.next }
  { mem := memcpy c.mem c.dst [source c.src]
    cwordPtr := c.cwordPtr
    dst := c.dst + 1
    cword := shiftIn c.cword false
    src := c.src + 1
    fetch := c.fetch
    lits := c.lits
    state := if c.src + 3 < size then c.state.enter (fastRead source c.src 3) c.src else c.state }

@[simp] theorem Compressor.src_tail (source : Mem) (size : Nat) (c : Compressor) :
    (c.tail source size).src = c.src + 1 := rfl

/-- `while (src <= last_byte)`. -/
def literalLoop (source : Mem) (size : Nat) (c : Compressor) : Compressor :=
  if c.src < size then literalLoop source size (c.tail source size) else c
termination_by size - c.src
decreasing_by
  rw [Compressor.src_tail]
  omega

/-- The loops begin with room for the first control word. -/
def Compressor.start (source m : Mem) (destination size : Nat) (state : StateCompress) :
    Compressor where
  mem := m
  cwordPtr := destination
  dst := destination + CWORD_LEN
  cword := 1 <<< 31
  src := 0
  fetch := if UNCONDITIONAL_MATCHLEN + UNCOMPRESSED_END < size then fastRead source 0 3 else 0
  lits := 0
  state := state

/-- `qlz_compress_core`: the length of the output, at least 9, or 0. -/
def qlzCompressCore (source m : Mem) (destination size : Nat) (state : StateCompress) :
    Nat × Mem × StateCompress :=
  match compressLoop source size destination (.start source m destination size state) with
  | .error c => (0, c.mem, c.state)
  | .ok c =>
    let c := literalLoop source size c
    let n := c.dst - destination
    (if n < 9 then 9 else n, storeLE c.mem c.cwordPtr 4 (markedWord (shiftOut c.cword)), c.state)

/-- The first byte of the output: `01SSLLHC`. -/
def headerByte (base : Nat) (compressed : Bool) : UInt8 :=
  let sizes : UInt8 := if base = 3 then 0 else 2
  let flag : UInt8 := if compressed then 1 else 0
  sizes ||| flag ||| (UInt8.ofNat QLZ_COMPRESSION_LEVEL <<< 2) ||| ((1 : UInt8) <<< 6)

/-- The header: the sizes of the output and of the source, in one byte each or in four. -/
def putHeader (m : Mem) (base : Nat) (compressed : Bool) (r size : Nat) : Mem :=
  let m := memcpy m 0 [headerByte base compressed]
  if base = 3 then memcpy (memcpy m 1 [UInt8.ofNat r]) 2 [UInt8.ofNat size]
  else fastWrite size (fastWrite r m 1 4) 5 4

/-- `qlz_compress`: the length of the output, the destination and the state. -/
def qlzCompress (source m : Mem) (size : Nat) (state : StateCompress) : Nat × Mem × StateCompress :=
  if size = 0 ∨ size > 0xffffffff - 400 then (0, m, state)
  else
    let base := if size < 216 then 3 else 9
    let core := qlzCompressCore source m base size state.reset
    if core.1 = 0 then
      (size + base, putHeader (memcpy core.2.1 base (slice source 0 size)) base false (size + base) size,
        core.2.2)
    else (base + core.1, putHeader core.2.1 base true (base + core.1) size, core.2.2)

end Solowan.QuickLz
