/-
`qlz_decompress` undoes `qlz_compress`.

* `decompress_compress`: a block is restored from any copy of it, whatever state the compressor
  and the decompressor are in, and nothing is written behind the restored bytes.
* `compress_confined`: the compressor needs at most 121 bytes more than the source has, and the
  sizes in its header are right.
-/

import Solowan.QuickLz.Decompressing
import Solowan.QuickLz.Growth

namespace Solowan.QuickLz

open Solowan.Memory

section Header

variable {m block : Mem} {base r size : Nat} {compressed : Bool}

theorem putHeader_apply_outside {i : Nat} (hbase : base = 3 ∨ base = 9) (hi : base ≤ i) :
    putHeader m base compressed r size i = m i := by
  unfold putHeader
  rcases hbase with rfl | rfl
  · rw [if_pos rfl, memcpy_apply_outside (by simp; omega), memcpy_apply_outside (by simp; omega),
      memcpy_apply_outside (by simp; omega)]
  · rw [if_neg (by decide)]
    simp only [fastWrite]
    rw [storeLE_apply_outside (by omega), storeLE_apply_outside (by omega),
      memcpy_apply_outside (by simp; omega)]

/-- The low bits of the first byte. -/
theorem headerByte_bits (base : Nat) (compressed : Bool) :
    (headerByte base compressed &&& 1 = 1 ↔ compressed = true) ∧
      (headerByte base compressed &&& 2 = 2 ↔ base ≠ 3) := by
  unfold headerByte
  by_cases hbase : base = 3
  · subst hbase
    cases compressed <;> decide
  · rw [if_neg hbase]
    cases compressed with
    | false => exact ⟨by decide, fun _ => hbase, fun _ => by decide⟩
    | true => exact ⟨by decide, fun _ => hbase, fun _ => by decide⟩

/-- What the functions that read a header find in one that `qlz_compress` has written. -/
theorem header_spec (hbase : base = 3 ∨ base = 9)
    (hblock : ∀ i, i < base → block i = putHeader m base compressed r size i)
    (hfit : base = 3 → r < 256 ∧ size < 256) (hr : r < 2 ^ 32) (hsize : size < 2 ^ 32) :
    qlzSizeHeader block = base ∧ qlzSizeCompressed block = r ∧ qlzSizeDecompressed block = size ∧
      (block 0 &&& 1 = 1 ↔ compressed = true) := by
  obtain ⟨hflag, hwidth⟩ := headerByte_bits base compressed
  rcases hbase with rfl | rfl
  · have h0 : block 0 = headerByte 3 compressed := by
      rw [hblock 0 (by decide)]
      rfl
    have h1 : block 1 = UInt8.ofNat r := by
      rw [hblock 1 (by decide)]
      rfl
    have h2 : block 2 = UInt8.ofNat size := by
      rw [hblock 2 (by decide)]
      rfl
    have hone : sizeWidth block = 1 := by
      rw [sizeWidth, h0, if_neg fun h => hwidth.mp h rfl]
    have hmask : ∀ x, x &&& (0xffffffff >>> ((4 - 1) * 8)) = x % 256 :=
      fun x => Nat.and_two_pow_sub_one_eq_mod x 8
    have hread : ∀ p, fastRead block p 1 % 256 = (block p).toNat := by
      intro p
      have := (block p).toNat_lt
      have hword : fastRead block p 1 = loadLE block p 4 := rfl
      rw [hword, loadLE_four]
      omega
    obtain ⟨hr1, hsize1⟩ := hfit rfl
    refine ⟨by rw [qlzSizeHeader, hone], ?_, ?_, by rw [h0]; exact hflag⟩
    · rw [qlzSizeCompressed, hone]
      rw [hmask, hread, h1, UInt8.toNat_ofNat', Nat.mod_eq_of_lt hr1]
    · rw [qlzSizeDecompressed, hone]
      rw [hmask, hread, h2, UInt8.toNat_ofNat', Nat.mod_eq_of_lt hsize1]
  · have h0 : block 0 = headerByte 9 compressed := by
      rw [hblock 0 (by decide)]
      unfold putHeader
      rw [if_neg (by decide)]
      simp only [fastWrite]
      rw [storeLE_apply_outside (by decide), storeLE_apply_outside (by decide)]
      rfl
    have hfour : sizeWidth block = 4 := by
      rw [sizeWidth, h0, if_pos (hwidth.mpr (by decide))]
    have hmask : ∀ x, x &&& (0xffffffff >>> ((4 - 4) * 8)) = x % 2 ^ 32 :=
      fun x => Nat.and_two_pow_sub_one_eq_mod x 32
    have hput : putHeader m 9 compressed r size =
        storeLE (storeLE (memcpy m 0 [headerByte 9 compressed]) 1 4 r) 5 4 size := by
      unfold putHeader
      rw [if_neg (by decide)]
      rfl
    rw [hput] at hblock
    have hsmall : loadLE block 1 4 = r :=
      calc loadLE block 1 4 = loadLE (storeLE (memcpy m 0 [headerByte 9 compressed]) 1 4 r) 1 4 :=
            loadLE_congr fun i hi => (hblock _ (by omega)).trans (storeLE_apply_outside (by omega))
        _ = r := by rw [loadLE_storeLE]; exact Nat.mod_eq_of_lt hr
    have hlarge : loadLE block 5 4 = size := by
      rw [loadLE_congr fun i hi => hblock _ (by omega), loadLE_storeLE]
      exact Nat.mod_eq_of_lt hsize
    refine ⟨by rw [qlzSizeHeader, hfour], ?_, ?_, by rw [h0]; exact hflag⟩
    · rw [qlzSizeCompressed, hfour]
      rw [hmask, fastRead_four, hsmall, Nat.mod_eq_of_lt hr]
    · rw [qlzSizeDecompressed, hfour]
      rw [hmask, fastRead_four, hlarge, Nat.mod_eq_of_lt hsize]

end Header

section RoundTrip

variable {s m : Mem} {size : Nat} {state : StateCompress}

/-- What `qlz_compress` returns, by the length of the output of its core. -/
theorem qlzCompress_cases (hpos : 0 < size) (hsize : size ≤ 0xffffffff - 400) (s m : Mem)
    (state : StateCompress) :
    ∃ base, (base = 3 ∧ size < 216 ∨ base = 9 ∧ 216 ≤ size) ∧
      ((qlzCompressCore s m base size state.reset).1 = 0 ∧
        (qlzCompress s m size state).1 = size + base ∧
        (qlzCompress s m size state).2.1 =
          putHeader (memcpy (qlzCompressCore s m base size state.reset).2.1 base (slice s 0 size)) base
            false (size + base) size ∨
      (qlzCompressCore s m base size state.reset).1 ≠ 0 ∧
        (qlzCompress s m size state).1 = base + (qlzCompressCore s m base size state.reset).1 ∧
        (qlzCompress s m size state).2.1 =
          putHeader (qlzCompressCore s m base size state.reset).2.1 base true
            (base + (qlzCompressCore s m base size state.reset).1) size) := by
  obtain ⟨base, hbase, hdef⟩ : ∃ base, (base = 3 ∧ size < 216 ∨ base = 9 ∧ 216 ≤ size) ∧
      (if size < 216 then 3 else 9) = base := by
    by_cases hsmall : size < 216
    · exact ⟨3, Or.inl ⟨rfl, hsmall⟩, if_pos hsmall⟩
    · exact ⟨9, Or.inr ⟨rfl, by omega⟩, if_neg hsmall⟩
  have hrun : ¬ (size = 0 ∨ size > 0xffffffff - 400) := by omega
  refine ⟨base, hbase, ?_⟩
  simp only [qlzCompress, if_neg hrun, hdef]
  by_cases hcore : (qlzCompressCore s m base size state.reset).1 = 0
  · simp only [if_pos hcore]
    exact Or.inl ⟨hcore, trivial, trivial⟩
  · simp only [if_neg hcore]
    exact Or.inr ⟨hcore, trivial, trivial⟩

/-- The compressor needs at most 121 bytes more than the source has. -/
theorem compress_length (hpos : 0 < size) (hsize : size ≤ 0xffffffff - 400) (s m : Mem)
    (state : StateCompress) :
    0 < (qlzCompress s m size state).1 ∧ (qlzCompress s m size state).1 ≤ size + 120 ∧
      (size < 216 → (qlzCompress s m size state).1 < 256) ∧
      ∀ i, size + 121 ≤ i → (qlzCompress s m size state).2.1 i = m i := by
  obtain ⟨base, hbase, hcases⟩ := qlzCompress_cases hpos hsize s m state
  obtain ⟨hlen, hsmall, hout⟩ := compressCore_length s m base size state
  have hheader : base = 3 ∨ base = 9 := by omega
  rcases hcases with ⟨-, hr, hmem⟩ | ⟨-, hr, hmem⟩
  · rw [hr, hmem]
    refine ⟨by omega, by omega, by omega, fun i hi => ?_⟩
    rw [putHeader_apply_outside hheader (by omega),
      memcpy_apply_outside (Or.inr (by rw [length_slice]; omega))]
    exact hout i (by omega)
  · rw [hr, hmem]
    refine ⟨by omega, by omega, by omega, fun i hi => ?_⟩
    rw [putHeader_apply_outside hheader (by omega)]
    exact hout i (by omega)

/-- A block of less than five bytes is longer than they are: the core pads its output. -/
theorem lt_compress_of_lt (hpos : 0 < size) (hsize : size < 5) (s m : Mem) (state : StateCompress) :
    size < (qlzCompress s m size state).1 := by
  obtain ⟨base, hbase, ⟨-, hr, -⟩ | ⟨hcore, hr, -⟩⟩ := qlzCompress_cases hpos (by omega) s m state
  · omega
  · obtain ⟨ts, c, -, -, heq⟩ := compressCore_emits m state hcore
    rw [hr, heq]
    dsimp only
    omega

/-- The header of a block, and what stands behind it, in any copy of the block. -/
theorem compress_block {block : Mem} (hpos : 0 < size) (hsize : size ≤ 0xffffffff - 400)
    (hblock : slice block 0 (qlzCompress s m size state).1 =
      slice (qlzCompress s m size state).2.1 0 (qlzCompress s m size state).1) :
    qlzSizeCompressed block = (qlzCompress s m size state).1 ∧ qlzSizeDecompressed block = size ∧
      (block 0 &&& 1 ≠ 1 ∧ slice block (qlzSizeHeader block) size = slice s 0 size ∨
        block 0 &&& 1 = 1 ∧ ∃ ts, Emits s size ∅ 0 ts ∧
          Reads block (qlzSizeHeader block) 0 0 (ts.map Token.item)) := by
  obtain ⟨base, hbase, hcases⟩ := qlzCompress_cases hpos hsize s m state
  obtain ⟨-, hle, hsmall, -⟩ := compress_length hpos hsize s m state
  have hheader : base = 3 ∨ base = 9 := by omega
  have hbytes : ∀ i, i < (qlzCompress s m size state).1 →
      block i = (qlzCompress s m size state).2.1 i := by
    intro i hi
    have hsame := slice_eq_apply hblock hi
    rwa [Nat.zero_add] at hsame
  rcases hcases with ⟨-, hr, hmem⟩ | ⟨hcore, hr, hmem⟩
  · rw [hr] at hle hsmall hbytes ⊢
    rw [hmem] at hbytes
    obtain ⟨hheader', hsc, hsd, hflag⟩ := header_spec hheader (fun i hi => hbytes i (by omega))
      (fun _ => by omega) (by omega) (by omega)
    refine ⟨hsc, hsd, Or.inl ⟨fun h => Bool.false_ne_true (hflag.mp h), ?_⟩⟩
    rw [hheader']
    refine slice_eq_of_getD (length_slice _ _ _) fun i hi => ?_
    rw [hbytes _ (by omega), putHeader_apply_outside hheader (by omega),
      memcpy_apply_inside (by rw [length_slice]; exact hi)]
  · rw [hr] at hle hsmall hbytes ⊢
    rw [hmem] at hbytes
    obtain ⟨hheader', hsc, hsd, hflag⟩ := header_spec hheader (fun i hi => hbytes i (by omega))
      (fun _ => by omega) (by omega) (by omega)
    refine ⟨hsc, hsd, Or.inr ⟨hflag.mpr rfl, ?_⟩⟩
    obtain ⟨ts, c, hemits, hput, heq⟩ := compressCore_emits m state hcore
    rw [heq] at hbytes
    dsimp only at hbytes
    refine ⟨ts, hemits, ?_⟩
    rw [hheader']
    refine Wrote.reads hput (slice_congr fun i hi => ?_)
    rw [hbytes _ (by omega), putHeader_apply_outside hheader (by omega)]

/-- A block is restored, nothing is written behind the restored bytes, and there are no more rounds
than bytes. -/
theorem decompress_block {block : Mem} {fuel maxPktSize : Nat} (hpos : 0 < size)
    (hsize : size ≤ 0xffffffff - 400) (hmax : size ≤ maxPktSize) (hfuel : size < fuel)
    (hblock : slice block 0 (qlzCompress s m size state).1 =
      slice (qlzCompress s m size state).2.1 0 (qlzCompress s m size state).1)
    (destination : Mem) (offset : Nat → Nat) :
    ∃ out offset', qlzDecompress fuel maxPktSize block destination offset =
        some ((size : Int), out, offset') ∧
      slice out 0 size = slice s 0 size ∧ ∀ i, size ≤ i → out i = destination i := by
  obtain ⟨-, hdec, hbody⟩ := compress_block hpos hsize hblock
  have hmax' : ¬ size > maxPktSize := by omega
  simp only [qlzDecompress, hdec, if_neg hmax']
  rcases hbody with ⟨hraw, hslice⟩ | ⟨hcompressed, ts, hemits, hreads⟩
  · rw [if_neg hraw]
    refine ⟨_, offset, rfl, ?_, fun i hi => memcpy_apply_outside (Or.inr ?_)⟩
    · rw [slice_memcpy_self' (length_slice _ _ _), hslice]
    · rw [length_slice]
      omega
  · have hbegin : Rebuilt s size destination ∅ ⟨destination, qlzSizeHeader block, 0, 1, offset, 0⟩ :=
      ⟨fun i hi => absurd hi (Nat.not_lt_zero i), fun _ _ => rfl, by simp,
        fun v _ hlt => absurd hlt (Nat.not_lt_zero v), by simp, Nat.le_refl 0, Nat.zero_le 2,
        fun k a h => absurd h.mem.1 (Set.notMem_empty a)⟩
    obtain ⟨d, hloop, hin, hout⟩ := decompressLoop_spec (by simpa using hfuel) hbegin hemits hpos
      ⟨0, 0, rfl, hreads⟩
    rw [if_pos hcompressed, qlzDecompressCore, hloop]
    refine ⟨d.mem, d.offset, rfl, slice_congr fun i hi => hin _ (by omega), hout⟩

/-- **`qlz_decompress` undoes `qlz_compress`.** A block is restored from every copy of it, whatever
an earlier call has left in the tables, the destinations and the memory behind the block. -/
theorem decompress_compress (s m : Mem) (size : Nat) (state : StateCompress) (hpos : 0 < size)
    (hsize : size ≤ 0xffffffff - 400) (maxPktSize : Nat) (hmax : size ≤ maxPktSize) :
    ∀ block, slice block 0 (qlzCompress s m size state).1 =
        slice (qlzCompress s m size state).2.1 0 (qlzCompress s m size state).1 →
      ∀ destination offset fuel, size < fuel →
        ∃ out offset',
          qlzDecompress fuel maxPktSize block destination offset = some ((size : Int), out, offset') ∧
            slice out 0 size = slice s 0 size ∧ ∀ i, size ≤ i → out i = destination i :=
  fun _ hblock destination offset _ hfuel =>
    decompress_block hpos hsize hmax hfuel hblock destination offset

/-- Forty different bytes, the same once more, and a run of one byte. -/
def repeated (run : Nat) : List UInt8 :=
  (List.range 40).map UInt8.ofNat ++ (List.range 40).map UInt8.ofNat ++ List.replicate run 7

/-- The block of the 110 bytes: its second control word has the copies, one of a string and one
within the run. -/
def repeatedBlock : Nat × Mem × StateCompress :=
  qlzCompress (ofList (repeated 30)) (fun _ => 255) 110 ⟨fun _ => 0, fun _ => 5⟩

/-- It is restored from a copy that other bytes follow, in a destination that was not clean. -/
theorem decompress_compress_repeated :
    0 < 110 ∧ 110 ≤ 0xffffffff - 400 ∧ 110 ≤ 1500 ∧ repeatedBlock.1 = 65 ∧
      ∃ out offset', qlzDecompress 111 1500
        (memcpy (fun _ => 9) 0 (slice repeatedBlock.2.1 0 repeatedBlock.1)) (fun _ => 0)
          (fun _ => 3) = some (110, out, offset') ∧
        slice out 0 110 = slice (ofList (repeated 30)) 0 110 ∧ ∀ i, 110 ≤ i → out i = 0 :=
  ⟨by decide, by decide, by decide, by decide +kernel,
    decompress_compress (ofList (repeated 30)) (fun _ => 255) 110 ⟨fun _ => 0, fun _ => 5⟩
      (by decide) (by decide) 1500 (by decide) _ (slice_memcpy_self' (length_slice _ _ _))
      (fun _ => 0) (fun _ => 3) 111 (by decide)⟩

/-- **The compressor stays within its buffer and its header is true.** The output is at most 120
bytes longer than the source, nothing is written behind the next byte, and the two sizes can be
read from any copy of the output. -/
theorem compress_confined (s m : Mem) (size : Nat) (state : StateCompress) (hpos : 0 < size)
    (hsize : size ≤ 0xffffffff - 400) :
    0 < (qlzCompress s m size state).1 ∧ (qlzCompress s m size state).1 ≤ size + 120 ∧
      (∀ i, size + 121 ≤ i → (qlzCompress s m size state).2.1 i = m i) ∧
      ∀ block, slice block 0 (qlzCompress s m size state).1 =
          slice (qlzCompress s m size state).2.1 0 (qlzCompress s m size state).1 →
        qlzSizeCompressed block = (qlzCompress s m size state).1 ∧ qlzSizeDecompressed block = size := by
  obtain ⟨hnonzero, hle, -, hout⟩ := compress_length hpos hsize s m state
  refine ⟨hnonzero, hle, hout, fun block hblock => ?_⟩
  obtain ⟨hcompressed, hdecompressed, -⟩ := compress_block hpos hsize hblock
  exact ⟨hcompressed, hdecompressed⟩

/-- The header of a block of 230 bytes, which has four bytes for each size, and the byte behind
its 351. -/
theorem compress_confined_repeated :
    0 < 230 ∧ 230 ≤ 0xffffffff - 400 ∧
      (let block := qlzCompress (ofList (repeated 150)) (fun _ => 255) 230 ⟨fun _ => 0, fun _ => 5⟩
      qlzSizeCompressed block.2.1 = block.1 ∧ qlzSizeDecompressed block.2.1 = 230 ∧
        block.1 ≤ 350 ∧ block.2.1 351 = 255) := by
  obtain ⟨-, hle, hout, hheader⟩ := compress_confined (ofList (repeated 150)) (fun _ => 255) 230
    ⟨fun _ => 0, fun _ => 5⟩ (by decide) (by decide)
  obtain ⟨hcompressed, hdecompressed⟩ := hheader _ rfl
  exact ⟨by decide, by decide, hcompressed, hdecompressed, hle, hout 351 (by decide)⟩

end RoundTrip

end Solowan.QuickLz
