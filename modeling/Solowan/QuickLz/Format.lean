/-
The words and headers of QuickLZ (`lib/quicklz.c`), as it is built here: level 1, no streaming
buffer, on a machine that reads and writes words in any place.

* `hashFunc_eq`: the hash of a word is one of its low three bytes.
* `hashat_congr`: the hash at a place is one of the three bytes there.
* `xor_masked_eq_zero`: how the source compares the low three bytes of two words.
-/

import Mathlib.Data.Nat.Bitwise
import Solowan.Memory.ControlWord

namespace Solowan.QuickLz

open Solowan.Memory

def QLZ_COMPRESSION_LEVEL : Nat := 1

def QLZ_HASH_VALUES : Nat := 4096

def MINOFFSET : Nat := 2

def UNCONDITIONAL_MATCHLEN : Nat := 6

def UNCOMPRESSED_END : Nat := 4

def CWORD_LEN : Nat := 4

/-- `fast_read`: a whole word whatever the number of bytes asked for. -/
def fastRead (m : Mem) (p bytes : Nat) : Nat :=
  if bytes ≥ 1 ∧ bytes ≤ 4 then loadLE m p 4 else 0

/-- `fast_write`: a whole word for three bytes too. -/
def fastWrite (f : Nat) (m : Mem) (p bytes : Nat) : Mem :=
  match bytes with
  | 4 => storeLE m p 4 f
  | 3 => storeLE m p 4 f
  | 2 => storeLE m p 2 f
  | 1 => storeLE m p 1 f
  | _ => m

/-- `hash_func`. -/
def hashFunc (i : Nat) : Nat := ((i >>> 12) ^^^ i) &&& (QLZ_HASH_VALUES - 1)

/-- `hashat`. -/
def hashat (m : Mem) (p : Nat) : Nat := hashFunc (fastRead m p 3)

/-- The width of the two sizes in a header. -/
def sizeWidth (source : Mem) : Nat := if source 0 &&& 2 = 2 then 4 else 1

/-- `qlz_size_decompressed`. -/
def qlzSizeDecompressed (source : Mem) : Nat :=
  let n := sizeWidth source
  fastRead source (1 + n) n &&& (0xffffffff >>> ((4 - n) * 8))

/-- `qlz_size_compressed`. -/
def qlzSizeCompressed (source : Mem) : Nat :=
  let n := sizeWidth source
  fastRead source 1 n &&& (0xffffffff >>> ((4 - n) * 8))

/-- `qlz_size_header`. -/
def qlzSizeHeader (source : Mem) : Nat := 2 * sizeWidth source + 1

/-! ### Words and the bytes in them -/

section Words

variable {m m' : Mem} {p p' a b : Nat}

theorem leNat_cons (b : UInt8) (bs : List UInt8) : leNat (b :: bs) = b.toNat + 256 * leNat bs := by
  rw [leNat, List.reverse_cons, beNat_snoc, leNat]
  ring

theorem leNat_append (a b : List UInt8) : leNat (a ++ b) = leNat a + 256 ^ a.length * leNat b := by
  induction a with
  | nil => simp [leNat, beNat]
  | cons x a ih =>
    rw [List.cons_append, leNat_cons, ih, leNat_cons, List.length_cons, Nat.pow_succ']
    ring

/-- The low bytes of a word are the bytes that stand first. -/
theorem loadLE_mod_of_slice {k : Nat} (hk : k ≤ 4) (h : slice m p k = leBytes k a) :
    loadLE m p 4 % 256 ^ k = a % 256 ^ k := by
  obtain ⟨j, hj⟩ := Nat.exists_eq_add_of_le hk
  rw [loadLE, hj, slice_append, leNat_append, length_slice, h, leNat_leBytes, Nat.add_mul_mod_self_left,
    Nat.mod_mod]

/-- A word byte by byte. -/
theorem loadLE_four (m : Mem) (p : Nat) :
    loadLE m p 4 = (m p).toNat + 256 * (m (p + 1)).toNat + 65536 * (m (p + 2)).toNat +
      16777216 * (m (p + 3)).toNat := by
  have hslice : slice m p 4 = [m p, m (p + 1), m (p + 2), m (p + 3)] := rfl
  rw [loadLE, hslice, leNat_cons, leNat_cons, leNat_cons, leNat_cons]
  simp only [leNat, beNat, List.reverse_nil, List.foldl_nil]
  ring

@[simp] theorem fastRead_three : fastRead m p 3 = loadLE m p 4 := rfl

@[simp] theorem fastRead_four : fastRead m p 4 = loadLE m p 4 := rfl

/-- The hash is one of the low three bytes, and a table index. -/
theorem hashFunc_eq (i : Nat) : hashFunc i = ((i / 4096) ^^^ i) % 4096 := by
  have hmask := Nat.and_two_pow_sub_one_eq_mod ((i >>> 12) ^^^ i) 12
  rw [hashFunc, Nat.shiftRight_eq_div_pow] at *
  exact hmask

theorem hashFunc_lt (i : Nat) : hashFunc i < QLZ_HASH_VALUES := by
  rw [hashFunc_eq]
  exact Nat.mod_lt _ (by decide)

theorem hashFunc_mod (h : a % 2 ^ 24 = b % 2 ^ 24) : hashFunc a = hashFunc b := by
  have hxor : ∀ i : Nat, hashFunc i = ((i / 4096 % 4096) ^^^ (i % 4096)) := by
    intro i
    have hmod := Nat.xor_mod_two_pow (a := i / 4096) (b := i) (n := 12)
    rw [hashFunc_eq]
    exact hmod
  have hhigh : a / 4096 % 4096 = b / 4096 % 4096 := by omega
  have hlow : a % 4096 = b % 4096 := by omega
  rw [hxor, hxor, hhigh, hlow]

/-- The low three bytes of a word. -/
theorem loadLE_four_mod_congr (h : ∀ i, i < 3 → m (p + i) = m' (p' + i)) :
    loadLE m p 4 % 2 ^ 24 = loadLE m' p' 4 % 2 ^ 24 := by
  have h0 := h 0 (by decide)
  have h1 := h 1 (by decide)
  have h2 := h 2 (by decide)
  simp only [Nat.add_zero] at h0
  rw [loadLE_four, loadLE_four, h0, h1, h2]
  omega

/-- Words with the same low three bytes stand for the same three bytes. -/
theorem bytes_of_loadLE_four_mod (h : loadLE m p 4 % 2 ^ 24 = loadLE m' p' 4 % 2 ^ 24) :
    ∀ i, i < 3 → m (p + i) = m' (p' + i) := by
  have b0 := (m p).toNat_lt
  have b1 := (m (p + 1)).toNat_lt
  have b2 := (m (p + 2)).toNat_lt
  have b0' := (m' p').toNat_lt
  have b1' := (m' (p' + 1)).toNat_lt
  have b2' := (m' (p' + 2)).toNat_lt
  rw [loadLE_four, loadLE_four] at h
  intro i hi
  apply UInt8.toNat_inj.mp
  match i, hi with
  | 0, _ =>
    simp only [Nat.add_zero]
    omega
  | 1, _ => omega
  | 2, _ => omega

theorem bytes_of_loadLE_four (h : loadLE m p 4 = loadLE m' p' 4) :
    ∀ i, i < 4 → m (p + i) = m' (p' + i) := by
  intro i hi
  by_cases hlow : i < 3
  · exact bytes_of_loadLE_four_mod (congrArg (· % 2 ^ 24) h) i hlow
  · obtain rfl : i = 3 := by omega
    have hmod : loadLE m p 4 % 2 ^ 24 = loadLE m' p' 4 % 2 ^ 24 := by rw [h]
    have b0 : m p = m' p' := bytes_of_loadLE_four_mod hmod 0 (by decide)
    have b1 : m (p + 1) = m' (p' + 1) := bytes_of_loadLE_four_mod hmod 1 (by decide)
    have b2 : m (p + 2) = m' (p' + 2) := bytes_of_loadLE_four_mod hmod 2 (by decide)
    rw [loadLE_four, loadLE_four, b0, b1, b2] at h
    apply UInt8.toNat_inj.mp
    omega

/-- The hash at a place is one of the three bytes there. -/
theorem hashat_congr (h : ∀ i, i < 3 → m (p + i) = m' (p' + i)) : hashat m p = hashat m' p' := by
  rw [hashat, hashat, fastRead_three, fastRead_three]
  exact hashFunc_mod (loadLE_four_mod_congr h)

/-- `((a ^ b) & 0xffffff) == 0` compares the low three bytes. -/
theorem xor_masked_eq_zero : (a ^^^ b) &&& 0xffffff = 0 ↔ a % 2 ^ 24 = b % 2 ^ 24 := by
  have hmask := Nat.and_two_pow_sub_one_eq_mod (a ^^^ b) 24
  have hmod := Nat.xor_mod_two_pow (a := a) (b := b) (n := 24)
  rw [show (0xffffff : Nat) = 2 ^ 24 - 1 from rfl, hmask, hmod, Nat.xor_eq_zero_iff]

end Words

end Solowan.QuickLz
