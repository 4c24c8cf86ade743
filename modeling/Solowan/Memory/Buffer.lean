/-
Byte memories, block copies and fixed-width integers.

A C buffer is a total function from offsets to bytes: what lies past the part a
program wrote is still there, with arbitrary content, and a read past the end is
a read of that content. Everything a program does with such a buffer goes through
two operations, `slice` (read a block) and `memcpy` (overwrite a block); the rest
of the module is their algebra.

* `slice_memcpy_self`, `slice_memcpy_disjoint`, `slice_memcpy_extend`: a block is
  read back as it was written, and a write leaves every block apart from it alone.
* `slice_append`: adjacent blocks concatenate.
* `beNat_beBytes`, `leNat_leBytes`: fixed-width integers survive a store and a load
  in either byte order.
* `scanWhile`: the loop `while (i < n && p(i)) i++`.
-/

import Mathlib.Algebra.GroupWithZero.Nat
import Mathlib.Data.List.GetD
import Mathlib.Data.List.Induction
import Mathlib.Logic.Function.Basic

namespace Solowan.Memory

/-- A byte buffer, addressed from its start. -/
abbrev Mem := Nat → UInt8

/-- The `n` bytes from offset `pos` on. -/
def slice (m : Mem) (pos n : Nat) : List UInt8 :=
  (List.range n).map fun i => m (pos + i)

/-- `memcpy(m + pos, bs, |bs|)`. -/
def memcpy (m : Mem) (pos : Nat) (bs : List UInt8) : Mem := fun i =>
  if pos ≤ i ∧ i < pos + bs.length then bs.getD (i - pos) 0 else m i

/-- `memmove(m + dst, m + src, n)`: the source block is read before the
destination is written, so the two may overlap. -/
def memmove (m : Mem) (dst src n : Nat) : Mem :=
  memcpy m dst (slice m src n)

/-- The memory a pointer into `m` gives access to, `m + pos`. -/
def window (m : Mem) (pos : Nat) : Mem := fun i => m (pos + i)

/-! ### Reading blocks -/

section Slice

variable {m m' : Mem} {pos pos' n k : Nat}

@[simp] theorem length_slice (m : Mem) (pos n : Nat) : (slice m pos n).length = n := by
  simp [slice]

@[simp] theorem slice_zero (m : Mem) (pos : Nat) : slice m pos 0 = [] := rfl

theorem getElem?_slice (m : Mem) (pos n i : Nat) :
    (slice m pos n)[i]? = if i < n then some (m (pos + i)) else none := by
  by_cases h : i < n
  · simp [slice, h]
  · simp [slice, h]

theorem getD_slice {i : Nat} (h : i < n) (d : UInt8) :
    (slice m pos n).getD i d = m (pos + i) := by
  rw [List.getD_eq_getElem?_getD, getElem?_slice, if_pos h, Option.getD_some]

theorem slice_window (m : Mem) (pos q n : Nat) : slice (window m pos) q n = slice m (pos + q) n := by
  simp only [slice, window, Nat.add_assoc]

/-- Two blocks are equal when they agree byte by byte. -/
theorem slice_congr (h : ∀ i, i < n → m (pos + i) = m' (pos' + i)) :
    slice m pos n = slice m' pos' n := by
  unfold slice
  apply List.map_congr_left
  intro i hi
  exact h i (List.mem_range.mp hi)

/-- Equal blocks agree byte by byte. -/
theorem slice_eq_apply {i : Nat} (h : slice m pos n = slice m' pos' n) (hi : i < n) :
    m (pos + i) = m' (pos' + i) := by
  rw [← getD_slice (m := m) hi 0, ← getD_slice (m := m') hi 0, h]

/-- A block is a given list when it has its length and its bytes. -/
theorem slice_eq_of_getD {bs : List UInt8} (hlen : bs.length = n)
    (h : ∀ i, i < n → m (pos + i) = bs.getD i 0) : slice m pos n = bs := by
  apply List.ext_getElem?
  intro i
  rw [getElem?_slice]
  by_cases hi : i < n
  · have hi' : i < bs.length := by omega
    rw [if_pos hi, h i hi, List.getD_eq_getElem?_getD, List.getElem?_eq_getElem hi',
      Option.getD_some]
  · rw [if_neg hi, List.getElem?_eq_none (by omega)]

/-- The bytes of a block that is known as a list. -/
theorem apply_of_slice_eq {bs : List UInt8} {i : Nat} (h : slice m pos n = bs) (hi : i < n) :
    m (pos + i) = bs.getD i 0 := by
  rw [← h, getD_slice hi]

/-- Adjacent blocks concatenate. -/
theorem slice_append (m : Mem) (pos n k : Nat) :
    slice m pos (n + k) = slice m pos n ++ slice m (pos + n) k := by
  simp [slice, List.range_add, Nat.add_assoc]

theorem slice_append_at (pos' : Nat) (h : pos' = pos + n) :
    slice m pos (n + k) = slice m pos n ++ slice m pos' k := by
  rw [h, slice_append]

theorem slice_take (m : Mem) (pos : Nat) (h : k ≤ n) :
    (slice m pos n).take k = slice m pos k := by
  obtain ⟨j, rfl⟩ := Nat.exists_eq_add_of_le h
  rw [slice_append, List.take_append_of_le_length (by simp), List.take_of_length_le (by simp)]

theorem slice_drop (m : Mem) (pos : Nat) (h : k ≤ n) :
    (slice m pos n).drop k = slice m (pos + k) (n - k) := by
  obtain ⟨j, rfl⟩ := Nat.exists_eq_add_of_le h
  rw [slice_append, List.drop_append_of_le_length (by simp), Nat.add_sub_cancel_left,
    List.drop_of_length_le (by simp), List.nil_append]

/-- A block inside a block that is known as a list. -/
theorem slice_sub {bs : List UInt8} {i : Nat} (h : slice m pos n = bs) (hi : i + k ≤ n) :
    slice m (pos + i) k = (bs.drop i).take k := by
  rw [← h, slice_drop m pos (by omega), slice_take m (pos + i) (by omega)]

/-- A block that splits as a list splits as a block. -/
theorem slice_split {a b : List UInt8} (h : slice m pos n = a ++ b) :
    slice m pos a.length = a ∧ slice m (pos + a.length) b.length = b := by
  have hlen : n = a.length + b.length := by
    have := congrArg List.length h
    simpa using this
  subst hlen
  rw [slice_append] at h
  exact List.append_inj h (by simp)

/-- A list as the content of a buffer. -/
def ofList (bs : List UInt8) : Mem := fun i => bs.getD i 0

theorem slice_ofList {bs : List UInt8} {i : Nat} (h : i + k ≤ bs.length) :
    slice (ofList bs) i k = (bs.drop i).take k := by
  apply slice_eq_of_getD
  · simp only [List.length_take, List.length_drop]
    omega
  · intro j hj
    have hget : ((bs.drop i).take k)[j]? = bs[i + j]? := by
      rw [List.getElem?_take_of_lt hj, List.getElem?_drop]
    simp only [ofList, List.getD_eq_getElem?_getD, hget]

end Slice

/-! ### Writing blocks -/

section Write

variable {m : Mem} {pos q n : Nat} {bs : List UInt8}

theorem memcpy_apply_inside {i : Nat} (h : i < bs.length) :
    memcpy m pos bs (pos + i) = bs.getD i 0 := by
  have hin : pos ≤ pos + i ∧ pos + i < pos + bs.length := by omega
  simp only [memcpy, if_pos hin, Nat.add_sub_cancel_left]

theorem memcpy_apply_outside {i : Nat} (h : i < pos ∨ pos + bs.length ≤ i) :
    memcpy m pos bs i = m i := by
  have hout : ¬ (pos ≤ i ∧ i < pos + bs.length) := by omega
  simp only [memcpy, if_neg hout]

@[simp] theorem memcpy_nil (m : Mem) (pos : Nat) : memcpy m pos [] = m := by
  funext i
  exact memcpy_apply_outside (by simp; omega)

/-- A block is read back as it was written. -/
@[simp] theorem slice_memcpy_self (m : Mem) (pos : Nat) (bs : List UInt8) :
    slice (memcpy m pos bs) pos bs.length = bs := by
  apply slice_eq_of_getD rfl
  intro i hi
  exact memcpy_apply_inside hi

theorem slice_memcpy_self' (h : bs.length = n) : slice (memcpy m pos bs) pos n = bs := by
  subst h
  exact slice_memcpy_self m pos bs

/-- A write leaves every block apart from it alone. -/
theorem slice_memcpy_disjoint (h : q + n ≤ pos ∨ pos + bs.length ≤ q) :
    slice (memcpy m pos bs) q n = slice m q n := by
  apply slice_congr
  intro i hi
  exact memcpy_apply_outside (by omega)

/-- Writing at the end of a block extends it. -/
theorem slice_memcpy_extend (m : Mem) (q n : Nat) (bs : List UInt8) :
    slice (memcpy m (q + n) bs) q (n + bs.length) = slice m q n ++ bs := by
  rw [slice_append, slice_memcpy_self, slice_memcpy_disjoint (by omega)]

/-- Overwriting a part of a block. -/
theorem slice_memcpy_middle {a b b' c : List UInt8} (h : slice m q n = a ++ (b ++ c))
    (hlen : b'.length = b.length) :
    slice (memcpy m (q + a.length) b') q n = a ++ (b' ++ c) := by
  have hn : n = a.length + (b'.length + c.length) := by
    have := congrArg List.length h
    simp only [length_slice, List.length_append] at this
    omega
  obtain ⟨ha, hbc⟩ := slice_split h
  obtain ⟨-, hc⟩ := slice_split hbc
  rw [← hlen] at hc
  rw [hn, slice_append, slice_append, slice_memcpy_disjoint (Or.inl (Nat.le_refl _)), ha,
    slice_memcpy_self, slice_memcpy_disjoint (Or.inr (Nat.le_refl _)), hc]

/-- Adjacent writes are one write. -/
theorem memcpy_append (m : Mem) {a b : List UInt8} (h : q = pos + a.length) :
    memcpy (memcpy m pos a) q b = memcpy m pos (a ++ b) := by
  subst h
  funext i
  by_cases hb : pos + a.length ≤ i ∧ i < pos + a.length + b.length
  · obtain ⟨j, rfl⟩ := Nat.exists_eq_add_of_le hb.1
    have hj : j < b.length := by omega
    rw [memcpy_apply_inside hj, Nat.add_assoc, memcpy_apply_inside (by simp; omega),
      List.getD_append_right _ _ _ _ (by omega), Nat.add_sub_cancel_left]
  · rw [memcpy_apply_outside (by omega)]
    by_cases ha : pos ≤ i ∧ i < pos + a.length
    · obtain ⟨j, rfl⟩ := Nat.exists_eq_add_of_le ha.1
      have hj : j < a.length := by omega
      rw [memcpy_apply_inside hj, memcpy_apply_inside (by simp; omega),
        List.getD_append _ _ _ _ hj]
    · rw [memcpy_apply_outside (by omega), memcpy_apply_outside (by simp; omega)]

/-- Writes in the other order. -/
theorem memcpy_prepend (m : Mem) {a b : List UInt8} (h : q = pos + a.length) :
    memcpy (memcpy m q b) pos a = memcpy m pos (a ++ b) := by
  subst h
  rw [← memcpy_append m rfl]
  funext i
  by_cases ha : pos ≤ i ∧ i < pos + a.length
  · obtain ⟨j, rfl⟩ := Nat.exists_eq_add_of_le ha.1
    have hj : j < a.length := by omega
    rw [memcpy_apply_inside hj, memcpy_apply_outside (by omega), memcpy_apply_inside hj]
  · rw [memcpy_apply_outside (by omega)]
    by_cases hb : pos + a.length ≤ i ∧ i < pos + a.length + b.length
    · obtain ⟨j, rfl⟩ := Nat.exists_eq_add_of_le hb.1
      have hj : j < b.length := by omega
      rw [memcpy_apply_inside hj, memcpy_apply_inside hj]
    · rw [memcpy_apply_outside (by omega), memcpy_apply_outside (by omega),
        memcpy_apply_outside (by omega)]

/-- The block read back after `memmove` is the one that was there at the source. -/
theorem slice_memmove_self (m : Mem) (dst src n : Nat) :
    slice (memmove m dst src n) dst n = slice m src n :=
  slice_memcpy_self' (by simp)

theorem slice_memmove_disjoint {dst src k : Nat} (h : q + n ≤ dst ∨ dst + k ≤ q) :
    slice (memmove m dst src k) q n = slice m q n :=
  slice_memcpy_disjoint (by simpa using h)

theorem memmove_apply_inside {dst src k i : Nat} (h : i < k) :
    memmove m dst src k (dst + i) = m (src + i) := by
  rw [memmove, memcpy_apply_inside (by rw [length_slice]; exact h), getD_slice h]

theorem memmove_apply_outside {dst src k i : Nat} (h : i < dst ∨ dst + k ≤ i) :
    memmove m dst src k i = m i :=
  memcpy_apply_outside (by simpa using h)

end Write

/-! ### Fixed-width integers -/

/-- What holds of the 256 bytes holds of every byte. -/
theorem forall_byte {P : UInt8 → Prop} (h : ∀ n, n < 256 → P (UInt8.ofNat n)) (b : UInt8) :
    P b := by
  have hb := h b.toNat b.toNat_lt
  rwa [UInt8.ofNat_toNat] at hb

/-- The low `k` bytes of `n`, most significant first. -/
def beBytes : Nat → Nat → List UInt8
  | 0, _ => []
  | k + 1, n => beBytes k (n / 256) ++ [UInt8.ofNat n]

/-- The integer whose bytes are `bs`, most significant first. -/
def beNat (bs : List UInt8) : Nat :=
  bs.foldl (fun acc b => acc * 256 + b.toNat) 0

/-- The low `k` bytes of `n`, least significant first. -/
def leBytes (k n : Nat) : List UInt8 := (beBytes k n).reverse

/-- The integer whose bytes are `bs`, least significant first. -/
def leNat (bs : List UInt8) : Nat := beNat bs.reverse

@[simp] theorem length_beBytes (k n : Nat) : (beBytes k n).length = k := by
  induction k generalizing n with
  | zero => rfl
  | succ k ih => simp [beBytes, ih]

@[simp] theorem length_leBytes (k n : Nat) : (leBytes k n).length = k := by
  simp [leBytes]

/-- The most significant byte stands first. -/
theorem beBytes_succ (k n : Nat) :
    beBytes (k + 1) n = UInt8.ofNat (n / 256 ^ k) :: beBytes k n := by
  induction k generalizing n with
  | zero => simp [beBytes]
  | succ k ih =>
    rw [beBytes, ih, Nat.div_div_eq_div_mul, ← Nat.pow_succ']
    rfl

theorem beNat_snoc (bs : List UInt8) (b : UInt8) :
    beNat (bs ++ [b]) = beNat bs * 256 + b.toNat := by
  simp [beNat, List.foldl_append]

/-- A `k`-byte integer is below `256 ^ k`. -/
theorem beNat_lt (bs : List UInt8) : beNat bs < 256 ^ bs.length := by
  induction bs using List.reverseRecOn with
  | nil => simp [beNat]
  | append_singleton bs b ih =>
    have hb := b.toNat_lt
    rw [beNat_snoc, List.length_append, List.length_singleton, Nat.pow_succ]
    omega

/-- Storing and loading keeps what fits in the field. -/
theorem beNat_beBytes (k n : Nat) : beNat (beBytes k n) = n % 256 ^ k := by
  induction k generalizing n with
  | zero => simp [beBytes, beNat, Nat.mod_one]
  | succ k ih =>
    have hbyte : (UInt8.ofNat n).toNat = n % 256 := UInt8.toNat_ofNat'
    rw [beBytes, beNat_snoc, ih, hbyte, Nat.pow_succ', Nat.mod_mul]
    omega

theorem leNat_leBytes (k n : Nat) : leNat (leBytes k n) = n % 256 ^ k := by
  rw [leNat, leBytes, List.reverse_reverse, beNat_beBytes]

/-- Big-endian load of `k` bytes. -/
def loadBE (m : Mem) (pos k : Nat) : Nat := beNat (slice m pos k)

/-- Big-endian store of `k` bytes. -/
def storeBE (m : Mem) (pos k n : Nat) : Mem := memcpy m pos (beBytes k n)

/-- Little-endian load of `k` bytes. -/
def loadLE (m : Mem) (pos k : Nat) : Nat := leNat (slice m pos k)

/-- Little-endian store of `k` bytes. -/
def storeLE (m : Mem) (pos k n : Nat) : Mem := memcpy m pos (leBytes k n)

theorem loadBE_lt (m : Mem) (pos k : Nat) : loadBE m pos k < 256 ^ k := by
  have h := beNat_lt (slice m pos k)
  rwa [length_slice] at h

theorem loadBE_congr {m m' : Mem} {pos pos' k : Nat}
    (h : ∀ i, i < k → m (pos + i) = m' (pos' + i)) : loadBE m pos k = loadBE m' pos' k := by
  rw [loadBE, loadBE, slice_congr h]

theorem loadLE_congr {m m' : Mem} {pos pos' k : Nat}
    (h : ∀ i, i < k → m (pos + i) = m' (pos' + i)) : loadLE m pos k = loadLE m' pos' k := by
  rw [loadLE, loadLE, slice_congr h]

theorem loadBE_storeBE (m : Mem) (pos k n : Nat) :
    loadBE (storeBE m pos k n) pos k = n % 256 ^ k := by
  rw [loadBE, storeBE, slice_memcpy_self' (by simp), beNat_beBytes]

theorem loadLE_storeLE (m : Mem) (pos k n : Nat) :
    loadLE (storeLE m pos k n) pos k = n % 256 ^ k := by
  rw [loadLE, storeLE, slice_memcpy_self' (by simp), leNat_leBytes]

theorem storeBE_apply_outside {m : Mem} {pos k n i : Nat} (h : i < pos ∨ pos + k ≤ i) :
    storeBE m pos k n i = m i :=
  memcpy_apply_outside (by simpa using h)

theorem storeLE_apply_outside {m : Mem} {pos k n i : Nat} (h : i < pos ∨ pos + k ≤ i) :
    storeLE m pos k n i = m i :=
  memcpy_apply_outside (by simpa using h)

/-! ### The scanning loop -/

/-- The number of steps of `while (i < n && p(i)) i++` from `i = 0`. -/
def scanWhile (p : Nat → Bool) : Nat → Nat
  | 0 => 0
  | n + 1 => if p 0 then scanWhile (fun i => p (i + 1)) n + 1 else 0

theorem scanWhile_le (p : Nat → Bool) (n : Nat) : scanWhile p n ≤ n := by
  induction n generalizing p with
  | zero => simp [scanWhile]
  | succ n ih =>
    have := ih fun i => p (i + 1)
    unfold scanWhile
    split <;> omega

/-- Every position the loop went over satisfies the test. -/
theorem scanWhile_spec {p : Nat → Bool} {n i : Nat} (h : i < scanWhile p n) : p i = true := by
  induction n generalizing p i with
  | zero => simp [scanWhile] at h
  | succ n ih =>
    unfold scanWhile at h
    split at h
    · rename_i h0
      cases i with
      | zero => exact h0
      | succ i => exact ih (p := fun i => p (i + 1)) (by omega)
    · omega

end Solowan.Memory
