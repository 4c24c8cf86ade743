/-
A reading pointer with a 16-bit count of the bytes left.

Decoders of untrusted input carry a pair `(p, len)`: every field is read at `p`,
then `p` is advanced and `len` decremented by the size of the field. Nothing ties
the two together: when `len` is smaller than the field, the read goes past the end
of the input and the unsigned counter wraps around. `Cursor` is that pair, with a
log of the blocks that were read and a flag that records whether the counter ever
wrapped, so that "the decoder stays inside its input" is a statement about the
cursor it ends with (`Cursor.Within`).

`Cursor.within_advance_iff` is the only fact a decoder's bounds proof needs: one
step keeps the cursor inside exactly when the field fits in what is left.
-/

import Solowan.Memory.Buffer

namespace Solowan.Memory

/-- A reading position, the 16-bit count of the bytes left, the blocks
`(offset, size)` read so far and whether the count has wrapped. -/
structure Cursor where
  pos : Nat
  left : Nat
  reads : List (Nat × Nat)
  wrapped : Bool

namespace Cursor

/-- At the start of an input of `len` bytes. -/
def start (len : Nat) : Cursor := ⟨0, len, [], false⟩

/-- Read `n` bytes: `p += n; len -= n` on a `uint16_t len`. -/
def advance (c : Cursor) (n : Nat) : Cursor :=
  { pos := c.pos + n
    left := (c.left + 65536 - n) % 65536
    reads := (c.pos, n) :: c.reads
    wrapped := c.wrapped || decide (c.left < n) }

/-- Read everything that is left: `len = 0`, the pointer stays. -/
def drain (c : Cursor) : Cursor :=
  { c with left := 0, reads := (c.pos, c.left) :: c.reads }

/-- Every byte read lies below `len` and the counter has not gone below zero. -/
def InBounds (c : Cursor) (len : Nat) : Prop :=
  c.wrapped = false ∧ ∀ r ∈ c.reads, ∀ i, i < r.2 → r.1 + i < len

/-- The cursor is inside an input of `len` bytes: its reads are in bounds and what
it believes is left is really there. -/
structure Within (c : Cursor) (len : Nat) : Prop where
  not_wrapped : c.wrapped = false
  room : c.pos + c.left ≤ len
  narrow : c.left < 65536
  reads_le : ∀ r ∈ c.reads, r.1 + r.2 ≤ len

variable {c : Cursor} {len n : Nat}

theorem within_start (h : len < 65536) : (start len).Within len where
  not_wrapped := rfl
  room := by simp [start]
  narrow := h
  reads_le := by simp [start]

theorem Within.inBounds (h : c.Within len) : c.InBounds len := by
  refine ⟨h.not_wrapped, ?_⟩
  intro r hr i hi
  have := h.reads_le r hr
  omega

/-- A wrapped counter is never repaired. -/
theorem wrapped_advance (h : c.wrapped = true) (n : Nat) : (c.advance n).wrapped = true := by
  simp [advance, h]

theorem wrapped_drain (h : c.wrapped = true) : c.drain.wrapped = true := h

theorem left_advance (h : c.Within len) (hn : n ≤ c.left) : (c.advance n).left = c.left - n := by
  have := h.narrow
  simp only [advance]
  omega

/-- One field is read inside the input exactly when it fits in what is left. -/
theorem within_advance_iff (h : c.Within len) : (c.advance n).Within len ↔ n ≤ c.left := by
  constructor
  · intro hw
    have hflag := hw.not_wrapped
    simp only [advance, h.not_wrapped, Bool.false_or, decide_eq_false_iff_not] at hflag
    omega
  · intro hn
    have hroom := h.room
    have hleft := left_advance h hn
    refine ⟨?_, ?_, ?_, ?_⟩
    · simp only [advance, h.not_wrapped, Bool.false_or, decide_eq_false_iff_not]
      omega
    · rw [hleft]
      simp only [advance]
      omega
    · simp only [advance]
      omega
    · intro r hr
      simp only [advance, List.mem_cons] at hr
      rcases hr with rfl | hr
      · simp only
        omega
      · exact h.reads_le r hr

theorem wrapped_advance_of_lt (h : c.left < n) : (c.advance n).wrapped = true := by
  simp [advance, h]

theorem within_drain (h : c.Within len) : c.drain.Within len := by
  have hroom := h.room
  refine ⟨h.not_wrapped, ?_, ?_, ?_⟩
  · simp only [drain]
    omega
  · simp [drain]
  · intro r hr
    simp only [drain, List.mem_cons] at hr
    rcases hr with rfl | hr
    · exact hroom
    · exact h.reads_le r hr

end Cursor

end Solowan.Memory
