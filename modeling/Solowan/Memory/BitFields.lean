/-
Fields of a machine word.

A field is a mask. It is read by masking the word, and written by clearing the mask and adding
the new bits where they belong. The addition is an exclusive one only while these bits lie
under the mask: any other value carries into the bits above it, where no later write to the
field finds it.

* `writeField_and_self`, `writeField_and_of_disjoint`: a field is read back as it was written,
  and the fields apart from it are unchanged.
* `getLsbD_writeField`: the bits that are set after a write were set before it, or lie under the
  mask.
-/

namespace Solowan.Memory

section BitFields

variable {w : Nat} {word mask mask' bits : BitVec w}

/-- `(word & ~mask) + bits`. -/
def writeField (word mask bits : BitVec w) : BitVec w := (word &&& ~~~mask) + bits

/-- The bits lie under the mask. -/
def Under (bits mask : BitVec w) : Prop := bits &&& mask = bits

instance (bits mask : BitVec w) : Decidable (Under bits mask) :=
  inferInstanceAs (Decidable (bits &&& mask = bits))

/-- Where the value fits, nothing carries. -/
theorem writeField_eq_or (h : Under bits mask) :
    writeField word mask bits = (word &&& ~~~mask) ||| bits := by
  apply BitVec.add_eq_or_of_and_eq_zero
  rw [← h]
  ext i
  simp only [BitVec.getElem_and, BitVec.getElem_not, BitVec.getElem_zero]
  cases mask[i] <;> simp

/-- A field is read back as it was written. -/
theorem writeField_and_self (h : Under bits mask) : writeField word mask bits &&& mask = bits := by
  rw [writeField_eq_or h]
  refine Eq.trans ?_ h
  ext i
  simp only [BitVec.getElem_and, BitVec.getElem_or, BitVec.getElem_not]
  cases mask[i] <;> simp

/-- A field apart from it is not touched. -/
theorem writeField_and_of_disjoint (h : Under bits mask) (hdisjoint : mask &&& mask' = 0) :
    writeField word mask bits &&& mask' = word &&& mask' := by
  rw [writeField_eq_or h, ← h]
  ext i hi
  have hbit : (mask[i] && mask'[i]) = false := by
    rw [← BitVec.getElem_and, hdisjoint]
    exact BitVec.getElem_zero hi
  simp only [BitVec.getElem_and, BitVec.getElem_or, BitVec.getElem_not]
  cases hm : mask[i] with
  | false => simp
  | true =>
    rw [hm, Bool.true_and] at hbit
    simp [hbit]

/-- Where a bit comes from. -/
theorem getLsbD_writeField (h : Under bits mask) {i : Nat}
    (hbit : (writeField word mask bits).getLsbD i = true) :
    word.getLsbD i = true ∨ mask.getLsbD i = true := by
  rw [writeField_eq_or h, ← h] at hbit
  simp only [BitVec.getLsbD_or, BitVec.getLsbD_and, Bool.or_eq_true, Bool.and_eq_true] at hbit
  rcases hbit with hword | hnew
  · exact Or.inl hword.1
  · exact Or.inr hnew.2

end BitFields

end Solowan.Memory
