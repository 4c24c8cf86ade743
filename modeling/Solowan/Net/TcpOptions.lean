/-
TCP options (`opennopd/tcpoptions.c`).

Both functions walk over the option area with an 8-bit index and the step `optlen`. The
area ends where the data offset says; with a data offset below 5 its length wraps to a
huge `size_t`, and a long option wraps the index, so that a walk need not end. A call that
does not return is `none` here: its walk does not end, or it moves a block of a negative
length.

* `getTcpOption_head`, `setTcpOption_head`: an option that is the first of the area is
  found, and is overwritten in place.
-/

import Mathlib.Data.List.Basic
import Solowan.Net.Headers

namespace Solowan.Net

open Solowan.Memory

def TCPOPT_EOL : UInt8 := 0

def TCPOPT_NOP : UInt8 := 1

/-- The offset of the option area. -/
def opt (m : Mem) : Nat := tcph m + TCPHDR

/-- `tcph->doff*4 - sizeof(struct tcphdr)`, a `size_t`. -/
def optArea (m : Mem) : Nat := (((doff m : Int) * 4 - TCPHDR) % 18446744073709551616).toNat

def optlen (m : Mem) (opt offset : Nat) : Nat :=
  if m (opt + offset) ≤ TCPOPT_NOP ∨ m (opt + offset + 1) = 0 then 1
  else (m (opt + offset + 1)).toNat

/-- The index is 8 bits wide, so that a walk that ends takes at most so many steps. -/
def WALK : Nat := 257

/-- The loop `for (i = 0; i < limit; i += optlen(opt, i))`, up to the first index that
satisfies `p`. -/
def walk (m : Mem) (opt limit : Nat) (p : Nat → Bool) : Nat → Nat → Option (Option Nat)
  | 0, _ => none
  | fuel + 1, i =>
    if i < limit then
      if p i then some (some i) else walk m opt limit p fuel ((i + optlen m opt i) % 256)
    else some none

/-! ### `__get_tcp_option` -/

/-- `opt[..] << 8 * count`, an `int` that is added to a `__u64`. -/
def shifted (b : UInt8) (count : Nat) : UInt64 :=
  (b.toUInt32 <<< UInt32.ofNat (8 * count)).toInt32.toInt64.toUInt64

/-- The loop over the data bytes of the option at `pos`. -/
def optionData (m : Mem) (pos : Nat) : Nat → Nat → UInt64 → UInt64
  | 0, _, tcpoptdata => tcpoptdata
  | count + 1, bytefield, tcpoptdata =>
    optionData m pos count ((bytefield + 1) % 256)
      (tcpoptdata + shifted (m (pos + bytefield)) count)

def optionValue (m : Mem) (pos : Nat) : UInt64 :=
  if m (pos + 1) = 2 then 1 else optionData m pos (m (pos + 1) - 2).toNat 2 0

def getTcpOption (m : Mem) (tcpoptnum : UInt8) : Option UInt64 :=
  let found := walk m (opt m) (optArea m) (fun i =>
    m (opt m + i) == tcpoptnum &&
      decide (i + (m (opt m + i + 1)).toNat ≤ doff m * 4)) WALK 0
  found.map fun
    | none => 0
    | some i => optionValue m (opt m + i)

/-! ### `__set_tcp_option` -/

/-- The loop that writes `count` data bytes of the option at `pos`. -/
def writeData (pos : Nat) (tcpoptdata : UInt64) : Nat → Nat → Mem → Mem
  | 0, _, m => m
  | count + 1, bytefield, m =>
    writeData pos tcpoptdata count ((bytefield + 1) % 256)
      (memcpy m (pos + bytefield) [(tcpoptdata >>> UInt64.ofNat (8 * count)).toUInt8])

/-- `count = tcpoptlen - 2`, a `__u8`. -/
def dataCount (tcpoptlen : Nat) : Nat := (tcpoptlen + 254) % 256

/-- `while (opt[i] == TCPOPT_NOP)`: the rest of the area moves up by a byte, and a zero
comes in behind it. -/
def dropNops (opt limit i : Nat) : Nat → Mem → Mem
  | 0, m => m
  | fuel + 1, m =>
    if m (opt + i) = TCPOPT_NOP then
      dropNops opt limit i fuel
        (memcpy (memmove m (opt + i) (opt + i + 1) (limit - i - 1)) (opt + limit - 1) [0])
    else m

/-- The loop that removes every `TCPOPT_NOP`, with the free space `optspace` it finds
behind the options. -/
def compact (opt limit : Nat) : Nat → Nat → Mem → Option (Mem × Nat)
  | 0, _, _ => none
  | fuel + 1, i, m =>
    if i < limit then
      let m := dropNops opt limit i limit m
      if m (opt + i) = TCPOPT_EOL then some (m, limit - i)
      else compact opt limit fuel ((i + optlen m opt i) % 256) m
    else some (m, 0)

/-- Dwords to add to an area with `optspace` free bytes. -/
def addOff (optspace tcpoptlen : Nat) : Nat :=
  if optspace < tcpoptlen then
    let spaceneeded := (tcpoptlen - optspace) % 256
    if spaceneeded % 4 ≠ 0 then spaceneeded / 4 + 1 else spaceneeded / 4
  else 0

/-- Make room behind the options: the TCP data moves back, zeros come in front of it. -/
def growOptions (m : Mem) (addoff : Nat) : Mem :=
  if addoff ≠ 0 then
    memcpy (memmove m (tcpdata m + addoff * 4) (tcpdata m)
      (totLen m - ihl m * 4 - doff m * 4)) (tcpdata m) (List.replicate (addoff * 4) 0)
  else m

/-- Write an option in front of the others. -/
def writeOption (m : Mem) (tcpoptnum tcpoptlen : Nat) (tcpoptdata : UInt64) (optspace : Nat) :
    Mem :=
  let o := opt m
  let m := memmove m (o + tcpoptlen) o (doff m * 4 - TCPHDR - optspace)
  let m := memcpy m o [UInt8.ofNat tcpoptnum, UInt8.ofNat tcpoptlen]
  writeData o tcpoptdata (dataCount tcpoptlen) 2 m

/-- Write an option in front of the others, and adjust the lengths in the headers. -/
def putOption (m : Mem) (tcpoptnum tcpoptlen : Nat) (tcpoptdata : UInt64)
    (optspace addoff : Nat) : Mem :=
  let m := writeOption m tcpoptnum tcpoptlen tcpoptdata optspace
  let m := if addoff ≠ 0 then setDoff m (doff m + addoff) else m
  setTotLen m (totLen m + addoff * 4)

/-- What follows the two loops of `__set_tcp_option`. The lengths of the blocks it moves
are negative when the data offset is below 5, or past the end of the packet. -/
def insertOption (m : Mem) (tcpoptnum tcpoptlen : Nat) (tcpoptdata : UInt64)
    (optspace : Nat) : Option (Int × Mem) :=
  let addoff := addOff optspace tcpoptlen
  if doff m + addoff ≤ 15 then
    if doff m < 5 ∨ addoff ≠ 0 ∧ totLen m < ihl m * 4 + doff m * 4 then none
    else some (0, putOption (growOptions m addoff) tcpoptnum tcpoptlen tcpoptdata optspace addoff)
  else some (-1, m)

def setTcpOption (m : Mem) (tcpoptnum tcpoptlen : Nat) (tcpoptdata : UInt64) :
    Option (Int × Mem) :=
  let found :=
    if doff m > 5 then
      walk m (opt m) (optArea m) (fun i =>
        decide ((m (opt m + i)).toNat = tcpoptnum) && decide (i + tcpoptlen ≤ doff m * 4) &&
          decide ((m (opt m + i + 1)).toNat = tcpoptlen)) WALK 0
    else some none
  match found with
  | none => none
  | some (some i) => some (0, writeData (opt m + i) tcpoptdata (dataCount tcpoptlen) 2 m)
  | some none =>
    match if doff m > 5 then compact (opt m) (optArea m) (WALK * WALK) 0 m else some (m, 0) with
    | none => none
    | some (m, optspace) => insertOption m tcpoptnum tcpoptlen tcpoptdata optspace

/-! ### An option at the front of the area -/

section Head

variable {m : Mem}

theorem optArea_of_le (h : 5 ≤ doff m) : optArea m = 4 * doff m - TCPHDR := by
  have := doff_lt m
  unfold optArea TCPHDR
  omega

/-- The three bytes of an option with one byte of data. -/
def shortOption (tcpoptnum value : UInt8) : List UInt8 := [tcpoptnum, 3, value]

theorem shortOption_bytes {num value : UInt8} {o : Nat}
    (h : slice m o 3 = shortOption num value) :
    m o = num ∧ m (o + 1) = 3 ∧ m (o + 2) = value :=
  ⟨apply_of_slice_eq h (show 0 < 3 by decide), apply_of_slice_eq h (show 1 < 3 by decide),
    apply_of_slice_eq h (show 2 < 3 by decide)⟩

set_option maxRecDepth 4000 in
/-- The last data byte of an option is added as it is, -/
theorem shifted_zero (b : UInt8) : shifted b 0 = UInt64.ofNat b.toNat := by
  revert b
  exact forall_byte (by decide)

set_option maxRecDepth 4000 in
/-- and the one before it stands 8 bits higher. -/
theorem shifted_one (b : UInt8) : shifted b 1 = UInt64.ofNat (b.toNat * 256) := by
  revert b
  exact forall_byte (by decide)

/-- The value of an option that is the first of the area. -/
theorem getTcpOption_head {num value : UInt8} (hdoff : 6 ≤ doff m)
    (h : slice m (opt m) 3 = shortOption num value) :
    getTcpOption m num = some value.toUInt64 := by
  obtain ⟨h0, h1, h2⟩ := shortOption_bytes h
  have hlen : (m (opt m + 0 + 1)).toNat ≤ doff m * 4 := by
    rw [Nat.add_zero, h1]
    have : (3 : UInt8).toNat = 3 := rfl
    omega
  have harea : 0 < optArea m := by
    rw [optArea_of_le (by omega)]
    simp only [TCPHDR]
    omega
  have hvalue : optionValue m (opt m + 0) = value.toUInt64 := by
    have hshift : ∀ b : UInt8, (0 : UInt64) + shifted b 0 = b.toUInt64 := fun b => by
      rw [UInt64.zero_add, shifted_zero]
      simp
    rw [Nat.add_zero, optionValue, h1, if_neg (by decide)]
    exact (congrArg (fun b => 0 + shifted b 0) h2).trans (hshift value)
  rw [getTcpOption, WALK, walk, if_pos harea, if_pos (by simp [h0, hlen]), Option.map_some]
  exact congrArg some hvalue

/-- Overwriting an option that is the first of the area. -/
theorem setTcpOption_head {num value new : UInt8} (hdoff : 6 ≤ doff m)
    (h : slice m (opt m) 3 = shortOption num value) :
    setTcpOption m num.toNat 3 new.toUInt64 = some (0, memcpy m (opt m + 2) [new]) := by
  obtain ⟨h0, h1, -⟩ := shortOption_bytes h
  have harea : 0 < optArea m := by
    rw [optArea_of_le (by omega)]
    simp only [TCPHDR]
    omega
  have hfound : (decide ((m (opt m + 0)).toNat = num.toNat) && decide (0 + 3 ≤ doff m * 4) &&
      decide ((m (opt m + 0 + 1)).toNat = 3)) = true := by
    rw [Nat.add_zero, h0, h1]
    simp only [Bool.and_eq_true, decide_eq_true_eq]
    exact ⟨⟨trivial, by omega⟩, rfl⟩
  have hbyte : ∀ b : UInt8, (b.toUInt64 >>> UInt64.ofNat (8 * 0)).toUInt8 = b := by simp
  rw [setTcpOption, if_pos (by omega), WALK, walk, if_pos harea, if_pos hfound]
  simp only [dataCount, writeData, hbyte, Nat.add_zero, Nat.reduceAdd, Nat.reduceMod]

end Head

/-! ### What no call touches -/

section Frame

variable {m : Mem}

theorem writeData_apply (pos : Nat) (data : UInt64) {i : Nat} (h : i < pos)
    (count bytefield : Nat) (m : Mem) : writeData pos data count bytefield m i = m i := by
  induction count generalizing bytefield m with
  | zero => rfl
  | succ count ih =>
    rw [writeData, ih]
    exact memcpy_apply_outside (by omega)

theorem dropNops_outside {o i limit : Nat} (hi : i < limit) {j : Nat} (h : j < o + i ∨ o + limit ≤ j) (fuel : Nat)
    (m : Mem) : dropNops o limit i fuel m j = m j := by
  induction fuel generalizing m with
  | zero => rfl
  | succ fuel ih =>
    rw [dropNops]
    split
    · rw [ih, memcpy_apply_outside (by simp only [List.length_singleton]; omega),
        memmove_apply_outside (by omega)]
    · rfl

/-- The removal of no-operations stays inside the area. -/
theorem compact_outside {o limit i fuel space : Nat} {m m' : Mem}
    (hrun : compact o limit fuel i m = some (m', space)) :
    (∀ j, j < o ∨ o + limit ≤ j → m' j = m j) ∧ space ≤ limit := by
  induction fuel generalizing i m with
  | zero => cases hrun
  | succ fuel ih =>
    rw [compact] at hrun
    by_cases hi : i < limit
    · rw [if_pos hi] at hrun
      dsimp only at hrun
      have hdrop : ∀ j, j < o ∨ o + limit ≤ j → dropNops o limit i limit m j = m j :=
        fun j hj => dropNops_outside hi (by omega) limit m
      by_cases hend : dropNops o limit i limit m (o + i) = TCPOPT_EOL
      · rw [if_pos hend] at hrun
        cases hrun
        exact ⟨hdrop, Nat.sub_le _ _⟩
      · rw [if_neg hend] at hrun
        obtain ⟨hframe, hspace⟩ := ih hrun
        exact ⟨fun j hj => (hframe j hj).trans (hdrop j hj), hspace⟩
    · rw [if_neg hi] at hrun
      cases hrun
      exact ⟨fun _ _ => rfl, Nat.zero_le _⟩

/-- Where the fixed headers are the same bytes, they read the same. -/
theorem sameHeaders_of_apply {m' : Mem} (h : ∀ i, i < tcph m + TCPHDR → m' i = m i) :
    SameHeaders m m' := by
  simp only [TCPHDR] at h
  have hkept : Kept m m' := fun i hi _ => h i hi
  exact ⟨⟨hkept, doff_congr hkept.ihl (h _ (by omega)),
    seq_congr hkept.ihl fun i hi => h _ (by omega)⟩, totLen_congr fun i hi => h _ (by omega)⟩

/-- Making room and writing the option leave the fixed headers alone. -/
theorem sameHeaders_writeOption {num len space addoff : Nat} {data : UInt64} (hdoff : 5 ≤ doff m) :
    SameHeaders m (writeOption (growOptions m addoff) num len data space) := by
  have hdata := tcph_le_tcpdata hdoff
  have hgrow : SameHeaders m (growOptions m addoff) := by
    unfold growOptions
    split
    · exact sameHeaders_of_apply fun j hj => by
        rw [memcpy_apply_outside (by omega), memmove_apply_outside (by omega)]
    · exact SameHeaders.refl m
  refine hgrow.trans (sameHeaders_of_apply fun j hj => ?_)
  rw [writeOption, writeData_apply _ _ (by rw [opt]; omega),
    memcpy_apply_outside (by rw [opt]; omega), memmove_apply_outside (by rw [opt]; omega)]

theorem addOff_le (space len : Nat) : addOff space len ≤ (len + 3) / 4 := by
  unfold addOff
  dsimp only
  split
  · split <;> omega
  · exact Nat.zero_le _

/-- The two lengths grow together, and by no more than the option needs. -/
theorem insertOption_lengths {num len space : Nat} {data : UInt64} {r : Int} {m' : Mem}
    (h : insertOption m num len data space = some (r, m')) (hdoff : 5 ≤ doff m) :
    ∃ k, k ≤ (len + 3) / 4 ∧ doff m' = doff m + k ∧ totLen m' = (totLen m + 4 * k) % 65536 := by
  unfold insertOption at h
  dsimp only at h
  split at h
  · rename_i hroom
    split at h
    · cases h
    · cases h
      obtain ⟨addoff, hadd⟩ : ∃ addoff, addOff space len = addoff := ⟨_, rfl⟩
      have hle := addOff_le space len
      rw [hadd] at hroom hle ⊢
      have hwrite : SameHeaders m (writeOption (growOptions m addoff) num len data space) :=
        sameHeaders_writeOption hdoff
      refine ⟨addoff, hle, ?_, ?_⟩
      · unfold putOption
        dsimp only
        split
        · rw [doff_setTotLen, doff_setDoff, hwrite.doff]
          omega
        · rw [doff_setTotLen, hwrite.doff]
          omega
      · unfold putOption
        dsimp only
        rw [totLen_setTotLen]
        split
        · rw [totLen_setDoff, hwrite.totLen, Nat.mul_comm]
        · rw [hwrite.totLen, Nat.mul_comm]
  · cases h
    refine ⟨0, Nat.zero_le _, rfl, ?_⟩
    rw [Nat.mul_zero, Nat.add_zero, Nat.mod_eq_of_lt (totLen_lt m)]

theorem insertOption_kept {num len space : Nat} {data : UInt64} {r : Int} {m' : Mem}
    (h : insertOption m num len data space = some (r, m')) :
    Kept m m' ∧ seq m' = seq m ∧ (r ≠ -1 → 5 ≤ doff m') := by
  unfold insertOption at h
  dsimp only at h
  split at h
  · rename_i hroom
    split at h
    · cases h
    · rename_i hneg
      cases h
      obtain ⟨addoff, hadd⟩ : ∃ addoff, addOff space len = addoff := ⟨_, rfl⟩
      rw [hadd] at hroom ⊢
      have hwrite : SameHeaders m (writeOption (growOptions m addoff) num len data space) :=
        sameHeaders_writeOption (by omega)
      unfold putOption
      dsimp only
      split
      · refine ⟨(hwrite.kept.trans (kept_setDoff _ _)).trans (kept_setTotLen _ _), ?_, ?_⟩
        · rw [seq_setTotLen, seq_setDoff, hwrite.seq]
        · intro _
          rw [doff_setTotLen, doff_setDoff, hwrite.doff]
          omega
      · refine ⟨hwrite.kept.trans (kept_setTotLen _ _), ?_, ?_⟩
        · rw [seq_setTotLen, hwrite.seq]
        · intro _
          rw [doff_setTotLen, hwrite.doff]
          omega
  · cases h
    exact ⟨Kept.refl m, rfl, fun hr => absurd rfl hr⟩

/-- So does the removal of no-operations. -/
theorem sameHeaders_compacted {m₁ : Mem} {space : Nat}
    (h : (if doff m > 5 then compact (opt m) (optArea m) (WALK * WALK) 0 m else some (m, 0)) =
      some (m₁, space)) : SameHeaders m m₁ := by
  split at h
  · exact sameHeaders_of_apply fun j hj => (compact_outside h).1 j (Or.inl hj)
  · cases h
    exact SameHeaders.refl m

/-- And so does an option that is found and overwritten. It was found behind a TCP header. -/
theorem sameHeaders_found {w : Option (Option Nat)} {i : Nat} (data : UInt64) (len : Nat)
    (h : (if doff m > 5 then w else some none) = some (some i)) :
    5 < doff m ∧ SameHeaders m (writeData (opt m + i) data (dataCount len) 2 m) := by
  split at h
  · rename_i hdoff
    exact ⟨hdoff, sameHeaders_of_apply fun j hj => writeData_apply _ _ (by rw [opt]; omega) _ _ _⟩
  · cases h

/-- Whatever the option area holds, a call that returns leaves the headers alone but for
the two lengths, and one that succeeds leaves a data offset of at least 5. -/
theorem setTcpOption_kept {num len : Nat} {data : UInt64} {r : Int} {m' : Mem}
    (h : setTcpOption m num len data = some (r, m')) :
    Kept m m' ∧ seq m' = seq m ∧ (r ≠ -1 → 5 ≤ doff m') := by
  unfold setTcpOption at h
  dsimp only at h
  split at h
  · cases h
  · rename_i i hfound
    cases h
    obtain ⟨hdoff, hsame⟩ := sameHeaders_found data len hfound
    refine ⟨hsame.kept, hsame.seq, fun _ => ?_⟩
    rw [hsame.doff]
    omega
  · split at h
    · cases h
    · rename_i m₁ space hcompact
      have hsame := sameHeaders_compacted hcompact
      obtain ⟨hkept, hseq, hdoff⟩ := insertOption_kept h
      exact ⟨hsame.kept.trans hkept, hseq.trans hsame.seq, hdoff⟩

/-- The two lengths grow together. -/
theorem setTcpOption_lengths {num len : Nat} {data : UInt64} {r : Int} {m' : Mem}
    (h : setTcpOption m num len data = some (r, m')) (hdoff : 5 ≤ doff m) :
    ∃ k, k ≤ (len + 3) / 4 ∧ doff m' = doff m + k ∧ totLen m' = (totLen m + 4 * k) % 65536 := by
  unfold setTcpOption at h
  dsimp only at h
  split at h
  · cases h
  · rename_i i hfound
    cases h
    obtain ⟨-, hsame⟩ := sameHeaders_found data len hfound
    refine ⟨0, Nat.zero_le _, hsame.doff, ?_⟩
    rw [hsame.totLen, Nat.mul_zero, Nat.add_zero, Nat.mod_eq_of_lt (totLen_lt m)]
  · split at h
    · cases h
    · rename_i m₁ space hcompact
      have hsame := sameHeaders_compacted hcompact
      rw [← hsame.doff] at hdoff
      obtain ⟨k, hk, hd, htot⟩ := insertOption_lengths h hdoff
      refine ⟨k, hk, ?_, ?_⟩
      · rw [hd, hsame.doff]
      · rw [htot, hsame.totLen]

/-- The data offset does not fall below 5. -/
theorem setTcpOption_doff {num len : Nat} {data : UInt64} {r : Int} {m' : Mem}
    (h : setTcpOption m num len data = some (r, m')) (hdoff : 5 ≤ doff m) : 5 ≤ doff m' := by
  obtain ⟨k, -, hd, -⟩ := setTcpOption_lengths h hdoff
  omega

end Frame

/-! ### What a look at an option reads -/

section Reads

variable {m m' : Mem} {o limit pos : Nat} {p p' : Nat → Bool}

theorem walk_congr (hp : ∀ i, i < 256 → p' i = p i)
    (hlen : ∀ i, i < 256 → optlen m' o i = optlen m o i) (fuel : Nat) {i : Nat} (hi : i < 256) :
    walk m' o limit p' fuel i = walk m o limit p fuel i := by
  induction fuel generalizing i with
  | zero => rfl
  | succ fuel ih => rw [walk, walk, hp i hi, hlen i hi, ih (Nat.mod_lt _ (by decide))]

/-- The index a walk stops at has 8 bits. -/
theorem walk_lt {fuel i j : Nat} (hi : i < 256) (h : walk m o limit p fuel i = some (some j)) :
    j < 256 := by
  induction fuel generalizing i with
  | zero => cases h
  | succ fuel ih =>
    rw [walk] at h
    split at h
    · split at h
      · cases h
        exact hi
      · exact ih (Nat.mod_lt _ (by decide)) h
    · cases h

theorem optionData_congr (h : ∀ i, i < 256 → m' (pos + i) = m (pos + i)) (count : Nat)
    {bytefield : Nat} (hb : bytefield < 256) (acc : UInt64) :
    optionData m' pos count bytefield acc = optionData m pos count bytefield acc := by
  induction count generalizing bytefield acc with
  | zero => rfl
  | succ count ih => rw [optionData, optionData, h bytefield hb, ih (Nat.mod_lt _ (by decide))]

/-- The data of an option is read byte after byte. -/
theorem optionData_congr_of_lt {pos' count bytefield : Nat} (hcount : bytefield + count ≤ 256)
    (h : ∀ j, bytefield ≤ j → j < bytefield + count → m' (pos' + j) = m (pos + j)) (acc : UInt64) :
    optionData m' pos' count bytefield acc = optionData m pos count bytefield acc := by
  induction count generalizing bytefield acc with
  | zero => rfl
  | succ count ih =>
    rw [optionData, optionData, h bytefield (Nat.le_refl _) (by omega)]
    cases count with
    | zero => rfl
    | succ count =>
      rw [Nat.mod_eq_of_lt (by omega)]
      exact ih (by omega) (fun j hlo hhi => h j (by omega) (by omega)) _

/-- The data of an option is read in front of its end, also where the index wraps. -/
theorem optionData_congr_below {n bytefield : Nat} (h : ∀ j, j < n → m' (pos + j) = m (pos + j))
    (count : Nat) (hcount : bytefield + count ≤ n) (acc : UInt64) :
    optionData m' pos count bytefield acc = optionData m pos count bytefield acc := by
  induction count generalizing bytefield acc with
  | zero => rfl
  | succ count ih =>
    have hwrap := Nat.mod_le (bytefield + 1) 256
    rw [optionData, optionData, h bytefield (by omega)]
    exact ih (by omega) _

theorem optionValue_congr (h : ∀ i, i < 256 → m' (pos + i) = m (pos + i)) :
    optionValue m' pos = optionValue m pos := by
  rw [optionValue, optionValue, h 1 (by decide), optionData_congr h _ (by decide)]

/-- An option is looked up in the 511 bytes behind the fixed headers. -/
theorem getTcpOption_congr (h : ∀ i, i < opt m + 511 → m' i = m i) (num : UInt8) :
    getTcpOption m' num = getTcpOption m num := by
  have hsame : SameHeaders m m' := sameHeaders_of_apply fun i hi => h i (by rw [opt]; omega)
  have hopt : opt m' = opt m := congrArg (· + TCPHDR) hsame.kept.tcph
  have harea : optArea m' = optArea m := by rw [optArea, hsame.doff, optArea]
  have hwalk : walk m' (opt m) (optArea m) (fun i => m' (opt m + i) == num &&
        decide (i + (m' (opt m + i + 1)).toNat ≤ doff m * 4)) WALK 0 =
      walk m (opt m) (optArea m) (fun i => m (opt m + i) == num &&
        decide (i + (m (opt m + i + 1)).toNat ≤ doff m * 4)) WALK 0 := by
    apply walk_congr _ _ _ (by decide)
    · intro i hi
      rw [h _ (by omega), h (opt m + i + 1) (by omega)]
    · intro i hi
      rw [optlen, h _ (by omega), h (opt m + i + 1) (by omega), optlen]
  unfold getTcpOption
  dsimp only
  rw [hopt, harea, hsame.doff, hwalk]
  apply Option.map_congr
  intro found hfound
  cases found with
  | none => rfl
  | some i =>
    have hi := walk_lt (by decide) hfound
    exact optionValue_congr fun j hj => h _ (by omega)

end Reads

end Solowan.Net
