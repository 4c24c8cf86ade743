/-
What `__set_tcp_option` does to a well-formed option area (`opennopd/tcpoptions.c`).

* `setTcpOption_exact_iff`: an option that is there is overwritten in place; otherwise the
  call makes just the room it needs, puts the option in front of the others, and leaves all
  else alone. The one exception is a packet whose total length does not fit into its field
  any more: the data offset is checked against its four bits, the total length is not
  checked against its sixteen.
* `setTcpOption_failed_iff`: a call that finds no room has removed the no-operations by
  then, so that it leaves the packet alone only when there is none.
-/

import Solowan.Net.OptionWalk

namespace Solowan.Net

open Solowan.Memory Solowan.Control

/-! ### Entries and the two tests -/

/-- The entry is an option of kind `n` that takes `len` bytes. -/
def TcpOption.matches (n : UInt8) (len : Nat) : TcpOption → Bool
  | nop => false
  | option kind data => kind == n && data.length + 2 == len

/-- An option of kind `n` that takes `len` bytes is among the entries. -/
def Present (n : UInt8) (len : Nat) (items : List TcpOption) : Prop :=
  ∃ x ∈ items, x.matches n len = true

/-- At most one entry is an option of kind `n`. -/
def Single (n : UInt8) (items : List TcpOption) : Prop :=
  ∀ pre x post, items = pre ++ x :: post → x.Is n → ∀ y ∈ pre ++ post, ¬ y.Is n

/-- The dwords that an option of `len` bytes needs beyond `free` bytes. -/
def dwords (free len : Nat) : Nat := (len - free + 3) / 4

section Entries

variable {m : Mem} {n : UInt8} {len j k : Nat} {x : TcpOption} {after : List UInt8}

/-- The two bytes an option begins with. -/
theorem option_bytes {kind : UInt8} {data : List UInt8}
    (h : slice m (opt m + j) k = (TcpOption.option kind data).bytes ++ after) :
    m (opt m + j) = kind ∧ m (opt m + j + 1) = UInt8.ofNat (data.length + 2) := by
  refine ⟨slice_first h, ?_⟩
  have hrest := slice_rest (a := [kind]) h
  exact slice_first hrest

theorem toNat_optionLength {data : List UInt8} (h : data.length + 2 < 256) :
    (UInt8.ofNat (data.length + 2)).toNat = data.length + 2 := by
  rw [UInt8.toNat_ofNat', Nat.mod_eq_of_lt (by omega)]

/-- The test for an overwrite at an entry. -/
theorem setStop_entry (hx : x.WellFormed) (hn : TCPOPT_NOP < n)
    (h : slice m (opt m + j) k = x.bytes ++ after) :
    setStop m n.toNat len j = (x.matches n len && decide (j + len ≤ doff m * 4)) := by
  cases x with
  | nop =>
    have hbyte : m (opt m + j) = TCPOPT_NOP := slice_first h
    have hne : ¬ (TCPOPT_NOP.toNat = n.toNat) := fun heq =>
      UInt8.ne_of_lt hn (UInt8.toNat_inj.mp heq)
    rw [setStop, hbyte, decide_eq_false hne]
    rfl
  | option kind data =>
    obtain ⟨hkind, hlength⟩ := option_bytes h
    rw [setStop, hkind, hlength, toNat_optionLength hx.2, TcpOption.matches]
    have hiff : decide (kind.toNat = n.toNat) = (kind == n) := by
      rw [Bool.eq_iff_iff, decide_eq_true_iff, beq_iff_eq]
      exact UInt8.toNat_inj
    have hlen : decide (data.length + 2 = len) = (data.length + 2 == len) := by
      rw [Bool.eq_iff_iff, decide_eq_true_iff, beq_iff_eq]
    rw [hiff, hlen, Bool.and_right_comm]

/-- The test of a look at an option at an entry. -/
theorem getStop_entry_false (hn : TCPOPT_NOP < n) (hx : ¬ x.Is n)
    (h : slice m (opt m + j) k = x.bytes ++ after) : getStop m n j = false := by
  have hne : m (opt m + j) ≠ n := by
    cases x with
    | nop =>
      rw [show m (opt m + j) = TCPOPT_NOP from slice_first h]
      exact UInt8.ne_of_lt hn
    | option kind data =>
      rw [(option_bytes h).1]
      exact hx
  rw [getStop, beq_eq_false_iff_ne.mpr hne, Bool.false_and]

theorem stop_zero (hn : TCPOPT_NOP < n) (h : m (opt m + j) = 0) :
    setStop m n.toNat len j = false := by
  have hne : ¬ ((0 : UInt8).toNat = n.toNat) := by
    intro heq
    rw [← UInt8.toNat_inj.mp heq] at hn
    exact absurd hn (by decide)
  rw [setStop, h, decide_eq_false hne, Bool.false_and, Bool.false_and]

end Entries

/-! ### Looking at an option -/

section Get

variable {m : Mem} {n : UInt8} {pad : Nat} {pre post : List TcpOption} {data : List UInt8}

/-- The value of an option with one or two bytes of data. -/
theorem optionValue_entry {pos : Nat} (hdata : data.length = 1 ∨ data.length = 2)
    (hlength : m (pos + 1) = UInt8.ofNat (data.length + 2))
    (h : slice m (pos + 2) data.length = data) :
    optionValue m pos = UInt64.ofNat (beNat data) := by
  rw [optionValue, hlength]
  rcases hdata with hone | htwo
  · have hcount : (UInt8.ofNat (1 + 2) - 2).toNat = 1 := by decide
    rw [hone, if_neg (by decide), hcount]
    obtain ⟨b, rfl⟩ := List.length_eq_one_iff.mp hone
    have hb : m (pos + 2) = b := apply_of_slice_eq h (show 0 < 1 by decide)
    have hvalue : optionData m pos 1 2 0 = 0 + shifted b 0 := by
      rw [optionData, optionData, hb]
    rw [hvalue, shifted_zero, UInt64.zero_add, beNat, List.foldl_cons, List.foldl_nil,
      Nat.zero_mul, Nat.zero_add]
  · have hcount : (UInt8.ofNat (2 + 2) - 2).toNat = 2 := by decide
    rw [htwo, if_neg (by decide), hcount]
    obtain ⟨b, c, rfl⟩ := List.length_eq_two.mp htwo
    have hb : m (pos + 2) = b := apply_of_slice_eq h (show 0 < 2 by decide)
    have hc : m (pos + 3) = c := apply_of_slice_eq h (show 1 < 2 by decide)
    have hvalue : optionData m pos 2 2 0 = 0 + shifted b 1 + shifted c 0 := by
      rw [optionData, optionData, optionData, hb]
      exact congrArg (fun x => 0 + shifted b 1 + shifted x 0) hc
    rw [hvalue, shifted_one, shifted_zero, UInt64.zero_add, ← UInt64.ofNat_add]
    simp [beNat]

/-- A look at an option finds the first of its kind. -/
theorem HoldsOptions.getTcpOption_first (h : HoldsOptions m (pre ++ .option n data :: post) pad)
    (hn : TCPOPT_NOP < n) (hpre : ∀ y ∈ pre, ¬ y.Is n) :
    ∃ pos, getTcpOption m n = some (optionValue m pos) ∧ data.length + 2 < 256 ∧
      m (pos + 1) = UInt8.ofNat (data.length + 2) ∧ slice m (pos + 2) data.length = data := by
  have hlen := h.length_area
  have harea := h.area
  rw [optionBytes_append, optionBytes_cons, List.append_assoc] at harea
  rw [optionBytes_append, optionBytes_cons, List.length_append, List.length_append] at hlen
  have hbytes : (TcpOption.option n data).bytes.length = data.length + 2 := rfl
  have hrest := slice_rest (o := opt m) (i := 0) harea
  rw [Nat.zero_add, List.append_assoc] at hrest
  obtain ⟨hkind, hlength⟩ := option_bytes hrest
  have hsmall : data.length + 2 < 256 := by
    have hwf : (TcpOption.option n data).WellFormed := h.wellFormed _ (by simp)
    exact hwf.2
  have hstop : getStop m n (optionBytes pre).length = true := by
    rw [getStop, hkind, hlength, toNat_optionLength hsmall, beq_self_eq_true, Bool.true_and,
      decide_eq_true_iff]
    simp only [TCPHDR] at hlen
    omega
  have hwalk := h.walk_found (fun j y after hy => getStop_entry_false hn (hpre y hy)) hstop
  have hslice : slice m (opt m + (optionBytes pre).length + 2) data.length = data := by
    have hblock := (slice_split (slice_rest (a := [n, UInt8.ofNat (data.length + 2)]) hrest)).1
    rw [← Nat.add_assoc] at hblock
    exact hblock
  have hget : getTcpOption m n = (walk m (opt m) (optArea m) (getStop m n) WALK 0).map
      (fun found => found.elim 0 fun i => optionValue m (opt m + i)) := by
    rw [getTcpOption]
    refine Option.map_congr fun found _ => ?_
    cases found with
    | none => rfl
    | some i => rfl
  refine ⟨opt m + (optionBytes pre).length, ?_, hsmall, hlength, hslice⟩
  rw [hget, hwalk, Option.map_some, Option.elim_some]

/-- The value of the first option of its kind. -/
theorem HoldsOptions.getTcpOption_entry (h : HoldsOptions m (pre ++ .option n data :: post) pad)
    (hn : TCPOPT_NOP < n) (hpre : ∀ y ∈ pre, ¬ y.Is n)
    (hdata : data.length = 1 ∨ data.length = 2) :
    getTcpOption m n = some (UInt64.ofNat (beNat data)) := by
  obtain ⟨pos, hget, -, hlength, hslice⟩ := h.getTcpOption_first hn hpre
  rw [hget, optionValue_entry hdata hlength hslice]

end Get

/-! ### Setting an option -/

section Set

variable {m : Mem} {n : UInt8} {len pad : Nat} {items pre post : List TcpOption} {x : TcpOption}

theorem newOption_eq_bytes (n : UInt8) (hlen : 2 ≤ len) (data : UInt64) :
    newOption n.toNat len data = (TcpOption.option n (beBytes (len - 2) data.toNat)).bytes := by
  rw [newOption, TcpOption.bytes, UInt8.ofNat_toNat, length_beBytes, Nat.sub_add_cancel hlen]
  rfl

/-- The first option of kind `n` that takes `len` bytes is overwritten. -/
theorem HoldsOptions.setTcpOption_found (h : HoldsOptions m (pre ++ x :: post) pad)
    (hn : TCPOPT_NOP < n) (hlen : len = 3 ∨ len = 4) (hx : x.matches n len = true)
    (hpre : ∀ y ∈ pre, y.matches n len = false) (data : UInt64) :
    setTcpOption m n.toNat len data =
      some (0, memcpy m (opt m + (optionBytes pre).length + 2) (beBytes (len - 2) data.toNat)) := by
  have hlength := h.length_area
  have harea := h.area
  rw [optionBytes_append, optionBytes_cons, List.append_assoc] at harea
  rw [optionBytes_append, optionBytes_cons, List.length_append, List.length_append] at hlength
  have hrest := slice_rest (o := opt m) (i := 0) harea
  rw [Nat.zero_add, List.append_assoc] at hrest
  have hbytes : x.bytes.length = len := by
    cases x with
    | nop => cases hx
    | option kind bytes =>
      rw [TcpOption.matches, Bool.and_eq_true, beq_iff_eq, beq_iff_eq] at hx
      exact hx.2
  simp only [TCPHDR] at hlength
  have hstop : setStop m n.toNat len (optionBytes pre).length = true := by
    rw [setStop_entry (h.wellFormed x (by simp)) hn hrest, hx, Bool.true_and, decide_eq_true_iff]
    omega
  have hwalk : walk m (opt m) (optArea m) (setStop m n.toNat len) WALK 0 =
      some (some (optionBytes pre).length) := by
    refine h.walk_found (fun j y after hy hslice => ?_) hstop
    rw [setStop_entry (h.wellFormed y (List.mem_append_left _ hy)) hn hslice, hpre y hy,
      Bool.false_and]
  have hcount : dataCount len = len - 2 := by
    unfold dataCount
    omega
  have hset : setTcpOption m n.toNat len data = some (0, writeData
      (opt m + (optionBytes pre).length) data (dataCount len) 2 m) := by
    unfold setStop at hwalk
    rw [setTcpOption, hwalk, if_pos (by omega)]
  rw [hset, hcount, writeData_eq _ _ (by omega) (by omega)]

/-- What is in the area when an option has been overwritten. -/
theorem HoldsOptions.overwritten {old new : List UInt8}
    (h : HoldsOptions m (pre ++ .option n old :: post) pad) (hlen : new.length = old.length) :
    HoldsOptions (memcpy m (opt m + (optionBytes pre).length + 2) new)
      (pre ++ .option n new :: post) pad := by
  have hsame : SameHeaders m (memcpy m (opt m + (optionBytes pre).length + 2) new) :=
    sameHeaders_memcpy new (by rw [opt]; omega)
  have hopt : opt (memcpy m (opt m + (optionBytes pre).length + 2) new) = opt m :=
    congrArg (· + TCPHDR) hsame.kept.tcph
  refine ⟨by rw [hsame.doff]; exact h.doff, ?_, ?_⟩
  · intro y hy
    rcases List.mem_append.mp hy with hy | hy
    · exact h.wellFormed y (List.mem_append_left _ hy)
    · rcases List.mem_cons.mp hy with rfl | hy
      · have hold : (TcpOption.option n old).WellFormed := h.wellFormed _ (by simp)
        exact ⟨hold.1, by rw [hlen]; exact hold.2⟩
      · exact h.wellFormed y (List.mem_append_right _ (List.mem_cons_of_mem _ hy))
  · have harea : slice m (opt m) (4 * Net.doff m - TCPHDR) =
        (optionBytes pre ++ [n, UInt8.ofNat (old.length + 2)]) ++
          (old ++ (optionBytes post ++ List.replicate pad 0)) := by
      rw [h.area, optionBytes_append, optionBytes_cons]
      simp [TcpOption.bytes]
    have hmiddle := slice_memcpy_middle harea hlen
    rw [List.length_append, ← Nat.add_assoc] at hmiddle
    rw [hsame.doff, hopt]
    refine hmiddle.trans ?_
    rw [optionBytes_append, optionBytes_cons, TcpOption.bytes, hlen]
    simp

/-- What is in the area when an option has been put in front of the others. -/
theorem HoldsOptions.inserted (h : HoldsOptions m items pad) {m' : Mem} {data : List UInt8}
    {addoff : Nat} (hn : TCPOPT_NOP < n) (hdata : data.length + 2 < 256)
    (hedit : Edited m m' ((TcpOption.option n data).bytes ++ optionBytes (withoutNops items))
      addoff) :
    ∃ pad', HoldsOptions m' (.option n data :: withoutNops items) pad' := by
  have harea := hedit.area
  rw [← show opt m' = opt m from congrArg (· + TCPHDR) hedit.kept.tcph, ← optionBytes_cons] at harea
  refine ⟨_, ⟨?_, ?_, harea⟩⟩
  · have := h.doff
    rw [hedit.doff]
    omega
  · intro y hy
    rcases List.mem_cons.mp hy with rfl | hy
    · exact ⟨hn, hdata⟩
    · exact h.wellFormed y (List.mem_of_mem_filter hy)

/-- A call that does not find the option walks over the whole area. -/
theorem HoldsOptions.set_walk_none (h : HoldsOptions m items pad) (hn : TCPOPT_NOP < n)
    (habsent : ¬ Present n len items) :
    walk m (opt m) (optArea m) (setStop m n.toNat len) WALK 0 = some none := by
  refine h.walk_none (fun j y after hy hslice => ?_) fun j hzero => stop_zero hn hzero
  have hno : y.matches n len = false :=
    Bool.eq_false_iff.mpr fun hy' => habsent ⟨y, hy, hy'⟩
  rw [setStop_entry (h.wellFormed y hy) hn hslice, hno, Bool.false_and]

end Set

/-! ### Exactness -/

/-- What an option of `len` bytes that was set to `data` reads as. -/
def optionNumber (len : Nat) (data : UInt64) : UInt64 :=
  UInt64.ofNat (data.toNat % 2 ^ (8 * (len - 2)))

/-- An option `(n, len)` that is there has its data bytes overwritten, nothing else changes,
and it reads as the data. -/
def OverwritesExactly (m : Mem) (items : List TcpOption) (n : UInt8) (len : Nat)
    (data : UInt64) : Prop :=
  ∀ pre old post, items = pre ++ .option n old :: post → old.length + 2 = len →
    ∃ m', setTcpOption m n.toNat len data = some (0, m') ∧
      m' = memcpy m (opt m + (optionBytes pre).length + 2) (beBytes (len - 2) data.toNat) ∧
      getTcpOption m' n = some (optionNumber len data)

/-- An option `(n, len)` that is not there makes the area grow by `dwords`, if it can. The
option then stands in front of the others, which follow in their order without the
no-operations, the two lengths grow, and nothing else changes; it reads as the data. -/
def InsertsExactly (m : Mem) (items : List TcpOption) (pad : Nat) (n : UInt8) (len : Nat)
    (data : UInt64) : Prop :=
  ¬ Present n len items → ∃ r m', setTcpOption m n.toNat len data = some (r, m') ∧
    (r = 0 ↔ doff m + dwords (freeBytes items pad) len ≤ 15) ∧
    (r = 0 →
      (∃ zeros, slice m' (opt m) (4 * doff m' - TCPHDR) = newOption n.toNat len data ++
        (optionBytes (withoutNops items) ++ List.replicate zeros 0)) ∧
      doff m' = doff m + dwords (freeBytes items pad) len ∧
      totLen m' = totLen m + 4 * dwords (freeBytes items pad) len ∧
      slice m' (tcpdata m') (totLen m - ihl m * 4 - doff m * 4) =
        slice m (tcpdata m) (totLen m - ihl m * 4 - doff m * 4) ∧
      (∀ i, i < opt m → i ≠ 2 → i ≠ 3 → i ≠ tcph m + 12 → m' i = m i) ∧
      (m' (tcph m + 12)).toNat % 16 = (m (tcph m + 12)).toNat % 16 ∧
      getTcpOption m' n = some (optionNumber len data))

section Exact

variable {m : Mem} {items : List TcpOption} {pad len : Nat} {n : UInt8}

theorem beNat_optionNumber (data : UInt64) :
    UInt64.ofNat (beNat (beBytes (len - 2) data.toNat)) = optionNumber len data := by
  rw [beNat_beBytes, optionNumber, Nat.pow_mul]

theorem HoldsOptions.overwritesExactly (h : HoldsOptions m items pad) (hn : TCPOPT_NOP < n)
    (hsingle : Single n items) (hlen : len = 3 ∨ len = 4) (data : UInt64) :
    OverwritesExactly m items n len data := by
  intro pre old post hitems hold
  subst hitems
  have hother := hsingle pre _ post rfl rfl
  have hpre : ∀ y ∈ pre, ¬ y.Is n := fun y hy => hother y (List.mem_append_left _ hy)
  refine ⟨_, h.setTcpOption_found hn hlen ?_ ?_ data, rfl, ?_⟩
  · rw [TcpOption.matches, hold, beq_self_eq_true, beq_self_eq_true, Bool.and_self]
  · intro y hy
    cases y with
    | nop => rfl
    | option kind bytes =>
      have hne : kind ≠ n := hpre _ hy
      rw [TcpOption.matches, beq_eq_false_iff_ne.mpr hne, Bool.false_and]
  · have hnew := h.overwritten
      (show (beBytes (len - 2) data.toNat).length = old.length by rw [length_beBytes]; omega)
    rw [hnew.getTcpOption_entry hn hpre (by rw [length_beBytes]; omega), beNat_optionNumber]

/-- A call that does not find the option, up to the total length. -/
theorem HoldsOptions.set_absent (h : HoldsOptions m items pad) (hcons : Consistent m)
    (hn : TCPOPT_NOP < n) (hlen : len = 3 ∨ len = 4) (data : UInt64)
    (habsent : ¬ Present n len items)
    (hroom : Net.doff m + dwords (freeBytes items pad) len ≤ 15) :
    ∃ m', setTcpOption m n.toNat len data = some (0, m') ∧
      Edited m m' (newOption n.toNat len data ++ optionBytes (withoutNops items))
        (dwords (freeBytes items pad) len) ∧
      getTcpOption m' n = some (optionNumber len data) := by
  have hadd : addOff (freeBytes items pad) len = dwords (freeBytes items pad) len :=
    addOff_eq _ (by omega)
  rw [← hadd] at hroom ⊢
  obtain ⟨m', hset, hedit⟩ := h.setTcpOption_insert hcons data (h.set_walk_none hn habsent)
    (by omega) (by omega) hroom
  refine ⟨m', hset, hedit, ?_⟩
  rw [newOption_eq_bytes n (by omega)] at hedit
  obtain ⟨pad', hholds⟩ := h.inserted hn (by rw [length_beBytes]; omega) hedit
  rw [← List.nil_append (TcpOption.option n _ :: _)] at hholds
  have hget := hholds.getTcpOption_entry hn (fun y hy => absurd hy List.not_mem_nil)
    (by rw [length_beBytes]; omega)
  rw [hget, beNat_optionNumber]

/-- A call that finds no room. -/
theorem HoldsOptions.set_full (h : HoldsOptions m items pad) (hn : TCPOPT_NOP < n)
    (hlen : len = 3 ∨ len = 4) (data : UInt64) (habsent : ¬ Present n len items)
    (hroom : ¬ Net.doff m + dwords (freeBytes items pad) len ≤ 15) :
    ∃ m', setTcpOption m n.toNat len data = some (-1, m') ∧
      slice m' (opt m) (4 * Net.doff m - TCPHDR) =
        optionBytes (withoutNops items) ++ List.replicate (freeBytes items pad) 0 ∧
      ∀ j, j < opt m ∨ tcpdata m ≤ j → m' j = m j := by
  obtain ⟨m', hcompact, harea, hframe⟩ := h.compacted
  have hsame : SameHeaders m m' := sameHeaders_of_apply fun i hi => hframe i (Or.inl hi)
  have hadd : addOff (freeBytes items pad) len = dwords (freeBytes items pad) len :=
    addOff_eq _ (by omega)
  refine ⟨m', ?_, harea, hframe⟩
  have hwalk := h.set_walk_none hn habsent
  unfold setStop at hwalk
  rw [setTcpOption, hwalk, ite_self]
  dsimp only
  rw [hcompact]
  dsimp only
  rw [insertOption, hadd, hsame.doff, if_neg hroom]

/-- A call that has room does not fail. -/
theorem HoldsOptions.set_room_ne (h : HoldsOptions m items pad) (hn : TCPOPT_NOP < n)
    (hlen : len = 3 ∨ len = 4) (data : UInt64) (habsent : ¬ Present n len items)
    (hroom : Net.doff m + dwords (freeBytes items pad) len ≤ 15) {m' : Mem} :
    setTcpOption m n.toNat len data ≠ some (-1, m') := by
  obtain ⟨m₁, hcompact, -, hframe⟩ := h.compacted
  have hsame : SameHeaders m m₁ := sameHeaders_of_apply fun i hi => hframe i (Or.inl hi)
  have hadd : addOff (freeBytes items pad) len = dwords (freeBytes items pad) len :=
    addOff_eq _ (by omega)
  have hwalk := h.set_walk_none hn habsent
  unfold setStop at hwalk
  rw [setTcpOption, hwalk, ite_self]
  dsimp only
  rw [hcompact]
  dsimp only
  rw [insertOption, hadd, hsame.doff, if_pos hroom]
  intro heq
  split at heq
  · cases heq
  · cases heq

/-- **Options are edited exactly** unless the total length wraps. -/
theorem setTcpOption_exact_iff (h : HoldsOptions m items pad) (hcons : Consistent m)
    (hn : TCPOPT_NOP < n) (hsingle : Single n items) (hlen : len = 3 ∨ len = 4) (data : UInt64) :
    OverwritesExactly m items n len data ∧ InsertsExactly m items pad n len data ↔
      Present n len items ∨ 15 < doff m + dwords (freeBytes items pad) len ∨
        totLen m + 4 * dwords (freeBytes items pad) len ≤ 65535 := by
  constructor
  · rintro ⟨-, hinsert⟩
    by_cases hpresent : Present n len items
    · exact Or.inl hpresent
    by_cases hroom : doff m + dwords (freeBytes items pad) len ≤ 15
    · obtain ⟨r, m', -, hr, hedit⟩ := hinsert hpresent
      obtain ⟨-, -, htot, -⟩ := hedit (hr.mpr hroom)
      have hlt := totLen_lt m'
      exact Or.inr (Or.inr (by omega))
    · exact Or.inr (Or.inl (by omega))
  · intro hcond
    refine ⟨h.overwritesExactly hn hsingle hlen data, fun hpresent => ?_⟩
    by_cases hroom : doff m + dwords (freeBytes items pad) len ≤ 15
    · obtain ⟨m', hset, hedit, hget⟩ := h.set_absent hcons hn hlen data hpresent hroom
      have harea := hedit.area
      rw [List.append_assoc] at harea
      refine ⟨0, m', hset, ⟨fun _ => hroom, fun _ => rfl⟩, fun _ => ⟨⟨_, harea⟩, hedit.doff, ?_,
        hedit.data, hedit.frame, hedit.flags, hget⟩⟩
      · have hfit : totLen m + 4 * dwords (freeBytes items pad) len ≤ 65535 := by
          rcases hcond with hpresent' | hfull | hfit
          · exact absurd hpresent' hpresent
          · omega
          · exact hfit
        rw [hedit.totLen, Nat.mod_eq_of_lt (by omega)]
        omega
    · obtain ⟨m', hset, -, -⟩ := h.set_full hn hlen data hpresent hroom
      exact ⟨-1, m', hset, ⟨fun hr => absurd hr (by decide), fun hle => absurd hle hroom⟩,
        fun hr => absurd hr (by decide)⟩

/-- A packet with one no-operation and one option of four bytes. -/
def windowScaled : Mem := ofList ([0x45, 0, 0, 44, 0, 0, 0, 0, 64, 6, 0, 0, 10, 0, 0, 1, 10, 0, 0, 2] ++
  [0, 80, 0, 80, 0, 0, 0, 0, 0, 0, 0, 0, 0x60, 2, 0, 0, 0, 0, 0, 0] ++ [1, 3, 3, 7])

theorem windowScaled_holds : HoldsOptions windowScaled [.nop, .option 3 [7]] 0 := by
  refine ⟨by decide, ?_, by decide⟩
  intro x hx
  simp only [List.mem_cons, List.not_mem_nil, or_false] at hx
  rcases hx with rfl | rfl
  · exact trivial
  · exact ⟨by decide, by decide⟩

/-- An option of another kind is no obstacle. -/
theorem single_of_absent (h : ∀ y ∈ items, ¬ y.Is n) : Single n items := by
  intro pre x post hitems hx
  subst hitems
  exact absurd hx (h x (by simp))

theorem setTcpOption_exact_windowScaled :
    OverwritesExactly windowScaled [.nop, .option 3 [7]] 32 3 1 ∧
      InsertsExactly windowScaled [.nop, .option 3 [7]] 0 32 3 1 :=
  (setTcpOption_exact_iff windowScaled_holds (by decide) (by decide)
    (single_of_absent (by simp [TcpOption.Is])) (Or.inl rfl) 1).mpr
    (Or.inr (Or.inr (by decide)))

/-- A packet of the greatest length, without options. -/
def longest : Mem := ofList ([0x45, 0, 255, 255, 0, 0, 0, 0, 64, 6, 0, 0, 10, 0, 0, 1, 10, 0, 0, 2] ++
  [0, 80, 0, 80, 0, 0, 0, 0, 0, 0, 0, 0, 0x50, 16, 0, 0, 0, 0, 0, 0])

theorem longest_holds : HoldsOptions longest [] 0 :=
  ⟨by decide, fun _ hx => absurd hx List.not_mem_nil, by decide⟩

/-- Its total length does not fit into its field with an option. -/
theorem longest_not_exact :
    ¬ ∀ (m : Mem) (items : List TcpOption) (pad : Nat) (n : UInt8) (len : Nat) (data : UInt64),
      HoldsOptions m items pad → Consistent m → TCPOPT_NOP < n → Single n items →
      len = 3 ∨ len = 4 →
      OverwritesExactly m items n len data ∧ InsertsExactly m items pad n len data := by
  intro hall
  obtain ⟨-, hinsert⟩ := hall longest [] 0 32 3 1 longest_holds (by decide) (by decide)
    (single_of_absent fun y hy => absurd hy List.not_mem_nil) (Or.inl rfl)
  obtain ⟨r, m', -, hr, hedit⟩ := hinsert (by simp [Present])
  have hroom : doff longest + dwords (freeBytes [] 0) 3 ≤ 15 := by decide
  obtain ⟨-, -, htot, -⟩ := hedit (hr.mpr hroom)
  have hgrown : totLen longest + 4 * dwords (freeBytes [] 0) 3 = 65539 := by decide
  have hlt := totLen_lt m'
  omega

end Exact

/-! ### A call that fails -/

section Failed

variable {m : Mem} {items : List TcpOption} {pad len : Nat} {n : UInt8}

/-- The first of the options that a call overwrites. -/
theorem Present.first (h : Present n len items) :
    ∃ pre x post, items = pre ++ x :: post ∧ x.matches n len = true ∧
      ∀ y ∈ pre, y.matches n len = false := by
  obtain ⟨x, hx, hmatch⟩ := h
  obtain ⟨y, hfind⟩ := Option.isSome_iff_exists.mp
    (List.find?_isSome.mpr ⟨x, hx, hmatch⟩)
  obtain ⟨hy, pre, post, hitems, hpre⟩ := List.find?_eq_some_iff_append.mp hfind
  exact ⟨pre, y, post, hitems, hy, fun z hz => by simpa using hpre z hz⟩

/-- The area with its no-operations removed begins with no no-operation. -/
theorem head?_withoutNops (hwf : ∀ x ∈ items, x.WellFormed) (zeros : Nat) :
    (optionBytes (withoutNops items) ++ List.replicate zeros 0).head? ≠ some TCPOPT_NOP := by
  intro heq
  cases hkept : withoutNops items with
  | nil =>
    rw [hkept] at heq
    cases zeros with
    | zero => cases heq
    | succ zeros =>
      have hzero : (0 : UInt8) = TCPOPT_NOP := Option.some.inj heq
      exact absurd hzero (by decide)
  | cons x rest =>
    have hx : x ∈ withoutNops items := by rw [hkept]; exact List.mem_cons_self
    obtain ⟨hmem, hnop⟩ := List.mem_filter.mp hx
    rw [hkept] at heq
    cases x with
    | nop => cases hnop
    | option kind data =>
      have hkind : kind = TCPOPT_NOP := Option.some.inj heq
      exact UInt8.ne_of_lt (hwf _ hmem).1 hkind.symm

/-- Removing the no-operations leaves the area as it is only when there is none. -/
theorem compacted_eq_iff (h : HoldsOptions m items pad) :
    optionBytes (withoutNops items) ++ List.replicate (freeBytes items pad) 0 =
        optionBytes items ++ List.replicate pad 0 ↔ TcpOption.nop ∉ items := by
  constructor
  · intro heq hmem
    obtain ⟨pre, post, rfl, hpre⟩ := List.eq_append_cons_of_mem hmem
    have hkeep : withoutNops pre = pre := List.filter_eq_self.mpr fun x hx => by
      cases x with
      | nop => exact absurd hx hpre
      | option kind data => rfl
    have hsplit : withoutNops (pre ++ .nop :: post) = pre ++ withoutNops post := by
      rw [withoutNops, List.filter_append, ← withoutNops, hkeep]
      rfl
    rw [hsplit, optionBytes_append, optionBytes_append, List.append_assoc, List.append_assoc] at heq
    have hpost : ∀ x ∈ post, x.WellFormed := fun x hx =>
      h.wellFormed x (List.mem_append_right _ (List.mem_cons_of_mem _ hx))
    refine head?_withoutNops hpost (freeBytes (pre ++ .nop :: post) pad) ?_
    rw [List.append_cancel_left heq]
    rfl
  · intro hmem
    have hkeep : withoutNops items = items := List.filter_eq_self.mpr fun x hx => by
      cases x with
      | nop => exact absurd hx hmem
      | option kind data => rfl
    have hnone : items.filter TcpOption.isNop = [] := List.filter_eq_nil_iff.mpr fun x hx => by
      cases x with
      | nop => exact absurd hx hmem
      | option kind data => simp [TcpOption.isNop]
    rw [hkeep, freeBytes, hnone, List.length_nil, Nat.zero_add]

/-- **A failed call changes nothing** if and only if it cannot fail or there is no
no-operation to remove. -/
theorem setTcpOption_failed_iff (h : HoldsOptions m items pad) (hn : TCPOPT_NOP < n)
    (hlen : len = 3 ∨ len = 4) (data : UInt64) :
    (∀ m', setTcpOption m n.toNat len data = some (-1, m') → m' = m) ↔
      Present n len items ∨ doff m + dwords (freeBytes items pad) len ≤ 15 ∨
        TcpOption.nop ∉ items := by
  by_cases hpresent : Present n len items
  · refine iff_of_true (fun m' hset => ?_) (Or.inl hpresent)
    obtain ⟨pre, x, post, rfl, hx, hpre⟩ := hpresent.first
    rw [h.setTcpOption_found hn hlen hx hpre] at hset
    cases hset
  by_cases hroom : doff m + dwords (freeBytes items pad) len ≤ 15
  · refine iff_of_true (fun m' hset => ?_) (Or.inr (Or.inl hroom))
    exact absurd (h.set_room_ne hn hlen data hpresent hroom hset) id
  · obtain ⟨m₁, hset, harea, hframe⟩ := h.set_full hn hlen data hpresent hroom
    have hsame : m₁ = m ↔ TcpOption.nop ∉ items := by
      rw [← compacted_eq_iff h, ← harea, ← h.area]
      constructor
      · intro heq
        rw [heq]
      · intro hslice
        funext j
        by_cases hj : opt m ≤ j ∧ j < tcpdata m
        · have hbyte := slice_eq_apply hslice (i := j - opt m) (by
            rw [opt, tcpdata] at hj
            simp only [TCPHDR, opt] at hj ⊢
            omega)
          rw [Nat.add_sub_cancel' hj.1] at hbyte
          exact hbyte
        · exact hframe j (by omega)
    constructor
    · intro hall
      exact Or.inr (Or.inr (hsame.mp (hall m₁ hset)))
    · rintro (hpresent' | hroom' | hnop)
      · exact absurd hpresent' hpresent
      · exact absurd hroom' hroom
      · intro m' hset'
        rw [hset] at hset'
        cases hset'
        exact hsame.mpr hnop

/-- A packet with the longest option area, which holds `options`. -/
def crowded (options : List UInt8) : Mem :=
  ofList ([0x45, 0, 0, 80, 0, 0, 0, 0, 64, 6, 0, 0, 10, 0, 0, 1, 10, 0, 0, 2] ++
    [0, 80, 0, 80, 0, 0, 0, 0, 0, 0, 0, 0, 0xf0, 2, 0, 0, 0, 0, 0, 0] ++ options)

theorem crowded_holds_option :
    HoldsOptions (crowded ([5, 40] ++ List.replicate 38 0)) [.option 5 (List.replicate 38 0)] 0 := by
  refine ⟨by decide, ?_, by decide⟩
  intro x hx
  rw [List.mem_singleton.mp hx]
  exact ⟨by decide, by decide⟩

/-- Without a no-operation a call that fails leaves the packet alone. -/
theorem setTcpOption_failed_crowded :
    doff (crowded ([5, 40] ++ List.replicate 38 0)) = 15 ∧
      ∀ m', setTcpOption (crowded ([5, 40] ++ List.replicate 38 0)) 32 3 1 = some (-1, m') →
        m' = crowded ([5, 40] ++ List.replicate 38 0) :=
  ⟨by decide,
    (setTcpOption_failed_iff (n := 32) crowded_holds_option (by decide) (Or.inl rfl) 1).mpr
      (Or.inr (Or.inr (by decide)))⟩

theorem crowded_holds_nop : HoldsOptions (crowded ([1, 5, 39] ++ List.replicate 37 0))
    [.nop, .option 5 (List.replicate 37 0)] 0 := by
  refine ⟨by decide, ?_, by decide⟩
  intro x hx
  simp only [List.mem_cons, List.not_mem_nil, or_false] at hx
  rcases hx with rfl | rfl
  · exact trivial
  · exact ⟨by decide, by decide⟩

/-- With a no-operation in front, a call that fails has moved the options. -/
theorem crowded_not_unchanged :
    ¬ ∀ (m : Mem) (items : List TcpOption) (pad : Nat) (n : UInt8) (len : Nat) (data : UInt64),
      HoldsOptions m items pad → TCPOPT_NOP < n → len = 3 ∨ len = 4 →
      ∀ m', setTcpOption m n.toNat len data = some (-1, m') → m' = m := by
  intro hall
  have hset : (setTcpOption (crowded ([1, 5, 39] ++ List.replicate 37 0)) 32 3 1).map
      (fun r => (r.1, r.2 40)) = some (-1, 5) := by decide
  obtain ⟨⟨r, m'⟩, hrun, hpair⟩ := Option.map_eq_some_iff.mp hset
  obtain ⟨hr, hbyte⟩ := Prod.mk.inj hpair
  simp only at hr hbyte
  rw [hr] at hrun
  have hsame := hall _ _ 0 32 3 1 crowded_holds_nop (by decide) (Or.inl rfl) m' hrun
  rw [hsame] at hbyte
  exact absurd hbyte (by decide)

end Failed

end Solowan.Net
