/-
The option area and what lies behind it (`opennopd/tcpoptions.c`).

Both functions check an option that they have found against the length of the whole TCP
header, not against what is left of the option area, and read the length byte of an option
without looking whether it still belongs to the area. On arbitrary option bytes, for walks
that end:

* `readsArea_iff`: what `__get_tcp_option` returns depends on the area alone if and only if
  its walk comes to no option in the last byte of the area, and the option it finds ends
  inside the area.
* `payloadKept_iff`: `__set_tcp_option` keeps the TCP data if and only if the option it finds
  ends inside the area, or the packet ends before the first byte it would overwrite.
* `optionBounds_iff`: both together.
-/

import Solowan.Net.OptionWalk

namespace Solowan.Net

open Relation Solowan.Memory Solowan.Control

/-! ### What a look reads -/

/-- What `__get_tcp_option` makes of a packet does not depend on what is behind the area. -/
def ReadsArea (m : Mem) (tcpoptnum : UInt8) : Prop :=
  ∀ m', (∀ i, i < tcpdata m → m' i = m i) → getTcpOption m' tcpoptnum = getTcpOption m tcpoptnum

/-- No option the walk comes to begins in the last byte of the area. -/
def LengthInside (m : Mem) (p : Nat → Bool) : Prop :=
  ∀ i, ReflTransGen (Leads m p) 0 i → i < optArea m → TCPOPT_NOP < m (opt m + i) →
    i + 1 < optArea m

/-- An option that is found has a length, and ends inside the area. -/
def FoundInside (m : Mem) (tcpoptnum : UInt8) : Prop :=
  ∀ i, ReflTransGen (Leads m (getStop m tcpoptnum)) 0 i → i < optArea m →
    getStop m tcpoptnum i = true →
    2 ≤ (m (opt m + i + 1)).toNat ∧ i + (m (opt m + i + 1)).toNat ≤ optArea m

section Reads

variable {m m' : Mem} {n : UInt8}

theorem opt_add_optArea (hdoff : 5 ≤ doff m) : opt m + optArea m = tcpdata m := by
  rw [optArea_of_le hdoff, opt, tcpdata]
  simp only [TCPHDR]
  omega

/-- Where the area is the same, the headers are. -/
theorem agree_headers (hdoff : 5 ≤ doff m) (hagree : ∀ i, i < tcpdata m → m' i = m i) :
    opt m' = opt m ∧ doff m' = doff m ∧ optArea m' = optArea m := by
  have hle := tcph_le_tcpdata hdoff
  have hsame : SameHeaders m m' := sameHeaders_of_apply fun i hi => hagree i (by omega)
  exact ⟨congrArg (· + TCPHDR) hsame.kept.tcph, hsame.doff, by rw [optArea, hsame.doff, optArea]⟩

/-- A round of the walk depends on the kind of the option at its index, and on the length if the
option has one. -/
theorem getRound_congr_of_bytes (hn : TCPOPT_NOP < n) (hopt : opt m' = opt m)
    (hdoff : doff m' = doff m) {i : Nat} (hkind : i < optArea m → m' (opt m + i) = m (opt m + i))
    (hlength : i < optArea m → TCPOPT_NOP < m (opt m + i) →
      m' (opt m + i + 1) = m (opt m + i + 1)) :
    getRound m' n i = getRound m n i := by
  have harea : optArea m' = optArea m := by rw [optArea, hdoff, optArea]
  unfold getRound walkRound
  rw [hopt, harea]
  by_cases hlt : i < optArea m
  · have hkind := hkind hlt
    by_cases hoption : TCPOPT_NOP < m (opt m + i)
    · have hlength := hlength hlt hoption
      have hstop : getStop m' n i = getStop m n i := by
        rw [getStop, hopt, hdoff, hkind, hlength, getStop]
      have hstep : optlen m' (opt m) i = optlen m (opt m) i := by
        rw [optlen, hkind, hlength, optlen]
      rw [hstop, hstep]
    · have hshort : m (opt m + i) ≤ TCPOPT_NOP := UInt8.not_lt.mp hoption
      have hne : m (opt m + i) ≠ n := by
        intro heq
        rw [heq] at hoption
        exact hoption hn
      have hstop : getStop m n i = false := by
        rw [getStop, beq_eq_false_iff_ne.mpr hne, Bool.false_and]
      have hstop' : getStop m' n i = false := by
        rw [getStop, hopt, hkind, beq_eq_false_iff_ne.mpr hne, Bool.false_and]
      have hstep : optlen m' (opt m) i = 1 := by
        rw [optlen, hkind, if_pos (Or.inl hshort)]
      have hstep' : optlen m (opt m) i = 1 := by rw [optlen, if_pos (Or.inl hshort)]
      rw [hstop, hstop', hstep, hstep']
  · rw [if_neg hlt, if_neg hlt]

/-- A round of the walk at an index whose length byte is not needed, or lies in the area. -/
theorem getRound_congr (hdoff : 5 ≤ doff m) (hn : TCPOPT_NOP < n)
    (hagree : ∀ i, i < tcpdata m → m' i = m i) {i : Nat}
    (hi : i < optArea m → TCPOPT_NOP < m (opt m + i) → i + 1 < optArea m) :
    getRound m' n i = getRound m n i := by
  obtain ⟨hopt, hdoff', -⟩ := agree_headers hdoff hagree
  have hend := opt_add_optArea hdoff
  refine getRound_congr_of_bytes hn hopt hdoff' (fun hlt => hagree _ (by omega)) ?_
  intro hlt hoption
  have hin := hi hlt hoption
  exact hagree _ (by omega)

theorem getTcpOption_of_returns {r : Option Nat} (h : Returns (getRound m n) 0 r) :
    getTcpOption m n = some (r.elim 0 fun i => optionValue m (opt m + i)) := by
  have hwalk : walk m (opt m) (optArea m) (getStop m n) WALK 0 = some r := walk_eq_some_iff.mpr h
  unfold getStop at hwalk
  rw [getTcpOption, hwalk]
  cases r with
  | none => rfl
  | some i => rfl

/-- The walk is the same with other bytes behind the area. -/
theorem getRound_returns_congr (hdoff : 5 ≤ doff m) (hn : TCPOPT_NOP < n)
    (hinside : LengthInside m (getStop m n)) (hagree : ∀ i, i < tcpdata m → m' i = m i)
    {r : Option Nat} (h : Returns (getRound m n) 0 r) : Returns (getRound m' n) 0 r := by
  refine h.congr fun i hreach => getRound_congr hdoff hn hagree (hinside i ?_)
  rw [← next_walkRound]
  exact hreach

/-- The index a walk finds. -/
theorem returns_some {p : Nat → Bool} {i : Nat}
    (h : Returns (walkRound m (opt m) (optArea m) p) 0 (some i)) :
    ReflTransGen (Leads m p) 0 i ∧ i < optArea m ∧ p i = true := by
  obtain ⟨j, hreach, hdone⟩ := h.exists_done
  rw [next_walkRound] at hreach
  unfold walkRound at hdone
  by_cases hj : j < optArea m
  · rw [if_pos hj] at hdone
    cases hp : p j with
    | true =>
      rw [hp, if_pos rfl] at hdone
      cases hdone
      exact ⟨hreach, hj, hp⟩
    | false =>
      rw [hp, if_neg (by decide)] at hdone
      cases hdone
  · rw [if_neg hj] at hdone
    cases hdone

theorem returns_of_stop {p : Nat → Bool} {i : Nat} (hreach : ReflTransGen (Leads m p) 0 i)
    (hi : i < optArea m) (hp : p i = true) :
    Returns (walkRound m (opt m) (optArea m) p) 0 (some i) := by
  rw [← next_walkRound] at hreach
  refine (Returns.done ?_).of_reach hreach
  rw [walkRound, if_pos hi, if_pos hp]

theorem readsArea_of_inside (hdoff : 5 ≤ doff m) (hn : TCPOPT_NOP < n) (hends : GetEnds m n)
    (hlength : LengthInside m (getStop m n)) (hfound : FoundInside m n) : ReadsArea m n := by
  intro m' hagree
  obtain ⟨r, hreturns⟩ := hends
  have hreturns' := getRound_returns_congr hdoff hn hlength hagree hreturns
  rw [getTcpOption_of_returns hreturns, getTcpOption_of_returns hreturns']
  cases r with
  | none => rw [Option.elim_none, Option.elim_none]
  | some i =>
    obtain ⟨hreach, hi, hstop⟩ := returns_some hreturns
    obtain ⟨htwo, hin⟩ := hfound i hreach hi hstop
    have hend := opt_add_optArea hdoff
    have hopt := (agree_headers hdoff hagree).1
    have hbyte : ∀ j, i + j < optArea m → m' (opt m + i + j) = m (opt m + i + j) :=
      fun j hj => hagree _ (by omega)
    have htwo' : (2 : UInt8) ≤ m (opt m + i + 1) := UInt8.le_iff_toNat_le.mpr htwo
    have hcount : (m (opt m + i + 1) - 2).toNat = (m (opt m + i + 1)).toNat - 2 :=
      UInt8.toNat_sub_of_le _ _ htwo'
    have hlt := (m (opt m + i + 1)).toNat_lt
    have hdata : optionData m' (opt m + i) (m (opt m + i + 1) - 2).toNat 2 0 =
        optionData m (opt m + i) (m (opt m + i + 1) - 2).toNat 2 0 := by
      apply optionData_congr_of_lt
      · rw [hcount]
        omega
      · intro j _ hj
        rw [hcount] at hj
        exact hbyte j (by omega)
    have hvalue : optionValue m' (opt m' + i) = optionValue m (opt m + i) := by
      rw [hopt, optionValue, hbyte 1 (by omega), hdata, optionValue]
    exact congrArg some hvalue

/-- A look at an option reads bytes in front of `ret` only: those of the fixed headers, the kind
of every option the walk comes to and the length of those that have one, and the data of the one
that is found. -/
structure ReadsBelow (m : Mem) (tcpoptnum : UInt8) (ret : Nat) : Prop where
  headers : opt m ≤ ret
  options : ∀ i, ReflTransGen (Leads m (getStop m tcpoptnum)) 0 i → i < optArea m →
    opt m + i < ret ∧ (TCPOPT_NOP < m (opt m + i) → opt m + i + 1 < ret)
  found : ∀ i, ReflTransGen (Leads m (getStop m tcpoptnum)) 0 i → i < optArea m →
    getStop m tcpoptnum i = true → opt m + i + 2 + (m (opt m + i + 1) - 2).toNat ≤ ret

/-- Then the bytes from `ret` on make no difference. -/
theorem ReadsBelow.getTcpOption_congr {ret : Nat} {value : UInt64} (h : ReadsBelow m n ret)
    (hn : TCPOPT_NOP < n) (hagree : ∀ i, i < ret → m' i = m i)
    (hget : getTcpOption m n = some value) : getTcpOption m' n = some value := by
  have hheaders := h.headers
  have hsame : SameHeaders m m' :=
    sameHeaders_of_apply fun i hi => hagree i (by unfold opt at hheaders; omega)
  have hopt : opt m' = opt m := congrArg (· + TCPHDR) hsame.kept.tcph
  obtain ⟨r, hwalk, rfl⟩ := Option.map_eq_some_iff.mp hget
  have hreturns : Returns (getRound m n) 0 r := walk_eq_some_iff.mp hwalk
  have hreturns' : Returns (getRound m' n) 0 r := by
    refine hreturns.congr fun i hreach => ?_
    have hreach' : ReflTransGen (Leads m (getStop m n)) 0 i := by
      rw [← next_walkRound]
      exact hreach
    exact getRound_congr_of_bytes hn hopt hsame.doff
      (fun hlt => hagree _ (h.options i hreach' hlt).1)
      fun hlt hoption => hagree _ ((h.options i hreach' hlt).2 hoption)
  rw [getTcpOption_of_returns hreturns']
  cases r with
  | none => rfl
  | some i =>
    obtain ⟨hreach, hi, hstop⟩ := returns_some hreturns
    have hfound := h.found i hreach hi hstop
    have hlength : m' (opt m + i + 1) = m (opt m + i + 1) := hagree _ (by omega)
    have hdata : optionData m' (opt m + i) (m (opt m + i + 1) - 2).toNat 2 0 =
        optionData m (opt m + i) (m (opt m + i + 1) - 2).toNat 2 0 :=
      optionData_congr_below (fun j hj => hagree _ (by omega)) _ (Nat.le_refl _) 0
    have hvalue : optionValue m' (opt m' + i) = optionValue m (opt m + i) := by
      rw [hopt, optionValue, hlength, hdata, optionValue]
    exact congrArg some hvalue

/-- An option in the last byte of the area is reached with any bytes behind the area. -/
theorem reach_last (hdoff : 5 ≤ doff m) (hn : TCPOPT_NOP < n) (hends : GetEnds m n)
    (hagree : ∀ i, i < tcpdata m → m' i = m i) {i : Nat} (hlast : i + 1 = optArea m)
    (hreach : ReflTransGen (Next (getRound m n)) 0 i) :
    ReflTransGen (Next (getRound m' n)) 0 i := by
  obtain ⟨r, hreturns⟩ := hends
  refine reach_congr hreach fun a ha hto => getRound_congr hdoff hn hagree fun hlt _ => ?_
  -- The walk comes to `i` only once, so what leads to it lies in front of it.
  have hne : a ≠ i := by
    intro heq
    rw [← heq] at hto
    exact (hreturns.reach ha).not_cycle hto
  omega

/-- A packet with other bytes behind the area. -/
theorem agree_memcpy (bs : List UInt8) (i : Nat) (hi : i < tcpdata m) :
    memcpy m (tcpdata m) bs i = m i :=
  memcpy_apply_outside (Or.inl hi)

/-- The first two bytes behind the area decide over an option in its last byte. -/
theorem getTcpOption_last (hdoff : 5 ≤ doff m) (hn : TCPOPT_NOP < n) (hends : GetEnds m n)
    {i : Nat} (hlast : i + 1 = optArea m) (hreach : ReflTransGen (Next (getRound m n)) 0 i)
    (hkind : m (opt m + i) = n) :
    getTcpOption (memcpy m (tcpdata m) [2, 0]) n = some 1 ∧
      getTcpOption (memcpy m (tcpdata m) [3, 0]) n = some 0 := by
  have hend := opt_add_optArea hdoff
  have harea := optArea_of_le hdoff
  simp only [TCPHDR] at harea
  have hlook : ∀ b : UInt8, b.toNat ≤ 3 →
      getTcpOption (memcpy m (tcpdata m) [b, 0]) n =
        some (optionValue (memcpy m (tcpdata m) [b, 0]) (opt m + i)) := by
    intro b hb
    obtain ⟨hopt, hdoff', harea'⟩ := agree_headers hdoff (agree_memcpy (m := m) [b, 0])
    have hfirst : memcpy m (tcpdata m) [b, 0] (opt m + i) = n :=
      (agree_memcpy [b, 0] _ (by omega)).trans hkind
    have hsecond : memcpy m (tcpdata m) [b, 0] (opt m + i + 1) = b := by
      rw [show opt m + i + 1 = tcpdata m + 0 by omega]
      exact memcpy_apply_inside (Nat.succ_pos 1)
    have hstop : getStop (memcpy m (tcpdata m) [b, 0]) n i = true := by
      rw [getStop, hopt, hdoff', hfirst, hsecond, beq_self_eq_true, Bool.true_and,
        decide_eq_true_iff]
      omega
    have hdone : getRound (memcpy m (tcpdata m) [b, 0]) n i = .done (some i) := by
      rw [getRound, walkRound, harea', if_pos (by omega), if_pos hstop]
    have hreturns := (Returns.done hdone).of_reach
      (reach_last hdoff hn hends (agree_memcpy [b, 0]) hlast hreach)
    rw [getTcpOption_of_returns hreturns, Option.elim_some, hopt]
  have hlength : ∀ b : UInt8, memcpy m (tcpdata m) [b, 0] (opt m + i + 1) = b := by
    intro b
    rw [show opt m + i + 1 = tcpdata m + 0 by omega]
    exact memcpy_apply_inside (Nat.succ_pos 1)
  have hdata : memcpy m (tcpdata m) [3, 0] (opt m + i + 2) = 0 := by
    rw [show opt m + i + 2 = tcpdata m + 1 by omega]
    exact memcpy_apply_inside (Nat.lt_succ_self 1)
  constructor
  · rw [hlook 2 (by decide), optionValue, hlength, if_pos rfl]
  · have hcount : ((3 : UInt8) - 2).toNat = 1 := by decide
    rw [hlook 3 (by decide), optionValue, hlength, if_neg (by decide), hcount, optionData,
      optionData, hdata]
    decide

/-- The first byte behind the area can lead an option in the last byte back to the first. -/
theorem getTcpOption_last_none (hdoff : 5 ≤ doff m) (hn : TCPOPT_NOP < n) (hends : GetEnds m n)
    {i : Nat} (hlast : i + 1 = optArea m) (hreach : ReflTransGen (Next (getRound m n)) 0 i)
    (hoption : TCPOPT_NOP < m (opt m + i)) (hkind : m (opt m + i) ≠ n) :
    getTcpOption (memcpy m (tcpdata m) [UInt8.ofNat (256 - i)]) n = none := by
  have hend := opt_add_optArea hdoff
  have harea := optArea_of_le hdoff
  have hlt := doff_lt m
  simp only [TCPHDR] at harea
  generalize hb : UInt8.ofNat (256 - i) = b
  obtain ⟨hopt, -, harea'⟩ := agree_headers hdoff (agree_memcpy (m := m) [b])
  have hfirst : memcpy m (tcpdata m) [b] (opt m + i) = m (opt m + i) :=
    agree_memcpy [b] _ (by omega)
  have hsecond : memcpy m (tcpdata m) [b] (opt m + i + 1) = b := by
    rw [show opt m + i + 1 = tcpdata m + 0 by omega]
    exact memcpy_apply_inside Nat.one_pos
  have hvalue : b.toNat = 256 - i := by
    rw [← hb, UInt8.toNat_ofNat', Nat.mod_eq_of_lt (by omega)]
  have hnonzero : b ≠ 0 := by
    intro hzero
    rw [hzero, show (0 : UInt8).toNat = 0 from rfl] at hvalue
    omega
  have hback : Next (getRound (memcpy m (tcpdata m) [b]) n) i 0 := by
    have hstop : getStop (memcpy m (tcpdata m) [b]) n i = false := by
      rw [getStop, hopt, hfirst, beq_eq_false_iff_ne.mpr hkind, Bool.false_and]
    have hstep : optlen (memcpy m (tcpdata m) [b]) (opt m) i = 256 - i := by
      rw [optlen, hfirst, hsecond, if_neg (not_or.mpr ⟨UInt8.not_le.mpr hoption, hnonzero⟩), hvalue]
    have hindex : (i + (256 - i)) % 256 = 0 := by omega
    rw [Next, getRound, walkRound, hopt, harea', if_pos (by omega), hstop, if_neg (by decide),
      hstep, hindex]
  rw [getTcpOption_eq_none_iff]
  rintro ⟨r, hreturns⟩
  exact hreturns.not_cycle (TransGen.tail'
    (reach_last hdoff hn hends (agree_memcpy [b]) hlast hreach) hback)

theorem ReadsArea.lengthInside (h : ReadsArea m n) (hdoff : 5 ≤ doff m) (hn : TCPOPT_NOP < n)
    (hends : GetEnds m n) : LengthInside m (getStop m n) := by
  intro i hreach hlt hoption
  by_contra hout
  have hlast : i + 1 = optArea m := by omega
  rw [← next_walkRound] at hreach
  by_cases hkind : m (opt m + i) = n
  · obtain ⟨hone, hzero⟩ := getTcpOption_last hdoff hn hends hlast hreach hkind
    rw [h _ (agree_memcpy [2, 0])] at hone
    rw [h _ (agree_memcpy [3, 0]), hone] at hzero
    exact absurd hzero (by decide)
  · have hnone := getTcpOption_last_none hdoff hn hends hlast hreach hoption hkind
    rw [h _ (agree_memcpy _)] at hnone
    exact (getTcpOption_eq_none_iff n).mp hnone hends

theorem shifted_inj {e : Nat} (he : e ≤ 1) {b c : UInt8} (h : shifted b e = shifted c e) :
    b = c := by
  have hb := b.toNat_lt
  have hc := c.toNat_lt
  apply UInt8.toNat_inj.mp
  obtain rfl | rfl : e = 0 ∨ e = 1 := by omega
  · rw [shifted_zero, shifted_zero] at h
    have hnat := congrArg UInt64.toNat h
    rw [UInt64.toNat_ofNat', UInt64.toNat_ofNat'] at hnat
    omega
  · rw [shifted_one, shifted_one] at h
    have hnat := congrArg UInt64.toNat h
    rw [UInt64.toNat_ofNat', UInt64.toNat_ofNat'] at hnat
    omega

/-- The value of an option depends on its last data byte, and on the one before it. -/
theorem optionData_inj {pos j k e bytefield : Nat} (he : e ≤ 1) (hj : bytefield + k = j)
    (hlt : j < 256) (h : ∀ q, q ≠ j → m' (pos + q) = m (pos + q)) {acc : UInt64}
    (heq : optionData m' pos (k + 1 + e) bytefield acc = optionData m pos (k + 1 + e) bytefield acc) :
    m' (pos + j) = m (pos + j) := by
  induction k generalizing bytefield acc with
  | zero =>
    obtain rfl : bytefield = j := hj
    apply shifted_inj he
    rw [Nat.zero_add, Nat.add_comm 1 e, optionData, optionData] at heq
    obtain rfl | rfl : e = 0 ∨ e = 1 := by omega
    · rw [optionData, optionData] at heq
      exact (UInt64.add_right_inj acc).mp heq
    · have hnext : (bytefield + 1) % 256 ≠ bytefield := by omega
      rw [optionData, optionData, optionData, optionData, h _ hnext] at heq
      exact (UInt64.add_right_inj acc).mp ((UInt64.add_left_inj _).mp heq)
  | succ k ih =>
    rw [show k + 1 + 1 + e = (k + 1 + e) + 1 by omega, optionData, optionData,
      h bytefield (by omega), Nat.mod_eq_of_lt (by omega)] at heq
    exact ih (by omega) heq

/-- An option that is found and has no length, or ends behind the area, has a value that
depends on a byte behind the area. -/
theorem exists_optionValue_ne {i : Nat} (hdoff : 5 ≤ doff m) (hi : i + 1 < optArea m)
    (hout : ¬ (2 ≤ (m (opt m + i + 1)).toNat ∧ i + (m (opt m + i + 1)).toNat ≤ optArea m)) :
    ∃ m', (∀ q, q < tcpdata m → m' q = m q) ∧
      optionValue m' (opt m + i) ≠ optionValue m (opt m + i) := by
  have hend := opt_add_optArea hdoff
  have harea := optArea_of_le hdoff
  have hdlt := doff_lt m
  simp only [TCPHDR] at harea
  have hlt := (m (opt m + i + 1)).toNat_lt
  -- The last data byte, or the one before it where the field number wraps.
  obtain ⟨k, e, he, hcount, hbehind, hfield⟩ : ∃ k e, e ≤ 1 ∧
      (m (opt m + i + 1) - 2).toNat = k + 1 + e ∧ optArea m ≤ i + (2 + k) ∧ 2 + k < 256 := by
    have hsub : (m (opt m + i + 1) - 2).toNat = ((m (opt m + i + 1)).toNat + 254) % 256 := by
      rw [UInt8.toNat_sub]
      have htwo : (2 : UInt8).toNat = 2 := rfl
      omega
    rcases Nat.lt_or_ge (m (opt m + i + 1)).toNat 2 with hsmall | hbig
    · obtain hzero | hone : (m (opt m + i + 1)).toNat = 0 ∨ (m (opt m + i + 1)).toNat = 1 := by
        omega
      · exact ⟨253, 0, by omega, by omega, by omega, by omega⟩
      · exact ⟨253, 1, by omega, by omega, by omega, by omega⟩
    · exact ⟨(m (opt m + i + 1)).toNat - 3, 0, by omega, by omega, by omega, by omega⟩
  generalize hj : 2 + k = j at hbehind hfield
  refine ⟨memcpy m (opt m + i + j) [m (opt m + i + j) + 1], fun q hq =>
    memcpy_apply_outside (Or.inl (by omega)), fun heq => ?_⟩
  have hother : ∀ q, q ≠ j →
      memcpy m (opt m + i + j) [m (opt m + i + j) + 1] (opt m + i + q) = m (opt m + i + q) :=
    fun q hq => memcpy_apply_outside (by simp only [List.length_singleton]; omega)
  have hchanged : memcpy m (opt m + i + j) [m (opt m + i + j) + 1] (opt m + i + j) =
      m (opt m + i + j) + 1 := memcpy_apply_inside (i := 0) Nat.one_pos
  have htwo : m (opt m + i + 1) ≠ 2 := by
    intro htwo
    rw [htwo] at hcount
    have hzero : ((2 : UInt8) - 2).toNat = 0 := by decide
    omega
  rw [optionValue, optionValue, hother 1 (by omega), if_neg htwo, if_neg htwo, hcount] at heq
  have hsame := optionData_inj he hj hfield hother heq
  rw [hchanged] at hsame
  have hne : ∀ b : UInt8, b + 1 ≠ b := by
    intro b hsame
    have hnat := congrArg UInt8.toNat hsame
    have hlt := b.toNat_lt
    rw [UInt8.toNat_add, show (1 : UInt8).toNat = 1 from rfl] at hnat
    omega
  exact hne _ hsame

theorem ReadsArea.foundInside (h : ReadsArea m n) (hdoff : 5 ≤ doff m) (hn : TCPOPT_NOP < n)
    (hlength : LengthInside m (getStop m n)) : FoundInside m n := by
  intro i hreach hlt hstop
  by_contra hout
  have hoption : TCPOPT_NOP < m (opt m + i) := by
    unfold getStop at hstop
    rw [Bool.and_eq_true, beq_iff_eq] at hstop
    rw [hstop.1]
    exact hn
  obtain ⟨m', hagree, hvalue⟩ := exists_optionValue_ne hdoff (hlength i hreach hlt hoption) hout
  have hreturns : Returns (getRound m n) 0 (some i) := returns_of_stop hreach hlt hstop
  have hreturns' := getRound_returns_congr hdoff hn hlength hagree hreturns
  have hsame := h m' hagree
  rw [getTcpOption_of_returns hreturns, getTcpOption_of_returns hreturns', Option.elim_some,
    Option.elim_some, (agree_headers hdoff hagree).1] at hsame
  exact hvalue (Option.some.inj hsame)

/-- **A look depends on the area alone** if and only if it reads no length byte behind it and
the option it finds ends inside it. -/
theorem readsArea_iff (hdoff : 5 ≤ doff m) (hn : TCPOPT_NOP < n) (hends : GetEnds m n) :
    ReadsArea m n ↔ LengthInside m (getStop m n) ∧ FoundInside m n := by
  constructor
  · intro h
    have hlength := h.lengthInside hdoff hn hends
    exact ⟨hlength, h.foundInside hdoff hn hlength⟩
  · rintro ⟨hlength, hfound⟩
    exact readsArea_of_inside hdoff hn hends hlength hfound

end Reads

/-! ### What a call leaves of the TCP data -/

/-- The bytes behind the headers, up to the end of the packet. -/
def dataLength (m : Mem) : Nat := totLen m - ihl m * 4 - doff m * 4

/-- `__set_tcp_option` leaves the TCP data as it is, though it may lie further back. -/
def PayloadKept (m : Mem) (tcpoptnum tcpoptlen : Nat) : Prop :=
  ∀ (tcpoptdata : UInt64) (r : Int) (m' : Mem),
    setTcpOption m tcpoptnum tcpoptlen tcpoptdata = some (r, m') →
    slice m' (tcpdata m') (dataLength m) = slice m (tcpdata m) (dataLength m)

/-- An option that is found ends inside the area, or the packet ends before the first byte
behind the area that belongs to its data. -/
def OverwriteInside (m : Mem) (tcpoptnum tcpoptlen : Nat) : Prop :=
  ∀ i, ReflTransGen (Leads m (setStop m tcpoptnum tcpoptlen)) 0 i → i < optArea m →
    setStop m tcpoptnum tcpoptlen i = true →
    i + tcpoptlen ≤ optArea m ∨ dataLength m ≤ i + 2 - optArea m

section Payload

variable {m : Mem} {num len : Nat}

/-- What follows the loops moves the TCP data as a whole. -/
theorem insertOption_payload {space : Nat} {data : UInt64} {r : Int} {m' : Mem}
    (hdoff : 5 ≤ doff m) (hspace : space ≤ optArea m) (hlen : 2 ≤ len) (hlen' : len ≤ 10)
    (h : insertOption m num len data space = some (r, m')) :
    slice m' (tcpdata m') (dataLength m) = slice m (tcpdata m) (dataLength m) := by
  have hspec := addOff_spec space (show len < 256 by omega)
  have hend := opt_add_optArea hdoff
  have harea := optArea_of_le hdoff
  unfold insertOption at h
  dsimp only at h
  generalize addOff space len = addoff at *
  by_cases hroom : doff m + addoff ≤ 15
  · rw [if_pos hroom] at h
    split at h
    · cases h
    · cases h
      have hall : slice m (opt m) (4 * doff m - TCPHDR) =
          slice m (opt m) (4 * doff m - TCPHDR) ++ List.replicate 0 0 := (List.append_nil _).symm
      obtain ⟨hgrow, -, hdata⟩ := growOptions_spec addoff hdoff hall
      have hopt : opt (growOptions m addoff) = opt m := congrArg (· + TCPHDR) hgrow.kept.tcph
      have hsame : SameHeaders (growOptions m addoff)
          (writeOption (growOptions m addoff) num len data space) :=
        sameHeaders_of_apply fun j hj => writeOption_apply hj
      obtain ⟨hbytes, -, hdoff', -⟩ := putOption_spec (by rw [hgrow.doff]; exact hroom) hsame
      rw [hgrow.doff] at hdoff'
      rw [hgrow.kept.tcph] at hbytes
      have hkept : Kept m (putOption (growOptions m addoff) num len data space addoff) := by
        intro j hj hne
        unfold Editable at hne
        rw [hbytes j (by omega) (by omega) (by omega), writeOption_apply (by rw [hopt]; exact hj),
          growOptions_apply addoff hdoff hj]
      have hdata' : tcpdata (putOption (growOptions m addoff) num len data space addoff) =
          tcpdata m + addoff * 4 := by
        rw [tcpdata, hkept.tcph, hdoff', tcpdata]
        omega
      rw [hdata', dataLength, ← hdata]
      refine slice_congr fun j _ => ?_
      have hge := tcph_le_tcpdata hdoff
      simp only [TCPHDR] at hge harea
      rw [hbytes _ (by omega) (by omega) (by omega), writeOption_eq hlen hlen' rfl,
        memcpy_apply_outside, memcpy_apply_outside]
      · rw [length_slice, hopt, hgrow.doff]
        simp only [TCPHDR]
        omega
      · rw [length_newOption hlen, hopt]
        omega
  · rw [if_neg hroom] at h
    cases h
    rfl

/-- What a call that finds the option does. -/
theorem setTcpOption_of_found {i : Nat} (hdoff : doff m > 5)
    (h : Returns (setRound m num len) 0 (some i)) (hlen : 2 ≤ len) (hlen' : len ≤ 10)
    (data : UInt64) :
    setTcpOption m num len data =
      some (0, memcpy m (opt m + i + 2) (beBytes (len - 2) data.toNat)) := by
  have hwalk : walk m (opt m) (optArea m) (setStop m num len) WALK 0 = some (some i) :=
    walk_eq_some_iff.mpr h
  unfold setStop at hwalk
  have hcount : dataCount len = len - 2 := by
    unfold dataCount
    omega
  have hset : setTcpOption m num len data =
      some (0, writeData (opt m + i) data (dataCount len) 2 m) := by
    rw [setTcpOption, if_pos hdoff, hwalk]
  rw [hset, hcount, writeData_eq _ _ (by omega) (by omega)]

/-- The TCP data of a packet whose option at `i` is overwritten. -/
theorem slice_overwritten {i : Nat} {bs : List UInt8} (hdoff : 5 ≤ doff m) :
    slice (memcpy m (opt m + i + 2) bs) (tcpdata (memcpy m (opt m + i + 2) bs)) (dataLength m) =
      slice (memcpy m (opt m + i + 2) bs) (opt m + optArea m) (dataLength m) := by
  have hsame : SameHeaders m (memcpy m (opt m + i + 2) bs) :=
    sameHeaders_memcpy bs (by rw [opt]; omega)
  rw [hsame.tcpdata, opt_add_optArea hdoff]

theorem payloadKept_of_inside (hdoff : 5 ≤ doff m) (hends : SetEnds m num len) (hlen : 2 ≤ len)
    (hlen' : len ≤ 10) (hinside : OverwriteInside m num len) : PayloadKept m num len := by
  intro data r m' hset
  by_cases hsix : doff m > 5
  · obtain ⟨⟨found, hreturns⟩, hcompact⟩ := hends hsix
    cases found with
    | some i =>
      obtain ⟨hreach, hi, hstop⟩ := returns_some hreturns
      rw [setTcpOption_of_found hsix hreturns hlen hlen'] at hset
      cases hset
      rw [slice_overwritten hdoff, ← opt_add_optArea hdoff]
      refine slice_congr fun j hj => memcpy_apply_outside ?_
      rw [length_beBytes]
      rcases hinside i hreach hi hstop with hin | hshort
      · omega
      · omega
    | none =>
      have hwalk : walk m (opt m) (optArea m) (setStop m num len) WALK 0 = some none :=
        walk_eq_some_iff.mpr hreturns
      have hlimit : optArea m < 256 := by
        have := doff_lt m
        rw [optArea_of_le hdoff]
        omega
      obtain ⟨⟨m₁, space⟩, hreturns₁⟩ := hcompact hreturns
      have hrun := (compact_eq_some_iff hlimit).mpr hreturns₁
      obtain ⟨hframe, hspace⟩ := compact_outside hrun
      unfold setStop at hwalk
      rw [setTcpOption, if_pos hsix, if_pos hsix, hwalk] at hset
      dsimp only at hset
      rw [hrun] at hset
      have hsame : SameHeaders m m₁ := sameHeaders_of_apply fun j hj => hframe j (Or.inl hj)
      have hlength : dataLength m₁ = dataLength m := by
        rw [dataLength, hsame.totLen, hsame.kept.ihl, hsame.doff, dataLength]
      have hkept := insertOption_payload (by rw [hsame.doff]; exact hdoff)
        (by rw [optArea, hsame.doff]; exact hspace) hlen hlen' hset
      rw [hlength, hsame.tcpdata] at hkept
      rw [hkept]
      have hend := opt_add_optArea hdoff
      exact slice_congr fun j _ => hframe _ (Or.inr (by omega))
  · have hset' : insertOption m num len data 0 = some (r, m') := by
      rw [setTcpOption, if_neg hsix, if_neg hsix] at hset
      exact hset
    exact insertOption_payload hdoff (Nat.zero_le _) hlen hlen' hset'

/-- Bytes of option data that are all zero, or all one. -/
theorem beBytes_same {k t : Nat} (hk : k ≤ 2) (ht : t < k) :
    (beBytes k (0 : UInt64).toNat).getD t 0 = 0 ∧ (beBytes k (257 : UInt64).toNat).getD t 0 = 1 := by
  obtain rfl | rfl : k = 1 ∨ k = 2 := by omega
  · obtain rfl : t = 0 := by omega
    decide
  · obtain rfl | rfl : t = 0 ∨ t = 1 := by omega
    · decide
    · decide

theorem PayloadKept.overwriteInside (h : PayloadKept m num len) (hdoff : 5 ≤ doff m)
    (hlen : len = 3 ∨ len = 4) : OverwriteInside m num len := by
  intro i hreach hi hstop
  by_contra hout
  obtain ⟨hbehind, hlong⟩ := not_or.mp hout
  have hreturns : Returns (setRound m num len) 0 (some i) := returns_of_stop hreach hi hstop
  have hsix : doff m > 5 := by
    rw [optArea_of_le hdoff] at hi
    simp only [TCPHDR] at hi
    omega
  -- The first overwritten byte behind the area, as an index `t` of the data and `j` of the payload.
  obtain ⟨t, j, hpos, ht, hj⟩ : ∃ t j, opt m + optArea m + j = opt m + i + 2 + t ∧ t < len - 2 ∧
      j < dataLength m :=
    ⟨optArea m - (i + 2), i + 2 - optArea m, by omega, by omega, by omega⟩
  have hbyte : ∀ data : UInt64,
      m (opt m + optArea m + j) = (beBytes (len - 2) data.toNat).getD t 0 := by
    intro data
    have hsame := h data 0 _ (setTcpOption_of_found hsix hreturns (by omega) (by omega) data)
    rw [slice_overwritten hdoff, ← opt_add_optArea hdoff] at hsame
    have hat := slice_eq_apply hsame hj
    rw [← hat, hpos]
    exact memcpy_apply_inside (by rw [length_beBytes]; exact ht)
  obtain ⟨hzero, hone⟩ := beBytes_same (show len - 2 ≤ 2 by omega) ht
  have h0 := hbyte 0
  rw [hbyte 257, hzero, hone] at h0
  exact absurd h0 (by decide)

/-- **The TCP data is kept** if and only if the option a call finds ends inside the area, or
the packet ends before the first byte behind the area that the call writes. -/
theorem payloadKept_iff (hdoff : 5 ≤ doff m) (hends : SetEnds m num len)
    (hlen : len = 3 ∨ len = 4) : PayloadKept m num len ↔ OverwriteInside m num len := by
  constructor
  · intro h
    exact h.overwriteInside hdoff hlen
  · exact payloadKept_of_inside hdoff hends (by omega) (by omega)

end Payload

/-- **Options and the TCP data are kept apart** if and only if no option the two functions
come to reaches over the end of the area. -/
theorem optionBounds_iff {m : Mem} {n : UInt8} {len : Nat} (hdoff : 5 ≤ doff m)
    (hn : TCPOPT_NOP < n) (hlen : len = 3 ∨ len = 4) (hget : GetEnds m n)
    (hset : SetEnds m n.toNat len) :
    PayloadKept m n.toNat len ∧ ReadsArea m n ↔
      OverwriteInside m n.toNat len ∧ LengthInside m (getStop m n) ∧ FoundInside m n :=
  and_congr (payloadKept_iff hdoff hset hlen) (readsArea_iff hdoff hn hget)

section Fixed

variable {m : Mem} {n : UInt8} {num len i : Nat}

theorem getEnds_of_walk {r : Option Nat}
    (h : walk m (opt m) (optArea m) (getStop m n) WALK 0 = some r) : GetEnds m n :=
  ⟨r, walk_eq_some_iff.mp h⟩

/-- A call that finds the option removes no no-operations. -/
theorem setEnds_of_walk (h : walk m (opt m) (optArea m) (setStop m num len) WALK 0 = some (some i)) :
    SetEnds m num len := by
  refine fun _ => ⟨⟨some i, walk_eq_some_iff.mp h⟩, fun hnone => ?_⟩
  have hnone' := walk_eq_some_iff.mpr hnone
  rw [h] at hnone'
  cases hnone'

/-- A walk that stops at once comes to no other index. -/
theorem eq_zero_of_stop {p : Nat → Bool} (hp : p 0 = true) (h : ReflTransGen (Leads m p) 0 i) :
    i = 0 := by
  rcases ReflTransGen.cases_head h with hzero | ⟨j, hlead, -⟩
  · exact hzero.symm
  · exact absurd (hp.symm.trans hlead.2.1) (by decide)

/-- A packet with two bytes of TCP data and four bytes of options. -/
def twoBytes (options data : List UInt8) : Mem :=
  ofList ([0x45, 0, 0, 46, 0, 0, 0, 0, 64, 6, 0, 0, 10, 0, 0, 1, 10, 0, 0, 2] ++
    [0, 80, 0, 80, 0, 0, 0, 0, 0, 0, 0, 0, 0x60, 16, 0, 0, 0, 0, 0, 0] ++ options ++ data)

theorem optionBounds_twoBytes :
    PayloadKept (twoBytes [32, 3, 7, 0] [3, 9]) 32 3 ∧ ReadsArea (twoBytes [32, 3, 7, 0] [3, 9]) 32 := by
  have hget : getStop (twoBytes [32, 3, 7, 0] [3, 9]) 32 0 = true := by decide
  have hset : setStop (twoBytes [32, 3, 7, 0] [3, 9]) 32 3 0 = true := by decide
  refine (optionBounds_iff (n := 32) (by decide) (by decide) (Or.inl rfl)
    (getEnds_of_walk (r := some 0) (by decide))
    (setEnds_of_walk (i := 0) (by decide))).mpr ⟨?_, ?_, ?_⟩
  · intro i hreach _ _
    rw [eq_zero_of_stop hset hreach]
    exact Or.inl (by decide)
  · intro i hreach _ _
    rw [eq_zero_of_stop hget hreach]
    decide
  · intro i hreach _ _
    rw [eq_zero_of_stop hget hreach]
    decide

/-- An option in the last byte of the area takes its length from the TCP data, and its data
byte is written there. -/
theorem twoBytes_not_kept :
    ¬ ∀ (m : Mem) (n : UInt8) (len : Nat), 5 ≤ doff m → (n, len) ∈ [(32, 3), (2, 4)] →
      GetEnds m n → SetEnds m n.toNat len → PayloadKept m n.toNat len ∧ ReadsArea m n := by
  intro hall
  obtain ⟨hkept, -⟩ := hall (twoBytes [1, 1, 1, 32] [3, 9]) 32 3 (by decide) (by decide)
    (getEnds_of_walk (r := some 3) (by decide))
    (setEnds_of_walk (i := 3) (by decide))
  have hset : (setTcpOption (twoBytes [1, 1, 1, 32] [3, 9]) 32 3 1).map
      (fun r => slice r.2 (tcpdata r.2) 2) = some [3, 1] := by decide
  obtain ⟨⟨r, m'⟩, hrun, hslice⟩ := Option.map_eq_some_iff.mp hset
  have hsame := hkept 1 r m' hrun
  have hlength : dataLength (twoBytes [1, 1, 1, 32] [3, 9]) = 2 := by decide
  rw [hlength] at hsame
  dsimp only at hslice
  rw [hsame] at hslice
  exact absurd hslice (by decide)

end Fixed

end Solowan.Net
