/-
Well-formed option areas.

An option area that TCP allows is a sequence of no-operations and options with a length,
followed by zeros. On such an area neither function of `Net.TcpOptions` wraps its index,
and both have a simple meaning:

* `getTcpOption_absent`: an option that is not there has the value 0.
* `setTcpOption_absent`: setting an option that is not there and has room removes the
  no-operations, puts the option in front of the others, and moves the TCP data back by
  the dwords the area has grown.
-/

import Mathlib.Data.List.Flatten
import Solowan.Net.TcpOptions

namespace Solowan.Net

open Solowan.Memory

/-- An entry of the option area. -/
inductive TcpOption where
  | nop
  | option (kind : UInt8) (data : List UInt8)
  deriving DecidableEq, Repr

namespace TcpOption

def bytes : TcpOption → List UInt8
  | nop => [TCPOPT_NOP]
  | option kind data => kind :: UInt8.ofNat (data.length + 2) :: data

def WellFormed : TcpOption → Prop
  | nop => True
  | option kind data => TCPOPT_NOP < kind ∧ data.length + 2 < 256

/-- The entry is an option of kind `num`. -/
def Is (num : UInt8) : TcpOption → Prop
  | nop => False
  | option kind _ => kind = num

def isNop : TcpOption → Bool
  | nop => true
  | option _ _ => false

end TcpOption

/-- The bytes of a sequence of entries. -/
def optionBytes (items : List TcpOption) : List UInt8 := items.flatMap TcpOption.bytes

/-- The options without the no-operations. -/
def withoutNops (items : List TcpOption) : List TcpOption := items.filter fun x => !x.isNop

@[simp] theorem optionBytes_cons (x : TcpOption) (items : List TcpOption) :
    optionBytes (x :: items) = x.bytes ++ optionBytes items := rfl

@[simp] theorem optionBytes_append (items items' : List TcpOption) :
    optionBytes (items ++ items') = optionBytes items ++ optionBytes items' :=
  List.flatMap_append

/-- The option area of `m` holds `items` and `pad` zeros. -/
structure HoldsOptions (m : Mem) (items : List TcpOption) (pad : Nat) : Prop where
  doff : 5 ≤ doff m
  wellFormed : ∀ x ∈ items, x.WellFormed
  area : slice m (opt m) (4 * Net.doff m - TCPHDR) = optionBytes items ++ List.replicate pad 0

/-! ### Walking -/

section Walk

variable {m : Mem} {o i n : Nat} {rest : List UInt8}

/-- Where an area begins with some bytes, it goes on behind them. -/
theorem slice_rest {a : List UInt8} (h : slice m (o + i) n = a ++ rest) :
    slice m (o + (i + a.length)) (n - a.length) = rest := by
  have hlen : n = a.length + rest.length := by
    have := congrArg List.length h
    simpa using this
  obtain ⟨-, hrest⟩ := slice_split h
  rw [← Nat.add_assoc, hlen, Nat.add_sub_cancel_left]
  exact hrest

theorem slice_first {b : UInt8} (h : slice m (o + i) n = b :: rest) : m (o + i) = b := by
  have hpos : 0 < n := by
    have := congrArg List.length h
    simp only [length_slice, List.length_cons] at this
    omega
  have := apply_of_slice_eq h hpos
  simpa using this

/-- The step over an entry is its length. -/
theorem optlen_bytes {x : TcpOption} (hx : x.WellFormed)
    (h : slice m (o + i) n = x.bytes ++ rest) : optlen m o i = x.bytes.length := by
  cases x with
  | nop =>
    have h0 : m (o + i) = TCPOPT_NOP := slice_first h
    rw [optlen, if_pos (Or.inl (by rw [h0]; exact UInt8.le_refl _))]
    rfl
  | option kind data =>
    obtain ⟨hkind, hlen⟩ := hx
    have h0 : m (o + i) = kind := slice_first h
    have h1 : m (o + (i + 1)) = UInt8.ofNat (data.length + 2) := by
      have htail := slice_rest (a := [kind]) h
      exact slice_first htail
    have hto : (UInt8.ofNat (data.length + 2)).toNat = data.length + 2 := by
      rw [UInt8.toNat_ofNat', Nat.mod_eq_of_lt (by omega)]
    have hne : UInt8.ofNat (data.length + 2) ≠ 0 := by
      intro hzero
      rw [hzero] at hto
      simp at hto
    rw [optlen, Nat.add_assoc, h0, h1, if_neg (not_or.mpr ⟨UInt8.not_le.mpr hkind, hne⟩), hto]
    simp [TcpOption.bytes]

theorem optlen_pad (h : slice m (o + i) n = 0 :: rest) : optlen m o i = 1 := by
  rw [optlen, slice_first h, if_pos (Or.inl (by decide))]

/-- One step over an entry without `p`. -/
theorem walk_step (fuel : Nat) {limit : Nat} {p : Nat → Bool} {a : List UInt8} (hlimit : limit < 256)
    (hi : i < limit) (h : slice m (o + i) (limit - i) = a ++ rest)
    (hlen : optlen m o i = a.length) (hp : p i = false) :
    walk m o limit p (fuel + 1) i = walk m o limit p fuel (i + a.length) ∧
      i + a.length ≤ limit := by
  have hle : a.length ≤ limit - i := by
    have := congrArg List.length h
    simp only [length_slice, List.length_append] at this
    omega
  rw [walk, if_pos hi, hp, if_neg (by decide), hlen, Nat.mod_eq_of_lt (by omega)]
  exact ⟨rfl, by omega⟩

/-- Every entry takes a byte at least. -/
theorem TcpOption.length_bytes_pos (x : TcpOption) : 0 < x.bytes.length := by
  cases x with
  | nop => exact Nat.one_pos
  | option kind data => exact Nat.succ_pos _

/-- A walk over entries without `p` comes to what is behind them. -/
theorem walk_entries (fuel : Nat) {limit : Nat} {p : Nat → Bool} {todo : List TcpOption}
    (hlimit : limit < 256) (hi : i ≤ limit) (hwf : ∀ x ∈ todo, x.WellFormed)
    (harea : slice m (o + i) (limit - i) = optionBytes todo ++ rest)
    (hp : ∀ j x after, x ∈ todo → slice m (o + j) (limit - j) = x.bytes ++ after → p j = false) :
    walk m o limit p (todo.length + fuel) i =
        walk m o limit p fuel (i + (optionBytes todo).length) ∧
      i + (optionBytes todo).length ≤ limit := by
  induction todo generalizing i with
  | nil => exact ⟨by simp [optionBytes], hi⟩
  | cons x todo ih =>
    rw [optionBytes_cons, List.append_assoc] at harea
    have hlt : i < limit := by
      have := congrArg List.length harea
      have := x.length_bytes_pos
      simp only [length_slice, List.length_append] at *
      omega
    obtain ⟨hwalk, hle⟩ := walk_step (todo.length + fuel) hlimit hlt harea
      (optlen_bytes (hwf x List.mem_cons_self) harea) (hp i x _ List.mem_cons_self harea)
    have hrest := slice_rest harea
    rw [Nat.sub_sub] at hrest
    obtain ⟨hwalk', hle'⟩ := ih hle (fun y hy => hwf y (List.mem_cons_of_mem x hy)) hrest
      fun j y after hy => hp j y after (List.mem_cons_of_mem x hy)
    rw [optionBytes_cons, List.length_append, ← Nat.add_assoc, ← hwalk', ← hwalk]
    exact ⟨congrArg (fun n => walk m o limit p n i) (by rw [List.length_cons]; omega), hle'⟩

/-- A walk over padding comes to the end of the area. -/
theorem walk_zeros {limit pad fuel : Nat} {p : Nat → Bool} (hlimit : limit < 256)
    (hi : i ≤ limit) (harea : slice m (o + i) (limit - i) = List.replicate pad 0)
    (hp : ∀ j, m (o + j) = 0 → p j = false) (hfuel : pad < fuel) :
    walk m o limit p fuel i = some none := by
  induction pad generalizing i fuel with
  | zero =>
    have hend : limit - i = 0 := by
      have := congrArg List.length harea
      simpa using this
    cases fuel with
    | zero => omega
    | succ fuel => rw [walk, if_neg (by omega)]
  | succ pad ih =>
    have harea' : slice m (o + i) (limit - i) = [0] ++ List.replicate pad 0 := harea
    have hlt : i < limit := by
      have := congrArg List.length harea'
      simp only [length_slice, List.length_append, List.length_singleton] at this
      omega
    cases fuel with
    | zero => omega
    | succ fuel =>
      obtain ⟨hwalk, hle⟩ := walk_step fuel hlimit hlt harea' (optlen_pad harea')
        (hp i (slice_first harea'))
      have hrest := slice_rest harea'
      rw [Nat.sub_sub] at hrest
      rw [hwalk]
      exact ih hle hrest (by omega)

end Walk

/-! ### Removing the no-operations -/

section Compact

variable {m : Mem} {o i limit pad : Nat}

/-- One round of the inner loop: the first byte goes, a zero comes in at the end. -/
theorem shift_spec {b : UInt8} {rest : List UInt8} (hi : i < limit)
    (h : slice m (o + i) (limit - i) = b :: rest) :
    slice (memcpy (memmove m (o + i) (o + i + 1) (limit - i - 1)) (o + limit - 1) [0]) (o + i)
        (limit - i) = rest ++ [0] ∧
      ∀ j, j < o + i ∨ o + limit ≤ j →
        memcpy (memmove m (o + i) (o + i + 1) (limit - i - 1)) (o + limit - 1) [0] j = m j := by
  constructor
  · have hrest : slice m (o + i + 1) (limit - i - 1) = rest := by
      have := slice_rest (a := [b]) h
      simpa [Nat.add_assoc] using this
    obtain ⟨n, hn⟩ : ∃ n, limit - i = n + 1 := ⟨limit - i - 1, by omega⟩
    rw [hn, Nat.add_sub_cancel] at hrest ⊢
    rw [slice_append, slice_memcpy_disjoint (Or.inl (by omega)), slice_memmove_self, hrest,
      show o + i + n = o + limit - 1 by omega]
    exact congrArg (rest ++ ·) (slice_memcpy_self _ _ [0])
  · intro j hj
    rw [memcpy_apply_outside (by simp only [List.length_singleton]; omega),
      memmove_apply_outside (by omega)]

/-- The inner loop stops at any other byte. -/
theorem dropNops_of_ne (hstop : m (o + i) ≠ TCPOPT_NOP) (fuel : Nat) :
    dropNops o limit i fuel m = m := by
  cases fuel with
  | zero => rfl
  | succ fuel => rw [dropNops, if_neg hstop]

/-- The area does not begin with a no-operation if its bytes do not. -/
theorem ne_nop_of_slice {rest : List UInt8} (hi : i < limit)
    (h : slice m (o + i) (limit - i) = rest) (hrest : rest.head? ≠ some TCPOPT_NOP) :
    m (o + i) ≠ TCPOPT_NOP := by
  intro hnop
  cases rest with
  | nil =>
    have := congrArg List.length h
    simp only [length_slice, List.length_nil] at this
    omega
  | cons b rest =>
    rw [slice_first h] at hnop
    exact hrest (by rw [hnop, List.head?_cons])

/-- The zero that comes in at the end is no no-operation. -/
theorem head?_append_zero {rest : List UInt8} (hrest : rest.head? ≠ some TCPOPT_NOP) :
    (rest ++ [0]).head? ≠ some TCPOPT_NOP := by
  cases rest with
  | nil => decide
  | cons b rest => simpa using hrest

/-- The inner loop removes all no-operations in front. -/
theorem dropNops_spec (fuel : Nat) {k : Nat} {rest : List UInt8} (hi : i < limit)
    (h : slice m (o + i) (limit - i) = List.replicate k TCPOPT_NOP ++ rest)
    (hrest : rest.head? ≠ some TCPOPT_NOP) (hfuel : k ≤ fuel) :
    slice (dropNops o limit i fuel m) (o + i) (limit - i) = rest ++ List.replicate k 0 ∧
      ∀ j, j < o + i ∨ o + limit ≤ j → dropNops o limit i fuel m j = m j := by
  induction k generalizing m fuel rest with
  | zero =>
    rw [dropNops_of_ne (ne_nop_of_slice hi h hrest)]
    exact ⟨by simpa using h, fun _ _ => rfl⟩
  | succ k ih =>
    cases fuel with
    | zero => omega
    | succ fuel =>
      have h' : slice m (o + i) (limit - i) =
          TCPOPT_NOP :: (List.replicate k TCPOPT_NOP ++ rest) := h
      obtain ⟨hshift, hframe⟩ := shift_spec hi h'
      rw [dropNops, if_pos (slice_first h')]
      rw [List.append_assoc] at hshift
      obtain ⟨hslice, hframe'⟩ := ih fuel hshift (head?_append_zero hrest) (by omega)
      refine ⟨?_, fun j hj => (hframe' j hj).trans (hframe j hj)⟩
      rw [hslice, List.append_assoc, List.replicate_succ]
      rfl

/-- The outer loop removes all no-operations and finds the space behind the options. The
list `todo` is what is left of the area, behind `k` no-operations. -/
theorem compact_spec (fuel : Nat) {k : Nat} {todo : List TcpOption} (hlimit : limit < 256)
    (hi : i ≤ limit) (hwf : ∀ x ∈ todo, x.WellFormed)
    (h : slice m (o + i) (limit - i) =
      List.replicate k TCPOPT_NOP ++ (optionBytes todo ++ List.replicate pad 0))
    (hfuel : todo.length < fuel) :
    ∃ m' space, compact o limit fuel i m = some (m', space) ∧
      slice m' (o + i) (limit - i) =
        optionBytes (withoutNops todo) ++ List.replicate space 0 ∧
      ∀ j, j < o + i ∨ o + limit ≤ j → m' j = m j := by
  induction todo generalizing m i fuel k pad with
  | nil =>
    have hlen : k + pad = limit - i := by
      have := congrArg List.length h
      simpa [optionBytes] using this.symm
    cases fuel with
    | zero => omega
    | succ fuel =>
      by_cases hlt : i < limit
      · have hhead : (List.replicate pad (0 : UInt8)).head? ≠ some TCPOPT_NOP := by
          cases pad with
          | zero => decide
          | succ pad => simp [List.replicate_succ, TCPOPT_NOP]
        obtain ⟨hslice, hframe⟩ := dropNops_spec limit hlt h hhead (by omega)
        have hzeros : slice (dropNops o limit i limit m) (o + i) (limit - i) =
            List.replicate (limit - i) 0 := by
          rw [hslice, ← hlen, Nat.add_comm, ← List.replicate_append_replicate]
          rfl
        have hfirst : dropNops o limit i limit m (o + i) = TCPOPT_EOL := by
          obtain ⟨n, hn⟩ : ∃ n, limit - i = n + 1 := ⟨limit - i - 1, by omega⟩
          rw [hn, List.replicate_succ] at hzeros
          exact slice_first hzeros
        refine ⟨_, limit - i, ?_, hzeros, hframe⟩
        rw [compact, if_pos hlt]
        dsimp only
        rw [if_pos hfirst]
      · refine ⟨m, 0, ?_, ?_, fun _ _ => rfl⟩
        · rw [compact, if_neg hlt]
        · rw [show limit - i = 0 by omega]
          rfl
  | cons x todo ih =>
    cases x with
    | nop =>
      -- One more no-operation in front of the rest.
      have h' : slice m (o + i) (limit - i) = List.replicate (k + 1) TCPOPT_NOP ++
          (optionBytes todo ++ List.replicate pad 0) := by
        rw [h, List.replicate_succ', List.append_assoc, optionBytes_cons, TcpOption.bytes,
          List.append_assoc]
      exact ih fuel hi (fun y hy => hwf y (List.mem_cons_of_mem _ hy)) h'
        (by rw [List.length_cons] at hfuel; omega)
    | option kind data =>
      have hx := hwf _ List.mem_cons_self
      have hkind : TCPOPT_NOP < kind := hx.1
      have hlt : i < limit := by
        have := congrArg List.length h
        simp only [length_slice, List.length_append, optionBytes_cons, TcpOption.bytes,
          List.length_cons] at this
        omega
      have hhead : (optionBytes (.option kind data :: todo) ++
          List.replicate pad 0).head? ≠ some TCPOPT_NOP := by
        intro heq
        simp only [optionBytes_cons, TcpOption.bytes, List.cons_append, List.head?_cons,
          Option.some.injEq] at heq
        exact UInt8.ne_of_lt hkind heq.symm
      have hk : k ≤ limit := by
        have := congrArg List.length h
        simp only [length_slice, List.length_append, List.length_replicate] at this
        omega
      obtain ⟨hslice, hframe⟩ := dropNops_spec limit hlt h hhead hk
      rw [List.append_assoc, List.replicate_append_replicate, optionBytes_cons,
        List.append_assoc] at hslice
      have hfirst : dropNops o limit i limit m (o + i) = kind := slice_first hslice
      have hle : (TcpOption.option kind data).bytes.length ≤ limit - i := by
        have := congrArg List.length hslice
        simp only [length_slice, List.length_append] at this
        omega
      have hbytes : (TcpOption.option kind data).bytes.length = data.length + 2 := rfl
      cases fuel with
      | zero => omega
      | succ fuel =>
        have hrest := slice_rest hslice
        rw [Nat.sub_sub] at hrest
        obtain ⟨m', space, hrun, harea, hframe'⟩ := ih fuel (k := 0) (by omega)
          (fun y hy => hwf y (List.mem_cons_of_mem _ hy)) hrest
          (by rw [List.length_cons] at hfuel; omega)
        refine ⟨m', space, ?_, ?_, ?_⟩
        · have hne : ¬ dropNops o limit i limit m (o + i) = TCPOPT_EOL := by
            rw [hfirst]
            intro heq
            rw [heq] at hkind
            exact absurd hkind (by decide)
          rw [compact, if_pos hlt]
          dsimp only
          rw [if_neg hne, optlen_bytes hx hslice, Nat.mod_eq_of_lt (by omega)]
          exact hrun
        · have hkeep : slice m' (o + i) (TcpOption.option kind data).bytes.length =
              (TcpOption.option kind data).bytes := by
            refine Eq.trans (slice_congr fun j hj => ?_) (slice_split hslice).1
            exact hframe' _ (Or.inl (by omega))
          rw [show limit - i = (TcpOption.option kind data).bytes.length +
              (limit - (i + (TcpOption.option kind data).bytes.length)) by omega,
            slice_append, hkeep, Nat.add_assoc, harea, ← List.append_assoc]
          rfl
        · intro j hj
          rw [hframe' j (by omega)]
          exact hframe j hj

end Compact

/-! ### Inserting an option -/

/-- The bytes of the option a call writes. -/
def newOption (tcpoptnum tcpoptlen : Nat) (tcpoptdata : UInt64) : List UInt8 :=
  [UInt8.ofNat tcpoptnum, UInt8.ofNat tcpoptlen] ++ beBytes (tcpoptlen - 2) tcpoptdata.toNat

/-- What an inserted option does to a packet: of the headers only the two lengths change, by
`addoff` dwords, the area holds `front` and padding, and the TCP data moves back. -/
structure Edited (m m' : Mem) (front : List UInt8) (addoff : Nat) : Prop where
  frame : ∀ i, i < opt m → i ≠ 2 → i ≠ 3 → i ≠ tcph m + 12 → m' i = m i
  flags : (m' (tcph m + 12)).toNat % 16 = (m (tcph m + 12)).toNat % 16
  doff : doff m' = doff m + addoff
  totLen : totLen m' = (totLen m + addoff * 4) % 65536
  area : slice m' (opt m) (4 * Net.doff m' - TCPHDR) =
    front ++ List.replicate (4 * Net.doff m' - TCPHDR - front.length) 0
  data : slice m' (tcpdata m') (Net.totLen m - ihl m * 4 - Net.doff m * 4) =
    slice m (tcpdata m) (Net.totLen m - ihl m * 4 - Net.doff m * 4)

theorem Edited.kept {m m' : Mem} {front : List UInt8} {addoff : Nat}
    (h : Edited m m' front addoff) : Kept m m' := by
  intro i hi hne
  unfold Editable at hne
  exact h.frame i hi (by omega) (by omega) (by omega)

theorem Edited.seq {m m' : Mem} {front : List UInt8} {addoff : Nat}
    (h : Edited m m' front addoff) : seq m' = seq m :=
  seq_congr h.kept.ihl fun i hi =>
    h.frame _ (by simp only [opt, TCPHDR]; omega) (by omega) (by omega) (by omega)

section Insert

variable {m : Mem} {num len space : Nat} {data : UInt64} {kept : List UInt8}

theorem length_newOption (h : 2 ≤ len) : (newOption num len data).length = len := by
  simp only [newOption, List.length_append, List.length_cons, List.length_nil, length_beBytes]
  omega

/-- The loop over the data bytes writes them most significant first. -/
theorem writeData_eq (pos : Nat) (data : UInt64) {count bytefield : Nat} (hcount : count ≤ 8)
    (hb : bytefield + count ≤ 256) (m : Mem) :
    writeData pos data count bytefield m =
      memcpy m (pos + bytefield) (beBytes count data.toNat) := by
  induction count generalizing bytefield m with
  | zero => simp [writeData, beBytes]
  | succ count ih =>
    have hbyte : (data >>> UInt64.ofNat (8 * count)).toUInt8 =
        UInt8.ofNat (data.toNat / 256 ^ count) := by
      apply UInt8.toNat_inj.mp
      rw [UInt64.toNat_toUInt8, UInt64.toNat_shiftRight, UInt64.toNat_ofNat', UInt8.toNat_ofNat',
        Nat.mod_eq_of_lt (a := 8 * count) (by omega), Nat.mod_eq_of_lt (a := 8 * count) (by omega),
        Nat.shiftRight_eq_div_pow, Nat.pow_mul]
    rw [writeData, hbyte, beBytes_succ]
    cases count with
    | zero => rfl
    | succ count =>
      rw [Nat.mod_eq_of_lt (by omega), ih (by omega) (by omega),
        memcpy_append m (by simp only [List.length_singleton]; omega)]
      rfl

theorem addOff_spec (space : Nat) (h : len < 256) : len ≤ space + addOff space len * 4 := by
  unfold addOff
  dsimp only
  split
  · split <;> omega
  · omega

/-- Growing the area leaves the headers alone, adds zeros and moves the data back. -/
theorem growOptions_spec (addoff : Nat) (hdoff : 5 ≤ doff m)
    (harea : slice m (opt m) (4 * doff m - TCPHDR) = kept ++ List.replicate space 0) :
    SameHeaders m (growOptions m addoff) ∧
      slice (growOptions m addoff) (opt m) (4 * (doff m + addoff) - TCPHDR) =
        kept ++ List.replicate (space + addoff * 4) 0 ∧
      slice (growOptions m addoff) (tcpdata m + addoff * 4) (totLen m - ihl m * 4 - doff m * 4) =
        slice m (tcpdata m) (totLen m - ihl m * 4 - doff m * 4) := by
  have hdata : tcph m + TCPHDR + (4 * doff m - TCPHDR) = tcpdata m := by
    simp only [tcpdata, TCPHDR]
    omega
  unfold growOptions
  by_cases hadd : addoff = 0
  · rw [if_neg (not_not.mpr hadd), hadd]
    exact ⟨SameHeaders.refl m, harea, rfl⟩
  · rw [if_pos hadd]
    have hmove := sameHeaders_memmove (m := m) (tcpdata m) (totLen m - ihl m * 4 - doff m * 4)
      (show tcph m + TCPHDR ≤ tcpdata m + addoff * 4 by omega)
    refine ⟨hmove.trans (sameHeaders_memcpy _ (by rw [hmove.kept.tcph]; omega)), ?_, ?_⟩
    · have hlen : 4 * (doff m + addoff) - TCPHDR = (4 * doff m - TCPHDR) +
          (List.replicate (addoff * 4) (0 : UInt8)).length := by
        simp only [List.length_replicate, TCPHDR]
        omega
      rw [hlen, slice_append, opt, hdata, slice_memcpy_self,
        slice_memcpy_disjoint (Or.inl (by omega)), slice_memmove_disjoint (Or.inl (by omega)),
        ← opt, harea, List.append_assoc, List.replicate_append_replicate]
    · rw [slice_memcpy_disjoint (Or.inr (by simp)), slice_memmove_self]

/-- The options move back, and the new one is written where they began. -/
theorem writeOption_eq (hlen : 2 ≤ len) (hlen' : len ≤ 10)
    (hkept : slice m (opt m) (doff m * 4 - TCPHDR - space) = kept) :
    writeOption m num len data space =
      memcpy (memcpy m (opt m + len) kept) (opt m) (newOption num len data) := by
  have hcount : dataCount len = len - 2 := by
    unfold dataCount
    omega
  rw [writeOption, hcount, writeData_eq _ _ (by omega) (by omega), memmove, hkept]
  exact memcpy_append _ rfl

/-- What an option that is written in front of the others does to the area. -/
theorem writeOption_spec (num : Nat) (data : UInt64) (space : Nat) {n : Nat} (hlen : 2 ≤ len) (hlen' : len ≤ 10) (hroom : len ≤ n)
    (hkept : kept.length = doff m * 4 - TCPHDR - space)
    (harea : slice m (opt m) (kept.length + n) = kept ++ List.replicate n 0) :
    SameHeaders m (writeOption m num len data space) ∧
      slice (writeOption m num len data space) (opt m) (kept.length + n) =
        newOption num len data ++ (kept ++ List.replicate (n - len) 0) ∧
      ∀ q k, opt m + (kept.length + n) ≤ q →
        slice (writeOption m num len data space) q k = slice m q k := by
  have hnew : (newOption num len data).length = len := length_newOption hlen
  have hblock : slice m (opt m) (doff m * 4 - TCPHDR - space) = kept := by
    rw [← hkept]
    exact (slice_split harea).1
  rw [writeOption_eq hlen hlen' hblock]
  have hmove : SameHeaders m (memcpy m (opt m + len) kept) :=
    sameHeaders_memcpy kept (by simp [opt])
  refine ⟨hmove.trans (sameHeaders_memcpy _ (hmove.kept.tcph ▸ Nat.le_refl _)), ?_, ?_⟩
  · obtain ⟨a, b, hab, ha, hb⟩ : ∃ a b, kept ++ List.replicate n (0 : UInt8) =
        a ++ (b ++ List.replicate (n - len) 0) ∧ a.length = len ∧ b.length = kept.length := by
      refine ⟨(kept ++ List.replicate len 0).take len, (kept ++ List.replicate len 0).drop len,
        ?_, by simp, by simp⟩
      rw [← List.append_assoc, List.take_append_drop, List.append_assoc,
        List.replicate_append_replicate]
      congr 2
      omega
    rw [hab] at harea
    have hslice : slice (memcpy m (opt m + a.length) kept) (opt m) (kept.length + n) =
        a ++ (kept ++ List.replicate (n - len) 0) := slice_memcpy_middle harea hb.symm
    rw [ha] at hslice
    exact slice_memcpy_middle (a := []) (b := a) hslice (hnew.trans ha.symm)
  · intro q k hq
    rw [slice_memcpy_disjoint (Or.inr (by omega)), slice_memcpy_disjoint (Or.inr (by omega))]

theorem growOptions_apply (addoff : Nat) {i : Nat} (hdoff : 5 ≤ doff m) (h : i < opt m) :
    growOptions m addoff i = m i := by
  have hdata := tcph_le_tcpdata hdoff
  unfold opt at h
  unfold growOptions
  split
  · rw [memcpy_apply_outside (by omega), memmove_apply_outside (by omega)]
  · rfl

theorem writeOption_apply {i : Nat} (h : i < opt m) : writeOption m num len data space i = m i := by
  rw [writeOption, writeData_apply _ _ h, memcpy_apply_outside (Or.inl h),
    memmove_apply_outside (by omega)]

/-- Two bytes of the IP header and one of the TCP header hold the lengths, and the lengths
follow the area. -/
theorem putOption_spec {addoff : Nat} (hadd : doff m + addoff ≤ 15)
    (h : SameHeaders m (writeOption m num len data space)) :
    (∀ i, i ≠ 2 → i ≠ 3 → i ≠ tcph m + 12 →
      putOption m num len data space addoff i = writeOption m num len data space i) ∧
      (putOption m num len data space addoff (tcph m + 12)).toNat % 16 =
        (writeOption m num len data space (tcph m + 12)).toNat % 16 ∧
      doff (putOption m num len data space addoff) = doff m + addoff ∧
      totLen (putOption m num len data space addoff) = (totLen m + addoff * 4) % 65536 := by
  unfold putOption
  dsimp only
  by_cases hzero : addoff = 0
  · rw [if_neg (not_not.mpr hzero), h.totLen]
    refine ⟨fun i h2 h3 _ => setTotLen_apply (by omega), ?_, ?_, totLen_setTotLen _ _⟩
    · rw [setTotLen_apply (by omega)]
    · rw [doff_setTotLen, h.doff, hzero, Nat.add_zero]
  · rw [if_pos hzero, totLen_setDoff, h.totLen, h.doff]
    refine ⟨fun i h2 h3 hd => ?_, ?_, ?_, totLen_setTotLen _ _⟩
    · rw [setTotLen_apply (by omega), setDoff_apply (by rw [h.kept.tcph]; exact hd)]
    · have hbyte : ∀ (m : Mem) (q : Nat) (b : UInt8), memcpy m q [b] q = b :=
        fun m q b => memcpy_apply_inside (i := 0) Nat.one_pos
      rw [setTotLen_apply (by omega), setDoff, h.kept.tcph, hbyte, UInt8.toNat_ofNat']
      omega
    · rw [doff_setTotLen, doff_setDoff, Nat.mod_eq_of_lt (by omega)]

/-- What follows the two loops, on an area that holds `kept` and free space. -/
theorem insertOption_edit (num : Nat) (data : UInt64) (hdoff : 5 ≤ doff m) (hcons : Consistent m)
    (hlen : 2 ≤ len) (hlen' : len ≤ 10)
    (harea : slice m (opt m) (4 * doff m - TCPHDR) = kept ++ List.replicate space 0)
    (hroom : doff m + addOff space len ≤ 15) :
    ∃ m', insertOption m num len data space = some (0, m') ∧
      Edited m m' (newOption num len data ++ kept) (addOff space len) := by
  have hspec := addOff_spec space (show len < 256 by omega)
  generalize hadd : addOff space len = addoff at *
  have hsum : kept.length + space = 4 * doff m - TCPHDR := by
    have := congrArg List.length harea
    simpa using this.symm
  unfold Consistent at hcons
  obtain ⟨hgrow, hgarea, hgdata⟩ := growOptions_spec addoff hdoff harea
  have hopt : opt (growOptions m addoff) = opt m := by rw [opt, opt, hgrow.kept.tcph]
  have hsize : 4 * (doff m + addoff) - TCPHDR = kept.length + (space + addoff * 4) := by
    simp only [TCPHDR] at hsum ⊢
    omega
  rw [hsize, ← hopt] at hgarea
  obtain ⟨hwrite, hwarea, hwdata⟩ := writeOption_spec num data space hlen hlen' hspec
    (by rw [hgrow.doff]; omega) hgarea
  obtain ⟨hbytes, hflags, hdoff', htot⟩ :=
    putOption_spec (by rw [hgrow.doff]; exact hroom) hwrite
  have hslice : ∀ q k, opt m ≤ q → slice (putOption (growOptions m addoff) num len data space
      addoff) q k = slice (writeOption (growOptions m addoff) num len data space) q k := by
    intro q k hq
    refine slice_congr fun i _ => hbytes _ ?_ ?_ ?_ <;>
    · rw [opt, TCPHDR] at hq
      first | omega | (rw [hgrow.kept.tcph]; omega)
  have hfront : ∀ i, i < opt m →
      writeOption (growOptions m addoff) num len data space i = m i := fun i hi =>
    (writeOption_apply (by rw [hopt]; exact hi)).trans (growOptions_apply addoff hdoff hi)
  rw [hgrow.kept.tcph] at hbytes hflags
  rw [hgrow.doff] at hdoff'
  rw [hgrow.totLen] at htot
  have hnew : (newOption num len data).length = len := length_newOption hlen
  have hihl : ihl (putOption (growOptions m addoff) num len data space addoff) = ihl m := by
    have hzero : putOption (growOptions m addoff) num len data space addoff 0 = m 0 :=
      (hbytes 0 (by omega) (by omega) (by omega)).trans (hfront 0 (by simp only [opt, TCPHDR]; omega))
    rw [ihl, hzero, ihl]
  refine ⟨_, ?_, ⟨?_, ?_, hdoff', htot, ?_, ?_⟩⟩
  · rw [insertOption, hadd, if_pos hroom, if_neg (by omega)]
  · intro i hi h2 h3 hd
    exact (hbytes i h2 h3 hd).trans (hfront i hi)
  · rw [hflags, hfront _ (by simp only [opt, TCPHDR]; omega)]
  · rw [hdoff', hsize, hslice _ _ (Nat.le_refl _), ← hopt, hwarea, List.append_assoc]
    congr 3
    rw [List.length_append, hnew]
    omega
  · have hdata : tcpdata (putOption (growOptions m addoff) num len data space addoff) =
        tcpdata m + addoff * 4 := by
      rw [tcpdata, tcph, hihl, ← tcph, hdoff', tcpdata]
      omega
    have hbehind : opt m + (kept.length + (space + addoff * 4)) ≤ tcpdata m + addoff * 4 := by
      rw [opt, tcpdata]
      simp only [TCPHDR] at hsum ⊢
      omega
    rw [hdata, hslice _ _ (by omega), hwdata _ _ (by rw [hopt]; exact hbehind), hgdata]

end Insert

/-! ### The two functions -/

section Absent

variable {m : Mem} {items : List TcpOption} {pad : Nat}

theorem HoldsOptions.length_area (h : HoldsOptions m items pad) :
    (optionBytes items).length + pad = 4 * Net.doff m - TCPHDR := by
  have := congrArg List.length h.area
  simpa using this.symm

/-- There are no more entries than bytes. -/
theorem length_le_optionBytes (items : List TcpOption) :
    items.length ≤ (optionBytes items).length := by
  induction items with
  | nil => exact Nat.le_refl 0
  | cons x items ih =>
    have hx := x.length_bytes_pos
    rw [List.length_cons, optionBytes_cons, List.length_append]
    omega

/-- A walk over the whole area that finds nothing: no entry and no padding has `p`. -/
theorem HoldsOptions.walk_none (h : HoldsOptions m items pad) {p : Nat → Bool}
    (hp : ∀ j x after, x ∈ items →
      slice m (opt m + j) (4 * Net.doff m - TCPHDR - j) = x.bytes ++ after → p j = false)
    (hzero : ∀ j, m (opt m + j) = 0 → p j = false) :
    walk m (opt m) (optArea m) p WALK 0 = some none := by
  have hlt := doff_lt m
  have hlen := h.length_area
  have hitems := length_le_optionBytes items
  have hlimit : 4 * Net.doff m - TCPHDR < 256 := by
    simp only [TCPHDR]
    omega
  obtain ⟨fuel, hfuel⟩ : ∃ fuel, WALK = items.length + fuel :=
    ⟨WALK - items.length, by simp only [WALK, TCPHDR] at *; omega⟩
  obtain ⟨hwalk, hle⟩ := walk_entries fuel (o := opt m) (i := 0) hlimit (Nat.zero_le _) h.wellFormed h.area hp
  have hrest := slice_rest (o := opt m) (i := 0) h.area
  rw [Nat.zero_add] at hwalk hle hrest
  rw [optArea_of_le h.doff, hfuel, hwalk]
  exact walk_zeros hlimit hle hrest hzero (by simp only [WALK, TCPHDR] at *; omega)

/-- A walk over the whole area that comes to an entry with `p`. -/
theorem HoldsOptions.walk_found {pre post : List TcpOption} {x : TcpOption}
    (h : HoldsOptions m (pre ++ x :: post) pad) {p : Nat → Bool}
    (hp : ∀ j y after, y ∈ pre →
      slice m (opt m + j) (4 * Net.doff m - TCPHDR - j) = y.bytes ++ after → p j = false)
    (hx : p (optionBytes pre).length = true) :
    walk m (opt m) (optArea m) p WALK 0 = some (some (optionBytes pre).length) := by
  have hlt := doff_lt m
  have hlen := h.length_area
  have hitems := length_le_optionBytes pre
  have hpos := x.length_bytes_pos
  have hlimit : 4 * Net.doff m - TCPHDR < 256 := by
    simp only [TCPHDR]
    omega
  have harea := h.area
  rw [optionBytes_append, optionBytes_cons, List.append_assoc] at harea
  rw [optionBytes_append, optionBytes_cons, List.length_append, List.length_append] at hlen
  obtain ⟨fuel, hfuel⟩ : ∃ fuel, WALK = pre.length + (fuel + 1) :=
    ⟨WALK - pre.length - 1, by simp only [WALK, TCPHDR] at *; omega⟩
  obtain ⟨hwalk, -⟩ := walk_entries (fuel + 1) (o := opt m) (i := 0) hlimit (Nat.zero_le _)
    (fun y hy => h.wellFormed y (List.mem_append_left _ hy)) harea hp
  rw [Nat.zero_add] at hwalk
  rw [optArea_of_le h.doff, hfuel, hwalk, walk, if_pos (by omega), if_pos hx]

/-- A walk over the whole area that looks for an option that is not there. -/
theorem HoldsOptions.walk_absent (h : HoldsOptions m items pad) {num : UInt8} {p : Nat → Bool}
    (hp : ∀ j, p j = true → m (opt m + j) = num) (hnum : TCPOPT_NOP < num)
    (habsent : ∀ x ∈ items, ¬ x.Is num) :
    walk m (opt m) (optArea m) p WALK 0 = some none := by
  have hno : ∀ j, m (opt m + j) ≠ num → p j = false := fun j hne =>
    Bool.eq_false_iff.mpr fun hpj => hne (hp j hpj)
  apply h.walk_none
  · intro j x after hx hslice
    apply hno
    cases x with
    | nop =>
      rw [show m (opt m + j) = TCPOPT_NOP from slice_first hslice]
      exact UInt8.ne_of_lt hnum
    | option kind data =>
      rw [show m (opt m + j) = kind from slice_first hslice]
      exact habsent _ hx
  · intro j hzero
    apply hno
    rw [hzero]
    exact UInt8.ne_of_lt (UInt8.lt_trans (by decide : (0 : UInt8) < TCPOPT_NOP) hnum)

/-- An option that is not there has the value 0. -/
theorem getTcpOption_absent (h : HoldsOptions m items pad) {num : UInt8} (hnum : TCPOPT_NOP < num)
    (habsent : ∀ x ∈ items, ¬ x.Is num) : getTcpOption m num = some 0 := by
  have hwalk := h.walk_absent (p := fun i => m (opt m + i) == num &&
    decide (i + (m (opt m + i + 1)).toNat ≤ doff m * 4))
    (fun j hj => by simpa using (Bool.and_eq_true_iff.mp hj).1) hnum habsent
  rw [getTcpOption, hwalk]
  rfl

/-- What `__set_tcp_option` makes of a packet when it inserts an option of `len` bytes into
an area that holds `items`. -/
structure Inserted (m m' : Mem) (items : List TcpOption) (num len : Nat) (data : UInt64)
    (addoff : Nat) : Prop where
  kept : Kept m m'
  seq : seq m' = seq m
  doff : doff m' = doff m + addoff
  totLen : totLen m' = totLen m + addoff * 4
  area : ∃ pad, slice m' (opt m) (4 * Net.doff m' - TCPHDR) =
    newOption num len data ++ (optionBytes (withoutNops items) ++ List.replicate pad 0)
  data : slice m' (tcpdata m') (Net.totLen m - ihl m * 4 - Net.doff m * 4) =
    slice m (tcpdata m) (Net.totLen m - ihl m * 4 - Net.doff m * 4)

/-- The bytes of the area that no option takes. -/
def freeBytes (items : List TcpOption) (pad : Nat) : Nat :=
  (items.filter TcpOption.isNop).length + pad

theorem length_optionBytes (items : List TcpOption) : (optionBytes items).length =
    (optionBytes (withoutNops items)).length + (items.filter TcpOption.isNop).length := by
  induction items with
  | nil => rfl
  | cons x items ih =>
    cases x with
    | nop =>
      have hrest : withoutNops (.nop :: items) = withoutNops items := rfl
      rw [hrest, optionBytes_cons, List.length_append, ih, List.filter_cons_of_pos rfl,
        List.length_cons]
      simp only [TcpOption.bytes, List.length_singleton]
      omega
    | option kind data =>
      have hrest : withoutNops (.option kind data :: items) =
          .option kind data :: withoutNops items := rfl
      rw [hrest, optionBytes_cons, optionBytes_cons, List.length_append, List.length_append, ih,
        List.filter_cons_of_neg (by simp [TcpOption.isNop])]
      omega

/-- The area without its no-operations, whether or not there is one. -/
theorem HoldsOptions.compacted (h : HoldsOptions m items pad) :
    ∃ m₁, (if Net.doff m > 5 then compact (opt m) (optArea m) (WALK * WALK) 0 m
        else some (m, 0)) = some (m₁, freeBytes items pad) ∧
      slice m₁ (opt m) (4 * Net.doff m - TCPHDR) =
        optionBytes (withoutNops items) ++ List.replicate (freeBytes items pad) 0 ∧
      ∀ j, j < opt m ∨ tcpdata m ≤ j → m₁ j = m j := by
  have hlt := doff_lt m
  have hlength := h.length_area
  have hitems := length_le_optionBytes items
  have hlimit : 4 * Net.doff m - TCPHDR < 256 := by
    simp only [TCPHDR]
    omega
  obtain ⟨m₁, space, hrun, harea, hframe⟩ := compact_spec (WALK * WALK) (o := opt m) (i := 0)
    (k := 0) hlimit (Nat.zero_le _) h.wellFormed h.area (by simp only [WALK]; omega)
  have hspace : space = freeBytes items pad := by
    have hsize := congrArg List.length harea
    rw [length_slice, List.length_append, List.length_replicate, Nat.sub_zero, ← hlength,
      length_optionBytes] at hsize
    unfold freeBytes
    omega
  rw [hspace] at hrun harea
  by_cases hdoff : Net.doff m > 5
  · refine ⟨m₁, ?_, harea, ?_⟩
    · rw [if_pos hdoff, optArea_of_le h.doff, hrun]
    · intro j hj
      apply hframe
      rw [opt] at hj ⊢
      rw [tcpdata] at hj
      simp only [TCPHDR] at hj ⊢
      omega
  · have hfive : Net.doff m = 5 := by
      have := h.doff
      omega
    rw [hfive] at hlength
    have hnil : items = [] := List.eq_nil_of_length_eq_zero (by simp only [TCPHDR] at hlength; omega)
    have hpad : pad = 0 := by
      simp only [TCPHDR] at hlength
      omega
    subst hnil hpad
    refine ⟨m, by rw [if_neg hdoff]; rfl, ?_, fun _ _ => rfl⟩
    rw [hfive]
    rfl

/-- What `__set_tcp_option` does when the option is not found. -/
theorem HoldsOptions.setTcpOption_insert (h : HoldsOptions m items pad) (hcons : Consistent m)
    {num len : Nat} (data : UInt64)
    (hwalk : walk m (opt m) (optArea m) (fun i =>
      decide ((m (opt m + i)).toNat = num) && decide (i + len ≤ Net.doff m * 4) &&
        decide ((m (opt m + i + 1)).toNat = len)) WALK 0 = some none)
    (hlen : 2 ≤ len) (hlen' : len ≤ 10)
    (hroom : Net.doff m + addOff (freeBytes items pad) len ≤ 15) :
    ∃ m', setTcpOption m num len data = some (0, m') ∧
      Edited m m' (newOption num len data ++ optionBytes (withoutNops items))
        (addOff (freeBytes items pad) len) := by
  obtain ⟨m₁, hcompact, harea, hframe⟩ := h.compacted
  have hsame : SameHeaders m m₁ := sameHeaders_of_apply fun i hi => hframe i (Or.inl hi)
  have hopt : opt m₁ = opt m := by rw [opt, opt, hsame.kept.tcph]
  obtain ⟨m', hins, hedit⟩ := insertOption_edit (m := m₁) num data
    (by rw [hsame.doff]; exact h.doff)
    (by rw [Consistent, hsame.kept.ihl, hsame.doff, hsame.totLen]; exact hcons) hlen hlen'
    (by rw [hopt, hsame.doff]; exact harea) (by rw [hsame.doff]; exact hroom)
  refine ⟨m', ?_, ⟨?_, ?_, ?_, ?_, ?_, ?_⟩⟩
  · rw [setTcpOption, hwalk, ite_self]
    dsimp only
    rw [hcompact]
    exact hins
  · intro i hi h2 h3 hd
    rw [← hframe i (Or.inl hi)]
    exact hedit.frame i (by rw [hopt]; exact hi) h2 h3 (by rw [hsame.kept.tcph]; exact hd)
  · have hflags := hedit.flags
    rw [hsame.kept.tcph] at hflags
    rw [hflags, hframe _ (Or.inl (by simp only [opt, TCPHDR]; omega))]
  · rw [hedit.doff, hsame.doff]
  · rw [hedit.totLen, hsame.totLen]
  · rw [← hopt]
    exact hedit.area
  · have hdata := hedit.data
    rw [hsame.totLen, hsame.kept.ihl, hsame.doff, hsame.tcpdata] at hdata
    rw [hdata]
    exact slice_congr fun i _ => hframe _ (Or.inr (by omega))

/-- The dwords added are the fewest that give the option its room. -/
theorem addOff_eq (space : Nat) {len : Nat} (h : len < 256) :
    addOff space len = (len - space + 3) / 4 := by
  unfold addOff
  dsimp only
  split
  · split <;> omega
  · omega

/-- **Setting an option that is not there.** -/
theorem setTcpOption_absent (h : HoldsOptions m items pad) (hcons : Consistent m) {num : UInt8}
    {len : Nat} (data : UInt64) (hnum : TCPOPT_NOP < num) (habsent : ∀ x ∈ items, ¬ x.Is num)
    (hlen : 2 ≤ len) (hlen' : len ≤ 10)
    (hroom : (optionBytes (withoutNops items)).length + len ≤ 40)
    (hfit : totLen m + len + 3 < 65536) :
    ∃ m' addoff, setTcpOption m num.toNat len data = some (0, m') ∧
      addoff * 4 ≤ len + 3 ∧ Inserted m m' items num.toNat len data addoff := by
  have hlt := doff_lt m
  have hwalk := h.walk_absent (p := fun i => decide ((m (opt m + i)).toNat = num.toNat) &&
      decide (i + len ≤ doff m * 4) && decide ((m (opt m + i + 1)).toNat = len))
    (fun j hj => by
      simp only [Bool.and_eq_true, decide_eq_true_eq] at hj
      exact UInt8.toNat_inj.mp hj.1.1) hnum habsent
  have hadd := addOff_eq (freeBytes items pad) (show len < 256 by omega)
  have hsum : (optionBytes (withoutNops items)).length + freeBytes items pad =
      4 * doff m - TCPHDR := by
    rw [← h.length_area, length_optionBytes items, freeBytes]
    omega
  simp only [TCPHDR] at hsum
  obtain ⟨m', hset, hedit⟩ := h.setTcpOption_insert hcons data hwalk hlen hlen' (by omega)
  have harea := hedit.area
  rw [List.append_assoc] at harea
  refine ⟨m', _, hset, by omega, ⟨hedit.kept, hedit.seq, hedit.doff, ?_, ⟨_, harea⟩, hedit.data⟩⟩
  rw [hedit.totLen, Nat.mod_eq_of_lt (by omega)]

end Absent

end Solowan.Net
