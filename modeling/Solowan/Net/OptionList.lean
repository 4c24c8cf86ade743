/-
The options of a segment as a list of entries.

`lookup` and `setOption` say what `__get_tcp_option` and `__set_tcp_option`
(`opennopd/tcpoptions.c`) do to such a list, without an option area.

* `lookup_setOption`, `others_setOption`: the option reads as it was set, and the others stay.
* `Carries.getTcpOption`, `Carries.setTcpOption`: the two functions do the same to a segment.
-/

import Solowan.Net.OptionEdit
import Solowan.Net.Segment

namespace Solowan.Net

open Solowan.Memory

/-! ### Lists of entries -/

/-- The data of an option of kind `n`. -/
def TcpOption.dataOf (n : UInt8) : TcpOption → Option (List UInt8)
  | nop => none
  | option kind data => if kind = n then some data else none

/-- The data of the first option of kind `n`. -/
def lookup (n : UInt8) (items : List TcpOption) : Option (List UInt8) :=
  items.findSome? (TcpOption.dataOf n)

/-- The first option of kind `n` that takes `len` bytes gets the data `bytes`. -/
def overwriteFirst (n : UInt8) (len : Nat) (bytes : List UInt8) : List TcpOption → List TcpOption
  | [] => []
  | x :: items =>
    if x.matches n len then .option n bytes :: items else x :: overwriteFirst n len bytes items

/-- An option that takes `len` bytes is overwritten, or put in front of the others. -/
def setOption (n : UInt8) (len : Nat) (bytes : List UInt8) (items : List TcpOption) :
    List TcpOption :=
  if items.any (TcpOption.matches n len) then overwriteFirst n len bytes items
  else .option n bytes :: withoutNops items

/-- The entries apart from no-operations and from the options of kind `n` that take `len`
bytes. -/
def others (n : UInt8) (len : Nat) (items : List TcpOption) : List TcpOption :=
  items.filter fun x => !x.isNop && !x.matches n len

section Lists

variable {n n' : UInt8} {len len' : Nat} {bytes data : List UInt8} {x : TcpOption}
  {items pre post : List TcpOption}

theorem present_iff : Present n len items ↔ items.any (TcpOption.matches n len) = true := by
  rw [List.any_eq_true]
  rfl

theorem TcpOption.dataOf_of_matches (h : x.matches n len = true) :
    ∃ data, x = .option n data ∧ data.length + 2 = len := by
  cases x with
  | nop => cases h
  | option kind data =>
    rw [TcpOption.matches, Bool.and_eq_true, beq_iff_eq, beq_iff_eq] at h
    exact ⟨data, by rw [h.1], h.2⟩

theorem TcpOption.matches_option (h : bytes.length + 2 = len) :
    (TcpOption.option n bytes).matches n len = true := by
  rw [TcpOption.matches, h, beq_self_eq_true, beq_self_eq_true, Bool.and_self]

theorem TcpOption.matches_of_ne (hne : n' ≠ n) :
    (TcpOption.option n bytes).matches n' len = false := by
  rw [TcpOption.matches, beq_eq_false_iff_ne.mpr hne.symm, Bool.false_and]

@[simp] theorem TcpOption.dataOf_option : (TcpOption.option n bytes).dataOf n = some bytes := by
  rw [TcpOption.dataOf, if_pos rfl]

theorem TcpOption.dataOf_of_ne (hne : n' ≠ n) : (TcpOption.option n bytes).dataOf n' = none := by
  rw [TcpOption.dataOf, if_neg hne.symm]

theorem TcpOption.dataOf_eq_some_iff : x.dataOf n = some data ↔ x = .option n data := by
  cases x with
  | nop => simp [TcpOption.dataOf]
  | option kind bytes =>
    rw [TcpOption.dataOf]
    split
    · rename_i hkind
      rw [hkind, Option.some.injEq, TcpOption.option.injEq]
      simp
    · rename_i hkind
      simp [hkind]

theorem TcpOption.dataOf_eq_none_iff : x.dataOf n = none ↔ ¬ x.Is n := by
  cases x with
  | nop => simp [TcpOption.dataOf, TcpOption.Is]
  | option kind bytes => simp [TcpOption.dataOf, TcpOption.Is]

theorem lookup_cons : lookup n (x :: items) = (x.dataOf n).or (lookup n items) := by
  rw [lookup, List.findSome?_cons]
  cases x.dataOf n with
  | none => rfl
  | some data => rfl

/-- What is found is the first option of its kind. -/
theorem lookup_eq_some (h : lookup n items = some data) :
    ∃ pre post, items = pre ++ .option n data :: post ∧ ∀ y ∈ pre, ¬ y.Is n := by
  obtain ⟨pre, x, post, hitems, hx, hpre⟩ := List.findSome?_eq_some_iff.mp h
  rw [TcpOption.dataOf_eq_some_iff] at hx
  subst hx
  exact ⟨pre, post, hitems, fun y hy => TcpOption.dataOf_eq_none_iff.mp (hpre y hy)⟩

theorem lookup_eq_none (h : lookup n items = none) : ∀ y ∈ items, ¬ y.Is n := by
  intro y hy
  exact TcpOption.dataOf_eq_none_iff.mp (List.findSome?_eq_none_iff.mp h y hy)

theorem lookup_of_present (h : Present n len items) : ∃ data, lookup n items = some data := by
  obtain ⟨x, hx, hmatch⟩ := h
  obtain ⟨data, rfl, -⟩ := TcpOption.dataOf_of_matches hmatch
  refine Option.ne_none_iff_exists'.mp fun hnone => ?_
  exact lookup_eq_none hnone _ hx rfl

/-! ### No-operations removed -/

theorem withoutNops_cons_nop : withoutNops (.nop :: items) = withoutNops items := rfl

theorem withoutNops_cons_option {kind : UInt8} :
    withoutNops (.option kind bytes :: items) = .option kind bytes :: withoutNops items := rfl

theorem lookup_withoutNops : lookup n (withoutNops items) = lookup n items := by
  induction items with
  | nil => rfl
  | cons x items ih =>
    cases x with
    | nop => rw [withoutNops_cons_nop, ih, lookup_cons, TcpOption.dataOf, Option.none_or]
    | option kind bytes => rw [withoutNops_cons_option, lookup_cons, lookup_cons, ih]

theorem others_withoutNops : others n len (withoutNops items) = others n len items := by
  rw [others, others, withoutNops, List.filter_filter]
  congr 1
  funext x
  cases x.isNop <;> simp

/-! ### Overwriting -/

theorem overwriteFirst_append (hpre : ∀ y ∈ pre, y.matches n len = false)
    (hx : x.matches n len = true) :
    overwriteFirst n len bytes (pre ++ x :: post) = pre ++ .option n bytes :: post := by
  induction pre with
  | nil => rw [List.nil_append, overwriteFirst, if_pos hx, List.nil_append]
  | cons y pre ih =>
    rw [List.cons_append, overwriteFirst, if_neg (by simp [hpre y List.mem_cons_self]),
      ih fun z hz => hpre z (List.mem_cons_of_mem _ hz), List.cons_append]

theorem lookup_overwriteFirst_of_ne (hne : n' ≠ n) :
    lookup n' (overwriteFirst n len bytes items) = lookup n' items := by
  induction items with
  | nil => rfl
  | cons x items ih =>
    rw [overwriteFirst]
    split
    · rename_i hx
      obtain ⟨data, rfl, -⟩ := TcpOption.dataOf_of_matches hx
      rw [lookup_cons, lookup_cons, TcpOption.dataOf_of_ne hne, TcpOption.dataOf_of_ne hne]
    · rw [lookup_cons, lookup_cons, ih]

/-- The option that is overwritten is the first of its kind, if that takes as many bytes. -/
theorem lookup_overwriteFirst (h : lookup n items = some data) :
    lookup n (overwriteFirst n len bytes items) =
      some (if data.length + 2 = len then bytes else data) := by
  induction items with
  | nil => cases h
  | cons x items ih =>
    rw [lookup_cons] at h
    rw [overwriteFirst]
    cases hx : x.dataOf n with
    | some first =>
      rw [hx, Option.some_or, Option.some.injEq] at h
      subst h
      rw [TcpOption.dataOf_eq_some_iff] at hx
      subst hx
      by_cases hlen : first.length + 2 = len
      · rw [if_pos (TcpOption.matches_option hlen), if_pos hlen, lookup_cons,
          TcpOption.dataOf_option, Option.some_or]
      · have hno : ¬ (TcpOption.option n first).matches n len = true := by
          simp [TcpOption.matches, hlen]
        rw [if_neg hno, if_neg hlen, lookup_cons, TcpOption.dataOf_option, Option.some_or]
    | none =>
      rw [hx, Option.none_or] at h
      have hno : ¬ x.matches n len = true := by
        intro hmatch
        obtain ⟨bytes, rfl, -⟩ := TcpOption.dataOf_of_matches hmatch
        rw [TcpOption.dataOf_option] at hx
        cases hx
      rw [if_neg hno, lookup_cons, hx, Option.none_or, ih h]

theorem others_overwriteFirst (hlen : bytes.length + 2 = len) :
    others n len (overwriteFirst n len bytes items) = others n len items := by
  induction items with
  | nil => rfl
  | cons x items ih =>
    rw [overwriteFirst]
    split
    · rename_i hx
      have hnew : (TcpOption.option n bytes).matches n len = true := TcpOption.matches_option hlen
      rw [others, others, List.filter_cons_of_neg (by simp [hnew]),
        List.filter_cons_of_neg (by simp [hx])]
    · rw [others, others, List.filter_cons, List.filter_cons]
      unfold others at ih
      rw [ih]

theorem any_overwriteFirst (hlen : bytes.length + 2 = len) :
    (overwriteFirst n len bytes items).any (TcpOption.matches n len) =
      items.any (TcpOption.matches n len) := by
  induction items with
  | nil => rfl
  | cons x items ih =>
    rw [overwriteFirst]
    split
    · rename_i hx
      rw [List.any_cons, List.any_cons, TcpOption.matches_option hlen, hx]
    · rw [List.any_cons, List.any_cons, ih]

theorem any_overwriteFirst_of_ne (hne : n' ≠ n) :
    (overwriteFirst n len bytes items).any (TcpOption.matches n' len') =
      items.any (TcpOption.matches n' len') := by
  induction items with
  | nil => rfl
  | cons x items ih =>
    rw [overwriteFirst]
    split
    · rename_i hx
      obtain ⟨data, rfl, -⟩ := TcpOption.dataOf_of_matches hx
      rw [List.any_cons, List.any_cons, TcpOption.matches_of_ne hne, TcpOption.matches_of_ne hne]
    · rw [List.any_cons, List.any_cons, ih]

theorem length_overwriteFirst (hlen : bytes.length + 2 = len) :
    (optionBytes (withoutNops (overwriteFirst n len bytes items))).length =
      (optionBytes (withoutNops items)).length := by
  induction items with
  | nil => rfl
  | cons x items ih =>
    rw [overwriteFirst]
    split
    · rename_i hx
      obtain ⟨data, rfl, hdata⟩ := TcpOption.dataOf_of_matches hx
      rw [withoutNops_cons_option, withoutNops_cons_option, optionBytes_cons, optionBytes_cons,
        List.length_append, List.length_append]
      simp only [TcpOption.bytes, List.length_cons]
      omega
    · cases x with
      | nop => rw [withoutNops_cons_nop, withoutNops_cons_nop, ih]
      | option kind data =>
        rw [withoutNops_cons_option, withoutNops_cons_option, optionBytes_cons, optionBytes_cons,
          List.length_append, List.length_append, ih]

/-! ### Setting -/

theorem setOption_of_present (h : Present n len items) :
    setOption n len bytes items = overwriteFirst n len bytes items := if_pos (present_iff.mp h)

theorem setOption_of_absent (h : ¬ Present n len items) :
    setOption n len bytes items = .option n bytes :: withoutNops items :=
  if_neg fun hany => h (present_iff.mpr hany)

/-- An option of another kind reads as before. -/
theorem lookup_setOption_of_ne (hne : n' ≠ n) :
    lookup n' (setOption n len bytes items) = lookup n' items := by
  by_cases h : Present n len items
  · rw [setOption_of_present h, lookup_overwriteFirst_of_ne hne]
  · rw [setOption_of_absent h, lookup_cons, TcpOption.dataOf_of_ne hne, Option.none_or,
      lookup_withoutNops]

/-- The option reads as it was set, unless one of another length is in front of it. -/
theorem lookup_setOption
    (h : Present n len items → ∃ data, lookup n items = some data ∧ data.length + 2 = len) :
    lookup n (setOption n len bytes items) = some bytes := by
  by_cases hpresent : Present n len items
  · obtain ⟨data, hdata, hlen⟩ := h hpresent
    rw [setOption_of_present hpresent, lookup_overwriteFirst hdata, if_pos hlen]
  · rw [setOption_of_absent hpresent, lookup_cons, TcpOption.dataOf_option, Option.some_or]

theorem others_setOption (hlen : bytes.length + 2 = len) :
    others n len (setOption n len bytes items) = others n len items := by
  by_cases h : Present n len items
  · rw [setOption_of_present h, others_overwriteFirst hlen]
  · have hnew : (TcpOption.option n bytes).matches n len = true := TcpOption.matches_option hlen
    rw [setOption_of_absent h, others, List.filter_cons_of_neg (by simp [hnew])]
    exact others_withoutNops

theorem present_setOption (hlen : bytes.length + 2 = len) :
    Present n len (setOption n len bytes items) := by
  by_cases h : Present n len items
  · rw [setOption_of_present h, present_iff, any_overwriteFirst hlen]
    exact present_iff.mp h
  · rw [setOption_of_absent h]
    exact ⟨_, List.mem_cons_self, TcpOption.matches_option hlen⟩

theorem present_overwriteFirst_of_ne (hne : n' ≠ n) :
    Present n' len' (overwriteFirst n len bytes items) ↔ Present n' len' items := by
  rw [present_iff, present_iff, any_overwriteFirst_of_ne hne]

end Lists

/-! ### The option area -/

/-- What `__get_tcp_option` makes of the data of an option. -/
def dataValue (data : List UInt8) : UInt64 :=
  optionValue (ofList (0 :: UInt8.ofNat (data.length + 2) :: data)) 0

/-- The packet in `m` is a segment whose option area holds the entries `items` and then `pad`
bytes of padding. -/
structure Carries (m : Mem) (n : Nat) (f : Flow) (sq : UInt32) (items : List TcpOption)
    (pad : Nat) (data : List UInt8) : Prop where
  segment : Segment m n f sq (optionBytes items ++ List.replicate pad 0) data
  wellFormed : ∀ x ∈ items, x.WellFormed

section Area

variable {m m' : Mem} {k : UInt8} {items : List TcpOption} {pad len : Nat}

theorem optionValue_eq {pos : Nat} {data : List UInt8} (hsmall : data.length + 2 < 256)
    (hlength : m (pos + 1) = UInt8.ofNat (data.length + 2))
    (hdata : slice m (pos + 2) data.length = data) : optionValue m pos = dataValue data := by
  have hcount : (UInt8.ofNat (data.length + 2) - 2).toNat = data.length := by
    have h2 : (2 : UInt8) ≤ UInt8.ofNat (data.length + 2) := by
      rw [UInt8.le_iff_toNat_le, toNat_optionLength hsmall]
      exact Nat.le_add_left _ _
    rw [UInt8.toNat_sub_of_le _ _ h2, toNat_optionLength hsmall]
    rfl
  have hbyte : ofList (0 :: UInt8.ofNat (data.length + 2) :: data) (0 + 1) =
      UInt8.ofNat (data.length + 2) := rfl
  rw [dataValue, optionValue, optionValue, hbyte, hlength, hcount]
  split
  · rfl
  · refine optionData_congr_of_lt (by omega) (fun i hi hlt => ?_) 0
    obtain ⟨j, rfl⟩ := Nat.exists_eq_add_of_le hi
    have hj : j < data.length := by omega
    rw [← Nat.add_assoc, apply_of_slice_eq hdata hj]
    have hshift : 0 + (2 + j) = j + 1 + 1 := by omega
    rw [hshift, ofList]
    simp [hj]

/-- The value of an option of one byte. -/
theorem dataValue_byte (b : UInt8) : dataValue [b] = b.toUInt64 := by
  have hvalue : dataValue [b] = UInt64.ofNat (beNat [b]) :=
    optionValue_entry (m := ofList [0, 3, b]) (Or.inl rfl) rfl rfl
  rw [hvalue]
  simp [beNat]

/-- The value of an option of two bytes. -/
theorem dataValue_word (v : UInt16) : dataValue (beBytes 2 v.toNat) = v.toUInt64 := by
  have hlt : v.toNat < 256 ^ 2 := v.toNat_lt
  have hvalue : dataValue (beBytes 2 v.toNat) = UInt64.ofNat (beNat (beBytes 2 v.toNat)) :=
    optionValue_entry (m := ofList (0 :: 4 :: beBytes 2 v.toNat)) (Or.inr (length_beBytes _ _))
      rfl rfl
  rw [hvalue, beNat_beBytes, Nat.mod_eq_of_lt hlt]
  apply UInt64.toNat_inj.mp
  rw [UInt64.toNat_ofNat', UInt16.toNat_toUInt64, Nat.mod_eq_of_lt (Nat.lt_trans hlt (by decide))]

/-- `__get_tcp_option` looks the option up. -/
theorem HoldsOptions.getTcpOption_lookup (h : HoldsOptions m items pad) (hk : TCPOPT_NOP < k) :
    getTcpOption m k = some ((lookup k items).elim 0 dataValue) := by
  cases hlook : lookup k items with
  | none => exact getTcpOption_absent h hk (lookup_eq_none hlook)
  | some data =>
    obtain ⟨pre, post, rfl, hpre⟩ := lookup_eq_some hlook
    obtain ⟨pos, hget, hsmall, hlength, hslice⟩ := h.getTcpOption_first hk hpre
    rw [hget, optionValue_eq hsmall hlength hslice]
    rfl

end Area

namespace Carries

variable {m m' : Mem} {n : Nat} {f : Flow} {sq : UInt32} {items : List TcpOption} {pad len : Nat}
  {data : List UInt8} {k : UInt8}

theorem holdsOptions (h : Carries m n f sq items pad data) : HoldsOptions m items pad :=
  h.segment.holdsOptions h.wellFormed

theorem getTcpOption (h : Carries m n f sq items pad data) (hk : TCPOPT_NOP < k) :
    Net.getTcpOption m k = some ((lookup k items).elim 0 dataValue) :=
  h.holdsOptions.getTcpOption_lookup hk

/-- Only the bytes up to `tot_len` count. -/
theorem of_slice (h : Carries m n f sq items pad data)
    (hbytes : slice m' 0 (totLen m) = slice m 0 (totLen m)) : Carries m' n f sq items pad data :=
  ⟨h.segment.of_slice hbytes, h.wellFormed⟩

/-- An option that is there is overwritten. -/
theorem setTcpOption_present (h : Carries m n f sq items pad data) (hk : TCPOPT_NOP < k)
    (hlen : len = 3 ∨ len = 4) (value : UInt64) (hpresent : Present k len items) :
    ∃ m', Net.setTcpOption m k.toNat len value = some (0, m') ∧
      Carries m' n f sq (overwriteFirst k len (beBytes (len - 2) value.toNat) items) pad data := by
  obtain ⟨pre, x, post, rfl, hx, hpre⟩ := hpresent.first
  refine ⟨_, h.holdsOptions.setTcpOption_found hk hlen hx hpre value, ?_⟩
  obtain ⟨old, rfl, hold⟩ := TcpOption.dataOf_of_matches hx
  have hnew : (beBytes (len - 2) value.toNat).length = old.length := by
    rw [length_beBytes]
    omega
  have hsplit : optionBytes (pre ++ .option k old :: post) ++ List.replicate pad 0 =
      (optionBytes pre ++ [k, UInt8.ofNat (old.length + 2)]) ++
        (old ++ (optionBytes post ++ List.replicate pad 0)) := by
    rw [optionBytes_append, optionBytes_cons]
    simp [TcpOption.bytes]
  have hseg := h.segment
  rw [hsplit] at hseg
  have hdone := hseg.overwriteArea hnew
  rw [List.length_append, ← Nat.add_assoc] at hdone
  rw [overwriteFirst_append hpre (TcpOption.matches_option hold)]
  refine ⟨?_, (h.holdsOptions.overwritten hnew).wellFormed⟩
  rw [optionBytes_append, optionBytes_cons, TcpOption.bytes, hnew]
  simpa using hdone

/-- An option that is not there is put in front of the others. -/
theorem setTcpOption_absent (h : Carries m n f sq items pad data) (hk : TCPOPT_NOP < k)
    (hlen : len = 3 ∨ len = 4) (value : UInt64) (habsent : ¬ Present k len items)
    (hroom : (optionBytes (withoutNops items)).length + len ≤ 40)
    (hfit : totLen m + len + 3 < 65536) :
    ∃ m' pad', Net.setTcpOption m k.toNat len value = some (0, m') ∧
      Carries m' n f sq (.option k (beBytes (len - 2) value.toNat) :: withoutNops items) pad'
        data := by
  have hlt := doff_lt m
  have hsum : (optionBytes (withoutNops items)).length + freeBytes items pad =
      4 * doff m - TCPHDR := by
    rw [← h.holdsOptions.length_area, length_optionBytes items, freeBytes]
    omega
  simp only [TCPHDR] at hsum
  obtain ⟨m', hset, hedit, -⟩ := h.holdsOptions.set_absent h.segment.consistent hk hlen value
    habsent (by unfold dwords; omega)
  have harea := hedit.area
  rw [List.append_assoc] at harea
  have htot : totLen m' = totLen m + dwords (freeBytes items pad) len * 4 := by
    rw [hedit.totLen, Nat.mod_eq_of_lt (by unfold dwords; omega)]
  obtain ⟨pad', hseg⟩ := h.segment.inserted
    ⟨hedit.kept, hedit.seq, hedit.doff, htot, ⟨_, harea⟩, hedit.data⟩
  rw [newOption_eq_bytes k (by omega), ← List.append_assoc, ← optionBytes_cons] at hseg
  refine ⟨m', pad', hset, hseg, ?_⟩
  intro y hy
  rcases List.mem_cons.mp hy with rfl | hy
  · exact ⟨hk, by rw [length_beBytes]; omega⟩
  · exact h.wellFormed y (List.mem_of_mem_filter hy)

/-- **`__set_tcp_option` sets the option in the list.** -/
theorem setTcpOption (h : Carries m n f sq items pad data) (hk : TCPOPT_NOP < k)
    (hlen : len = 3 ∨ len = 4) (value : UInt64)
    (hroom : Present k len items ∨ (optionBytes (withoutNops items)).length + len ≤ 40)
    (hfit : totLen m + len + 3 < 65536) :
    ∃ m' pad', Net.setTcpOption m k.toNat len value = some (0, m') ∧
      Carries m' n f sq (setOption k len (beBytes (len - 2) value.toNat) items) pad' data := by
  by_cases hpresent : Present k len items
  · obtain ⟨m', hset, hcar⟩ := h.setTcpOption_present hk hlen value hpresent
    rw [← setOption_of_present hpresent] at hcar
    exact ⟨m', pad, hset, hcar⟩
  · obtain ⟨m', pad', hset, hcar⟩ := h.setTcpOption_absent hk hlen value hpresent
      (hroom.resolve_left hpresent) hfit
    rw [← setOption_of_absent hpresent] at hcar
    exact ⟨m', pad', hset, hcar⟩

end Carries

end Solowan.Net
