/-
TCP segments as a whole.

`Segment` says what a packet is, independently of where its parts lie: the connection it
belongs to, its sequence number, its option area and its data. Every edit of the daemon
takes a segment to a segment, and the lemmas of this module say to which:

* `Segment.setSeq`, `Segment.checksum`, `Segment.replace`, `Segment.truncate`;
* `Segment.insertOption`, `Segment.overwriteArea`: the two ways an option is set;
* `Segment.of_slice`: only the bytes up to `tot_len` count.
-/

import Solowan.Net.Checksum
import Solowan.Net.OptionArea

namespace Solowan.Net

open Solowan.Memory

/-- The packet in `m` is a well-formed segment with an IP header of `n` words. -/
structure Segment (m : Mem) (n : Nat) (f : Flow) (sq : UInt32) (area data : List UInt8) : Prop where
  ihl : ihl m = n
  ihl_ge : 5 ≤ n
  flow : flow m = f
  seq : seq m = sq
  doff : 4 * doff m = TCPHDR + area.length
  totLen : totLen m = tcpdata m + data.length
  area : slice m (opt m) area.length = area
  data : slice m (tcpdata m) data.length = data

namespace Segment

variable {m m' : Mem} {n : Nat} {f : Flow} {sq : UInt32} {area data : List UInt8}

theorem tcph (h : Segment m n f sq area data) : tcph m = 4 * n := by
  rw [Net.tcph, h.ihl]

theorem doff_ge (h : Segment m n f sq area data) : 5 ≤ Net.doff m := by
  have := h.doff
  simp only [TCPHDR] at this
  omega

/-- The data lies behind the option area. -/
theorem tcpdata (h : Segment m n f sq area data) : tcpdata m = 4 * n + TCPHDR + area.length := by
  rw [Net.tcpdata, h.tcph, h.doff]
  omega

theorem opt (h : Segment m n f sq area data) : opt m = 4 * n + TCPHDR := by
  rw [Net.opt, h.tcph]

theorem behind (h : Segment m n f sq area data) : Net.tcph m + TCPHDR ≤ Net.tcpdata m := by
  rw [h.tcpdata, h.tcph]
  omega

theorem length (h : Segment m n f sq area data) :
    4 * n + TCPHDR + area.length + data.length = Net.totLen m := by
  rw [h.totLen, h.tcpdata]

/-- The headers take 120 bytes at most. -/
theorem headers_le (h : Segment m n f sq area data) : 4 * n + TCPHDR + area.length ≤ 120 := by
  have hihl : Net.ihl m < 16 := Nat.mod_lt _ (by decide)
  have hlt := doff_lt m
  have hd := h.doff
  rw [h.ihl] at hihl
  omega

theorem consistent (h : Segment m n f sq area data) : Consistent m := by
  have := h.length
  rw [Consistent, h.ihl, h.doff]
  omega

theorem payloadSize (h : Segment m n f sq area data) : payloadSize m = data.length := by
  have hlen := h.length
  rw [payloadSize_of_consistent h.consistent, h.ihl, h.doff]
  omega

theorem incomingLen (h : Segment m n f sq area data) : incomingLen m = data.length := by
  have hlen := h.length
  rw [incomingLen_of_consistent h.consistent, h.ihl, h.doff]
  omega

theorem payload (h : Segment m n f sq area data) : payload m = data := by
  rw [Net.payload, h.payloadSize, h.data]

/-! ### Edits -/

/-- An edit that keeps the headers, the options and the data keeps the segment. -/
theorem of_same (h : Segment m n f sq area data) (hsame : SameHeaders m m')
    (hslice : ∀ q k, Net.tcph m + TCPHDR ≤ q → slice m' q k = slice m q k) :
    Segment m' n f sq area data where
  ihl := hsame.kept.ihl.trans h.ihl
  ihl_ge := h.ihl_ge
  flow := (hsame.kept.flow (by rw [h.ihl]; exact h.ihl_ge)).trans h.flow
  seq := hsame.seq.trans h.seq
  doff := by rw [hsame.doff, h.doff]
  totLen := by rw [hsame.totLen, hsame.tcpdata, h.totLen]
  area := by
    rw [Net.opt, hsame.kept.tcph, hslice _ _ (Nat.le_refl _)]
    exact h.area
  data := by
    rw [hsame.tcpdata, hslice _ _ h.behind]
    exact h.data

theorem setSeq (h : Segment m n f sq area data) (v : UInt32) :
    Segment (setSeq m v) n f v area data where
  ihl := (ihl_setSeq m v).trans h.ihl
  ihl_ge := h.ihl_ge
  flow := ((kept_setSeq m v).flow (by rw [h.ihl]; exact h.ihl_ge)).trans h.flow
  seq := seq_setSeq m v
  doff := by rw [doff_setSeq, h.doff]
  totLen := by
    rw [totLen_setSeq, Net.tcpdata, (kept_setSeq m v).tcph, doff_setSeq, h.totLen, Net.tcpdata]
  area := by
    rw [Net.opt, (kept_setSeq m v).tcph, slice_setSeq (by simp only [TCPHDR]; omega)]
    exact h.area
  data := by
    have hbehind := h.behind
    simp only [TCPHDR] at hbehind
    rw [Net.tcpdata, (kept_setSeq m v).tcph, doff_setSeq, ← Net.tcpdata, slice_setSeq (by omega)]
    exact h.data

theorem checksum (h : Segment m n f sq area data) : Segment (checksum m) n f sq area data := by
  refine h.of_same ⟨⟨kept_checksum m, doff_checksum m, seq_checksum ?_⟩, totLen_checksum m⟩
    fun q k hq => slice_checksum hq
  rw [h.ihl]
  exact h.ihl_ge

/-- Other data, with `tot_len` adjusted. -/
theorem replace (h : Segment m n f sq area data) {bs : List UInt8} {k : Int}
    (hk : k = bs.length - data.length)
    (hfit : 4 * n + TCPHDR + area.length + bs.length < 65536) :
    Segment (addTotLen (memcpy m (Net.tcpdata m) bs) k) n f sq area bs := by
  have hsame := sameHeaders_memcpy bs h.behind
  have hlen := h.length
  have hseg := hsame.toSameSegment.trans (sameSegment_addTotLen _ k)
  have hfour : ∀ q, 4 * n + TCPHDR ≤ q → 4 ≤ q := by
    intro q hq
    simp only [TCPHDR] at hq
    omega
  have hdata : 4 * n + TCPHDR + area.length ≤ Net.tcpdata m := Nat.le_of_eq h.tcpdata.symm
  refine
    { ihl := hseg.kept.ihl.trans h.ihl
      ihl_ge := h.ihl_ge
      flow := (hseg.kept.flow (by rw [h.ihl]; exact h.ihl_ge)).trans h.flow
      seq := hseg.seq.trans h.seq
      doff := by rw [hseg.doff, h.doff]
      totLen := ?_
      area := ?_
      data := ?_ }
  · have htot : Net.totLen (addTotLen (memcpy m (Net.tcpdata m) bs) k) =
        (((Net.totLen m : Int) + k) % 65536).toNat % 65536 := by
      rw [addTotLen, totLen_setTotLen, hsame.totLen]
    rw [htot, hseg.tcpdata, h.tcpdata, hk]
    omega
  · rw [Net.opt, hseg.kept.tcph, h.tcph, addTotLen, slice_setTotLen (hfour _ (Nat.le_refl _)),
      slice_memcpy_disjoint (Or.inl hdata), ← h.opt]
    exact h.area
  · rw [hseg.tcpdata, addTotLen,
      slice_setTotLen (hfour _ (Nat.le_trans (Nat.le_add_right _ _) hdata))]
    exact slice_memcpy_self _ _ _

/-- The first bytes of the data overwritten. -/
theorem overwrite {a a' b : List UInt8} (h : Segment m n f sq area (a ++ b))
    (hlen : a'.length = a.length) : Segment (memcpy m (Net.tcpdata m) a') n f sq area (a' ++ b) := by
  have hsame := sameHeaders_memcpy a' h.behind
  refine
    { ihl := hsame.kept.ihl.trans h.ihl
      ihl_ge := h.ihl_ge
      flow := (hsame.kept.flow (by rw [h.ihl]; exact h.ihl_ge)).trans h.flow
      seq := hsame.seq.trans h.seq
      doff := by rw [hsame.doff, h.doff]
      totLen := by
        rw [hsame.totLen, hsame.tcpdata, h.totLen, List.length_append, List.length_append, hlen]
      area := ?_
      data := ?_ }
  · have hopt : Net.opt (memcpy m (Net.tcpdata m) a') = Net.opt m :=
      congrArg (· + TCPHDR) hsame.kept.tcph
    rw [hopt, slice_memcpy_disjoint (Or.inl (Nat.le_of_eq (by rw [h.tcpdata, h.opt])))]
    exact h.area
  · have hdata : slice m (Net.tcpdata m) (a' ++ b).length = [] ++ (a ++ b) := by
      rw [List.length_append, hlen, ← List.length_append]
      exact h.data
    rw [hsame.tcpdata]
    exact slice_memcpy_middle hdata hlen

/-- The last bytes cut off. -/
theorem truncate {a b : List UInt8} (h : Segment m n f sq area (a ++ b)) {k : Int}
    (hk : k = -(b.length : Int)) : Segment (addTotLen m k) n f sq area a := by
  have hlen := h.length
  have hlt := totLen_lt m
  simp only [List.length_append] at hlen
  have hself : memcpy m (Net.tcpdata m) a = m := by
    have hdata := (slice_split h.data).1
    funext i
    by_cases hi : Net.tcpdata m ≤ i ∧ i < Net.tcpdata m + a.length
    · obtain ⟨j, rfl⟩ := Nat.exists_eq_add_of_le hi.1
      have hj : j < a.length := by omega
      rw [memcpy_apply_inside hj, apply_of_slice_eq hdata hj]
    · rw [memcpy_apply_outside (by omega)]
  have hreplace : Segment (addTotLen (memcpy m (Net.tcpdata m) a) k) n f sq area a :=
    h.replace (by rw [hk, List.length_append]; omega) (by omega)
  rwa [hself] at hreplace

/-- Only the bytes up to `tot_len` count. -/
theorem of_slice (h : Segment m n f sq area data)
    (hbytes : slice m' 0 (Net.totLen m) = slice m 0 (Net.totLen m)) :
    Segment m' n f sq area data := by
  have hlen := h.length
  have hbyte : ∀ i, i < Net.totLen m → m' i = m i := by
    intro i hi
    have := slice_eq_apply hbytes hi
    simpa using this
  have hsame : SameHeaders m m' := sameHeaders_of_apply fun i hi => hbyte i (by
    rw [h.tcph] at hi
    omega)
  exact
    { ihl := hsame.kept.ihl.trans h.ihl
      ihl_ge := h.ihl_ge
      flow := (hsame.kept.flow (by rw [h.ihl]; exact h.ihl_ge)).trans h.flow
      seq := hsame.seq.trans h.seq
      doff := by rw [hsame.doff, h.doff]
      totLen := by rw [hsame.totLen, hsame.tcpdata, h.totLen]
      area := by
        rw [Net.opt, hsame.kept.tcph, ← Net.opt, ← h.area, length_slice]
        exact slice_congr fun i hi => hbyte _ (by rw [h.opt]; omega)
      data := by
        rw [hsame.tcpdata]
        refine Eq.trans (slice_congr fun i hi => hbyte _ ?_) h.data
        rw [h.tcpdata]
        omega }

/-! ### Options -/

theorem holdsOptions {items : List TcpOption} {pad : Nat}
    (h : Segment m n f sq (optionBytes items ++ List.replicate pad 0) data)
    (hwf : ∀ x ∈ items, x.WellFormed) : HoldsOptions m items pad := by
  have hlength : 4 * Net.doff m - TCPHDR = (optionBytes items ++ List.replicate pad 0).length := by
    rw [h.doff]
    omega
  exact ⟨h.doff_ge, hwf, by rw [hlength]; exact h.area⟩

/-- An option was put in front of the others. -/
theorem inserted {items : List TcpOption} {num len addoff : Nat} {value : UInt64}
    (h : Segment m n f sq area data) (hins : Inserted m m' items num len value addoff) :
    ∃ pad, Segment m' n f sq (newOption num len value ++
      (optionBytes (withoutNops items) ++ List.replicate pad 0)) data := by
  obtain ⟨pad, harea⟩ := hins.area
  have hsize : 4 * Net.doff m' = TCPHDR + (newOption num len value ++
      (optionBytes (withoutNops items) ++ List.replicate pad 0)).length := by
    have := congrArg List.length harea
    rw [length_slice] at this
    have hd := h.doff_ge
    rw [← this, hins.doff]
    simp only [TCPHDR]
    omega
  have hdata : Net.totLen m - Net.ihl m * 4 - Net.doff m * 4 = data.length := by
    have := h.length
    have := h.doff
    rw [h.ihl]
    omega
  have htot := h.totLen
  have hpos : Net.tcpdata m' = Net.tcpdata m + addoff * 4 := by
    rw [Net.tcpdata, hins.kept.tcph, hins.doff, Net.tcpdata]
    omega
  refine ⟨pad, ?_⟩
  refine
    { ihl := hins.kept.ihl.trans h.ihl
      ihl_ge := h.ihl_ge
      flow := (hins.kept.flow (by rw [h.ihl]; exact h.ihl_ge)).trans h.flow
      seq := hins.seq.trans h.seq
      doff := hsize
      totLen := by rw [hins.totLen, hpos, htot]; omega
      area := ?_
      data := ?_ }
  · rw [Net.opt, hins.kept.tcph, ← Net.opt]
    rw [hsize, Nat.add_sub_cancel_left] at harea
    exact harea
  · have := hins.data
    rw [hdata, h.data] at this
    exact this

/-- An option that is not there is put in front of the others. -/
theorem insertOption {items : List TcpOption} {pad len : Nat} {num : UInt8}
    (h : Segment m n f sq (optionBytes items ++ List.replicate pad 0) data)
    (hwf : ∀ x ∈ items, x.WellFormed) (value : UInt64) (hnum : TCPOPT_NOP < num)
    (habsent : ∀ x ∈ items, ¬ x.Is num) (hlen : 2 ≤ len) (hlen' : len ≤ 10)
    (hroom : (optionBytes (withoutNops items)).length + len ≤ 40)
    (hfit : Net.totLen m + len + 3 < 65536) :
    ∃ m' addoff pad', setTcpOption m num.toNat len value = some (0, m') ∧ addoff * 4 ≤ len + 3 ∧
      Segment m' n f sq (newOption num.toNat len value ++
        (optionBytes (withoutNops items) ++ List.replicate pad' 0)) data ∧
      Net.totLen m' = Net.totLen m + addoff * 4 := by
  obtain ⟨m', addoff, hset, hsmall, hins⟩ := setTcpOption_absent (h.holdsOptions hwf) h.consistent
    value hnum habsent hlen hlen' hroom hfit
  obtain ⟨pad', hseg⟩ := h.inserted hins
  exact ⟨m', addoff, pad', hset, hsmall, hseg, hins.totLen⟩

/-- Bytes of the option area are overwritten. -/
theorem overwriteArea {a old new b : List UInt8} (h : Segment m n f sq (a ++ (old ++ b)) data)
    (hlen : new.length = old.length) :
    Segment (memcpy m (Net.opt m + a.length) new) n f sq (a ++ (new ++ b)) data := by
  have hsame : SameHeaders m (memcpy m (Net.opt m + a.length) new) :=
    sameHeaders_memcpy new (by rw [Net.opt]; omega)
  have hsize : (a ++ (new ++ b)).length = (a ++ (old ++ b)).length := by
    simp only [List.length_append, hlen]
  refine
    { ihl := hsame.kept.ihl.trans h.ihl
      ihl_ge := h.ihl_ge
      flow := (hsame.kept.flow (by rw [h.ihl]; exact h.ihl_ge)).trans h.flow
      seq := hsame.seq.trans h.seq
      doff := by rw [hsame.doff, h.doff, hsize]
      totLen := by rw [hsame.totLen, hsame.tcpdata, h.totLen]
      area := ?_
      data := ?_ }
  · have hopt : Net.opt (memcpy m (Net.opt m + a.length) new) = Net.opt m :=
      congrArg (· + TCPHDR) hsame.kept.tcph
    rw [hopt, hsize]
    exact slice_memcpy_middle h.area hlen
  · have hbehind := h.tcpdata
    simp only [List.length_append] at hbehind
    rw [hsame.tcpdata, slice_memcpy_disjoint]
    · exact h.data
    · right
      rw [hbehind, h.opt]
      omega

/-- An option that is the first of the area is overwritten in place. -/
theorem overwriteOption {num value : UInt8} {rest : List UInt8}
    (h : Segment m n f sq (shortOption num value ++ rest) data) (new : UInt8) :
    ∃ m', getTcpOption m num = some value.toUInt64 ∧
      setTcpOption m num.toNat 3 new.toUInt64 = some (0, m') ∧
      Segment m' n f sq (shortOption num new ++ rest) data := by
  have hfirst : slice m (Net.opt m) 3 = shortOption num value := (slice_split h.area).1
  have hdoff : 6 ≤ Net.doff m := by
    have := h.doff
    simp only [List.length_append, shortOption, List.length_cons, List.length_nil, TCPHDR] at this
    omega
  have hsplit : Segment m n f sq ([num, 3] ++ ([value] ++ rest)) data := h
  exact ⟨_, getTcpOption_head hdoff hfirst, setTcpOption_head hdoff hfirst,
    hsplit.overwriteArea (show [new].length = [value].length from rfl)⟩

end Segment

end Solowan.Net
