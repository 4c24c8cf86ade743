/-
A packet whose header has been taken off.

The deoptimization thread takes the header of another accelerator off before it knows whether it
can restore the data. `HeaderOff` says on the bytes what is left then, whatever the thread does to
get there, and the decoders cannot tell two such packets apart.

* `stripHeader_headerOff`: the header of a well-formed segment is taken off.
* `HeaderOff.sameData`: what the decoders find is given by the packet with its header.
-/

import Solowan.Net.OptionList
import Solowan.Worker.Deoptimization

namespace Solowan.Worker

open Solowan.Memory Solowan.Dictionary Solowan.Net

/-- The packet `m'` is `m` without the header in front of its data. The data has moved up and
`tot_len` follows, option 32 reads 0, and the TCP/IP headers with the other options are those of
`m`. Behind the data the memory is as it was. -/
structure HeaderOff (m m' : Mem) : Prop where
  same : SameSegment m m'
  totLen : totLen m' + OPENNOP_HEADER = totLen m
  option : getTcpOption m' OPENNOP_OPTION = some 0
  others : ∀ num, TCPOPT_NOP < num → num ≠ OPENNOP_OPTION →
    getTcpOption m' num = getTcpOption m num
  data : ∀ j, m' (tcpdata m + j) =
    m (tcpdata m + if tcpdata m + j < Net.totLen m' then OPENNOP_HEADER + j else j)

/-- If the packet passes the guards of the thread, its lengths agree with each other, its options
are well formed, and option 32 has the one byte that every accelerator gives it. -/
def LaidOut (m : Mem) : Prop :=
  ∀ option, getTcpOption m OPENNOP_OPTION = some option → announced m option = true →
    ∃ n f sq items pad data value, Carries m n f sq items pad data ∧
      lookup OPENNOP_OPTION items = some [value]

/-! ### Taking it off -/

section Header

variable {m : Mem} {n : Nat} {f : Flow} {sq : UInt32} {items : List TcpOption} {pad : Nat}
  {data : List UInt8} {value : UInt8}

theorem present_of_lookup (h : lookup OPENNOP_OPTION items = some [value]) :
    Present OPENNOP_OPTION 3 items := by
  obtain ⟨pre, post, rfl, -⟩ := lookup_eq_some h
  exact ⟨_, List.mem_append_right _ List.mem_cons_self, TcpOption.matches_option rfl⟩

/-- Option 32 is cleared in place, and nothing behind the headers changes. -/
theorem clearOption_carries (h : Carries m n f sq items pad data)
    (hvalue : lookup OPENNOP_OPTION items = some [value]) :
    ∃ m' items', setTcpOption m OPENNOP_OPTION.toNat 3 0 = some (0, m') ∧
      Carries m' n f sq items' pad data ∧ SameHeaders m m' ∧
      lookup OPENNOP_OPTION items' = some [0] ∧
      (∀ num, num ≠ OPENNOP_OPTION → lookup num items' = lookup num items) ∧
      ∀ j, m' (tcpdata m + j) = m (tcpdata m + j) := by
  obtain ⟨pre, x, post, hitems, hx, hpre⟩ := (present_of_lookup hvalue).first
  obtain ⟨m', hset, hcar⟩ := h.setTcpOption_present (k := OPENNOP_OPTION) (by decide)
    (Or.inl rfl) 0 (present_of_lookup hvalue)
  have hwhere : m' = memcpy m (opt m + (optionBytes pre).length + 2) [0] := by
    have hhold := h.holdsOptions
    rw [hitems] at hhold
    rw [hhold.setTcpOption_found (by decide) (Or.inl rfl) hx hpre 0] at hset
    cases hset
    rfl
  have hin : opt m + (optionBytes pre).length + 2 < tcpdata m := by
    obtain ⟨old, rfl, hold⟩ := TcpOption.dataOf_of_matches hx
    rw [h.segment.tcpdata, h.segment.opt, hitems, optionBytes_append, optionBytes_cons,
      TcpOption.bytes]
    simp only [List.length_append, List.length_cons]
    omega
  refine ⟨m', _, hset, hcar, ?_, ?_, fun num hne => lookup_overwriteFirst_of_ne hne, fun j => ?_⟩
  · rw [hwhere]
    exact sameHeaders_memcpy _ (by simp only [opt]; omega)
  · rw [lookup_overwriteFirst hvalue]
    rfl
  · rw [hwhere, memcpy_apply_outside]
    rw [List.length_singleton]
    omega

/-- **The header of a well-formed segment is taken off.** -/
theorem stripHeader_headerOff (h : Carries m n f sq items pad data)
    (hvalue : lookup OPENNOP_OPTION items = some [value]) (hlen : OPENNOP_HEADER ≤ data.length) :
    ∃ m', stripHeader m = some m' ∧ HeaderOff m m' := by
  have hseg := h.segment
  have hbehind := hseg.behind
  generalize hwire : data.drop OPENNOP_HEADER = wire
  have hwlen : wire.length = data.length - OPENNOP_HEADER := by rw [← hwire, List.length_drop]
  have hsource : slice m (tcpdata m + OPENNOP_HEADER) wire.length = wire := by
    have hslice := hseg.data
    rw [← List.take_append_drop OPENNOP_HEADER data, hwire] at hslice
    have htail := (slice_split hslice).2
    rwa [List.length_take, Nat.min_eq_left hlen] at htail
  -- The data moves up over the header.
  have hmove : memmove m (tcpdata m) (tcpdata m + OPENNOP_HEADER) wire.length =
      memcpy m (tcpdata m) wire := by rw [memmove, hsource]
  have hmoved : Carries (memcpy m (tcpdata m) wire) n f sq items pad
      (wire ++ data.drop wire.length) := by
    refine ⟨Segment.overwrite (a := data.take wire.length) ?_ ?_, h.wellFormed⟩
    · rw [List.take_append_drop]
      exact hseg
    · rw [List.length_take]
      omega
  have hsame₁ := sameHeaders_memcpy wire hbehind
  obtain ⟨m₂, items', hset, hcar, hsame₂, hzero, hothers, hrest⟩ := clearOption_carries hmoved hvalue
  rw [hsame₁.tcpdata] at hrest
  -- The length follows.
  have hsame₃ := sameSegment_addTotLen m₂ (-OPENNOP_HEADER)
  have hcut : Carries (checksum (addTotLen m₂ (-OPENNOP_HEADER))) n f sq items' pad wire := by
    refine ⟨(hcar.segment.truncate ?_).checksum, hcar.wellFormed⟩
    rw [List.length_drop]
    omega
  have hafter : tcph (addTotLen m₂ (-OPENNOP_HEADER)) = tcph m := by
    rw [hsame₃.kept.tcph, hsame₂.kept.tcph, hsame₁.kept.tcph]
  have hihl := hseg.ihl_ge
  have htcph := hseg.tcph
  have hsame : SameSegment m (checksum (addTotLen m₂ (-OPENNOP_HEADER))) := by
    refine ((hsame₁.trans hsame₂).toSameSegment.trans hsame₃).trans
      ⟨kept_checksum _, doff_checksum _, seq_checksum ?_⟩
    unfold tcph at hafter htcph
    omega
  have htot : totLen (checksum (addTotLen m₂ (-OPENNOP_HEADER))) = tcpdata m + wire.length := by
    rw [hcut.segment.totLen, hsame.tcpdata]
  refine ⟨checksum (addTotLen m₂ (-OPENNOP_HEADER)), ?_, hsame, ?_, ?_, ?_, ?_⟩
  · rw [stripHeader, hseg.incomingLen, ← hwlen, hmove]
    exact congrArg (Option.map _) hset
  · rw [htot, hseg.totLen]
    omega
  · rw [hcut.getTcpOption (by decide), hzero]
    rfl
  · intro num hnum hne
    rw [hcut.getTcpOption hnum, h.getTcpOption hnum, hothers num hne]
  · intro j
    unfold TCPHDR at hbehind
    rw [htot, checksum_apply (by omega) (by omega), addTotLen, setTotLen_apply (by omega), hrest]
    by_cases hj : j < wire.length
    · rw [memcpy_apply_inside hj, if_pos (by omega), ← Nat.add_assoc]
      exact (apply_of_slice_eq hsource hj).symm
    · rw [memcpy_apply_outside (by omega), if_neg (by omega)]

end Header

/-! ### What the decoders find -/

/-- The decoders find the same data in both, and the same lengths. -/
structure SameData (m m' : Mem) : Prop where
  protocol : protocol m' = protocol m
  ihl : ihl m' = ihl m
  doff : doff m' = doff m
  totLen : totLen m' = totLen m
  window : window m' (tcpdata m') = window m (tcpdata m)

section SameData

variable {m m' stripped stripped' : Mem} {d : Daemon} {x : Dedup}

theorem SameData.payloadSize (h : SameData m m') : payloadSize m' = payloadSize m := by
  rw [Net.payloadSize, Net.payloadSize, tcpLen, tcpLen, h.totLen, h.ihl, h.doff]

/-- A packet with its header says what is left without it. -/
theorem HeaderOff.sameData (hihl : 5 ≤ Net.ihl m) (h : HeaderOff m stripped)
    (h' : HeaderOff m stripped') : SameData stripped stripped' where
  protocol := by
    have hflow := (h'.same.kept.flow hihl).trans (h.same.kept.flow hihl).symm
    exact congrArg Flow.protocol hflow
  ihl := h'.same.kept.ihl.trans h.same.kept.ihl.symm
  doff := h'.same.doff.trans h.same.doff.symm
  totLen := by
    have := h.totLen
    have := h'.totLen
    omega
  window := by
    have htot : Net.totLen stripped' = Net.totLen stripped := by
      have := h.totLen
      have := h'.totLen
      omega
    funext j
    rw [Memory.window, Memory.window, h'.same.tcpdata, h.same.tcpdata, h'.data, h.data, htot]

/-- New data is found as it was put there. -/
theorem SameData.replaceData (h : SameData m m') (hihl : 5 ≤ Net.ihl m) (hdoff : 5 ≤ Net.doff m)
    (bs : List UInt8) (oldsize : Int) :
    SameData (replaceData m bs oldsize) (Worker.replaceData m' bs oldsize) := by
  have hseg := sameSegment_replaceData hdoff bs oldsize
  have hseg' := sameSegment_replaceData (show 5 ≤ Net.doff m' by rw [h.doff]; exact hdoff) bs oldsize
  have hpos : 4 ≤ tcpdata m := by
    unfold tcpdata tcph
    omega
  have hpos' : tcpdata m' = tcpdata m := by
    rw [tcpdata, tcph, h.ihl, h.doff, tcpdata, tcph]
  have hbytes : ∀ m₀ : Mem, tcpdata m₀ = tcpdata m → ∀ j,
      Worker.replaceData m₀ bs oldsize (tcpdata m + j) =
        memcpy (Memory.window m₀ (tcpdata m₀)) 0 bs j := by
    intro m₀ hm₀ j
    rw [Worker.replaceData, addTotLen, setTotLen_apply (by omega), hm₀]
    by_cases hj : j < bs.length
    · rw [memcpy_apply_inside hj]
      have hin : memcpy (Memory.window m₀ (tcpdata m)) 0 bs (0 + j) = bs.getD j 0 :=
        memcpy_apply_inside hj
      rw [Nat.zero_add] at hin
      exact hin.symm
    · rw [memcpy_apply_outside (by omega), memcpy_apply_outside (by omega), Memory.window]
  refine
    { protocol := ?_
      ihl := ?_
      doff := ?_
      totLen := ?_
      window := ?_ }
  · have hflow := hseg.kept.flow hihl
    have hflow' := hseg'.kept.flow (show 5 ≤ Net.ihl m' by rw [h.ihl]; exact hihl)
    exact (congrArg Flow.protocol hflow').trans (h.protocol.trans (congrArg Flow.protocol hflow).symm)
  · rw [hseg'.kept.ihl, h.ihl, hseg.kept.ihl]
  · rw [hseg'.doff, h.doff, hseg.doff]
  · have htot := totLen_replaceData hdoff bs oldsize
    have htot' := totLen_replaceData (show 5 ≤ Net.doff m' by rw [h.doff]; exact hdoff) bs oldsize
    rw [h.totLen] at htot'
    exact Int.natCast_inj.mp (htot'.trans htot.symm)
  · funext j
    rw [Memory.window, Memory.window, hseg'.tcpdata, hseg.tcpdata, hpos', hbytes m' hpos',
      hbytes m rfl, h.window]

theorem SameData.tcpDecompress (h : SameData m m') (d : Daemon) (hihl : 5 ≤ Net.ihl m)
    (hdoff : 5 ≤ Net.doff m) :
    (tcpDecompress d m').1 = (tcpDecompress d m).1 ∧
      SameData (Worker.tcpDecompress d m).2 (Worker.tcpDecompress d m').2 := by
  unfold Worker.tcpDecompress
  rw [h.protocol, h.totLen, h.ihl, h.doff, h.window]
  dsimp only
  split
  · split
    · split
      · exact ⟨rfl, h⟩
      · exact ⟨rfl, h.replaceData hihl hdoff _ _⟩
    · exact ⟨rfl, h⟩
  · exact ⟨rfl, h⟩

/-- `tcp_deoptimize` reports the same. -/
theorem SameData.tcpDeoptimize (h : SameData m m') (d : Daemon) (x : Dedup) :
    (tcpDeoptimize d x m').map (·.1) = (Worker.tcpDeoptimize d x m).map (·.1) := by
  unfold Worker.tcpDeoptimize
  rw [h.protocol, h.payloadSize, h.window]
  dsimp only
  generalize Codec.uncomp d.cfg d.H x.dedupProcessor x.shared x.dedup_buffer
    (Memory.window m (tcpdata m)) (Net.payloadSize m) = r
  obtain ⟨exit, pd, g, packet, pktlen, cur⟩ := r
  split
  · split
    · cases exit <;> simp only [Option.map_some, Option.map_none]
    · rfl
  · rfl

end SameData

end Solowan.Worker
