/-
`uncomp` with the thread dictionary on arbitrary input.

The count of the bytes left is 16 bits wide and not compared with the lengths that the input
announces, so that it may wrap around and grow; it says nothing about when the loop ends. What
does is the position in the output. Every iteration that is completed writes at least one byte
of a stored packet, and none is completed past `MAX_PKT_SIZE`: the test of a reference lets
one byte too many through, but the test behind it, on the chunk that follows, does not.

* `decodeStep_bounded`, `decodeLoop_bounded`: one iteration, and the loop.
* `uncomp_total`: the call.
-/

import Solowan.Codec.Bounds

namespace Solowan.Codec

open Solowan.Memory Solowan.Dictionary

/-- Nothing is written behind the longest packet and one byte more. -/
def Untouched (cfg : Config) (before after : Mem) : Prop :=
  ∀ i, cfg.MAXPKTSIZE + 1 ≤ i → after i = before i

/-- What holds between two iterations: the output is no longer than a packet. -/
structure Decoder.Bounded (d : Decoder) (cfg : Config) (output : Mem) : Prop where
  orig_le : d.orig ≤ cfg.MAXPKTSIZE
  pktlen : d.pktlen = d.orig
  untouched : Untouched cfg output d.packet

section Iteration

variable {cfg : Config} {pd : Deduplicator} {optpkt output : Mem} {d : Decoder}

theorem Untouched.memcpy {m : Mem} (h : Untouched cfg output m) {pos : Nat} {bs : List UInt8}
    (hle : pos + bs.length ≤ cfg.MAXPKTSIZE + 1) : Untouched cfg output (memcpy m pos bs) := by
  intro i hi
  rw [memcpy_apply_outside (Or.inr (by omega))]
  exact h i hi

/-- Output that fits is written where the last output ended. -/
theorem Decoder.put_within (bs : List UInt8) (hmax : cfg.MAXPKTSIZE ≤ 65534)
    (hle : d.orig + bs.length ≤ cfg.MAXPKTSIZE + 1) (hlen : d.pktlen = d.orig)
    (h : Untouched cfg output d.packet) :
    (d.put bs).orig = d.orig + bs.length ∧ (d.put bs).pktlen = d.orig + bs.length ∧
      Untouched cfg output (d.put bs).packet := by
  have hmod : (d.orig + bs.length) % 65536 = d.orig + bs.length := Nat.mod_eq_of_lt (by omega)
  refine ⟨hmod, ?_, h.memcpy hle⟩
  show (d.pktlen + bs.length) % 65536 = d.orig + bs.length
  rw [hlen, hmod]

/-- The chunk behind a reference is copied only if the output is then no longer than a
packet, which also refuses a reference that went one byte too far. -/
theorem decodeOffset_bounded (optpkt : Mem) (hmax : cfg.MAXPKTSIZE ≤ 65534)
    (hlen : d.pktlen = d.orig) (h : Untouched cfg output d.packet) :
    (∃ d', decodeOffset cfg optpkt d = .stop .badPacketFormat d' ∧
        Untouched cfg output d'.packet) ∨
      ∃ d', decodeOffset cfg optpkt d = .next d' ∧ d'.Bounded cfg output ∧ d.orig ≤ d'.orig := by
  have hcopy : ∀ bs : List UInt8, d.orig + bs.length ≤ cfg.MAXPKTSIZE →
      (d.put bs).Bounded cfg output ∧ d.orig ≤ (d.put bs).orig := by
    intro bs hfit
    obtain ⟨horig, hpkt, hkept⟩ := Decoder.put_within bs hmax (by omega) hlen h
    refine ⟨⟨?_, hpkt.trans horig.symm, hkept⟩, ?_⟩
    · rw [horig]
      exact hfit
    · rw [horig]
      exact Nat.le_add_right _ _
  rw [decodeOffset]
  dsimp only
  split
  · split
    · exact Or.inl ⟨_, rfl, h⟩
    · rename_i hfit
      obtain ⟨hb, hle⟩ := hcopy (slice optpkt (d.cur.advance 2).pos (d.cur.advance 2).left)
        (by rw [length_slice]; omega)
      exact Or.inr ⟨_, rfl, ⟨hb.orig_le, hb.pktlen, hb.untouched⟩, hle⟩
  · split
    · exact Or.inl ⟨_, rfl, h⟩
    · rename_i hfit
      obtain ⟨hb, hle⟩ := hcopy (slice optpkt (d.cur.advance 2).pos (ntoh16 optpkt d.cur.pos))
        (by rw [length_slice]; omega)
      exact Or.inr ⟨_, rfl, ⟨hb.orig_le, hb.pktlen, hb.untouched⟩, hle⟩

/-- **One iteration** stops with an error, or gets further in the output. -/
theorem decodeStep_bounded (pd : Deduplicator) (optpkt : Mem) (hmax : cfg.MAXPKTSIZE ≤ 65534)
    (h : d.Bounded cfg output) :
    (∃ exit d', decodeStep cfg pd optpkt d = .stop exit d' ∧ exit.IsMiss ∧
        Untouched cfg output d'.packet) ∨
      ∃ d', decodeStep cfg pd optpkt d = .next d' ∧ d'.Bounded cfg output ∧ d.orig < d'.orig := by
  rw [decodeStep]
  dsimp only
  split
  · exact Or.inl ⟨_, _, rfl, trivial, h.untouched⟩
  · rename_i storedPkt _
    split
    · exact Or.inl ⟨_, _, rfl, trivial, h.untouched⟩
    · rename_i hfit
      obtain ⟨horig, hpkt, hkept⟩ := Decoder.put_within
        (d := { d with cur := (((d.cur.advance 8).advance 4).advance 2).advance 2 })
        (slice storedPkt.pkt (ntoh16 optpkt ((d.cur.advance 8).advance 4).pos)
          (ntoh16 optpkt (((d.cur.advance 8).advance 4).advance 2).pos -
            ntoh16 optpkt ((d.cur.advance 8).advance 4).pos + 1))
        hmax (by rw [length_slice]; dsimp only; omega) h.pktlen h.untouched
      rw [length_slice] at horig hpkt
      rcases decodeOffset_bounded optpkt hmax (hpkt.trans horig.symm) hkept with
        ⟨d', heq, hd'⟩ | ⟨d', heq, hd', hle⟩
      · exact Or.inl ⟨_, d', heq, trivial, hd'⟩
      · refine Or.inr ⟨d', heq, hd', ?_⟩
        have hgrows : d.orig < d.orig + (ntoh16 optpkt (((d.cur.advance 8).advance 4).advance 2).pos -
            ntoh16 optpkt ((d.cur.advance 8).advance 4).pos + 1) :=
          Nat.lt_add_of_pos_right (Nat.succ_pos _)
        exact Nat.lt_of_lt_of_le hgrows (Nat.le_trans (Nat.le_of_eq horig.symm) hle)

/-- **The loop**, when there are more iterations to go than bytes in the output. -/
theorem decodeLoop_bounded (pd : Deduplicator) (optpkt : Mem) (hmax : cfg.MAXPKTSIZE ≤ 65534)
    (h : d.Bounded cfg output) (fuel : Nat) (hfuel : cfg.MAXPKTSIZE < d.orig + fuel) :
    (∃ exit d', decodeLoop Decoder.left (decodeStep cfg pd optpkt) fuel d = (some exit, d') ∧
        exit.IsMiss ∧ Untouched cfg output d'.packet) ∨
      ∃ d', decodeLoop Decoder.left (decodeStep cfg pd optpkt) fuel d = (none, d') ∧
        d'.Bounded cfg output := by
  induction fuel generalizing d with
  | zero =>
    have := h.orig_le
    omega
  | succ fuel ih =>
    rw [decodeLoop]
    split
    · rcases decodeStep_bounded pd optpkt hmax h with ⟨exit, d', heq, hexit, hd'⟩ |
        ⟨d', heq, hd', hlt⟩
      · rw [heq]
        exact Or.inl ⟨exit, d', rfl, hexit, hd'⟩
      · rw [heq]
        exact ih hd' (by omega)
    · exact Or.inr ⟨d, rfl, h⟩

/-- A loop that has ended is not changed by more iterations that it could take. -/
theorem decodeLoop_add {σ : Type} (left : σ → Nat) (step : σ → Step σ) {fuel : Nat} {s : σ}
    (h : (decodeLoop left step fuel s).1 ≠ some .looping) (k : Nat) :
    decodeLoop left step (fuel + k) s = decodeLoop left step fuel s := by
  induction fuel generalizing s with
  | zero =>
    have hleft : ¬ left s ≥ DESCRIPTOR := by
      intro hleft
      apply h
      rw [decodeLoop, if_pos hleft]
    rw [decodeLoop, if_neg hleft]
    cases k with
    | zero => rw [decodeLoop, if_neg hleft]
    | succ k => rw [Nat.zero_add, decodeLoop, if_neg hleft]
  | succ fuel ih =>
    rw [Nat.succ_add, decodeLoop, decodeLoop]
    by_cases hleft : left s ≥ DESCRIPTOR
    · rw [decodeLoop, if_pos hleft] at h
      rw [if_pos hleft, if_pos hleft]
      split
      · rename_i s' hs'
        rw [hs'] at h
        exact ih h
      · rfl
    · rw [if_neg hleft, if_neg hleft]

/-- What stands in front of the loop. -/
theorem decodeHeader_bounded (optpkt : Mem) (optlen : Nat) (output : Mem)
    (hmax : cfg.MAXPKTSIZE ≤ 65534) :
    (∃ hash d, decodeHeader cfg optpkt optlen output = (hash, .stop .badPacketFormat d) ∧
        Untouched cfg output d.packet) ∨
      ∃ hash d, decodeHeader cfg optpkt optlen output = (hash, .next d) ∧
        d.Bounded cfg output := by
  rw [decodeHeader]
  dsimp only
  split
  · split
    · exact Or.inl ⟨_, _, rfl, fun _ _ => rfl⟩
    · rename_i hfit
      obtain ⟨horig, hpkt, hkept⟩ := Decoder.put_within
        (d := ⟨((Cursor.start optlen).advance 4).advance 2, 0, 0, output⟩)
        (slice optpkt (((Cursor.start optlen).advance 4).advance 2).pos
          (ntoh16 optpkt ((Cursor.start optlen).advance 4).pos))
        hmax (by rw [length_slice]; dsimp only; omega) rfl (fun _ _ => rfl)
      refine Or.inr ⟨_, _, rfl, ?_, hpkt.trans horig.symm, hkept⟩
      refine Nat.le_trans (Nat.le_of_eq horig) ?_
      rw [length_slice]
      dsimp only
      omega
  · exact Or.inr ⟨_, _, rfl, Nat.zero_le _, rfl, fun _ _ => rfl⟩

end Iteration

/-! ### The call -/

/-- The call ends as its callers expect: with the packet, which has been stored, or with an
error, and then the dictionary is as it was. -/
def Total (cfg : Config) (H : PacketHash) (pd : Deduplicator) (g : SharedDictionaries)
    (r : Uncompressed) : Prop :=
  (r.pktlen ≤ cfg.MAXPKTSIZE ∧ Accepted cfg H pd g (slice r.packet 0 r.pktlen) r) ∨
    Rejected pd g r

section Call

variable {cfg : Config}

theorem uncompThread_total (H : PacketHash) (pd : Deduplicator) (g : SharedDictionaries)
    (output optpkt : Mem) (optlen : Nat) (hmax : cfg.MAXPKTSIZE ≤ 65534) :
    Total cfg H pd g (uncompThread cfg H pd g output optpkt optlen) ∧
      Untouched cfg output (uncompThread cfg H pd g output optpkt optlen).packet := by
  rw [uncompThread]
  rcases decodeHeader_bounded optpkt optlen output hmax with ⟨hash, d, hhead, hd⟩ |
    ⟨hash, d, hhead, hd⟩
  · rw [hhead]
    exact ⟨Or.inr (failUncomp_rejected pd g (show UncompExit.badPacketFormat.IsError from trivial) d), hd⟩
  · rw [hhead]
    dsimp only
    rcases decodeLoop_bounded pd optpkt hmax hd FUEL (by simp only [FUEL]; omega) with ⟨exit, d', hloop, hexit, hd'⟩ | ⟨d', hloop, hd'⟩
    · rw [hloop]
      exact ⟨Or.inr (failUncomp_rejected pd g hexit.isError d'), hd'⟩
    · rw [hloop]
      dsimp only
      have hlen : d'.pktlen ≤ cfg.MAXPKTSIZE := by
        rw [hd'.pktlen]
        exact hd'.orig_le
      rw [if_pos ⟨hlen, hd'.orig_le⟩]
      obtain ⟨-, hok, hbad⟩ := finishUncomp_spec cfg H pd g hash optlen (d := d') rfl
      have hpacket : (finishUncomp cfg H pd g hash optlen d').packet = d'.packet := by
        rw [finishUncomp]
        dsimp only
        split <;> rfl
      refine ⟨?_, by rw [hpacket]; exact hd'.untouched⟩
      by_cases hh : H (slice d'.packet 0 d'.pktlen) = hash
      · refine Or.inl ?_
        have hpktlen : (finishUncomp cfg H pd g hash optlen d').pktlen = d'.pktlen := by
          rw [finishUncomp]
          dsimp only
          rw [if_pos hh]
        rw [hpacket, hpktlen]
        exact ⟨hlen, hok hh⟩
      · exact Or.inr (hbad hh)

/-- The call returns, and writes no more than `MAX_PKT_SIZE + 1` bytes. -/
theorem uncomp_settles (H : PacketHash) (pd : Deduplicator) (g : SharedDictionaries)
    (output optpkt : Mem) (optlen : Nat) (hmode : cfg.shared_dictionary_mode = false)
    (hmax : cfg.MAXPKTSIZE ≤ 65534) :
    Total cfg H pd g (uncomp cfg H pd g output optpkt optlen) ∧
      Untouched cfg output (uncomp cfg H pd g output optpkt optlen).packet := by
  rw [uncomp, if_neg (by simp [hmode])]
  obtain ⟨htotal, hkept⟩ := uncompThread_total H (pd.count fun st =>
      { st with
        inputBytes := st.inputBytes + UInt64.ofNat optlen
        processedPackets := st.processedPackets + 1 }) g output optpkt optlen hmax
  refine ⟨?_, hkept⟩
  rcases htotal with ⟨hlen, hacc⟩ | hrej
  · exact Or.inl ⟨hlen, hacc.of_count⟩
  · exact Or.inr hrej.of_count

end Call

/-- **`uncomp` is total.** Whatever lies at `optpkt`, also behind its `optlen` bytes, and
whatever the dictionary holds: the loop has ended after `MAX_PKT_SIZE + 1` iterations, the
call returns, and it has written no more than `MAX_PKT_SIZE + 1` bytes. -/
theorem uncomp_total (cfg : Config) (H : PacketHash) (pd : Deduplicator) (g : SharedDictionaries)
    (output optpkt : Mem) (optlen : UInt16) (hmode : cfg.shared_dictionary_mode = false)
    (hmax : cfg.MAXPKTSIZE ≤ 65534) :
    (∀ hash d, decodeHeader cfg optpkt optlen.toNat output = (hash, .next d) →
      (decodeLoop Decoder.left (decodeStep cfg pd optpkt) (cfg.MAXPKTSIZE + 1) d).1 ≠
          some .looping ∧
        decodeLoop Decoder.left (decodeStep cfg pd optpkt) FUEL d =
          decodeLoop Decoder.left (decodeStep cfg pd optpkt) (cfg.MAXPKTSIZE + 1) d) ∧
      (∀ i, cfg.MAXPKTSIZE + 1 ≤ i →
        (uncomp cfg H pd g output optpkt optlen.toNat).packet i = output i) ∧
      (uncomp cfg H pd g output optpkt optlen.toNat).exit ≠ .aborted ∧
      Total cfg H pd g (uncomp cfg H pd g output optpkt optlen.toNat) := by
  obtain ⟨htotal, hkept⟩ := uncomp_settles H pd g output optpkt optlen.toNat hmode hmax
  refine ⟨?_, hkept, ?_, htotal⟩
  · intro hash d hhead
    have hbounded : d.Bounded cfg output := by
      rcases decodeHeader_bounded optpkt optlen.toNat output hmax with ⟨_, _, hhead', -⟩ |
        ⟨_, _, hhead', hd⟩
      · rw [hhead] at hhead'
        cases hhead'
      · rw [hhead] at hhead'
        cases hhead'
        exact hd
    have hends : (decodeLoop Decoder.left (decodeStep cfg pd optpkt) (cfg.MAXPKTSIZE + 1) d).1 ≠
        some .looping := by
      rcases decodeLoop_bounded pd optpkt hmax hbounded (cfg.MAXPKTSIZE + 1) (by omega) with ⟨exit, d', hloop, hexit, -⟩ | ⟨d', hloop, -⟩
      · rw [hloop]
        rintro ⟨rfl⟩
        exact hexit
      · rw [hloop]
        rintro ⟨⟩
    refine ⟨hends, ?_⟩
    have hfuel : FUEL = cfg.MAXPKTSIZE + 1 + (FUEL - (cfg.MAXPKTSIZE + 1)) := by
      simp only [FUEL]
      omega
    rw [hfuel]
    exact decodeLoop_add _ _ hends _
  · rcases htotal with ⟨-, hacc⟩ | hrej
    · rw [hacc.exit]
      exact UncompExit.noConfusion
    · intro habort
      have := hrej.exit
      rw [habort] at this
      exact this

/-- Also on an input that is read past its end, where the count of the bytes left wraps. -/
theorem uncomp_total_truncated :
    ¬ (uncomp (smallBox false) firstByte (newDeduplicator zeroed) (initDictionary zeroed zeroed)
        (ofList []) truncatedInput (7 : UInt16).toNat).cur.InBounds 7 ∧
      (uncomp (smallBox false) firstByte (newDeduplicator zeroed) (initDictionary zeroed zeroed)
        (ofList []) truncatedInput (7 : UInt16).toNat).exit ≠ .aborted ∧
      Total (smallBox false) firstByte (newDeduplicator zeroed) (initDictionary zeroed zeroed)
        (uncomp (smallBox false) firstByte (newDeduplicator zeroed) (initDictionary zeroed zeroed)
          (ofList []) truncatedInput (7 : UInt16).toNat) := by
  refine ⟨?_, ?_⟩
  · rintro ⟨hflag, -⟩
    revert hflag
    decide
  · exact (uncomp_total (smallBox false) firstByte (newDeduplicator zeroed)
      (initDictionary zeroed zeroed) (ofList []) truncatedInput 7 rfl (by decide)).2.2

end Solowan.Codec
