/-
What the threads leave of a packet's headers, and how they leave its session.

Both threads edit the packet before they look at its flags for the last time: options and
headers come and go, and the data is replaced. The flags are those that came in, and the state
of the session only changes through them.

* `Edited`: what both threads do to the headers of a packet.
* `optimizationStep_closes`, `deoptimizationStep_closes`: a thread that has looked at a packet
  leaves the states of the sessions as `endSegment` does, on the packet as it came.
-/

import Solowan.Sessions.Lifecycle
import Solowan.Worker.Deoptimization
import Solowan.Worker.HeaderFlags

namespace Solowan.Worker

open Solowan.Memory Solowan.Dictionary Solowan.Net Solowan.Sessions

/-- The optimization thread looks at its packets. -/
def Switches.on (sw : Switches) : Bool :=
  sw.compression || sw.deduplication || sw.packetPipeline

/-- The guards of the deoptimization thread let the packet pass. -/
def guarded (m : Mem) : Bool :=
  match getTcpOption m OPENNOP_OPTION with
  | none => false
  | some option => announced m option

/-- The headers of the packet have their fixed part. -/
structure Headed (m : Mem) : Prop where
  ihl : 5 ≤ ihl m
  doff : 5 ≤ doff m

section Kept

variable {d : Daemon} {sw : Switches} {m m' : Mem}

/-- An edit that leaves the fixed headers alone, but for the fields the daemon edits, and
leaves room for them. -/
structure Edited (m m' : Mem) : Prop where
  kept : Kept m m'
  doff : 5 ≤ doff m → 5 ≤ Net.doff m'

theorem Edited.refl (m : Mem) : Edited m m := ⟨Kept.refl m, fun h => h⟩

theorem Edited.trans {m'' : Mem} (h : Edited m m') (h' : Edited m' m'') : Edited m m'' :=
  ⟨h.kept.trans h'.kept, fun hdoff => h'.doff (h.doff hdoff)⟩

theorem Edited.of_same (h : SameSegment m m') : Edited m m' :=
  ⟨h.kept, fun hdoff => by rw [h.doff]; exact hdoff⟩

theorem edited_setSeq (m : Mem) (v : UInt32) : Edited m (setSeq m v) :=
  ⟨kept_setSeq m v, fun hdoff => by rw [doff_setSeq]; exact hdoff⟩

theorem edited_markSeq (m : Mem) (transformed : Bool) : Edited m (markSeq m transformed) :=
  ⟨(kept_markSeq m transformed).1, fun hdoff => by rw [(kept_markSeq m transformed).2]; exact hdoff⟩

theorem edited_checksum (m : Mem) : Edited m (checksum m) :=
  ⟨kept_checksum m, fun hdoff => by rw [doff_checksum]; exact hdoff⟩

theorem edited_setTcpOption {num len : Nat} {data : UInt64} {r : Int}
    (h : setTcpOption m num len data = some (r, m')) : Edited m m' :=
  ⟨(setTcpOption_kept h).1, setTcpOption_doff h⟩

/-- What a packet is classified by is not edited. -/
theorem Edited.flow (h : Edited m m') (hihl : 5 ≤ ihl m) : flow m' = flow m := h.kept.flow hihl

theorem Edited.flags (h : Edited m m') (hihl : 5 ≤ ihl m) : flags m' = flags m :=
  congrArg Flow.flags (h.flow hihl)

theorem Edited.sockets (h : Edited m m') (hihl : 5 ≤ ihl m) : sockets m' = sockets m :=
  sockets_of_flow (h.flow hihl)

theorem tcpOptimize_edited {b : Bool} {x x' : Dedup} {n : Nat} (hdoff : 5 ≤ doff m)
    (h : tcpOptimize d b x m = some (n, m', x')) : Edited m m' :=
  .of_same (tcpOptimize_shrinks hdoff h).1

theorem tcpCompress_edited (d : Daemon) (hdoff : 5 ≤ doff m) : Edited m (tcpCompress d m).2 :=
  .of_same (tcpCompress_shrinks d hdoff).1

theorem tcpDecompress_edited (d : Daemon) (hdoff : 5 ≤ doff m) : Edited m (tcpDecompress d m).2 := by
  unfold tcpDecompress
  dsimp only
  split
  · split
    · split
      · exact .refl m
      · exact .of_same (sameSegment_replaceData hdoff _ _)
    · exact .refl m
  · exact .refl m

theorem tcpDeoptimize_edited {x x' : Dedup} {n : Int} (hdoff : 5 ≤ doff m)
    (h : tcpDeoptimize d x m = some (n, m', x')) : Edited m m' := by
  unfold tcpDeoptimize at h
  dsimp only at h
  split at h
  · split at h
    · split at h
      · cases h
      · cases h
      · cases h
      · cases h
        exact .refl m
      · cases h
        exact .of_same (sameSegment_replaceData hdoff _ _)
    · cases h
      exact .refl m
  · cases h
    exact .refl m

/-- The data of an accelerated packet. -/
theorem accelerate_edited {fresh : Bool} {t : Optimizer} {e : Encoded} (hdoff : 5 ≤ doff m)
    (h : accelerate d sw fresh t m = some e) : Edited m e.packet := by
  unfold accelerate at h
  dsimp only at h
  split at h
  · split at h
    · rw [optimize, Option.map_eq_some_iff] at h
      obtain ⟨⟨n, m₁, x⟩, hopt, rfl⟩ := h
      have hfirst := tcpOptimize_edited hdoff hopt
      cases sw.compression with
      | true =>
        exact (hfirst.trans (tcpCompress_edited d (hfirst.doff hdoff))).trans (edited_markSeq _ _)
      | false => exact hfirst.trans (edited_markSeq _ _)
    · rw [(cacheOnly_eq h).1]
      exact .refl m
  · split at h
    · cases h
      exact (tcpCompress_edited d hdoff).trans (edited_markSeq _ _)
    · cases h
      exact .refl m

theorem pass_edited {t : Optimizer} {e : Encoded} (h : pass d sw t m = some e) :
    Edited m e.packet := by
  unfold pass at h
  split at h
  · rw [(cacheOnly_eq h).1]
    exact .refl m
  · cases h
    exact .refl m

/-- A packet that has lost its header. -/
theorem stripHeader_edited (hdoff : 5 ≤ doff m) (h : stripHeader m = some m') : Edited m m' := by
  rw [stripHeader] at h
  dsimp only at h
  rw [Option.map_eq_some_iff] at h
  obtain ⟨⟨r, m₁⟩, hset, rfl⟩ := h
  have hmove : Edited m (memmove m (tcpdata m) (tcpdata m + OPENNOP_HEADER)
      (incomingLen m - OPENNOP_HEADER)) :=
    .of_same (sameHeaders_memmove _ _ (tcph_le_tcpdata hdoff)).toSameSegment
  exact ((hmove.trans (edited_setTcpOption hset)).trans
    (.of_same (sameSegment_addTotLen _ _))).trans (edited_checksum _)

end Kept

/-! ### The optimization thread -/

section Optimization

variable {d : Daemon} {t : Optimizer} {a : Arrival} {o : Optimized}

/-- The packet that is emitted has the flags of the packet that came. -/
theorem emit_closes {t : Optimizer} {sessions : SessionTable} {k : Sockets} {headersBefore : Nat}
    {m m' : Mem} {calls : List Call} {added : Bool} (h : Edited m m') (hihl : 5 ≤ ihl m) :
    (emit t sessions k headersBefore m' calls added).sessions =
      endSegment sessions k (rst m) (fin m) := by
  rw [emit]
  dsimp only
  rw [rst, fin, h.flags hihl, ← rst, ← fin]

/-- **The end of a packet in the optimization thread.** -/
theorem optimizationStep_closes (hihl : 5 ≤ ihl a.packet) (h : optimizationStep d t a = some o) :
    (a.switches.on = false ∧ o.sessions = a.sessions) ∨
      a.switches.on = true ∧ ∃ sessions, SameStates a.sessions sessions ∧
        o.sessions = endSegment sessions (sockets a.packet) (rst a.packet) (fin a.packet) := by
  have hsave : SameStates a.sessions (a.sessions.update (sockets a.packet)
      (saveacceleratorid (sockets a.packet).largerIP d.localID (saddr a.packet))) :=
    .write (.refl _) _ (quiet_saveacceleratorid ..)
  unfold optimizationStep at h
  dsimp only at h
  split at h
  · rename_i hon
    refine Or.inr ⟨by simpa [Switches.on, or_assoc] using hon, ?_⟩
    split at h
    · cases h
    · split at h
      · cases h
      · split at h
        · split at h
          · split at h
            · cases h
            · rename_i result m hset
              split at h
              · cases h
                exact ⟨_, hsave, emit_closes (edited_setTcpOption hset) hihl⟩
              · rename_i hok
                have hdoff := (setTcpOption_kept hset).2.2 hok
                rw [tagPacket] at h
                dsimp only at h
                rw [Option.map_eq_some_iff] at h
                obtain ⟨e, he, rfl⟩ := h
                have hdata : Edited m e.packet := by
                  split at he
                  · exact accelerate_edited hdoff he
                  · exact pass_edited he
                have hsent : ∀ oh, Edited a.packet (addHeader e.packet oh) := by
                  intro oh
                  exact ((edited_setTcpOption hset).trans hdata).trans (.of_same
                    (sameSegment_addHeader (tcph_le_tcpdata (hdata.doff hdoff)) oh))
                refine ⟨_, ?_, emit_closes (hsent _) hihl⟩
                split
                · exact hsave.write _ (quiet_updateseqnumber ..)
                · exact hsave
          · cases h
            exact ⟨_, .refl _, emit_closes (.refl _) hihl⟩
        · rename_i hs
          cases h
          exact ⟨_, .refl _, (endSegment_unknown hs _ _).symm⟩
  · rename_i hoff
    cases h
    exact Or.inl ⟨by simpa [Switches.on, and_assoc] using hoff, rfl⟩

end Optimization

/-! ### The deoptimization thread -/

section Deoptimization

variable {d : Daemon} {sw : Switches} {k : Sockets} {r r' : Decoded}

/-- What the decoders do to the packet and to its session. -/
structure Carried (r r' : Decoded) : Prop where
  packet : Edited r.packet r'.packet
  sessions : SameStates r.sessions r'.sessions

theorem decompress_carried (d : Daemon) (last : Bool) (hdoff : 5 ≤ doff r.packet) :
    Carried r (decompress d last r).2 := by
  have hdata := tcpDecompress_edited d hdoff
  rw [decompress]
  dsimp only
  split
  · exact ⟨hdata, .refl _⟩
  · refine ⟨?_, .refl _⟩
    dsimp only
    split
    · exact hdata.trans (edited_setSeq _ _)
    · exact hdata

theorem deoptimize_carried {redComp : Int} (hdoff : 5 ≤ doff r.packet)
    (h : deoptimize d k redComp r = some r') : Carried r r' := by
  rw [deoptimize] at h
  dsimp only at h
  rw [Option.map_eq_some_iff] at h
  obtain ⟨⟨n, m, x⟩, hopt, rfl⟩ := h
  have hdata := tcpDeoptimize_edited hdoff hopt
  have hstored : SameStates r.sessions (r.sessions.update k
      (updateseqnumber k.largerIP (saddr r.packet) (seq r.packet))) :=
    .write (.refl _) _ (quiet_updateseqnumber ..)
  dsimp only
  split
  · exact ⟨hdata, hstored⟩
  · exact ⟨hdata.trans (edited_setSeq _ _), hstored⟩

theorem Carried.trans {r'' : Decoded} (h : Carried r r') (h' : Carried r' r'') : Carried r r'' :=
  ⟨h.packet.trans h'.packet, h.sessions.trans h'.sessions⟩

theorem restore_carried {c b : Bool} (h : restore d sw k c b r = some r')
    (hdoff : 5 ≤ doff r.packet) : Carried r r' := by
  have hfirst : ∀ last : Bool, Carried r
      (if (sw.compression && c) = true then decompress d last r else (0, r)).2 := by
    intro last
    split
    · exact decompress_carried d last hdoff
    · exact ⟨.refl _, .refl _⟩
  rw [restore] at h
  split at h
  · have hcarried := hfirst (!b)
    generalize (if (sw.compression && c) = true then decompress d (!b) r else (0, r)) = p at h hcarried
    obtain ⟨redComp, r₁⟩ := p
    dsimp only at h hcarried
    split at h
    · exact hcarried.trans (deoptimize_carried (hcarried.packet.doff hdoff) h)
    · cases h
      exact ⟨hcarried.packet, hcarried.sessions⟩
  · split at h
    · cases h
      exact decompress_carried d true hdoff
    · cases h
      exact ⟨.refl _, .refl _⟩

theorem deoptimizeSegment_carried {s : Session} {oh : OpennopHeader}
    (h : deoptimizeSegment d sw k s oh r = some r') (hdoff : 5 ≤ doff r.packet) :
    Carried r r' := by
  have hsave : SameStates r.sessions (r.sessions.update k
      (saveacceleratorid k.largerIP oh.opennopID (saddr r.packet))) :=
    .write (.refl _) _ (quiet_saveacceleratorid ..)
  rw [deoptimizeSegment] at h
  dsimp only at h
  split at h
  · split at h
    · split at h
      · obtain ⟨hpacket, hsessions⟩ := restore_carried h hdoff
        exact ⟨hpacket, hsave.trans hsessions⟩
      · cases h
        exact ⟨.refl _, hsave⟩
    · split at h
      · cases h
        exact ⟨.refl _, hsave⟩
      · cases h
        exact ⟨.refl _, hsave⟩
  · cases h
    exact ⟨.refl _, .refl _⟩

/-- **The end of a packet in the deoptimization thread.** -/
theorem deoptimizationStep_closes {t : Deoptimizer} {a : Arrival} {o : Deoptimized}
    (hm : Headed a.packet) (h : deoptimizationStep d t a = some o) :
    (guarded a.packet = false ∧ o.sessions = a.sessions) ∨
      guarded a.packet = true ∧ ∃ sessions, SameStates a.sessions sessions ∧
        o.sessions = endSegment sessions (sockets a.packet) (rst a.packet) (fin a.packet) := by
  unfold deoptimizationStep at h
  dsimp only at h
  split at h
  · cases h
  · rename_i option hget
    rw [guarded, hget]
    dsimp only
    split at h
    · rename_i hann
      refine Or.inr ⟨hann, ?_⟩
      split at h
      · cases h
      · rename_i m hstrip
        have hstripped := stripHeader_edited hm.doff hstrip
        have hsock := hstripped.sockets hm.ihl
        rw [deoptimizeStripped] at h
        dsimp only at h
        rw [hsock] at h
        split at h
        · rw [Option.map_eq_some_iff] at h
          obtain ⟨r, hr, rfl⟩ := h
          obtain ⟨hpacket, hsessions⟩ := deoptimizeSegment_carried hr (hstripped.doff hm.doff)
          refine ⟨r.sessions, hsessions, ?_⟩
          rw [deliver]
          dsimp only
          rw [rst, fin, (hstripped.trans hpacket).flags hm.ihl, ← rst, ← fin]
        · rename_i hs
          cases h
          exact ⟨_, .refl _, (endSegment_unknown hs _ _).symm⟩
    · rename_i hann
      cases h
      exact Or.inl ⟨Bool.eq_false_of_not_eq_true hann, rfl⟩

end Deoptimization

end Solowan.Worker
