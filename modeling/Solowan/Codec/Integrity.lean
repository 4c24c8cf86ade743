/-
What remains of the round trip when packets are lost or reordered.

The compressor's dictionary is any that a sequence of calls can produce (`Reachable`); the
decompressor's is arbitrary, so that a reference may hit nothing, another packet with the
same hash, or a shorter one. `uncomp` then either gives out a packet with the hash that was
sent, or reports an error and leaves its dictionary as it was (`uncomp_integrity`).
-/

import Solowan.Codec.RoundTrip

namespace Solowan.Codec

open Solowan.Memory Solowan.Dictionary

/-- The dictionaries of a worker that any sequence of calls produces from a fresh one; the
calls of `uncomp` may be on any bytes. -/
inductive Reachable (cfg : Config) (H : PacketHash) : Deduplicator → Prop where
  | fresh (mem : RawMemory) : Reachable cfg H (newDeduplicator mem)
  | cacheAndCompress {pd : Deduplicator} {g : SharedDictionaries} {packet : List UInt8}
      {optpkt : Mem} {compress : Bool} {o : Optimized} (h : Reachable cfg H pd)
      (hsize : packet.length ≤ cfg.MAXPKTSIZE)
      (ho : cacheAndCompressIfNeeded cfg H pd g packet optpkt compress = some o) :
      Reachable cfg H o.pd
  | updateCaches {pd : Deduplicator} {g : SharedDictionaries} {packet : List UInt8}
      (h : Reachable cfg H pd) (hsize : packet.length ≤ cfg.MAXPKTSIZE) :
      Reachable cfg H (updateCaches cfg H pd g packet).1
  | uncomp {pd : Deduplicator} {g : SharedDictionaries} {packet optpkt : Mem} {optlen : Nat}
      (h : Reachable cfg H pd) : Reachable cfg H (uncomp cfg H pd g packet optpkt optlen).pd

section Reachable

variable {cfg : Config} {H : PacketHash} {pd : Deduplicator} {g : SharedDictionaries} {log : Log}

theorem updateCaches_represents (hcfg : cfg.Valid) (hmode : cfg.shared_dictionary_mode = false)
    (h : pd.Represents cfg H log) {packet : List UInt8}
    (hsize : packet.length ≤ cfg.MAXPKTSIZE) :
    (updateCaches cfg H pd g packet).1.Represents cfg H (logAfter log packet) := by
  obtain ⟨hshort, hlong⟩ := updateCaches_thread H pd g packet hmode
  unfold logAfter
  split
  · rename_i hlt
    exact h.of_stores (hshort hlt).1 (hshort hlt).2
  · rename_i hge
    have hlen : BETA ≤ packet.length := by omega
    exact (storePacket_represents hcfg h hlen hsize).of_stores (hlong hlen).1 (hlong hlen).2

/-- On any input whatsoever, `uncomp` leaves the stores alone or stores one packet that
fits. -/
theorem uncompThread_stores (cfg : Config) (H : PacketHash) (pd : Deduplicator)
    (g : SharedDictionaries) (packet optpkt : Mem) (optlen : Nat) :
    ((uncompThread cfg H pd g packet optpkt optlen).pd.ps = pd.ps ∧
        (uncompThread cfg H pd g packet optpkt optlen).pd.fps = pd.fps) ∨
      ∃ q, q.length ≤ cfg.MAXPKTSIZE ∧
        Accepted cfg H pd g q (uncompThread cfg H pd g packet optpkt optlen) := by
  unfold uncompThread
  split
  · exact Or.inl ⟨rfl, rfl⟩
  · rename_i hash d _
    split
    · exact Or.inl ⟨rfl, rfl⟩
    · rename_i d' _
      split
      · rename_i hfits
        obtain ⟨-, hok, hbad⟩ := finishUncomp_spec cfg H pd g hash optlen (d := d') rfl
        by_cases hh : H (slice d'.packet 0 d'.pktlen) = hash
        · exact Or.inr ⟨_, by rw [length_slice]; exact hfits.1, hok hh⟩
        · exact Or.inl ⟨(hbad hh).ps, (hbad hh).fps⟩
      · exact Or.inl ⟨rfl, rfl⟩

/-- Every reachable dictionary represents a log. -/
theorem Reachable.represents (hcfg : cfg.Valid) (hmode : cfg.shared_dictionary_mode = false)
    (h : Reachable cfg H pd) : ∃ log, pd.Represents cfg H log := by
  induction h with
  | fresh mem => exact ⟨[], newDeduplicator_represents cfg H mem⟩
  | @cacheAndCompress pd g packet optpkt compress o _ hsize ho ih =>
    obtain ⟨log, hlog⟩ := ih
    obtain ⟨o', ho', hrep, -⟩ :=
      cacheAndCompressIfNeeded_thread g hcfg hmode hlog hsize optpkt compress
    rw [ho'] at ho
    cases ho
    exact ⟨_, hrep⟩
  | updateCaches _ hsize ih =>
    obtain ⟨log, hlog⟩ := ih
    exact ⟨_, updateCaches_represents hcfg hmode hlog hsize⟩
  | @uncomp pd g packet optpkt optlen _ ih =>
    obtain ⟨log, hlog⟩ := ih
    rw [Codec.uncomp, if_neg (by simp [hmode])]
    rcases uncompThread_stores cfg H (pd.count fun st =>
        { st with
          inputBytes := st.inputBytes + UInt64.ofNat optlen
          processedPackets := st.processedPackets + 1 }) g packet optpkt optlen with
      ⟨hps, hfps⟩ | ⟨q, hq, hacc⟩
    · exact ⟨log, hlog.of_stores hps hfps⟩
    · have hup := updateCaches_represents (g := g) hcfg hmode hlog hq
      exact ⟨_, hup.of_stores hacc.of_count.ps hacc.of_count.fps⟩

end Reachable

/-- **Integrity under loss and reordering.** -/
theorem uncomp_integrity {cfg : Config} {H : PacketHash} (hcfg : cfg.Valid)
    (hmode : cfg.shared_dictionary_mode = false) {pd : Deduplicator} (hpd : Reachable cfg H pd)
    {g : SharedDictionaries} {packet : List UInt8} (hsize : packet.length ≤ cfg.MAXPKTSIZE)
    {optpkt : Mem} {o : Optimized} (ho : dedup cfg H pd g packet optpkt = some o)
    (hcomp : o.optlen < packet.length) (D : Deduplicator) (gD : SharedDictionaries)
    (output received : Mem) :
    (uncomp cfg H D gD output (memcpy received 0 (slice o.optpkt 0 o.optlen))
        o.optlen).cur.InBounds o.optlen ∧
      ((∃ q, H q = H packet ∧ Accepted cfg H D gD q
          (uncomp cfg H D gD output (memcpy received 0 (slice o.optpkt 0 o.optlen)) o.optlen)) ∨
        Rejected D gD
          (uncomp cfg H D gD output (memcpy received 0 (slice o.optpkt 0 o.optlen)) o.optlen)) := by
  obtain ⟨log, hlog⟩ := hpd.represents hcfg hmode
  obtain ⟨o', ho', -, -, -, hsent, -⟩ :=
    cacheAndCompressIfNeeded_thread g hcfg hmode hlog hsize optpkt true
  rw [dedup, ho'] at ho
  cases ho
  rcases hsent rfl with hplain | ⟨-, t, ts, tail, hwire, hexp, hts, hnames⟩
  · omega
  have hmax := hcfg.size_le
  have hwf : ∀ u ∈ t :: ts, u.WellFormed := by
    intro u hu
    obtain ⟨fpt, ⟨-, hfits⟩, hu⟩ := hnames u hu
    exact hu.wellFormed (Nat.le_trans hfits cfg.longestFound_le) hmax
  have hfuel : ts.length < FUEL := by
    have := hcfg.fp_le
    simp only [MAX_FP_PER_PKT, FUEL] at this ⊢
    omega
  have hrecv : slice (memcpy received 0 (slice o.optpkt 0 o.optlen)) 0 o.optlen =
      encode (H packet) (t :: ts) tail :=
    (slice_memcpy_self' (by simp)).trans hwire
  rw [uncomp, if_neg (by simp [hmode])]
  obtain ⟨hin, hout⟩ := uncompThread_encode H (D.count fun st =>
      { st with
        inputBytes := st.inputBytes + UInt64.ofNat o.optlen
        processedPackets := st.processedPackets + 1 })
    gD output hrecv (by omega) hwf (by rw [hexp]; exact hsize) hmax hfuel
  refine ⟨hin.inBounds, ?_⟩
  rcases hout with ⟨hrej, -⟩ | ⟨q, hq, hacc, -⟩
  · exact Or.inr hrej.of_count
  · exact Or.inl ⟨q, hq, hacc.of_count⟩

/-- The state after one packet was cached. -/
def afterOne : Optimized :=
  (putInCache (smallBox false) firstByte (newDeduplicator zeroed) (initDictionary zeroed zeroed)
    (List.replicate 64 7)).get (by decide +kernel)

/-- The same packet again is compressed to 24 bytes, which a fresh dictionary cannot
resolve. -/
theorem uncomp_integrity_small :
    ∃ o, dedup (smallBox false) firstByte afterOne.pd afterOne.g (List.replicate 64 7)
        (ofList []) = some o ∧ o.optlen < 64 ∧
      (uncomp (smallBox false) firstByte (newDeduplicator zeroed) afterOne.g (ofList [])
          (memcpy (ofList []) 0 (slice o.optpkt 0 o.optlen)) o.optlen).cur.InBounds o.optlen ∧
      ((∃ q, firstByte q = firstByte (List.replicate 64 7) ∧
          Accepted (smallBox false) firstByte (newDeduplicator zeroed) afterOne.g q
            (uncomp (smallBox false) firstByte (newDeduplicator zeroed) afterOne.g (ofList [])
              (memcpy (ofList []) 0 (slice o.optpkt 0 o.optlen)) o.optlen)) ∨
        Rejected (newDeduplicator zeroed) afterOne.g
          (uncomp (smallBox false) firstByte (newDeduplicator zeroed) afterOne.g (ofList [])
            (memcpy (ofList []) 0 (slice o.optpkt 0 o.optlen)) o.optlen)) := by
  have hlen : (dedup (smallBox false) firstByte afterOne.pd afterOne.g (List.replicate 64 7)
      (ofList [])).map Optimized.optlen = some 24 := by decide +kernel
  obtain ⟨o, ho, h24⟩ := Option.map_eq_some_iff.mp hlen
  have hcached : cacheAndCompressIfNeeded (smallBox false) firstByte (newDeduplicator zeroed)
      (initDictionary zeroed zeroed) (List.replicate 64 7) (ofList []) false = some afterOne :=
    (Option.some_get _).symm
  have hreach : Reachable (smallBox false) firstByte afterOne.pd :=
    .cacheAndCompress (.fresh zeroed) (by decide) hcached
  have hlt : o.optlen < 64 := by omega
  exact ⟨o, ho, hlt, uncomp_integrity (smallBox_valid false) rfl hreach (by decide) ho
    (by simpa using hlt) _ _ _ _⟩

end Solowan.Codec
