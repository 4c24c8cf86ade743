/-
The counter `numOfFPEntries` of a thread-mode dictionary, over whole runs (shown as `FP_entries`).

Every call that stores a packet adds to the counter what `putFP` puts at free positions. What
`putFP` expires stays in it.

* `entryCounter_run`: the counter is the number of entries in every state of a run in which no
  call expires an entry, and the first call that does makes them differ.
* `expired_entry_counted`: four packets on a ring of two, after which the counter says three and
  the table has two entries.
-/

import Solowan.Codec.Soundness
import Solowan.Control.ExactRun
import Solowan.Dictionary.EntryCount

namespace Solowan.Codec

open Solowan.Memory Solowan.Dictionary Solowan.Control Relation

/-! ### The calls -/

/-- One call on a dictionary, with the packet it stores unless that is short. -/
inductive CallStep (cfg : Config) (H : PacketHash) :
    Deduplicator → Option (List UInt8) → Deduplicator → Prop where
  | dedup {pd : Deduplicator} {g : SharedDictionaries} {packet : List UInt8} {optpkt : Mem}
      {o : Optimized} (hsize : packet.length ≤ cfg.MAXPKTSIZE)
      (ho : dedup cfg H pd g packet optpkt = some o) : CallStep cfg H pd (some packet) o.pd
  | putInCache {pd : Deduplicator} {g : SharedDictionaries} {packet : List UInt8} {o : Optimized}
      (hsize : packet.length ≤ cfg.MAXPKTSIZE) (ho : putInCache cfg H pd g packet = some o) :
      CallStep cfg H pd (some packet) o.pd
  | updateCaches {pd : Deduplicator} {g : SharedDictionaries} {packet : List UInt8}
      (hsize : packet.length ≤ cfg.MAXPKTSIZE) :
      CallStep cfg H pd (some packet) (updateCaches cfg H pd g packet).1
  | uncomp {pd : Deduplicator} {g : SharedDictionaries} {packet optpkt : Mem} {optlen : UInt16}
      {r : Uncompressed} (hr : uncomp cfg H pd g packet optpkt optlen.toNat = r) :
      CallStep cfg H pd (if r.exit = .ok then some (slice r.packet 0 r.pktlen) else none) r.pd

/-- The counter says how many entries there are. -/
def Counted (cfg : Config) (pd : Deduplicator) : Prop :=
  pd.compStats.numOfFPEntries = UInt64.ofNat (fpEntries cfg pd.fps)

/-- When the packet is stored, a `putFP` of its fingerprints expires an entry. -/
def Expires (cfg : Config) (pd : Deduplicator) (packet : List UInt8) : Prop :=
  BETA ≤ packet.length ∧ ∃ f ∈ calculateRelevantFPs cfg packet, ∃ fpidx,
    Stale cfg pd.ps.pktId (pd.fps (hashFPStore cfg f.fp) fpidx)

/-- No entry expires in a call that stores `packet`. -/
def Quiet (cfg : Config) (pd : Deduplicator) (packet : Option (List UInt8)) : Prop :=
  ∀ p ∈ packet, ¬ Expires cfg pd p

section Calls

variable {cfg : Config} {H : PacketHash} {pd pd' : Deduplicator} {log : Log} {g : SharedDictionaries}
  {packet : List UInt8} {stored : Option (List UInt8)} {f : Statistics → Statistics}

/-- Two dictionaries with the same entries and the same count of them. -/
structure SameEntries (pd pd' : Deduplicator) : Prop where
  ps : pd'.ps = pd.ps
  fps : pd'.fps = pd.fps
  count : pd'.compStats.numOfFPEntries = pd.compStats.numOfFPEntries

theorem SameEntries.refl (pd : Deduplicator) : SameEntries pd pd := ⟨rfl, rfl, rfl⟩

theorem SameEntries.trans {pd'' : Deduplicator} (h : SameEntries pd pd')
    (h' : SameEntries pd' pd'') : SameEntries pd pd'' :=
  ⟨h'.ps.trans h.ps, h'.fps.trans h.fps, h'.count.trans h.count⟩

/-- The other counters. -/
theorem SameEntries.of_count (pd : Deduplicator)
    (hf : ∀ st, (f st).numOfFPEntries = st.numOfFPEntries) : SameEntries pd (pd.count f) :=
  ⟨rfl, rfl, hf pd.compStats⟩

theorem SameEntries.counted_iff (h : SameEntries pd pd') : Counted cfg pd' ↔ Counted cfg pd := by
  rw [Counted, Counted, h.count, h.fps]

/-- The dictionary after a packet was stored, if it is not short. -/
def storeLong (cfg : Config) (H : PacketHash) (pd : Deduplicator) (packet : List UInt8) :
    Deduplicator :=
  if packet.length < BETA then pd
  else storePacket cfg pd packet (H packet) (calculateRelevantFPs cfg packet)

/-- What is counted for a packet depends on no other counter. -/
theorem putFP_numOfFPEntries (cfg : Config) (fps : FPStore) (ps : PktStore) (fp : UInt64)
    (pktId offset : Nat) {st st' : Statistics} (h : st'.numOfFPEntries = st.numOfFPEntries) :
    (putFP cfg fps ps fp pktId offset st').2.numOfFPEntries =
      (putFP cfg fps ps fp pktId offset st).2.numOfFPEntries := by
  unfold putFP registerFP
  dsimp only
  split
  · split
    · exact congrArg (· + 1) h
    · exact h
  · split
    · exact h
    · split
      · exact congrArg (· + 1) h
      · exact h

theorem putFPs_numOfFPEntries (cfg : Config) (ps : PktStore) (pktId : Nat)
    (fpma : List FPEntryB) (fps : FPStore) {st st' : Statistics}
    (h : st'.numOfFPEntries = st.numOfFPEntries) :
    (putFPs cfg ps pktId fpma fps st').2.numOfFPEntries =
      (putFPs cfg ps pktId fpma fps st).2.numOfFPEntries := by
  unfold putFPs
  generalize fpma.reverse = todo
  induction todo generalizing fps st st' with
  | nil => exact h
  | cons f todo ih =>
    rw [List.foldl_cons, List.foldl_cons,
      ← Prod.mk.eta (p := putFP cfg fps ps f.fp pktId f.offset st'),
      ← Prod.mk.eta (p := putFP cfg fps ps f.fp pktId f.offset st),
      putFP_fst cfg fps ps f.fp pktId f.offset st' st]
    exact ih _ (putFP_numOfFPEntries cfg fps ps f.fp pktId f.offset h)

theorem SameEntries.storePacket (h : SameEntries pd pd') (hash : UInt32)
    (pktFps : List FPEntryB) :
    SameEntries (storePacket cfg pd packet hash pktFps)
      (storePacket cfg pd' packet hash pktFps) := by
  obtain ⟨st, fps, ps⟩ := pd
  obtain ⟨st', fps', ps'⟩ := pd'
  obtain ⟨rfl, rfl, hcount⟩ := h
  exact ⟨rfl, putFPs_fst .., putFPs_numOfFPEntries cfg _ _ pktFps _ hcount⟩

theorem SameEntries.storeLong (h : SameEntries pd pd') (packet : List UInt8) :
    SameEntries (storeLong cfg H pd packet) (storeLong cfg H pd' packet) := by
  unfold Codec.storeLong
  split
  · exact h
  · exact h.storePacket _ _

/-! ### What a call does to the entries -/

theorem cacheAndCompressIfNeeded_entries (hmode : cfg.shared_dictionary_mode = false)
    {optpkt : Mem} {compress : Bool} {o : Optimized}
    (h : cacheAndCompressIfNeeded cfg H pd g packet optpkt compress = some o) :
    SameEntries (storeLong cfg H pd packet) o.pd := by
  have hfinish : ∀ {pd : Deduplicator} {s : Encoder},
      finishPacket cfg pd g packet optpkt s compress = some o → SameEntries pd o.pd := by
    intro pd s ho
    unfold finishPacket at ho
    split at ho
    · split at ho
      · cases ho
        exact ⟨rfl, rfl, rfl⟩
      · cases ho
    · cases ho
      exact ⟨rfl, rfl, rfl⟩
  unfold cacheAndCompressIfNeeded at h
  dsimp only at h
  split at h
  · rename_i hshort
    cases h
    rw [storeLong, if_pos hshort]
    exact ⟨rfl, rfl, rfl⟩
  · rename_i hlong
    rw [if_neg (by simp [hmode])] at h
    rw [storeLong, if_neg hlong]
    refine SameEntries.trans ?_ (hfinish h)
    refine SameEntries.trans (SameEntries.storePacket ?_ _ _) (SameEntries.of_count _ ?_)
    · exact .of_count pd fun _ => rfl
    · exact fun _ => rfl

theorem localUpdateCaches_entries (pd : Deduplicator) (g : SharedDictionaries) (packet : List UInt8)
    (hmode : cfg.shared_dictionary_mode = false) :
    (localUpdateCaches cfg pd g packet (H packet)).1 = storeLong cfg H pd packet := by
  unfold localUpdateCaches storeLong
  split
  · rfl
  · dsimp only
    rw [if_neg (by simp [hmode])]

theorem updateCaches_entries (pd : Deduplicator) (g : SharedDictionaries) (packet : List UInt8)
    (hmode : cfg.shared_dictionary_mode = false) :
    SameEntries (storeLong cfg H pd packet) (updateCaches cfg H pd g packet).1 := by
  have hlocal := localUpdateCaches_entries (H := H) pd g packet hmode
  unfold updateCaches
  split
  · rename_i hshort
    rw [storeLong, if_pos hshort]
    exact .refl pd
  · rw [← hlocal]
    exact ⟨rfl, rfl, rfl⟩

theorem finishUncomp_entries (hmode : cfg.shared_dictionary_mode = false) (hash : UInt32)
    (optlen : Nat) (d : Decoder) :
    SameEntries pd (finishUncomp cfg H pd g hash optlen d).pd ∨
      SameEntries (storeLong cfg H pd (slice (finishUncomp cfg H pd g hash optlen d).packet 0
          (finishUncomp cfg H pd g hash optlen d).pktlen))
        (finishUncomp cfg H pd g hash optlen d).pd ∧
      (finishUncomp cfg H pd g hash optlen d).exit = .ok := by
  unfold finishUncomp
  dsimp only
  split
  · refine Or.inr ⟨?_, rfl⟩
    rw [localUpdateCaches_entries _ _ _ hmode]
    refine SameEntries.storeLong (.trans (.of_count pd ?_) (.of_count _ ?_)) _
    · exact fun _ => rfl
    · exact fun _ => rfl
  · exact Or.inl ⟨rfl, rfl, rfl⟩

theorem uncompThread_entries (pd : Deduplicator) (g : SharedDictionaries)
    (hmode : cfg.shared_dictionary_mode = false) (output optpkt : Mem) (optlen : Nat) :
    SameEntries pd (uncompThread cfg H pd g output optpkt optlen).pd ∨
      SameEntries (storeLong cfg H pd
          (slice (uncompThread cfg H pd g output optpkt optlen).packet 0
            (uncompThread cfg H pd g output optpkt optlen).pktlen))
        (uncompThread cfg H pd g output optpkt optlen).pd ∧
      (uncompThread cfg H pd g output optpkt optlen).exit = .ok := by
  have hfail : ∀ exit d, SameEntries pd (failUncomp pd g exit d).pd := by
    intro exit d
    refine .of_count pd fun st => ?_
    cases exit <;> rfl
  unfold uncompThread
  split
  · exact Or.inl (hfail _ _)
  · split
    · exact Or.inl (hfail _ _)
    · split
      · exact finishUncomp_entries hmode _ _ _
      · exact Or.inl (hfail _ _)

/-- A packet that is not short is never stored without a trace. -/
theorem storeLong_same (hps : (storeLong cfg H pd packet).ps = pd.ps) :
    storeLong cfg H pd packet = pd := by
  unfold storeLong at hps ⊢
  split
  · rfl
  · rename_i hlong
    rw [if_neg hlong] at hps
    have hid : pd.ps.pktId + 1 = pd.ps.pktId := congrArg PktStore.pktId hps
    exact absurd hid (Nat.succ_ne_self _)

theorem uncomp_entries (hcfg : cfg.Valid) (hmode : cfg.shared_dictionary_mode = false)
    (output optpkt : Mem) (optlen : Nat) {r : Uncompressed}
    (hr : uncomp cfg H pd g output optpkt optlen = r) :
    SameEntries ((if r.exit = .ok then some (slice r.packet 0 r.pktlen) else none).elim pd
      (storeLong cfg H pd)) r.pd := by
  obtain ⟨htotal, -⟩ := uncomp_settles H pd g output optpkt optlen hmode hcfg.size_le
  have hentries : SameEntries pd r.pd ∨
      SameEntries (storeLong cfg H pd (slice r.packet 0 r.pktlen)) r.pd ∧ r.exit = .ok := by
    have hthread := uncompThread_entries (H := H) (pd.count fun st =>
      { st with
        inputBytes := st.inputBytes + UInt64.ofNat optlen
        processedPackets := st.processedPackets + 1 }) g hmode output optpkt optlen
    rw [uncomp, if_neg (by simp [hmode])] at hr
    rw [hr] at hthread
    have hcount := SameEntries.of_count (f := fun st =>
      { st with
        inputBytes := st.inputBytes + UInt64.ofNat optlen
        processedPackets := st.processedPackets + 1 }) pd fun _ => rfl
    rcases hthread with hkept | ⟨hstored, hexit⟩
    · exact Or.inl (hcount.trans hkept)
    · exact Or.inr ⟨(hcount.storeLong _).trans hstored, hexit⟩
  rw [hr] at htotal
  rcases hentries with hkept | ⟨hstored, hexit⟩
  · split
    · rename_i hexit
      rcases htotal with ⟨-, hacc⟩ | hrej
      · obtain ⟨hps, -⟩ := updateCaches_entries (H := H) pd g (slice r.packet 0 r.pktlen) hmode
        rw [Option.elim_some, storeLong_same (by rw [← hps, ← hacc.ps, hkept.ps])]
        exact hkept
      · have herror := hrej.exit
        rw [hexit] at herror
        exact herror.elim
    · exact hkept
  · rw [if_pos hexit]
    exact hstored

/-- **A call** stores its packet, if there is one that is not short, and counts what `putFP`
counts. -/
theorem CallStep.entries (hcfg : cfg.Valid) (hmode : cfg.shared_dictionary_mode = false)
    (h : CallStep cfg H pd stored pd') :
    SameEntries (stored.elim pd (storeLong cfg H pd)) pd' := by
  cases h with
  | dedup _ ho => exact cacheAndCompressIfNeeded_entries hmode ho
  | putInCache _ ho => exact cacheAndCompressIfNeeded_entries hmode ho
  | updateCaches _ => exact updateCaches_entries _ _ _ hmode
  | uncomp hr => exact uncomp_entries hcfg hmode _ _ _ hr

theorem CallStep.history (h : CallStep cfg H pd stored pd') (hlog : History cfg H pd log) :
    ∃ log', History cfg H pd' log' := by
  cases h with
  | dedup hsize ho => exact ⟨_, hlog.dedup hsize ho⟩
  | putInCache hsize ho => exact ⟨_, hlog.putInCache hsize ho⟩
  | updateCaches hsize => exact ⟨_, hlog.updateCaches hsize⟩
  | uncomp hr => exact ⟨_, hlog.uncomp hr⟩

end Calls

/-! ### The counter over a run -/

section Run

variable {cfg : Config} {H : PacketHash} {pd pd' : Deduplicator} {log : Log}
  {packet : List UInt8} {stored : Option (List UInt8)}

/-- Storing a packet keeps the counter right if and only if nothing expires. -/
theorem storeLong_counted_iff (hcfg : cfg.Valid) (hindexed : cfg.FPSTORESIZE < 4294967296)
    (hmode : cfg.shared_dictionary_mode = false) (hlog : History cfg H pd log)
    (hcounted : Counted cfg pd) :
    Counted cfg (storeLong cfg H pd packet) ↔ ¬ Expires cfg pd packet := by
  unfold storeLong
  split
  · rename_i hshort
    exact iff_of_true hcounted fun hexpires => absurd hexpires.1 (Nat.not_le.mpr hshort)
  · rename_i hlong
    obtain ⟨_, hstored⟩ := hlog.stored hcfg hmode
    have hlen : BETA ≤ packet.length := Nat.not_lt.mp hlong
    obtain ⟨k, expired, hcount, hentries, hle, hzero⟩ :=
      putFPs_counted ⟨hcfg.toStores, hindexed⟩ (hstored.ok.putPkt hlen) pd.compStats
    rw [List.reverse_reverse] at hcount hentries
    rw [Counted] at hcounted
    have hsmall : expired < 18446744073709551616 := by
      have hfps := (calculateRelevantFPs_length packet hcfg.fp_pos).2
      have hmax := hcfg.fp_le
      rw [List.length_reverse] at hle
      simp only [MAX_FP_PER_PKT] at hmax
      have hslots : PKTS_PER_FP = 3 := rfl
      rw [hslots] at hle
      omega
    have hexpires : ¬ Expires cfg pd packet ↔ expired = 0 := by
      rw [hzero, Expires]
      simp only [hlen, true_and, List.mem_reverse, not_exists, not_and]
      exact Iff.rfl
    rw [hexpires, Counted]
    show (putFPs cfg _ _ _ _ _).2.numOfFPEntries = UInt64.ofNat (fpEntries cfg
      (putFPs cfg _ _ _ _ _).1) ↔ _
    rw [hcount, hcounted, ← UInt64.ofNat_add, ← hentries, UInt64.ofNat_add, UInt64.add_eq_left,
      ← UInt64.toNat_inj, UInt64.toNat_ofNat', Nat.mod_eq_of_lt hsmall]
    exact Iff.rfl

theorem newDeduplicator_counted (cfg : Config) (mem : RawMemory) :
    Counted cfg (newDeduplicator mem) := by
  have hnone : fpEntries cfg (newDeduplicator mem).fps = 0 := by
    refine Finset.sum_eq_zero fun fpHash _ => Finset.sum_eq_zero fun fpidx _ => ?_
    exact if_neg (Nat.lt_irrefl 0)
  rw [Counted, hnone]
  rfl

/-- **The counter of entries**: a run in which no call expires an entry keeps it right, and the
next call keeps it right if and only if it expires none. -/
theorem entryCounter_run (hcfg : cfg.Valid) (hindexed : cfg.FPSTORESIZE < 4294967296)
    (hmode : cfg.shared_dictionary_mode = false) {mem : RawMemory}
    (h : ReflTransGen (Meets (CallStep cfg H) (Quiet cfg)) (newDeduplicator mem) pd) :
    Counted cfg pd ∧
      ∀ stored pd', CallStep cfg H pd stored pd' → (Counted cfg pd' ↔ Quiet cfg pd stored) := by
  refine exact_run (fun pd => ∃ log, History cfg H pd log) ?_ ?_ ⟨[], .fresh mem⟩
    (newDeduplicator_counted cfg mem) h
  · rintro pd stored pd' ⟨log, hlog⟩ hcall
    exact hcall.history hlog
  · rintro pd stored pd' ⟨log, hlog⟩ hcounted hcall
    rw [(hcall.entries hcfg hmode).counted_iff]
    cases stored with
    | none => exact iff_of_true hcounted fun _ hp => (by cases hp)
    | some packet =>
      refine (storeLong_counted_iff hcfg hindexed hmode hlog hcounted).trans ⟨?_, ?_⟩
      · rintro hquiet _ ⟨⟩
        exact hquiet
      · intro hquiet
        exact hquiet packet rfl

end Run

/-! ### Packets of 64 equal bytes -/

theorem twoSlots_valid : twoSlots.Valid := ⟨twoSlots_stores, by decide⟩

/-- `update_caches` with a packet of 64 equal bytes. -/
def updateEqual (pd : Deduplicator) (b : UInt8) : Deduplicator :=
  (updateCaches twoSlots (fun _ => 0) pd (initDictionary blank blank) (List.replicate 64 b)).1

theorem updateEqual_step (pd : Deduplicator) (b : UInt8) :
    CallStep twoSlots (fun _ => 0) pd (some (List.replicate 64 b)) (updateEqual pd b) :=
  .updateCaches (by rw [List.length_replicate]; decide)

theorem updateEqual_entries {pd pd' : Deduplicator} {b : UInt8} {fp : UInt64}
    (hfp : fullRfp (List.replicate 64 b) = fp) (h : SameEntries pd pd') :
    SameEntries (storePacket twoSlots pd (List.replicate 64 b) 0 [⟨fp, 0, 0⟩])
      (updateEqual pd' b) := by
  have hlen : (List.replicate 64 b).length = BETA := List.length_replicate
  have hmode : twoSlots.shared_dictionary_mode = false := rfl
  have hentries := updateCaches_entries (H := fun _ => 0) pd' (initDictionary blank blank)
    (List.replicate 64 b) hmode
  rw [storeLong, if_neg (by rw [hlen]; decide), calculateRelevantFPs_short _ hlen, hfp] at hentries
  exact (h.storePacket 0 [⟨fp, 0, 0⟩]).trans hentries

theorem updateEqual_quiet {pd pd' : Deduplicator} {b : UInt8} {fp : UInt64}
    (hfp : fullRfp (List.replicate 64 b) = fp) (h : SameEntries pd pd')
    (hlive : ∀ fpidx, ¬ Stale twoSlots pd.ps.pktId (pd.fps (hashFPStore twoSlots fp) fpidx)) :
    Quiet twoSlots pd' (some (List.replicate 64 b)) := by
  rintro p hp ⟨-, f, hf, fpidx, hstale⟩
  cases hp
  have hlen : (List.replicate 64 b).length = BETA := List.length_replicate
  rw [calculateRelevantFPs_short _ hlen, hfp, List.mem_singleton] at hf
  subst hf
  rw [h.ps, h.fps] at hstale
  exact hlive fpidx hstale

/-- Three packets are stored, and the third is the second once more, whose entry is updated: two
entries are counted, and there are two. -/
theorem entryCounter_run_updated :
    Counted twoSlots (updateEqual (updateEqual (updateEqual (newDeduplicator blank) 27) 26) 26) ∧
      (updateEqual (updateEqual (updateEqual (newDeduplicator blank) 27) 26)
        26).compStats.numOfFPEntries = 2 := by
  have hfirst := updateEqual_entries fullRfp_27 (.refl (newDeduplicator blank))
  have hsecond := updateEqual_entries fullRfp_26 hfirst
  have hthird := updateEqual_entries fullRfp_26 hsecond
  have hrun : ReflTransGen (Meets (CallStep twoSlots fun _ => 0) (Quiet twoSlots))
      (newDeduplicator blank)
      (updateEqual (updateEqual (updateEqual (newDeduplicator blank) 27) 26) 26) :=
    ReflTransGen.refl
      |>.tail ⟨_, updateEqual_step _ 27, updateEqual_quiet fullRfp_27 (.refl _) (by decide)⟩
      |>.tail ⟨_, updateEqual_step _ 26, updateEqual_quiet fullRfp_26 hfirst (by decide)⟩
      |>.tail ⟨_, updateEqual_step _ 26, updateEqual_quiet fullRfp_26 hsecond (by decide)⟩
  refine ⟨(entryCounter_run twoSlots_valid (by decide) rfl hrun).1, ?_⟩
  rw [hthird.count]
  decide

/-- The fourth packet has the bucket of the first, whose entry it expires: three are counted, and
there are two. -/
theorem expired_entry_counted :
    ¬ ∀ (cfg : Config) (H : PacketHash) (mem : RawMemory) (pd : Deduplicator), cfg.Valid →
      cfg.FPSTORESIZE < 4294967296 → cfg.shared_dictionary_mode = false →
      ReflTransGen (fun pd pd' => ∃ stored, CallStep cfg H pd stored pd') (newDeduplicator mem)
        pd → Counted cfg pd := by
  intro hall
  have hrun : ReflTransGen (fun pd pd' => ∃ stored, CallStep twoSlots (fun _ => 0) pd stored pd')
      (newDeduplicator blank)
      (updateEqual (updateEqual (updateEqual (updateEqual (newDeduplicator blank) 27) 26) 26) 54) :=
    ReflTransGen.refl.tail ⟨_, updateEqual_step _ 27⟩ |>.tail ⟨_, updateEqual_step _ 26⟩
      |>.tail ⟨_, updateEqual_step _ 26⟩ |>.tail ⟨_, updateEqual_step _ 54⟩
  have hcounted := hall twoSlots (fun _ => 0) blank _ twoSlots_valid (by decide) rfl hrun
  rw [(updateEqual_entries fullRfp_54 (updateEqual_entries fullRfp_26 (updateEqual_entries
    fullRfp_26 (updateEqual_entries fullRfp_27 (.refl _))))).counted_iff] at hcounted
  revert hcounted
  unfold Counted
  decide +kernel

end Solowan.Codec
