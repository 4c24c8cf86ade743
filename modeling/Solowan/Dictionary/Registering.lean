/-
How a worker registers the fingerprints of a packet (`putPkt` and `putFP`,
`lib/dedup_common.c`), one call at a time.

A packet is stored first, and its fingerprints follow, the last one first. The expiry of
entries in `putFP` goes by the id of the packet just stored, `getPkt` by the next one, so
that the entry of the packet that has just been overwritten is neither expired nor found.
And expiry leaves the fingerprint of an entry where it is, so that the search for an entry to
update may end at one that is no longer live.

* `StoreStep`: the calls, and `Stored.represents`: what every state stands for.
* `registered_iff`: a fingerprint is registered or its bucket is full of packets that are
  found, unless the packet just overwritten has an entry in a bucket without a free position.
* `onePerPattern_run`: there is one live entry for each string as long as no `putFP` finds a
  free position while an entry that is not live stands in front of the one to update.
-/

import Mathlib.Logic.Relation
import Solowan.Dictionary.Eviction

namespace Solowan.Dictionary

open Solowan.Memory Relation

/-! ### The calls -/

/-- The dictionary of a worker while a packet is stored: the stores, the id `putPkt` has
returned for the packet, and the fingerprints of it that `putFP` has not seen yet. `log` is not
part of the memory: it records the packets that were stored. -/
structure Storing where
  ps : PktStore
  fps : FPStore
  currPktId : Nat
  pktFps : List FPEntryB
  log : Log

/-- A fresh dictionary. -/
def Storing.start (mem : RawMemory) : Storing :=
  ⟨(newDeduplicator mem).ps, (newDeduplicator mem).fps, 0, [], []⟩

inductive StoreStep (cfg : Config) (H : PacketHash) : Storing → Storing → Prop where
  | putPkt {ps : PktStore} {fps : FPStore} {currPktId : Nat} {log : Log} {packet : List UInt8}
      (hlen : BETA ≤ packet.length) (hsize : packet.length ≤ cfg.MAXPKTSIZE) :
      StoreStep cfg H ⟨ps, fps, currPktId, [], log⟩
        ⟨(putPkt cfg ps packet (H packet)).1, fps, (putPkt cfg ps packet (H packet)).2,
          (calculateRelevantFPs cfg packet).reverse, log ++ [packet]⟩
  | putFP {ps : PktStore} {fps : FPStore} {currPktId : Nat} {f : FPEntryB}
      {pktFps : List FPEntryB} {log : Log} (st : Statistics) :
      StoreStep cfg H ⟨ps, fps, currPktId, f :: pktFps, log⟩
        ⟨ps, (putFP cfg fps ps f.fp currPktId f.offset st).1, currPktId, pktFps, log⟩

/-- The states that are reached from a fresh dictionary. -/
def Stored (cfg : Config) (H : PacketHash) (s : Storing) : Prop :=
  ∃ mem, ReflTransGen (StoreStep cfg H) (Storing.start mem) s

/-- What holds of the log whatever the sizes of the stores: the slots of its ids have been
written, the index is sound for it, and the fingerprints to come are of the last packet. -/
structure Storing.Ok (s : Storing) (cfg : Config) (H : PacketHash) : Prop where
  next : s.ps.pktId = s.log.length + 1
  slot : ∀ id, 0 < id → id ≤ s.log.length →
    ∃ p ∈ s.log, (s.ps.pkts (id &&& (cfg.PKTSTORESIZE - 1))).Is H p
  fps : s.fps.Sound cfg s.log
  pktFps : ∀ f ∈ s.pktFps, s.currPktId = s.log.length ∧
    ∃ p, packetAt s.log s.log.length = some p ∧ Selected p f

section Steps

variable {cfg : Config} {H : PacketHash} {s s' : Storing} {ps : PktStore} {fps : FPStore}
  {currPktId : Nat} {f : FPEntryB} {pktFps : List FPEntryB} {log : Log} {p : List UInt8}

theorem Storing.start_ok (cfg : Config) (H : PacketHash) (mem : RawMemory) :
    (Storing.start mem).Ok cfg H where
  next := rfl
  slot := fun _ hpos hle => absurd hpos (Nat.not_lt.mpr hle)
  fps := (newDeduplicator_represents cfg H mem).fps
  pktFps := fun _ hf => absurd hf List.not_mem_nil

theorem Storing.Ok.putPkt (h : (⟨ps, fps, currPktId, [], log⟩ : Storing).Ok cfg H)
    (hlen : BETA ≤ p.length) :
    (⟨(putPkt cfg ps p (H p)).1, fps, (putPkt cfg ps p (H p)).2,
      (calculateRelevantFPs cfg p).reverse, log ++ [p]⟩ : Storing).Ok cfg H where
  next := by
    have hnext := h.next
    dsimp only at hnext ⊢
    rw [List.length_append, List.length_singleton, ← hnext]
    rfl
  slot := by
    intro id hpos hle
    have hnext := h.next
    dsimp only at hnext hle ⊢
    rw [List.length_append, List.length_singleton] at hle
    show ∃ q ∈ log ++ [p], (Function.update ps.pkts (ps.pktId &&& (cfg.PKTSTORESIZE - 1)) _
      (id &&& (cfg.PKTSTORESIZE - 1))).Is H q
    by_cases hslot : id &&& (cfg.PKTSTORESIZE - 1) = ps.pktId &&& (cfg.PKTSTORESIZE - 1)
    · rw [hslot, Function.update_self]
      exact ⟨p, by simp, slot_memcpy_is _ _⟩
    · have hold : id ≤ log.length := by
        by_contra hlast
        exact hslot (by rw [hnext, show id = log.length + 1 by omega])
      obtain ⟨q, hq, his⟩ := h.slot id hpos hold
      rw [Function.update_of_ne hslot]
      exact ⟨q, List.mem_append_left [p] hq, his⟩
  fps := h.fps.append p
  pktFps := by
    intro f hf
    rw [List.length_append, List.length_singleton]
    exact ⟨h.next, p, packetAt_last log p,
      calculateRelevantFPs_selected cfg hlen f (List.mem_reverse.mp hf)⟩

theorem Storing.Ok.putFP (h : (⟨ps, fps, currPktId, f :: pktFps, log⟩ : Storing).Ok cfg H)
    (st : Statistics) :
    (⟨ps, (putFP cfg fps ps f.fp currPktId f.offset st).1, currPktId, pktFps, log⟩ :
      Storing).Ok cfg H where
  next := h.next
  slot := h.slot
  fps := by
    obtain ⟨hid, p, hp, hsel⟩ := h.pktFps f List.mem_cons_self
    dsimp only at hid ⊢
    rw [hid]
    exact putFP_sound h.fps hp hsel st
  pktFps := fun g hg => h.pktFps g (List.mem_cons_of_mem f hg)

theorem StoreStep.ok (h : s.Ok cfg H) (hstep : StoreStep cfg H s s') : s'.Ok cfg H := by
  cases hstep with
  | putPkt hlen hsize => exact h.putPkt hlen
  | putFP st => exact h.putFP st

/-- Every state that is reached is sound for its log. -/
theorem Stored.ok (h : Stored cfg H s) : s.Ok cfg H := by
  obtain ⟨mem, hrun⟩ := h
  induction hrun with
  | refl => exact Storing.start_ok cfg H mem
  | tail _ hstep ih => exact hstep.ok ih

theorem StoreStep.holds (hpow : ∃ k, cfg.PKTSTORESIZE = 2 ^ k) (h : s.ps.Holds cfg H s.log)
    (hstep : StoreStep cfg H s s') : s'.ps.Holds cfg H s'.log := by
  cases hstep with
  | putPkt hlen hsize => exact putPkt_holds hpow h _
  | putFP st => exact h

/-- When the size of the ring is a power of two, it holds the packets of its window. -/
theorem Stored.holds (hpow : ∃ k, cfg.PKTSTORESIZE = 2 ^ k) (h : Stored cfg H s) :
    s.ps.Holds cfg H s.log := by
  obtain ⟨mem, hrun⟩ := h
  induction hrun with
  | refl => exact (newDeduplicator_represents cfg H mem).ps
  | tail _ hstep ih => exact hstep.holds hpow ih

/-- The loop over the fingerprints of a packet. -/
theorem Stored.putFPs (h : Stored cfg H ⟨ps, fps, currPktId, pktFps, log⟩) (st : Statistics) :
    Stored cfg H ⟨ps, (Dictionary.putFPs cfg ps currPktId pktFps.reverse fps st).1, currPktId, [],
      log⟩ := by
  unfold Dictionary.putFPs
  rw [List.reverse_reverse]
  induction pktFps generalizing fps st with
  | nil => exact h
  | cons f pktFps ih =>
    obtain ⟨mem, hrun⟩ := h
    exact ih ⟨mem, hrun.tail (.putFP st)⟩ _

/-- A packet stored with its fingerprints is a sequence of calls. -/
theorem Stored.storePacket {pd : Deduplicator}
    (h : Stored cfg H ⟨pd.ps, pd.fps, currPktId, [], log⟩) (hlen : BETA ≤ p.length)
    (hsize : p.length ≤ cfg.MAXPKTSIZE) :
    Stored cfg H ⟨(storePacket cfg pd p (H p) (calculateRelevantFPs cfg p)).ps,
      (storePacket cfg pd p (H p) (calculateRelevantFPs cfg p)).fps,
      (putPkt cfg pd.ps p (H p)).2, [], log ++ [p]⟩ := by
  obtain ⟨mem, hrun⟩ := h
  have hput : Stored cfg H _ := ⟨mem, hrun.tail (.putPkt hlen hsize)⟩
  have hstored := hput.putFPs pd.compStats
  rw [List.reverse_reverse] at hstored
  exact hstored

end Steps

/-! ### One fingerprint -/

/-- A bucket without the entries that have expired for the packet `pktId`. -/
def cleared (cfg : Config) (pktId : Nat) (fpp : FPEntry) : FPEntry :=
  fun fpidx => expire cfg pktId (fpp fpidx)

section Registration

variable {cfg : Config} {ps : PktStore} {fps : FPStore} {fpp : FPEntry} {entry : FPEntryB}
  {pos : Fin PKTS_PER_FP}

theorem expire_fp (cfg : Config) (pktId : Nat) (e : FPEntryB) : (expire cfg pktId e).fp = e.fp := by
  unfold expire
  split
  · rfl
  · rfl

/-- Clearing a bucket does not change what the search for a fingerprint finds. -/
theorem findBkt_cleared (cfg : Config) (pktId : Nat) (fpp : FPEntry) (fp : UInt64) :
    findBkt (cleared cfg pktId fpp) (fun e => e.fp == fp) = findBkt fpp (fun e => e.fp == fp) := by
  apply findBkt_congr
  intro fpidx
  rw [cleared, expire_fp]

theorem lastEmpty_some (h : lastEmpty fpp = some pos) : (fpp pos).pktId = 0 := by
  simpa using List.find?_some h

theorem lastEmpty_none (h : lastEmpty fpp = none) (pos : Fin PKTS_PER_FP) :
    0 < (fpp pos).pktId := by
  have hne := List.find?_eq_none.mp h pos (List.mem_reverse.mpr (List.mem_finRange pos))
  exact Nat.pos_of_ne_zero (by simpa using hne)

/-- A bucket without free positions has nothing to clear. -/
theorem cleared_of_full {pktId : Nat} (h : ∀ pos, 0 < (cleared cfg pktId fpp pos).pktId) :
    cleared cfg pktId fpp = fpp :=
  funext fun pos => expire_of_pos (h pos)

/-- What `putFP` does: it updates the first entry with the fingerprint when that shows the same
string. Otherwise the fingerprint needs an entry, and gets a free position if there is one. -/
theorem putFP_cases (cfg : Config) (fps : FPStore) (ps : PktStore) (entry : FPEntryB)
    (st : Statistics) {fpp : FPEntry}
    (hfpp : cleared cfg entry.pktId (fps (hashFPStore cfg entry.fp)) = fpp) :
    (∃ pos, findBkt fpp (fun e => e.fp == entry.fp) = some pos ∧
        sameString cfg ps (fpp pos) entry.pktId entry.offset = true ∧
        (putFP cfg fps ps entry.fp entry.pktId entry.offset st).1 =
          Function.update fps (hashFPStore cfg entry.fp) (Function.update fpp pos entry)) ∨
      NeedsEntry cfg ps fpp entry ∧
        ((∃ pos, (fpp pos).pktId = 0 ∧
            (putFP cfg fps ps entry.fp entry.pktId entry.offset st).1 =
              Function.update fps (hashFPStore cfg entry.fp) (Function.update fpp pos entry)) ∨
          (∀ pos, 0 < (fpp pos).pktId) ∧
            (putFP cfg fps ps entry.fp entry.pktId entry.offset st).1 = fps) := by
  have hput : (putFP cfg fps ps entry.fp entry.pktId entry.offset st).1 =
      (registerFP cfg fps ps fpp (lastEmpty fpp) entry st).1 := by
    rw [← hfpp]
    rfl
  rw [hput]
  by_cases hneeds : NeedsEntry cfg ps fpp entry
  · refine Or.inr ⟨hneeds, ?_⟩
    rw [registerFP_needs hneeds]
    cases hempty : lastEmpty fpp with
    | some pos => exact Or.inl ⟨pos, lastEmpty_some hempty, rfl⟩
    | none =>
      have hfull := lastEmpty_none hempty
      refine Or.inr ⟨hfull, ?_⟩
      rw [← hfpp] at hfull
      rw [Option.elim_none, ← hfpp, cleared_of_full hfull, Function.update_eq_self]
  · exact Or.inl (registerFP_updates fps hneeds (lastEmpty fpp) st)

end Registration

/-! ### Registered or full -/

/-- The bucket has an entry with the fingerprint for the packet, or all its entries are of
packets that are found. -/
def RegisteredOrFull (cfg : Config) (ps : PktStore) (fpp : FPEntry) (fp : UInt64) (pktId : Nat) :
    Prop :=
  (∃ fpidx, (fpp fpidx).fp = fp ∧ (fpp fpidx).pktId = pktId) ∨
    ∀ fpidx, 0 < (fpp fpidx).pktId ∧ (getPkt cfg ps (fpp fpidx).pktId).isSome = true

/-- The entry is kept out by one of the packet that was in the slot of the new packet: no
position is empty or expired, the fingerprint needs an entry and has none for this packet yet,
and the packet `PKTSTORESIZE` ids ago is in the bucket. -/
structure KeptOut (cfg : Config) (ps : PktStore) (fpp : FPEntry) (entry : FPEntryB) : Prop where
  full : ∀ pos, 0 < (expire cfg entry.pktId (fpp pos)).pktId
  needs : NeedsEntry cfg ps fpp entry
  missing : ∀ pos, ¬ ((fpp pos).fp = entry.fp ∧ (fpp pos).pktId = entry.pktId)
  overwritten : ∃ pos, (fpp pos).pktId + cfg.PKTSTORESIZE = entry.pktId

section Registered

variable {cfg : Config} {H : PacketHash} {ps : PktStore} {fps : FPStore} {currPktId : Nat}
  {f : FPEntryB} {pktFps : List FPEntryB} {log : Log}

/-- While a packet is being stored, the packets of the window of the next id are found. -/
theorem Storing.Ok.found_iff
    (h : (⟨ps, fps, currPktId, f :: pktFps, log⟩ : Storing).Ok cfg H) (fpHash : UInt32)
    (pos : Fin PKTS_PER_FP) :
    (getPkt cfg ps (fps fpHash pos).pktId).isSome = true ↔
      currPktId + 1 ≤ (fps fpHash pos).pktId + cfg.PKTSTORESIZE := by
  have hid := (h.pktFps f List.mem_cons_self).1
  have hnext := h.next
  have hle : (fps fpHash pos).pktId ≤ log.length := by
    rcases Nat.eq_zero_or_pos (fps fpHash pos).pktId with hzero | hlive
    · omega
    · obtain ⟨-, -, p, hp, -⟩ := (h.fps fpHash pos).live hlive
      exact (packetAt_range hp).2
  dsimp only at hid hnext
  rw [getPkt_isSome_iff, hnext, hid]
  exact and_iff_right (Nat.le_succ_of_le hle)

/-- **Registered or full.** After `putFP` the bucket has an entry for the packet, or it is full
of packets that are found, unless the entry is kept out. -/
theorem registered_iff (h : Stored cfg H ⟨ps, fps, currPktId, f :: pktFps, log⟩)
    (st : Statistics) :
    RegisteredOrFull cfg ps
        ((putFP cfg fps ps f.fp currPktId f.offset st).1 (hashFPStore cfg f.fp)) f.fp currPktId ↔
      ¬ KeptOut cfg ps (fps (hashFPStore cfg f.fp)) ⟨f.fp, currPktId, f.offset⟩ := by
  have hfound := h.ok.found_iff (hashFPStore cfg f.fp)
  rcases putFP_cases cfg fps ps ⟨f.fp, currPktId, f.offset⟩ st rfl with
    ⟨pos, hfind, hsame, hput⟩ | ⟨hneeds, ⟨pos, hzero, hput⟩ | ⟨hfull, hput⟩⟩
  · dsimp only at hput
    rw [hput, Function.update_self]
    refine iff_of_true (Or.inl ⟨pos, by rw [Function.update_self], by rw [Function.update_self]⟩) ?_
    intro hout
    rw [cleared_of_full hout.full] at hfind hsame
    rw [hout.needs pos hfind] at hsame
    cases hsame
  · dsimp only at hput
    rw [hput, Function.update_self]
    refine iff_of_true (Or.inl ⟨pos, by rw [Function.update_self], by rw [Function.update_self]⟩) ?_
    intro hout
    exact Nat.lt_irrefl 0 (hzero ▸ hout.full pos)
  · dsimp only at hput
    rw [hput]
    rw [cleared_of_full hfull] at hneeds
    constructor
    · rintro (⟨pos, hfp, hid⟩ | hall) hout
      · exact hout.missing pos ⟨hfp, hid⟩
      · obtain ⟨pos, hpos⟩ := hout.overwritten
        have hwin := (hfound pos).mp (hall pos).2
        dsimp only at hpos
        omega
    · intro hout
      by_cases hmine : ∃ pos, (fps (hashFPStore cfg f.fp) pos).fp = f.fp ∧
          (fps (hashFPStore cfg f.fp) pos).pktId = currPktId
      · exact Or.inl hmine
      · refine Or.inr fun pos => ?_
        have hlive := hfull pos
        have hold : ¬ (fps (hashFPStore cfg f.fp) pos).pktId + cfg.PKTSTORESIZE < currPktId := by
          intro hold
          simp [cleared, expire, hold] at hlive
        have hne : (fps (hashFPStore cfg f.fp) pos).pktId + cfg.PKTSTORESIZE ≠ currPktId :=
          fun heq => hout ⟨hfull, hneeds, fun q hq => hmine ⟨q, hq⟩, pos, heq⟩
        rw [cleared, expire_of_pos hlive] at hlive
        exact ⟨hlive, (hfound pos).mpr (by omega)⟩

end Registered

/-! ### A packet that is kept out -/

/-- A packet of 64 equal bytes is stored, and its fingerprint is to be registered. -/
def Storing.putEqual (s : Storing) (cfg : Config) (b : UInt8) (fp : UInt64) : Storing :=
  ⟨(putPkt cfg s.ps (List.replicate 64 b) 0).1, s.fps,
    (putPkt cfg s.ps (List.replicate 64 b) 0).2, [⟨fp, 0, 0⟩], s.log ++ [List.replicate 64 b]⟩

/-- A packet of 64 equal bytes, stored with its fingerprint. -/
def Storing.storeEqual (s : Storing) (cfg : Config) (b : UInt8) (fp : UInt64) : Storing :=
  { s.putEqual cfg b fp with
    fps := (putFP cfg s.fps (s.putEqual cfg b fp).ps fp (s.putEqual cfg b fp).currPktId 0 .zero).1
    pktFps := [] }

section Equal

variable {cfg : Config} {s : Storing} {b : UInt8} {fp : UInt64}

theorem Storing.putEqual_step (hidle : s.pktFps = []) (hsize : BETA ≤ cfg.MAXPKTSIZE)
    (hfp : fullRfp (List.replicate 64 b) = fp) :
    StoreStep cfg (fun _ => 0) s (s.putEqual cfg b fp) := by
  obtain ⟨ps, fps, currPktId, pktFps, log⟩ := s
  cases hidle
  have hlen : (List.replicate 64 b).length = BETA := List.length_replicate
  have hsize' : (List.replicate 64 b).length ≤ cfg.MAXPKTSIZE := by
    rw [hlen]
    exact hsize
  have hstep : StoreStep cfg (fun _ => 0) ⟨ps, fps, currPktId, [], log⟩ _ :=
    .putPkt hlen.ge hsize'
  rw [calculateRelevantFPs_short cfg hlen, hfp] at hstep
  exact hstep

theorem Storing.storeEqual_step (s : Storing) (cfg : Config) (b : UInt8) (fp : UInt64) :
    StoreStep cfg (fun _ => 0) (s.putEqual cfg b fp) (s.storeEqual cfg b fp) :=
  .putFP .zero

theorem Stored.putEqual (h : Stored cfg (fun _ => 0) s) (hidle : s.pktFps = [])
    (hsize : BETA ≤ cfg.MAXPKTSIZE) (hfp : fullRfp (List.replicate 64 b) = fp) :
    Stored cfg (fun _ => 0) (s.putEqual cfg b fp) := by
  obtain ⟨mem, hrun⟩ := h
  exact ⟨mem, hrun.tail (Storing.putEqual_step hidle hsize hfp)⟩

theorem Stored.storeEqual (h : Stored cfg (fun _ => 0) s) (hidle : s.pktFps = [])
    (hsize : BETA ≤ cfg.MAXPKTSIZE) (hfp : fullRfp (List.replicate 64 b) = fp) :
    Stored cfg (fun _ => 0) (s.storeEqual cfg b fp) := by
  obtain ⟨mem, hrun⟩ := h.putEqual hidle hsize hfp
  exact ⟨mem, hrun.tail (s.storeEqual_step cfg b fp)⟩

end Equal

/-- The fingerprints of some strings of one byte. -/
theorem fullRfp_values :
    fullRfp (List.replicate 64 26) = 1068350628788546048 ∧
      fullRfp (List.replicate 64 27) = 89548937358971648 ∧
      fullRfp (List.replicate 64 54) = 179097874717943296 ∧
      fullRfp (List.replicate 64 117) = 772352563424492800 ∧
      fullRfp (List.replicate 64 144) = 861901500783464448 := by decide +kernel

theorem fullRfp_26 : fullRfp (List.replicate 64 26) = 1068350628788546048 := fullRfp_values.1

theorem fullRfp_27 : fullRfp (List.replicate 64 27) = 89548937358971648 := fullRfp_values.2.1

theorem fullRfp_54 : fullRfp (List.replicate 64 54) = 179097874717943296 := fullRfp_values.2.2.1

theorem fullRfp_117 : fullRfp (List.replicate 64 117) = 772352563424492800 := fullRfp_values.2.2.2.1

theorem fullRfp_144 : fullRfp (List.replicate 64 144) = 861901500783464448 := fullRfp_values.2.2.2.2

/-- Three packets whose fingerprints share a bucket, and one for another bucket. -/
def threeAndOne : Storing :=
  ((((Storing.start blank).storeEqual (fourSlots false) 27 89548937358971648).storeEqual
    (fourSlots false) 54 179097874717943296).storeEqual
    (fourSlots false) 117 772352563424492800).storeEqual (fourSlots false) 26 1068350628788546048

theorem threeAndOne_stored : Stored (fourSlots false) (fun _ => 0) threeAndOne :=
  ((((Stored.storeEqual ⟨blank, .refl⟩ rfl (by decide) fullRfp_27).storeEqual rfl (by decide)
    fullRfp_54).storeEqual rfl (by decide) fullRfp_117).storeEqual rfl (by decide) fullRfp_26)

/-- The packet in the other bucket is stored once more. -/
def threeAndTwo : Storing := threeAndOne.storeEqual (fourSlots false) 26 1068350628788546048

/-- A sixth packet, for the bucket of the three. -/
def sixthStored : Storing :=
  threeAndTwo.putEqual (fourSlots false) 144 861901500783464448

/-- The entry of the first packet has expired by then, that of the second belongs to the packet
whose slot was taken, and that of the third is live: the sixth is registered in the place of the
first. -/
theorem registered_expired :
    Stored (fourSlots false) (fun _ => 0) sixthStored ∧
      hashFPStore (fourSlots false) 861901500783464448 = 255 ∧
      (List.finRange PKTS_PER_FP).map (fun pos => (threeAndTwo.fps 255 pos).pktId) = [3, 2, 1] ∧
      RegisteredOrFull (fourSlots false) sixthStored.ps
        ((putFP (fourSlots false) sixthStored.fps sixthStored.ps 861901500783464448 6 0
          .zero).1 (hashFPStore (fourSlots false) 861901500783464448)) 861901500783464448 6 := by
  have hstored : Stored (fourSlots false) (fun _ => 0) sixthStored :=
    (threeAndOne_stored.storeEqual rfl (by decide) fullRfp_26).putEqual rfl (by decide) fullRfp_144
  have hfirst : (expire (fourSlots false) 6
      (threeAndTwo.fps (hashFPStore (fourSlots false) 861901500783464448) ⟨2, by decide⟩)).pktId =
        0 := by decide
  refine ⟨hstored, by decide, by decide, (registered_iff hstored .zero).mpr fun hout => ?_⟩
  exact absurd hfirst (Nat.pos_iff_ne_zero.mp (hout.full ⟨2, by decide⟩))

/-- A fourth packet for the bucket takes the slot of the first, whose entry keeps it out. -/
theorem fifth_kept_out :
    ¬ ∀ (cfg : Config) (H : PacketHash) (ps : PktStore) (fps : FPStore) (currPktId : Nat)
        (f : FPEntryB) (pktFps : List FPEntryB) (log : Log) (st : Statistics), cfg.Stores →
      cfg.shared_dictionary_mode = false → Stored cfg H ⟨ps, fps, currPktId, f :: pktFps, log⟩ →
      RegisteredOrFull cfg ps
        ((putFP cfg fps ps f.fp currPktId f.offset st).1 (hashFPStore cfg f.fp)) f.fp
        currPktId := by
  intro hall
  have hregistered := hall (fourSlots false) (fun _ => 0) _ _ _ _ _ _ .zero
    (fourSlots_stores false) rfl (threeAndOne_stored.putEqual rfl (by decide) fullRfp_144)
  revert hregistered
  unfold RegisteredOrFull
  decide

/-! ### One entry for each pattern -/

/-- A live entry with fingerprint `fp`, for a packet that is found and has the string `str` at
the offset. -/
structure FPEntryB.Shows (e : FPEntryB) (cfg : Config) (ps : PktStore) (fp : UInt64)
    (str : List UInt8) : Prop where
  live : 0 < e.pktId
  fp : e.fp = fp
  string : ∃ pkt, getPkt cfg ps e.pktId = some pkt ∧ slice pkt.pkt e.offset BETA = str

/-- No two positions of a bucket show the same string under the same fingerprint. -/
def OnePerPattern (cfg : Config) (ps : PktStore) (fps : FPStore) : Prop :=
  ∀ fpHash pos pos' fp str, (fps fpHash pos).Shows cfg ps fp str →
    (fps fpHash pos').Shows cfg ps fp str → pos = pos'

/-- The entry of the bucket that shows the string of `entry` is not seen: there is a free
position for a second one, and the search for the fingerprint ends at an entry that does not
show the string. -/
def Shadowed (cfg : Config) (ps : PktStore) (fpp : FPEntry) (entry : FPEntryB) : Prop :=
  ∃ str, entry.Shows cfg ps entry.fp str ∧ (∃ pos, (fpp pos).Shows cfg ps entry.fp str) ∧
    (∃ pos, (expire cfg entry.pktId (fpp pos)).pktId = 0) ∧
    ∀ pos, findBkt fpp (fun e => e.fp == entry.fp) = some pos →
      ¬ (fpp pos).Shows cfg ps entry.fp str

/-- The next call, if it is one of `putFP`, updates the entry that shows the string, if there
is one. -/
def Storing.Merges (s : Storing) (cfg : Config) : Prop :=
  ∀ f pktFps, s.pktFps = f :: pktFps →
    ¬ Shadowed cfg s.ps (s.fps (hashFPStore cfg f.fp)) ⟨f.fp, s.currPktId, f.offset⟩

section Pattern

variable {cfg : Config} {H : PacketHash} {ps : PktStore} {fps : FPStore} {currPktId : Nat}
  {f : FPEntryB} {pktFps : List FPEntryB} {log : Log} {e : FPEntryB} {fp : UInt64}
  {str : List UInt8} {fpHash : UInt32}

/-- What a sound entry shows, in terms of the log. -/
theorem FPEntryB.Ok.shows_iff (h : e.Ok cfg log fpHash) (hps : ps.Holds cfg H log) :
    e.Shows cfg ps fp str ↔ e.fp = fp ∧ log.length + 1 ≤ e.pktId + cfg.PKTSTORESIZE ∧
      ∃ p, packetAt log e.pktId = some p ∧ (p.drop e.offset).take BETA = str := by
  constructor
  · rintro ⟨hlive, hfp, pkt, hget, hstr⟩
    obtain ⟨-, -, p, hp, hoff⟩ := h.live hlive
    obtain ⟨hwin, his⟩ := getPkt_inv hps hp hget
    rw [his.slice hoff] at hstr
    exact ⟨hfp, hwin, p, hp, hstr⟩
  · rintro ⟨hfp, hwin, p, hp, hstr⟩
    have hlive : 0 < e.pktId := (packetAt_range hp).1
    obtain ⟨-, -, q, hq, hoff⟩ := h.live hlive
    rw [hp] at hq
    cases hq
    obtain ⟨pkt, hget, his⟩ := getPkt_some hps hp hwin
    exact ⟨hlive, hfp, pkt, hget, (his.slice hoff).trans hstr⟩

/-- Storing a packet shows nothing new. -/
theorem OnePerPattern.putPkt (hpow : ∃ k, cfg.PKTSTORESIZE = 2 ^ k) (hps : ps.Holds cfg H log)
    (hfps : fps.Sound cfg log) (h : OnePerPattern cfg ps fps) (p : List UInt8) :
    OnePerPattern cfg (putPkt cfg ps p (H p)).1 fps := by
  have hback : ∀ {fpHash pos fp str},
      (fps fpHash pos).Shows cfg (Dictionary.putPkt cfg ps p (H p)).1 fp str →
        (fps fpHash pos).Shows cfg ps fp str := by
    intro fpHash pos fp str hshows
    have hok := hfps fpHash pos
    obtain ⟨-, -, q, hq, -⟩ := hok.live hshows.live
    obtain ⟨hfp, hwin, q', hq', hstr⟩ :=
      ((hok.append p).shows_iff (putPkt_holds hpow hps p)).mp hshows
    rw [packetAt_append_some hq] at hq'
    cases hq'
    rw [List.length_append, List.length_singleton] at hwin
    exact (hok.shows_iff hps).mpr ⟨hfp, by omega, q, hq, hstr⟩
  intro fpHash pos pos' fp str hshows hshows'
  exact h fpHash pos pos' fp str (hback hshows) (hback hshows')

/-- An entry that shows something has not expired. -/
theorem FPEntryB.Shows.expire
    (h : (⟨ps, fps, currPktId, f :: pktFps, log⟩ : Storing).Ok cfg H)
    {pos : Fin PKTS_PER_FP} (hshows : (fps fpHash pos).Shows cfg ps fp str) :
    Dictionary.expire cfg currPktId (fps fpHash pos) = fps fpHash pos := by
  obtain ⟨pkt, hget, -⟩ := hshows.string
  have hwin := (h.found_iff fpHash pos).mp (by rw [hget]; rfl)
  rw [Dictionary.expire, if_neg (by omega)]

/-- The test of `putFP` for an entry with the fingerprint: it passes when the entry shows the
new string. -/
theorem sameString_iff_shows
    (h : (⟨ps, fps, currPktId, f :: pktFps, log⟩ : Storing).Ok cfg H)
    (hnew : (⟨f.fp, currPktId, f.offset⟩ : FPEntryB).Shows cfg ps f.fp str)
    {pos : Fin PKTS_PER_FP} (hfp : (fps fpHash pos).fp = f.fp) :
    sameString cfg ps (cleared cfg currPktId (fps fpHash) pos) currPktId f.offset = true ↔
      (fps fpHash pos).Shows cfg ps f.fp str := by
  obtain ⟨hid, p, hp, hsel⟩ := h.pktFps f List.mem_cons_self
  obtain ⟨slot, hget, hstr⟩ := hnew.string
  dsimp only at hid hget hstr
  unfold sameString
  rw [hget]
  constructor
  · intro hsame
    split at hsame
    · rename_i pktE pktEbis hE hEbis
      cases hE
      -- An expired entry is not found, as the ring is full by then.
      have hok : (cleared cfg currPktId (fps fpHash) pos).Ok cfg log fpHash :=
        (h.fps fpHash pos).expire (Nat.le_of_eq hid)
      have hfp' : (cleared cfg currPktId (fps fpHash) pos).fp = f.fp := (expire_fp ..).trans hfp
      have hlive := hok.pktId_pos h.next (by rw [hfp']; exact hsel.2) hEbis
      have hkept : cleared cfg currPktId (fps fpHash) pos = fps fpHash pos := expire_of_pos hlive
      rw [hkept] at hlive hEbis hsame
      exact ⟨hlive, hfp, pktEbis, hEbis, (of_decide_eq_true hsame).trans hstr⟩
    · cases hsame
  · intro hshows
    obtain ⟨pktEbis, hEbis, hstr'⟩ := hshows.string
    have hkept : cleared cfg currPktId (fps fpHash) pos = fps fpHash pos := hshows.expire h
    rw [hkept, hEbis]
    exact decide_eq_true (hstr'.trans hstr.symm)

theorem FPEntryB.Shows.unique {fp' : UInt64} {str' : List UInt8} (h : e.Shows cfg ps fp str)
    (h' : e.Shows cfg ps fp' str') : fp = fp' ∧ str = str' := by
  obtain ⟨pkt, hget, hstr⟩ := h.string
  obtain ⟨pkt', hget', hstr'⟩ := h'.string
  rw [hget] at hget'
  cases hget'
  exact ⟨h.fp.symm.trans h'.fp, hstr.symm.trans hstr'⟩

/-- A second entry for a string is one too many. -/
theorem onePerPattern_update_iff
    (h : (⟨ps, fps, currPktId, f :: pktFps, log⟩ : Storing).Ok cfg H)
    (hone : OnePerPattern cfg ps fps)
    (hnew : (⟨f.fp, currPktId, f.offset⟩ : FPEntryB).Shows cfg ps f.fp str)
    (pos : Fin PKTS_PER_FP) :
    OnePerPattern cfg ps (Function.update fps (hashFPStore cfg f.fp)
        (Function.update (cleared cfg currPktId (fps (hashFPStore cfg f.fp))) pos
          ⟨f.fp, currPktId, f.offset⟩)) ↔
      ∀ q, q ≠ pos → ¬ (fps (hashFPStore cfg f.fp) q).Shows cfg ps f.fp str := by
  constructor
  · intro hafter q hne hq
    apply hne
    refine hafter (hashFPStore cfg f.fp) q pos f.fp str ?_ ?_
    · rw [Function.update_self, Function.update_of_ne hne, cleared, hq.expire h]
      exact hq
    · rw [Function.update_self, Function.update_self]
      exact hnew
  · intro hno fpHash q q' fp' str' hq hq'
    by_cases hbucket : fpHash = hashFPStore cfg f.fp
    · subst hbucket
      rw [Function.update_self] at hq hq'
      -- What is shown next to the new entry was shown before.
      have hother : ∀ {r fp' str'}, r ≠ pos →
          (Function.update (cleared cfg currPktId (fps (hashFPStore cfg f.fp))) pos
            ⟨f.fp, currPktId, f.offset⟩ r).Shows cfg ps fp' str' →
          (fps (hashFPStore cfg f.fp) r).Shows cfg ps fp' str' := by
        intro r fp' str' hne hr
        rw [Function.update_of_ne hne] at hr
        have hkept : cleared cfg currPktId (fps (hashFPStore cfg f.fp)) r =
          fps (hashFPStore cfg f.fp) r := expire_of_pos hr.live
        rw [hkept] at hr
        exact hr
      have hmine : ∀ {r fp' str'}, r ≠ pos →
          (⟨f.fp, currPktId, f.offset⟩ : FPEntryB).Shows cfg ps fp' str' →
          ¬ (fps (hashFPStore cfg f.fp) r).Shows cfg ps fp' str' := by
        intro r fp' str' hne hentry
        obtain ⟨rfl, rfl⟩ := hnew.unique hentry
        exact hno r hne
      by_cases hpos : q = pos
      · subst hpos
        by_contra hne
        rw [Function.update_self] at hq
        exact hmine (Ne.symm hne) hq (hother (Ne.symm hne) hq')
      · by_cases hpos' : q' = pos
        · subst hpos'
          rw [Function.update_self] at hq'
          exact absurd (hother hpos hq) (hmine hpos hq')
        · exact hone _ q q' fp' str' (hother hpos hq) (hother hpos' hq')
    · rw [Function.update_of_ne hbucket] at hq hq'
      exact hone fpHash q q' fp' str' hq hq'

/-- The string of the fingerprint to be registered is shown by the packet just stored. -/
theorem Storing.Ok.shows_new (h : (⟨ps, fps, currPktId, f :: pktFps, log⟩ : Storing).Ok cfg H)
    (hpow : ∃ k, cfg.PKTSTORESIZE = 2 ^ k) (hps : ps.Holds cfg H log) :
    ∃ str, (⟨f.fp, currPktId, f.offset⟩ : FPEntryB).Shows cfg ps f.fp str := by
  obtain ⟨hid, p, hp, hsel⟩ := h.pktFps f List.mem_cons_self
  dsimp only at hid
  have hok : (⟨f.fp, currPktId, f.offset⟩ : FPEntryB).Ok cfg log (hashFPStore cfg f.fp) := by
    rw [hid]
    exact FPEntryB.ok_new hp hsel
  refine ⟨_, (hok.shows_iff hps).mpr ⟨rfl, ?_, p, by rw [hid]; exact hp, rfl⟩⟩
  have hsize := one_le_size hpow
  dsimp only
  omega

/-- **One call of `putFP`** adds a second entry for a string if and only if the one there is
shadowed. -/
theorem putFP_onePerPattern_iff (hpow : ∃ k, cfg.PKTSTORESIZE = 2 ^ k)
    (h : (⟨ps, fps, currPktId, f :: pktFps, log⟩ : Storing).Ok cfg H)
    (hps : ps.Holds cfg H log) (hone : OnePerPattern cfg ps fps) (st : Statistics) :
    OnePerPattern cfg ps (putFP cfg fps ps f.fp currPktId f.offset st).1 ↔
      ¬ Shadowed cfg ps (fps (hashFPStore cfg f.fp)) ⟨f.fp, currPktId, f.offset⟩ := by
  obtain ⟨str, hnew⟩ := h.shows_new hpow hps
  have hupdate := onePerPattern_update_iff h hone hnew
  have hfirst : ∀ pos, findBkt (fps (hashFPStore cfg f.fp)) (fun e => e.fp == f.fp) = some pos →
      (sameString cfg ps (cleared cfg currPktId (fps (hashFPStore cfg f.fp)) pos) currPktId
        f.offset = true ↔ (fps (hashFPStore cfg f.fp) pos).Shows cfg ps f.fp str) :=
    fun pos hfind => sameString_iff_shows h hnew (by simpa using findBkt_some hfind)
  rcases putFP_cases cfg fps ps ⟨f.fp, currPktId, f.offset⟩ st rfl with
    ⟨pos, hfind, hsame, hput⟩ | ⟨hneeds, ⟨pos, hzero, hput⟩ | ⟨hfull, hput⟩⟩
  · rw [findBkt_cleared] at hfind
    have hshows := (hfirst pos hfind).mp hsame
    dsimp only at hput
    rw [hput, hupdate]
    refine iff_of_true (fun q hne hq => hne (hone _ q pos f.fp str hq hshows)) ?_
    rintro ⟨str', hnew', -, -, hlost⟩
    obtain ⟨-, rfl⟩ := hnew.unique hnew'
    exact hlost pos hfind hshows
  · dsimp only at hput hzero
    rw [hput, hupdate]
    constructor
    · rintro hno ⟨str', hnew', ⟨q, hq⟩, -, -⟩
      obtain ⟨-, rfl⟩ := hnew.unique hnew'
      refine hno q ?_ hq
      rintro rfl
      rw [cleared, hq.expire h] at hzero
      exact absurd hq.live (by omega)
    · intro hseen q _ hq
      refine hseen ⟨str, hnew, ⟨q, hq⟩, ⟨pos, hzero⟩, ?_⟩
      intro first hfind hshows
      have hsame := (hfirst first hfind).mpr hshows
      rw [← findBkt_cleared cfg currPktId] at hfind
      rw [hneeds first hfind] at hsame
      cases hsame
  · dsimp only at hput
    rw [hput]
    refine iff_of_true hone ?_
    rintro ⟨-, -, -, ⟨pos, hzero⟩, -⟩
    exact absurd hzero (Nat.pos_iff_ne_zero.mp (hfull pos))

/-- One call keeps one entry for each pattern if and only if it merges. -/
theorem StoreStep.onePerPattern_iff {s s' : Storing} (hpow : ∃ k, cfg.PKTSTORESIZE = 2 ^ k)
    (h : s.Ok cfg H) (hps : s.ps.Holds cfg H s.log) (hone : OnePerPattern cfg s.ps s.fps)
    (hstep : StoreStep cfg H s s') : OnePerPattern cfg s'.ps s'.fps ↔ s.Merges cfg := by
  cases hstep with
  | putPkt hlen hsize =>
    exact iff_of_true (hone.putPkt hpow hps h.fps _) fun _ _ hcons => (by cases hcons)
  | putFP st =>
    refine (putFP_onePerPattern_iff hpow h hps hone st).trans ⟨?_, ?_⟩
    · intro hseen g todo hcons
      cases hcons
      exact hseen
    · intro hmerges
      exact hmerges _ _ rfl

/-- **One live entry for each pattern**, in every state of a run whose calls of `putFP` all
update the entry that shows their string; and the first call that does not breaks it. -/
theorem onePerPattern_run (hpow : ∃ k, cfg.PKTSTORESIZE = 2 ^ k) {mem : RawMemory} {s : Storing}
    (h : ReflTransGen (fun s s' => StoreStep cfg H s s' ∧ s.Merges cfg) (Storing.start mem) s) :
    OnePerPattern cfg s.ps s.fps ∧
      ∀ s', StoreStep cfg H s s' → (OnePerPattern cfg s'.ps s'.fps ↔ s.Merges cfg) := by
  have hstored : ∀ {s}, ReflTransGen (fun s s' => StoreStep cfg H s s' ∧ s.Merges cfg)
      (Storing.start mem) s → Stored cfg H s :=
    fun hrun => ⟨mem, hrun.lift id fun _ _ hstep => hstep.1⟩
  have hone : OnePerPattern cfg s.ps s.fps := by
    induction h with
    | refl =>
      intro fpHash pos pos' fp str hshows
      exact absurd hshows.live (Nat.lt_irrefl 0)
    | tail hrun hstep ih =>
      have hreached := hstored hrun
      exact (hstep.1.onePerPattern_iff hpow hreached.ok (hreached.holds hpow) ih).mpr hstep.2
  refine ⟨hone, fun s' hstep => ?_⟩
  exact hstep.onePerPattern_iff hpow (hstored h).ok ((hstored h).holds hpow) hone

end Pattern

/-! ### A packet that is registered twice -/

/-- A box with a ring of two packets. -/
def twoSlots : Config := ⟨1500, 2, 256, 8, false⟩

theorem twoSlots_stores : twoSlots.Stores :=
  ⟨⟨1, rfl⟩, ⟨8, rfl⟩, by decide, by decide, by decide⟩

theorem Storing.merges_idle {s : Storing} (cfg : Config) (h : s.pktFps = []) : s.Merges cfg := by
  intro f pktFps hcons
  rw [h] at hcons
  cases hcons

theorem shows_of_map {cfg : Config} {ps : PktStore} {e : FPEntryB} {str : List UInt8}
    (hlive : 0 < e.pktId)
    (h : (getPkt cfg ps e.pktId).map (fun pkt => slice pkt.pkt e.offset BETA) = some str) :
    e.Shows cfg ps e.fp str := by
  obtain ⟨pkt, hget, hstr⟩ := Option.map_eq_some_iff.mp h
  exact ⟨hlive, rfl, pkt, hget, hstr⟩

/-- A dictionary that has stored one packet. -/
def onePacket : Storing := (Storing.start blank).storeEqual twoSlots 27 89548937358971648

theorem onePacket_entry :
    onePacket.fps 255 ⟨2, by decide⟩ = ⟨89548937358971648, 1, 0⟩ := by decide

/-- The same packet again: its entry is found, and updated. -/
theorem onePacket_merges : (onePacket.putEqual twoSlots 27 89548937358971648).Merges twoSlots := by
  intro f pktFps hcons
  cases hcons
  rintro ⟨str, hnew, -, -, hlost⟩
  have hbucket : hashFPStore twoSlots 89548937358971648 = 255 := by decide
  have hstring : (⟨89548937358971648, 2, 0⟩ : FPEntryB).Shows twoSlots
      (onePacket.putEqual twoSlots 27 89548937358971648).ps 89548937358971648
      (List.replicate 64 27) := shows_of_map (by decide) (by decide)
  obtain ⟨-, rfl⟩ := hstring.unique hnew
  refine hlost ⟨2, by decide⟩ (by decide) ?_
  rw [show (onePacket.putEqual twoSlots 27 89548937358971648).fps
    (hashFPStore twoSlots 89548937358971648) ⟨2, by decide⟩ = ⟨89548937358971648, 1, 0⟩ by
      rw [hbucket]; exact onePacket_entry]
  exact shows_of_map (by decide) (by decide)

/-- A packet that is stored twice has one entry. -/
theorem onePerPattern_again :
    (∃ k, twoSlots.PKTSTORESIZE = 2 ^ k) ∧
      OnePerPattern twoSlots (onePacket.storeEqual twoSlots 27 89548937358971648).ps
        (onePacket.storeEqual twoSlots 27 89548937358971648).fps := by
  have hempty : ((Storing.start blank).putEqual twoSlots 27 89548937358971648).Merges twoSlots := by
    rintro f pktFps - ⟨str, -, ⟨pos, hshows⟩, -, -⟩
    exact absurd hshows.live (Nat.lt_irrefl 0)
  have hrun : ReflTransGen (fun s s' => StoreStep twoSlots (fun _ => 0) s s' ∧ s.Merges twoSlots)
      (Storing.start blank) (onePacket.storeEqual twoSlots 27 89548937358971648) :=
    ReflTransGen.refl
      |>.tail ⟨Storing.putEqual_step rfl (by decide) fullRfp_27, Storing.merges_idle _ rfl⟩
      |>.tail ⟨Storing.storeEqual_step _ _ _ _, hempty⟩
      |>.tail ⟨Storing.putEqual_step rfl (by decide) fullRfp_27, Storing.merges_idle _ rfl⟩
      |>.tail ⟨Storing.storeEqual_step _ _ _ _, onePacket_merges⟩
  exact ⟨⟨1, rfl⟩, (onePerPattern_run ⟨1, rfl⟩ hrun).1⟩

/-- Two packets whose fingerprints share a bucket, two for another bucket, and the second one
twice more. -/
def sixPackets : Storing :=
  ((((((Storing.start blank).storeEqual twoSlots 27 89548937358971648).storeEqual
    twoSlots 54 179097874717943296).storeEqual twoSlots 26 1068350628788546048).storeEqual
    twoSlots 26 1068350628788546048).storeEqual twoSlots 54 179097874717943296).storeEqual
    twoSlots 54 179097874717943296

theorem sixPackets_stored : Stored twoSlots (fun _ => 0) sixPackets :=
  (((((Stored.storeEqual ⟨blank, .refl⟩ rfl (by decide) fullRfp_27).storeEqual rfl (by decide)
    fullRfp_54).storeEqual rfl (by decide) fullRfp_26).storeEqual rfl (by decide)
    fullRfp_26).storeEqual rfl (by decide) fullRfp_54).storeEqual rfl (by decide) fullRfp_54

/-- Both of the last two packets have an entry, as the expired one of the second stands in front
of that of the fifth. -/
theorem sixPackets_twice :
    ¬ ∀ (cfg : Config) (H : PacketHash) (s : Storing), cfg.Stores →
      cfg.shared_dictionary_mode = false → Stored cfg H s → OnePerPattern cfg s.ps s.fps := by
  intro hall
  have hone := hall twoSlots (fun _ => 0) sixPackets twoSlots_stores rfl sixPackets_stored 255
    ⟨1, by decide⟩ ⟨2, by decide⟩ 179097874717943296 (List.replicate 64 54)
  have hsixth : sixPackets.fps 255 ⟨1, by decide⟩ = ⟨179097874717943296, 6, 0⟩ := by decide
  have hfifth : sixPackets.fps 255 ⟨2, by decide⟩ = ⟨179097874717943296, 5, 0⟩ := by decide
  rw [hsixth, hfifth] at hone
  have hsame := hone (shows_of_map (by decide) (by decide))
    (shows_of_map (by decide) (by decide))
  exact absurd hsame (by decide)

end Solowan.Dictionary
