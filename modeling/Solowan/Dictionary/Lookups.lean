/-
What the lookup of a descriptor can find (`getFPhash`, `lib/dedup_common.c`).

`newDeduplicator` marks its entries as unused with the fingerprint `UINT64_MAX` and id 0, and
leaves the slots of the ring as the allocator returned them. `getFPcontent` asks for an id above
0; `getFPhash` does not. A peer that sends `UINT64_MAX` as the fingerprint finds an unused entry,
whose id leads to the slot 0 as long as the ring has not been filled once.

* `hitsStored_iff`: a lookup finds a packet that was stored, unless it is for that mark, the
  ring has not been filled, and the hash is what the slot 0 happens to hold.
-/

import Solowan.Dictionary.Registering

namespace Solowan.Dictionary

open Solowan.Memory

/-- What the lookup returns is the entry of a packet that was stored and has the hash. -/
def HitsStored (cfg : Config) (H : PacketHash) (s : Storing) (fp : UInt64) (hash : UInt32) :
    Prop :=
  ∀ e, getFPhash cfg s.fps s.ps fp hash = some e →
    0 < e.pktId ∧ ∃ slot, getPkt cfg s.ps e.pktId = some slot ∧ slot.hash = hash ∧
      ∃ p ∈ s.log, slot.Is H p

/-- The lookup is for the mark of an unused entry, which stands in its bucket, and the slot 0,
which id 0 leads to, has the hash. -/
structure MatchesUnused (cfg : Config) (s : Storing) (fp : UInt64) (hash : UInt32) : Prop where
  mark : fp = UINT64_MAX
  unused : ∃ pos, (s.fps (hashFPStore cfg fp) pos).fp = UINT64_MAX
  unfilled : s.ps.pktId ≤ cfg.PKTSTORESIZE
  leftover : (s.ps.pkts 0).hash = hash

section Lookup

variable {cfg : Config} {H : PacketHash} {s : Storing} {fp : UInt64} {hash : UInt32}

/-- An entry with the mark is empty. -/
theorem FPEntryB.Ok.empty_of_mark {e : FPEntryB} {log : Log} {fpHash : UInt32}
    (h : e.Ok cfg log fpHash) (hmark : e.fp = UINT64_MAX) : e.pktId = 0 := by
  by_contra hne
  exact (h.live (Nat.pos_of_ne_zero hne)).1 hmark

/-- **A lookup hits a packet that was stored** if and only if it does not match an unused
entry. -/
theorem hitsStored_iff (h : Stored cfg H s) (fp : UInt64) (hash : UInt32) :
    HitsStored cfg H s fp hash ↔ ¬ MatchesUnused cfg s fp hash := by
  have hok := h.ok
  constructor
  · rintro hhits ⟨rfl, ⟨pos, hmark⟩, hunfilled, hleft⟩
    have hget : getPkt cfg s.ps (s.fps (hashFPStore cfg UINT64_MAX) pos).pktId =
        some (s.ps.pkts 0) := by
      rw [(hok.fps _ pos).empty_of_mark hmark]
      exact getPkt_eq_some_iff.mpr ⟨Nat.zero_le _, by omega, by rw [Nat.zero_and]⟩
    obtain ⟨e, hfound⟩ := getFPhash_isSome hmark hget
    rw [hleft] at hfound
    obtain ⟨fpidx, -, rfl, hfp, -⟩ := getFPhash_some hfound
    have hlive := (hhits _ hfound).1
    rw [(hok.fps _ fpidx).empty_of_mark hfp] at hlive
    exact absurd hlive (Nat.lt_irrefl 0)
  · intro hno e hfound
    obtain ⟨fpidx, slot, rfl, hfp, hget, hhash⟩ := getFPhash_some hfound
    obtain ⟨-, hwin, hslot⟩ := getPkt_eq_some_iff.mp hget
    have hlive : 0 < (s.fps (hashFPStore cfg fp) fpidx).pktId := by
      by_cases hmark : fp = UINT64_MAX
      · -- The entry is empty, and the slot it leads to is the slot 0.
        exfalso
        have hzero := (hok.fps _ fpidx).empty_of_mark (hfp.trans hmark)
        rw [hzero, Nat.zero_and] at hslot
        refine hno ⟨hmark, ⟨fpidx, hfp.trans hmark⟩, by omega, ?_⟩
        rw [hslot]
        exact hhash
      · exact (hok.fps _ fpidx).pktId_pos hok.next (by rw [hfp]; exact hmark) hget
    obtain ⟨-, -, p, hp, -⟩ := (hok.fps _ fpidx).live hlive
    obtain ⟨q, hq, his⟩ := hok.slot _ hlive (packetAt_range hp).2
    rw [hslot] at his
    exact ⟨hlive, slot, hget, hhash, q, hq, his⟩

end Lookup

/-- The fingerprint of a packet leads to it. -/
theorem hitsStored_onePacket :
    Stored twoSlots (fun _ => 0) onePacket ∧
      HitsStored twoSlots (fun _ => 0) onePacket 89548937358971648 0 := by
  have hstored : Stored twoSlots (fun _ => 0) onePacket :=
    Stored.storeEqual ⟨blank, .refl⟩ rfl (by decide) fullRfp_27
  exact ⟨hstored, (hitsStored_iff hstored _ _).mpr fun hunused => absurd hunused.mark (by decide)⟩

/-- A fresh dictionary hands out its slot 0. -/
theorem unused_hit :
    ¬ ∀ (cfg : Config) (H : PacketHash) (s : Storing) (fp : UInt64) (hash : UInt32), cfg.Stores →
      cfg.shared_dictionary_mode = false → Stored cfg H s → HitsStored cfg H s fp hash := by
  intro hall
  have hhits := hall twoSlots (fun _ => 0) (Storing.start blank) UINT64_MAX 0 twoSlots_stores rfl
    ⟨blank, .refl⟩
  have hfound : getFPhash twoSlots (Storing.start blank).fps (Storing.start blank).ps UINT64_MAX 0 =
      some ⟨UINT64_MAX, 0, 0⟩ := by decide
  exact absurd (hhits _ hfound).1 (Nat.lt_irrefl 0)

end Solowan.Dictionary
