/-
The entries of the fingerprint store, and the counter for them (`putFP`, `lib/dedup_common.c`).

`putFP` counts an entry it puts at a free position, and counts nothing when it updates one. Nor
does it count the entries its first loop expires, so that the counter stays behind the table by
all that ever expired.

* `putFPs_counted`: the counter grows by the entries of the table and those that expire.
-/

import Mathlib.Algebra.Order.BigOperators.Group.Finset
import Mathlib.Data.Fintype.Card
import Solowan.Dictionary.Configure
import Solowan.Dictionary.Registering
import Solowan.Memory.Tally

namespace Solowan.Dictionary

open Solowan.Memory

/-! ### Counting the positions -/

/-- The positions of a bucket with `pktId > 0`. -/
def bucketEntries (fpp : FPEntry) : Nat :=
  ∑ fpidx : Fin PKTS_PER_FP, if 0 < (fpp fpidx).pktId then 1 else 0

/-- The positions of the fingerprint store with `pktId > 0`. -/
def fpEntries (cfg : Config) (fpStore : FPStore) : Nat :=
  ∑ fpHash ∈ Finset.range cfg.FPSTORESIZE, bucketEntries (fpStore (UInt32.ofNat fpHash))

/-- The entry is there, and the next `putFP` in its bucket for the packet `pktId` expires it. -/
def Stale (cfg : Config) (pktId : Nat) (e : FPEntryB) : Prop :=
  0 < e.pktId ∧ e.pktId + cfg.PKTSTORESIZE < pktId

instance (cfg : Config) (pktId : Nat) (e : FPEntryB) : Decidable (Stale cfg pktId e) :=
  inferInstanceAs (Decidable (_ ∧ _))

/-- The entries of a bucket that expire. -/
def bucketStale (cfg : Config) (pktId : Nat) (fpp : FPEntry) : Nat :=
  ∑ fpidx : Fin PKTS_PER_FP, if Stale cfg pktId (fpp fpidx) then 1 else 0

section Bucket

variable {cfg : Config} {fpp : FPEntry} {pktId : Nat} {pos : Fin PKTS_PER_FP} {e : FPEntryB}

theorem expire_pktId_pos : 0 < (expire cfg pktId e).pktId ↔ 0 < e.pktId ∧ ¬ Stale cfg pktId e := by
  unfold expire Stale
  split
  · simp only [Nat.lt_irrefl, false_iff]
    omega
  · omega

/-- Clearing a bucket takes away what is stale. -/
theorem bucketEntries_cleared (cfg : Config) (pktId : Nat) (fpp : FPEntry) :
    bucketEntries (cleared cfg pktId fpp) + bucketStale cfg pktId fpp = bucketEntries fpp := by
  rw [bucketEntries, bucketStale, bucketEntries, ← Finset.sum_add_distrib]
  refine Finset.sum_congr rfl fun fpidx _ => ?_
  rw [cleared]
  by_cases hstale : Stale cfg pktId (fpp fpidx)
  · rw [if_neg fun h => (expire_pktId_pos.mp h).2 hstale, if_pos hstale, if_pos hstale.1]
  · by_cases hlive : 0 < (fpp fpidx).pktId
    · rw [if_pos (expire_pktId_pos.mpr ⟨hlive, hstale⟩), if_neg hstale, if_pos hlive]
    · rw [if_neg fun h => hlive (expire_pktId_pos.mp h).1, if_neg hstale, if_neg hlive]

/-- A live entry written over another counts no more than before, over a free position it
counts one more. -/
theorem bucketEntries_update (he : 0 < e.pktId) :
    bucketEntries (Function.update fpp pos e) + (if 0 < (fpp pos).pktId then 1 else 0) =
      bucketEntries fpp + 1 := by
  have hchange := sum_change (s := Finset.univ) (i := pos)
    (f := fun fpidx => if 0 < (fpp fpidx).pktId then 1 else 0)
    (g := fun fpidx => if 0 < (Function.update fpp pos e fpidx).pktId then 1 else 0)
    (Finset.mem_univ pos) (fun j _ hj => by rw [Function.update_of_ne hj])
  rw [Function.update_self, if_pos he] at hchange
  exact hchange

theorem bucketStale_eq_zero_iff :
    bucketStale cfg pktId fpp = 0 ↔ ∀ fpidx, ¬ Stale cfg pktId (fpp fpidx) := by
  rw [bucketStale, Finset.sum_eq_zero_iff]
  constructor
  · intro h fpidx hstale
    have hzero := h fpidx (Finset.mem_univ fpidx)
    rw [if_pos hstale] at hzero
    exact absurd hzero (by decide)
  · intro h fpidx _
    exact if_neg (h fpidx)

theorem bucketStale_le (cfg : Config) (pktId : Nat) (fpp : FPEntry) :
    bucketStale cfg pktId fpp ≤ PKTS_PER_FP := by
  have hle := Finset.sum_le_card_nsmul Finset.univ
    (fun fpidx => if Stale cfg pktId (fpp fpidx) then 1 else 0) 1 fun fpidx _ => by
      split
      · exact Nat.le_refl 1
      · exact Nat.zero_le 1
  exact hle.trans (by decide)

end Bucket

/-! ### One call of `putFP` -/

section PutFP

variable {cfg : Config} {H : PacketHash} {ps : PktStore} {fps fps' : FPStore} {fpp : FPEntry}
  {currPktId : Nat} {f : FPEntryB} {pktFps : List FPEntryB} {log : Log} {entry : FPEntryB}

/-- The sizes of a fingerprint store, which is indexed with 32 bits. -/
structure Config.Indexed (cfg : Config) : Prop extends cfg.Stores where
  fpStore_lt : cfg.FPSTORESIZE < 4294967296

theorem Config.Indexed.hashFPStore_lt (h : cfg.Indexed) (fp : UInt64) :
    (hashFPStore cfg fp).toNat < cfg.FPSTORESIZE := by
  obtain ⟨k, hk⟩ := h.fpStore
  refine Dictionary.hashFPStore_lt hk ?_ ?_ fp
  · have hge := h.fpStore_ge
    rw [hk] at hge
    exact (Nat.pow_le_pow_iff_right (a := 2) (n := 8) (by decide)).mp hge
  · have hlt := h.fpStore_lt
    rw [hk] at hlt
    exact (Nat.pow_lt_pow_iff_right (a := 2) (m := 32) (by decide)).mp hlt

/-- A change of one bucket. -/
theorem fpEntries_change (hcfg : cfg.Indexed) (fp : UInt64)
    (h : ∀ fpHash, fpHash ≠ hashFPStore cfg fp → fps' fpHash = fps fpHash) :
    fpEntries cfg fps' + bucketEntries (fps (hashFPStore cfg fp)) =
      fpEntries cfg fps + bucketEntries (fps' (hashFPStore cfg fp)) := by
  have hlt := hcfg.hashFPStore_lt fp
  have hchange := sum_change (s := Finset.range cfg.FPSTORESIZE) (i := (hashFPStore cfg fp).toNat)
    (f := fun fpHash => bucketEntries (fps (UInt32.ofNat fpHash)))
    (g := fun fpHash => bucketEntries (fps' (UInt32.ofNat fpHash))) (Finset.mem_range.mpr hlt) ?_
  · rw [UInt32.ofNat_toNat] at hchange
    exact hchange
  · intro j hj hne
    have hsize := hcfg.fpStore_lt
    have hj := Finset.mem_range.mp hj
    rw [h]
    intro heq
    apply hne
    rw [← heq, UInt32.toNat_ofNat', Nat.mod_eq_of_lt (by omega)]

/-- Where a new entry goes, and what is counted for it: it replaces a live one, or it is one more
at a free position, or there is none. -/
theorem registerFP_entries (ps : PktStore) (fps : FPStore) (fpp : FPEntry) (entry : FPEntryB)
    (st : Statistics) (hentry : 0 < entry.pktId)
    (hlive : ∀ pos, (fpp pos).fp = entry.fp →
      sameString cfg ps (fpp pos) entry.pktId entry.offset = true → 0 < (fpp pos).pktId) :
    ∃ k fpp', registerFP cfg fps ps fpp (lastEmpty fpp) entry st =
        (Function.update fps (hashFPStore cfg entry.fp) fpp',
          (registerFP cfg fps ps fpp (lastEmpty fpp) entry st).2) ∧
      (registerFP cfg fps ps fpp (lastEmpty fpp) entry st).2.numOfFPEntries =
        st.numOfFPEntries + UInt64.ofNat k ∧
      bucketEntries fpp' = bucketEntries fpp + k ∧
      ∀ pos, fpp' pos = fpp pos ∨ fpp' pos = entry := by
  have hcase : ∀ pos p, Function.update fpp pos entry p = fpp p ∨
      Function.update fpp pos entry p = entry := by
    intro pos p
    by_cases hp : p = pos
    · rw [hp, Function.update_self]
      exact Or.inr rfl
    · rw [Function.update_of_ne hp]
      exact Or.inl rfl
  have hfree : ∀ pos, lastEmpty fpp = some pos →
      bucketEntries (Function.update fpp pos entry) = bucketEntries fpp + 1 := by
    intro pos hpos
    have hcount : _ + (if 0 < (fpp pos).pktId then 1 else 0) = bucketEntries fpp + 1 :=
      bucketEntries_update hentry
    rw [lastEmpty_some hpos, if_neg (Nat.lt_irrefl 0)] at hcount
    exact hcount
  unfold registerFP
  dsimp only
  split
  · split
    · rename_i pos hpos
      exact ⟨1, _, rfl, rfl, hfree pos hpos, hcase pos⟩
    · exact ⟨0, fpp, rfl, (UInt64.add_zero _).symm, rfl, fun _ => Or.inl rfl⟩
  · rename_i fpidx hfind
    split
    · rename_i hsame
      have hfp : (fpp fpidx).fp = entry.fp := by simpa using findBkt_some hfind
      have hcount : _ + (if 0 < (fpp fpidx).pktId then 1 else 0) = bucketEntries fpp + 1 :=
        bucketEntries_update hentry
      rw [if_pos (hlive fpidx hfp hsame)] at hcount
      exact ⟨0, _, rfl, (UInt64.add_zero _).symm, Nat.succ.inj hcount, hcase fpidx⟩
    · split
      · rename_i pos hpos
        exact ⟨1, _, rfl, rfl, hfree pos hpos, hcase pos⟩
      · exact ⟨0, fpp, rfl, (UInt64.add_zero _).symm, rfl, fun _ => Or.inl rfl⟩

/-- **One call**: the counter grows by what the table grows by and what expires. -/
theorem putFP_counted (hcfg : cfg.Indexed)
    (h : (⟨ps, fps, currPktId, f :: pktFps, log⟩ : Storing).Ok cfg H) (st : Statistics) :
    ∃ k, (putFP cfg fps ps f.fp currPktId f.offset st).2.numOfFPEntries =
        st.numOfFPEntries + UInt64.ofNat k ∧
      fpEntries cfg (putFP cfg fps ps f.fp currPktId f.offset st).1 +
          bucketStale cfg currPktId (fps (hashFPStore cfg f.fp)) = fpEntries cfg fps + k ∧
      (∀ fpHash, fpHash ≠ hashFPStore cfg f.fp →
        (putFP cfg fps ps f.fp currPktId f.offset st).1 fpHash = fps fpHash) ∧
      ∀ fpidx, ¬ Stale cfg currPktId
        ((putFP cfg fps ps f.fp currPktId f.offset st).1 (hashFPStore cfg f.fp) fpidx) := by
  obtain ⟨hid, p, hp, hsel⟩ := h.pktFps f List.mem_cons_self
  have hnext := h.next
  have hpos : 0 < currPktId := by
    dsimp only at hid
    rw [hid]
    exact (packetAt_range hp).1
  have hlive : ∀ pos, (cleared cfg currPktId (fps (hashFPStore cfg f.fp)) pos).fp = f.fp →
      sameString cfg ps (cleared cfg currPktId (fps (hashFPStore cfg f.fp)) pos) currPktId
        f.offset = true → 0 < (cleared cfg currPktId (fps (hashFPStore cfg f.fp)) pos).pktId := by
    intro pos hfp hsame
    have hok := (h.fps (hashFPStore cfg f.fp) pos).expire (Nat.le_of_eq hid)
    obtain ⟨pkt, hget⟩ : ∃ pkt, getPkt cfg ps
        (cleared cfg currPktId (fps (hashFPStore cfg f.fp)) pos).pktId = some pkt := by
      unfold sameString at hsame
      split at hsame
      · rename_i pkt _ hpkt
        exact ⟨_, hpkt⟩
      · cases hsame
    exact hok.pktId_pos hnext (by rw [← cleared, hfp]; exact hsel.2) hget
  obtain ⟨k, fpp', hput, hcount, hbucket, hentries⟩ := registerFP_entries ps fps
    (cleared cfg currPktId (fps (hashFPStore cfg f.fp))) ⟨f.fp, currPktId, f.offset⟩ st hpos hlive
  have hfst : (putFP cfg fps ps f.fp currPktId f.offset st).1 =
      Function.update fps (hashFPStore cfg f.fp) fpp' := congrArg Prod.fst hput
  have hother : ∀ fpHash, fpHash ≠ hashFPStore cfg f.fp →
      (putFP cfg fps ps f.fp currPktId f.offset st).1 fpHash = fps fpHash := by
    intro fpHash hne
    rw [hfst, Function.update_of_ne hne]
  refine ⟨k, hcount, ?_, hother, ?_⟩
  · have hchange := fpEntries_change hcfg f.fp hother
    have hcleared := bucketEntries_cleared cfg currPktId (fps (hashFPStore cfg f.fp))
    rw [hfst, Function.update_self] at hchange
    rw [hfst]
    omega
  · intro fpidx
    rw [hfst, Function.update_self]
    rcases hentries fpidx with hold | hnew
    · rw [hold]
      rintro ⟨hlive', hstale⟩
      rw [cleared] at hlive' hstale
      rw [expire_of_pos hlive'] at hstale
      exact (expire_pktId_pos.mp hlive').2 ⟨(expire_pktId_pos.mp hlive').1, hstale⟩
    · rw [hnew]
      rintro ⟨-, hstale⟩
      dsimp only at hstale
      omega

/-- **The loop over the fingerprints of a packet**: what expires is what is stale in the buckets
of the fingerprints when it starts. -/
theorem putFPs_counted (hcfg : cfg.Indexed)
    (h : (⟨ps, fps, currPktId, pktFps, log⟩ : Storing).Ok cfg H) (st : Statistics) :
    ∃ k expired, (putFPs cfg ps currPktId pktFps.reverse fps st).2.numOfFPEntries =
        st.numOfFPEntries + UInt64.ofNat k ∧
      fpEntries cfg (putFPs cfg ps currPktId pktFps.reverse fps st).1 + expired =
        fpEntries cfg fps + k ∧
      expired ≤ pktFps.length * PKTS_PER_FP ∧
      (expired = 0 ↔ ∀ f ∈ pktFps, ∀ fpidx,
        ¬ Stale cfg currPktId (fps (hashFPStore cfg f.fp) fpidx)) := by
  rw [putFPs, List.reverse_reverse]
  induction pktFps generalizing fps st with
  | nil => exact ⟨0, 0, (UInt64.add_zero _).symm, rfl, Nat.zero_le _, by simp⟩
  | cons f pktFps ih =>
    obtain ⟨k, hcount, hentries, hother, hfresh⟩ := putFP_counted hcfg h st
    obtain ⟨k', expired, hcount', hentries', hle, hzero⟩ :=
      ih (h.putFP st) (putFP cfg fps ps f.fp currPktId f.offset st).2
    have hbucket := bucketStale_le cfg currPktId (fps (hashFPStore cfg f.fp))
    rw [Prod.mk.eta] at hcount' hentries'
    rw [List.foldl_cons]
    dsimp only
    refine ⟨k + k', bucketStale cfg currPktId (fps (hashFPStore cfg f.fp)) + expired, ?_, ?_, ?_,
      ?_⟩
    · rw [hcount', hcount, UInt64.ofNat_add, UInt64.add_assoc]
    · omega
    · rw [List.length_cons, Nat.succ_mul]
      omega
    · rw [Nat.add_eq_zero_iff, bucketStale_eq_zero_iff, hzero, List.forall_mem_cons]
      refine and_congr_right fun hfirst => forall₂_congr fun g _ => ?_
      by_cases hsame : hashFPStore cfg g.fp = hashFPStore cfg f.fp
      · rw [hsame]
        exact iff_of_true hfresh hfirst
      · rw [hother _ hsame]

end PutFP

end Solowan.Dictionary
