/-
What storing a packet in a shared dictionary overwrites (`lib/dedup_common.c`).

A fingerprint goes to a free position of its bucket, and where there is none it is counted
as a collision: so it is in `putFP`, and so the comment in `putPktAndFPsComp` says. But the
free position is kept in a variable while the loop moves on to the next fingerprint, so
that a full bucket loses the entry that stands at the position found in another bucket.

* `putPktAndFPs_keepsLive_iff`: a call leaves every live entry of other fingerprints alone if
  and only if no step finds its bucket full, needs an entry and has a position carried over
  with a live entry.
* `keepsLive_iff`: what that asks of the dictionary before the call. The condition, `Harmless`,
  is enough for every packet, and needed where the fingerprints fall into different buckets.
-/

import Mathlib.Data.Finset.Card
import Mathlib.Data.Fintype.Card
import Mathlib.Data.List.FinRange
import Solowan.Dictionary.Shared

namespace Solowan.Dictionary

open Solowan.Memory

/-! ### Dictionaries that calls produce -/

/-- The two dictionaries of a box after any sequence of stored packets. -/
inductive SharedReachable (cfg : Config) (H : PacketHash) : SharedDictionaries → Prop where
  | init (memComp memDesc : RawMemory) : SharedReachable cfg H (initDictionary memComp memDesc)
  | comp {g : SharedDictionaries} {pkt : List UInt8} (h : SharedReachable cfg H g)
      (hlen : BETA ≤ pkt.length) (hsize : pkt.length ≤ cfg.MAXPKTSIZE) :
      SharedReachable cfg H (putPktAndFPsComp cfg g pkt (H pkt) (calculateRelevantFPs cfg pkt))
  | desc {g : SharedDictionaries} {pkt : List UInt8} (h : SharedReachable cfg H g)
      (hlen : BETA ≤ pkt.length) (hsize : pkt.length ≤ cfg.MAXPKTSIZE) :
      SharedReachable cfg H (putPktAndFPsDesc cfg g pkt (H pkt) (calculateRelevantFPs cfg pkt))

/-- Every entry is for a packet that has been stored. -/
def Deduplicator.Issued (dict : Deduplicator) : Prop :=
  ∀ fpHash fpidx, (dict.fps fpHash fpidx).pktId < dict.ps.pktId

/-! ### The free position -/

section Positions

variable {cfg : Config} {ps : PktStore} {fps : FPStore} {fpp : FPEntry} {entry : FPEntryB}

/-- The fingerprint needs an entry of its own: the first entry with it, if there is one,
shows another string. -/
def NeedsEntry (cfg : Config) (ps : PktStore) (fpp : FPEntry) (entry : FPEntryB) : Prop :=
  ∀ fpidx, findBkt fpp (fun e => e.fp == entry.fp) = some fpidx →
    sameString cfg ps (fpp fpidx) entry.pktId entry.offset = false

theorem expire_of_pos {pktId : Nat} {e : FPEntryB} (h : 0 < (expire cfg pktId e).pktId) :
    expire cfg pktId e = e := by
  unfold expire at h ⊢
  split
  · rename_i hold
    rw [if_pos hold] at h
    exact absurd h (Nat.lt_irrefl 0)
  · rfl

/-- What the loop over the positions does: it finds an empty one, or it leaves a full bucket
and the position that was carried over. -/
theorem clearExpired_cases (cfg : Config) (pktId : Nat) (todo : List (Fin PKTS_PER_FP))
    (fpp : FPEntry) (carried : Option (Fin PKTS_PER_FP)) :
    (∃ pos, (clearExpired cfg pktId todo fpp carried).2 = some pos ∧
        ((clearExpired cfg pktId todo fpp carried).1 pos).pktId = 0) ∨
      (∀ pos ∈ todo, 0 < (expire cfg pktId (fpp pos)).pktId) ∧
        clearExpired cfg pktId todo fpp carried = (fpp, carried) := by
  induction todo with
  | nil => exact Or.inr ⟨fun _ hpos => absurd hpos List.not_mem_nil, rfl⟩
  | cons pos todo ih =>
    rw [clearExpired]
    by_cases hzero : (expire cfg pktId (fpp pos)).pktId = 0
    · rw [if_pos (by rw [Function.update_self]; exact hzero)]
      refine Or.inl ⟨pos, rfl, ?_⟩
      dsimp only
      rw [Function.update_self]
      exact hzero
    · have hpos : 0 < (expire cfg pktId (fpp pos)).pktId := Nat.pos_of_ne_zero hzero
      rw [if_neg (by rw [Function.update_self]; exact hzero), expire_of_pos hpos,
        Function.update_eq_self]
      rcases ih with hfound | ⟨hfull, hkept⟩
      · exact Or.inl hfound
      · refine Or.inr ⟨fun q hq => ?_, hkept⟩
        rcases List.mem_cons.mp hq with rfl | hq
        · exact hpos
        · exact hfull q hq

/-- The loop only ever expires entries. -/
theorem clearExpired_apply (cfg : Config) (pktId : Nat) (todo : List (Fin PKTS_PER_FP))
    (fpp : FPEntry) (carried : Option (Fin PKTS_PER_FP)) (fpidx : Fin PKTS_PER_FP) :
    (clearExpired cfg pktId todo fpp carried).1 fpidx = fpp fpidx ∨
      (clearExpired cfg pktId todo fpp carried).1 fpidx = expire cfg pktId (fpp fpidx) := by
  induction todo with
  | nil => exact Or.inl rfl
  | cons pos todo ih =>
    rw [clearExpired]
    by_cases hzero : (expire cfg pktId (fpp pos)).pktId = 0
    · rw [if_pos (by rw [Function.update_self]; exact hzero)]
      by_cases heq : fpidx = pos
      · subst heq
        exact Or.inr (Function.update_self ..)
      · exact Or.inl (Function.update_of_ne heq ..)
    · rw [if_neg (by rw [Function.update_self]; exact hzero),
        expire_of_pos (Nat.pos_of_ne_zero hzero), Function.update_eq_self]
      exact ih

/-- A fingerprint that needs an entry gets the free position, if there is one. -/
theorem registerFP_needs (h : NeedsEntry cfg ps fpp entry) (emptyPos : Option (Fin PKTS_PER_FP))
    (st : Statistics) : (registerFP cfg fps ps fpp emptyPos entry st).1 =
      Function.update fps (hashFPStore cfg entry.fp)
        (emptyPos.elim fpp fun pos => Function.update fpp pos entry) := by
  unfold registerFP
  dsimp only
  cases hfind : findBkt fpp (fun e => e.fp == entry.fp) with
  | none =>
    cases emptyPos with
    | none => rfl
    | some pos => rfl
  | some fpidx =>
    dsimp only
    rw [h fpidx hfind, if_neg (by decide)]
    cases emptyPos with
    | none => rfl
    | some pos => rfl

/-- Otherwise it goes over the entry it already has. -/
theorem registerFP_updates (fps : FPStore) (h : ¬ NeedsEntry cfg ps fpp entry)
    (emptyPos : Option (Fin PKTS_PER_FP)) (st : Statistics) :
    ∃ pos, findBkt fpp (fun e => e.fp == entry.fp) = some pos ∧
      sameString cfg ps (fpp pos) entry.pktId entry.offset = true ∧
      (registerFP cfg fps ps fpp emptyPos entry st).1 =
        Function.update fps (hashFPStore cfg entry.fp) (Function.update fpp pos entry) := by
  unfold NeedsEntry at h
  push Not at h
  obtain ⟨pos, hfind, hsame⟩ := h
  refine ⟨pos, hfind, by simpa using hsame, ?_⟩
  unfold registerFP
  dsimp only
  rw [hfind]
  dsimp only
  rw [if_pos (by simpa using hsame)]

end Positions

/-! ### One fingerprint -/

/-- What a call that stores a packet under `pktId` must leave alone: a live entry whose packet
is still found after the call, for a fingerprint that is not among `fpa`. -/
def FPEntryB.Protected (e : FPEntryB) (cfg : Config) (pktId : Nat) (fpa : List FPEntryB) : Prop :=
  0 < e.pktId ∧ pktId + 1 ≤ e.pktId + cfg.PKTSTORESIZE ∧ ∀ f ∈ fpa, f.fp ≠ e.fp

/-- The step for fingerprint `f` overwrites nothing that is protected: if its bucket is full
and it needs an entry, no position is carried over, or the entry there is not protected. -/
def StepKeeps (cfg : Config) (ps : PktStore) (fpa : List FPEntryB) (r : Registration)
    (f : FPEntryB) : Prop :=
  ∀ pos, (∀ fpidx, 0 < (expire cfg ps.pktId (r.fps (hashFPStore cfg f.fp) fpidx)).pktId) →
    NeedsEntry cfg ps (r.fps (hashFPStore cfg f.fp)) ⟨f.fp, ps.pktId, f.offset⟩ →
    r.emptyPos = some pos → ¬ (r.fps (hashFPStore cfg f.fp) pos).Protected cfg ps.pktId fpa

/-- No step of the call overwrites anything that is protected. -/
def CallKeeps (cfg : Config) (ps : PktStore) (fpa : List FPEntryB) :
    List FPEntryB → Registration → Prop
  | [], _ => True
  | f :: todo, r => StepKeeps cfg ps fpa r f ∧ CallKeeps cfg ps fpa todo (putSharedFP cfg ps r f)

section Step

variable {cfg : Config} {ps : PktStore} {fpa : List FPEntryB} {r : Registration} {f : FPEntryB}

theorem FPEntryB.Protected.expire {e : FPEntryB} (h : e.Protected cfg ps.pktId fpa) :
    Dictionary.expire cfg ps.pktId e = e := by
  have hwin := h.2.1
  unfold Dictionary.expire
  rw [if_neg (by omega)]

/-- Clearing a bucket leaves what is protected. -/
theorem FPEntryB.Protected.cleared {fpp : FPEntry} {fpidx : Fin PKTS_PER_FP}
    (h : (fpp fpidx).Protected cfg ps.pktId fpa) (todo : List (Fin PKTS_PER_FP))
    (carried : Option (Fin PKTS_PER_FP)) :
    (clearExpired cfg ps.pktId todo fpp carried).1 fpidx = fpp fpidx := by
  rcases clearExpired_apply cfg ps.pktId todo fpp carried fpidx with hkept | hexpired
  · exact hkept
  · rw [hexpired, h.expire]

/-- A step that keeps what is protected. -/
theorem putSharedFP_keeps (hf : f ∈ fpa) (hstep : StepKeeps cfg ps fpa r f) {fpHash : UInt32}
    {fpidx : Fin PKTS_PER_FP} (h : (r.fps fpHash fpidx).Protected cfg ps.pktId fpa) :
    (putSharedFP cfg ps r f).fps fpHash fpidx = r.fps fpHash fpidx := by
  unfold putSharedFP
  dsimp only
  by_cases hbucket : fpHash = hashFPStore cfg f.fp
  · subst hbucket
    have hkept := h.cleared (List.finRange PKTS_PER_FP) r.emptyPos
    have hcases := clearExpired_cases cfg ps.pktId (List.finRange PKTS_PER_FP)
      (r.fps (hashFPStore cfg f.fp)) r.emptyPos
    generalize clearExpired cfg ps.pktId (List.finRange PKTS_PER_FP)
      (r.fps (hashFPStore cfg f.fp)) r.emptyPos = cleared at *
    by_cases hneeds : NeedsEntry cfg ps cleared.1 ⟨f.fp, ps.pktId, f.offset⟩
    · rw [registerFP_needs hneeds, Function.update_self]
      cases hpos : cleared.2 with
      | none => exact hkept
      | some pos =>
        have hne : fpidx ≠ pos := by
          rintro rfl
          rcases hcases with ⟨pos, hpos', hzero⟩ | ⟨hfull, hsame⟩
          · -- A position that was found empty holds nothing that is protected.
            rw [hpos] at hpos'
            cases hpos'
            rw [hkept] at hzero
            exact absurd h.1 (by omega)
          · rw [hsame] at hneeds hpos
            exact hstep fpidx (fun q => hfull q (List.mem_finRange q)) hneeds hpos h
        rw [Option.elim_some, Function.update_of_ne hne]
        exact hkept
    · obtain ⟨pos, hfind, -, hstored⟩ := registerFP_updates r.fps hneeds cleared.2 r.st
      have hfp : (cleared.1 pos).fp = f.fp := by simpa using findBkt_some hfind
      have hne : fpidx ≠ pos := by
        rintro rfl
        rw [hkept] at hfp
        exact h.2.2 f hf hfp.symm
      rw [hstored, Function.update_self, Function.update_of_ne hne]
      exact hkept
  · obtain ⟨fpp', heq, -⟩ := registerFP_cases cfg r.fps ps
      (clearExpired cfg ps.pktId (List.finRange PKTS_PER_FP) (r.fps (hashFPStore cfg f.fp))
        r.emptyPos).1
      (clearExpired cfg ps.pktId (List.finRange PKTS_PER_FP) (r.fps (hashFPStore cfg f.fp))
        r.emptyPos).2 ⟨f.fp, ps.pktId, f.offset⟩ r.st
    rw [heq, Function.update_of_ne hbucket]

/-- A step that does not keep what is protected. -/
theorem putSharedFP_evicts (hstep : ¬ StepKeeps cfg ps fpa r f) :
    ∃ fpHash fpidx, (r.fps fpHash fpidx).Protected cfg ps.pktId fpa ∧
      ((putSharedFP cfg ps r f).fps fpHash fpidx).pktId = ps.pktId := by
  unfold StepKeeps at hstep
  push Not at hstep
  obtain ⟨pos, hfull, hneeds, hpos, hprotected⟩ := hstep
  refine ⟨_, pos, hprotected, ?_⟩
  have hsame : clearExpired cfg ps.pktId (List.finRange PKTS_PER_FP)
      (r.fps (hashFPStore cfg f.fp)) r.emptyPos = (r.fps (hashFPStore cfg f.fp), r.emptyPos) := by
    rcases clearExpired_cases cfg ps.pktId (List.finRange PKTS_PER_FP)
      (r.fps (hashFPStore cfg f.fp)) r.emptyPos with ⟨q, -, hzero⟩ | ⟨-, hsame⟩
    · exfalso
      have hlive := hfull q
      rcases clearExpired_apply cfg ps.pktId (List.finRange PKTS_PER_FP)
        (r.fps (hashFPStore cfg f.fp)) r.emptyPos q with hkept | hexpired
      · rw [expire_of_pos hlive, ← hkept] at hlive
        omega
      · rw [← hexpired] at hlive
        omega
    · exact hsame
  unfold putSharedFP
  dsimp only
  rw [hsame]
  dsimp only
  rw [hpos, registerFP_needs hneeds, Function.update_self, Option.elim_some, Function.update_self]

/-- Where the entries after a step come from. -/
theorem putSharedFP_origin (cfg : Config) (ps : PktStore) (r : Registration) (f : FPEntryB)
    (fpHash : UInt32) (fpidx : Fin PKTS_PER_FP) :
    (putSharedFP cfg ps r f).fps fpHash fpidx = r.fps fpHash fpidx ∨
      (putSharedFP cfg ps r f).fps fpHash fpidx = expire cfg ps.pktId (r.fps fpHash fpidx) ∨
      (putSharedFP cfg ps r f).fps fpHash fpidx = ⟨f.fp, ps.pktId, f.offset⟩ := by
  unfold putSharedFP
  dsimp only
  have hcleared := clearExpired_apply cfg ps.pktId (List.finRange PKTS_PER_FP)
    (r.fps (hashFPStore cfg f.fp)) r.emptyPos fpidx
  obtain ⟨fpp', heq, hcases⟩ := registerFP_cases cfg r.fps ps
    (clearExpired cfg ps.pktId (List.finRange PKTS_PER_FP) (r.fps (hashFPStore cfg f.fp))
      r.emptyPos).1
    (clearExpired cfg ps.pktId (List.finRange PKTS_PER_FP) (r.fps (hashFPStore cfg f.fp))
      r.emptyPos).2 ⟨f.fp, ps.pktId, f.offset⟩ r.st
  rw [heq]
  by_cases hbucket : fpHash = hashFPStore cfg f.fp
  · subst hbucket
    rw [Function.update_self]
    rcases hcases fpidx with hold | hnew
    · rw [hold]
      rcases hcleared with hkept | hexpired
      · exact Or.inl hkept
      · exact Or.inr (Or.inl hexpired)
    · exact Or.inr (Or.inr hnew)
  · exact Or.inl (by rw [Function.update_of_ne hbucket])

end Step

/-! ### A whole call -/

/-- A call that stores a packet with the fingerprints `fpa` and makes `dict'` of `dict` leaves
alone every live entry whose packet is still found and whose fingerprint is not in `fpa`. -/
def KeepsLive (cfg : Config) (dict dict' : Deduplicator) (fpa : List FPEntryB) : Prop :=
  ∀ fpHash fpidx, 0 < (dict.fps fpHash fpidx).pktId →
    (getPkt cfg dict'.ps (dict.fps fpHash fpidx).pktId).isSome = true →
    (∀ f ∈ fpa, f.fp ≠ (dict.fps fpHash fpidx).fp) →
    dict'.fps fpHash fpidx = dict.fps fpHash fpidx

section Call

variable {cfg : Config} {H : PacketHash} {ps : PktStore} {fpa todo : List FPEntryB}
  {r : Registration} {dict : Deduplicator}

theorem foldl_putSharedFP_keeps (hsub : ∀ f ∈ todo, f ∈ fpa) (h : CallKeeps cfg ps fpa todo r)
    {fpHash : UInt32} {fpidx : Fin PKTS_PER_FP}
    (hentry : (r.fps fpHash fpidx).Protected cfg ps.pktId fpa) :
    (todo.foldl (putSharedFP cfg ps) r).fps fpHash fpidx = r.fps fpHash fpidx := by
  induction todo generalizing r with
  | nil => rfl
  | cons f todo ih =>
    obtain ⟨hstep, hrest⟩ := h
    have hkept := putSharedFP_keeps (hsub f List.mem_cons_self) hstep hentry
    rw [List.foldl_cons, ih (fun g hg => hsub g (List.mem_cons_of_mem f hg)) hrest
      (by rw [hkept]; exact hentry), hkept]

/-- What a call has written stays its own. -/
theorem foldl_putSharedFP_own (cfg : Config) (todo : List FPEntryB) {fpHash : UInt32}
    {fpidx : Fin PKTS_PER_FP} (h : (r.fps fpHash fpidx).pktId = ps.pktId) :
    ((todo.foldl (putSharedFP cfg ps) r).fps fpHash fpidx).pktId = ps.pktId := by
  induction todo generalizing r with
  | nil => exact h
  | cons f todo ih =>
    rw [List.foldl_cons]
    apply ih
    rcases putSharedFP_origin cfg ps r f fpHash fpidx with hkept | hexpired | hnew
    · rw [hkept]
      exact h
    · rw [hexpired, expire, if_neg (by omega)]
      exact h
    · rw [hnew]

/-- What is protected at some step was there before the call: the call itself writes only
fingerprints of `fpa`. -/
theorem putSharedFP_protected {f : FPEntryB} (hf : f ∈ fpa) {fpHash : UInt32}
    {fpidx : Fin PKTS_PER_FP}
    (h : ((putSharedFP cfg ps r f).fps fpHash fpidx).Protected cfg ps.pktId fpa) :
    (putSharedFP cfg ps r f).fps fpHash fpidx = r.fps fpHash fpidx := by
  rcases putSharedFP_origin cfg ps r f fpHash fpidx with hkept | hexpired | hnew
  · exact hkept
  · rw [hexpired] at h ⊢
    exact expire_of_pos h.1
  · rw [hnew] at h
    exact absurd rfl (h.2.2 f hf)

/-- A call that leaves alone what was protected before it has kept it at every step. -/
theorem callKeeps_of_keeps {fps : FPStore} (hsub : ∀ f ∈ todo, f ∈ fpa)
    (hissued : ∀ fpHash fpidx, (fps fpHash fpidx).pktId < ps.pktId)
    (horigin : ∀ fpHash fpidx, (r.fps fpHash fpidx).Protected cfg ps.pktId fpa →
      r.fps fpHash fpidx = fps fpHash fpidx)
    (h : ∀ fpHash fpidx, (fps fpHash fpidx).Protected cfg ps.pktId fpa →
      (todo.foldl (putSharedFP cfg ps) r).fps fpHash fpidx = fps fpHash fpidx) :
    CallKeeps cfg ps fpa todo r := by
  induction todo generalizing r with
  | nil => exact trivial
  | cons f todo ih =>
    have hf := hsub f List.mem_cons_self
    refine ⟨?_, ih (fun g hg => hsub g (List.mem_cons_of_mem f hg)) ?_ h⟩
    · by_contra hstep
      obtain ⟨fpHash, fpidx, hprotected, hown⟩ := putSharedFP_evicts hstep
      have hsame := horigin fpHash fpidx hprotected
      rw [hsame] at hprotected
      have hfinal := foldl_putSharedFP_own cfg todo hown
      rw [List.foldl_cons] at h
      rw [h fpHash fpidx hprotected] at hfinal
      have hlt := hissued fpHash fpidx
      omega
    · intro fpHash fpidx hprotected
      have hsame := putSharedFP_protected hf hprotected
      rw [hsame] at hprotected ⊢
      exact horigin fpHash fpidx hprotected

theorem putPktAndFPs_keepsLive_iff (h : dict.Issued) (pkt : List UInt8) (hash : UInt32)
    (fpa : List FPEntryB) :
    KeepsLive cfg dict (putPktAndFPs cfg dict pkt hash fpa) fpa ↔
      CallKeeps cfg (overwrite cfg dict.ps pkt hash) fpa fpa
        ⟨dict.fps, dict.compStats, none⟩ := by
  have hprotected : ∀ fpHash fpidx,
      (dict.fps fpHash fpidx).Protected cfg (overwrite cfg dict.ps pkt hash).pktId fpa ↔
        0 < (dict.fps fpHash fpidx).pktId ∧
        (getPkt cfg (putPktAndFPs cfg dict pkt hash fpa).ps
          (dict.fps fpHash fpidx).pktId).isSome = true ∧
        ∀ f ∈ fpa, f.fp ≠ (dict.fps fpHash fpidx).fp := by
    intro fpHash fpidx
    have hissued := h fpHash fpidx
    refine and_congr_right fun _ => and_congr_left fun _ => ?_
    rw [getPkt_isSome_iff]
    exact (and_iff_right (Nat.le_succ_of_le (Nat.le_of_lt hissued))).symm
  constructor
  · intro hkeeps
    refine callKeeps_of_keeps (fun f hf => hf) h (fun _ _ _ => rfl) fun fpHash fpidx hentry => ?_
    obtain ⟨hlive, hfound, hother⟩ := (hprotected fpHash fpidx).mp hentry
    exact hkeeps fpHash fpidx hlive hfound hother
  · intro hcall fpHash fpidx hlive hfound hother
    exact foldl_putSharedFP_keeps (fun f hf => hf) hcall
      ((hprotected fpHash fpidx).mpr ⟨hlive, hfound, hother⟩)

/-- Storing a packet issues the ids of its entries. -/
theorem Deduplicator.Issued.store (h : dict.Issued) (pkt : List UInt8) (hash : UInt32)
    (fpa : List FPEntryB) : (putPktAndFPs cfg dict pkt hash fpa).Issued := by
  have hrun : ∀ (todo : List FPEntryB) (r : Registration),
      (∀ fpHash fpidx, (r.fps fpHash fpidx).pktId ≤ dict.ps.pktId) → ∀ fpHash fpidx,
        ((todo.foldl (putSharedFP cfg (overwrite cfg dict.ps pkt hash)) r).fps fpHash
          fpidx).pktId ≤ dict.ps.pktId := by
    intro todo
    induction todo with
    | nil => exact fun r hr => hr
    | cons f todo ih =>
      intro r hr
      refine ih _ fun fpHash fpidx => ?_
      rcases putSharedFP_origin cfg (overwrite cfg dict.ps pkt hash) r f fpHash fpidx with
        hkept | hexpired | hnew
      · rw [hkept]
        exact hr fpHash fpidx
      · rw [hexpired, expire]
        split
        · exact Nat.zero_le _
        · exact hr fpHash fpidx
      · rw [hnew]
        exact Nat.le_refl _
  intro fpHash fpidx
  exact Nat.lt_succ_of_le (hrun fpa _ (fun b k => Nat.le_of_lt (h b k)) fpHash fpidx)

theorem SharedReachable.issued {g : SharedDictionaries} (h : SharedReachable cfg H g) :
    g.comp.Issued ∧ g.desc.Issued := by
  induction h with
  | init memComp memDesc => exact ⟨fun _ _ => Nat.one_pos, fun _ _ => Nat.one_pos⟩
  | comp _ _ _ ih => exact ⟨ih.1.store _ _ _, ih.2⟩
  | desc _ _ _ ih => exact ⟨ih.1, ih.2.store _ _ _⟩

end Call

/-! ### The dictionary before the call -/

/-- The positions of a bucket that are empty, or expire when packet `pktId` is stored. -/
def free (cfg : Config) (pktId : Nat) (fpp : FPEntry) : Finset (Fin PKTS_PER_FP) :=
  Finset.univ.filter fun pos => (expire cfg pktId (fpp pos)).pktId = 0

/-- How many fingerprints of a list fall into a bucket. -/
def hits (cfg : Config) (fpa : List FPEntryB) (fpHash : UInt32) : Nat :=
  fpa.countP fun f => hashFPStore cfg f.fp == fpHash

/-- The bucket of `f` has more free positions than the fingerprints in front of `f` can take. -/
def Room (cfg : Config) (pktId : Nat) (fps : FPStore) (before : List FPEntryB) (f : FPEntryB) :
    Prop :=
  hits cfg before (hashFPStore cfg f.fp) < (free cfg pktId (fps (hashFPStore cfg f.fp))).card
  deriving Decidable

/-- The fingerprints `before` may leave the free position `pos` to the next one: it is free in
the bucket of one of them, those in front of that one are enough to take what is free in front
of `pos`, and none behind it has room in its bucket. -/
def Carries (cfg : Config) (pktId : Nat) (fps : FPStore) (before : List FPEntryB)
    (pos : Fin PKTS_PER_FP) : Prop :=
  ∃ first g between, before = first ++ g :: between ∧
    pos ∈ free cfg pktId (fps (hashFPStore cfg g.fp)) ∧
    ((free cfg pktId (fps (hashFPStore cfg g.fp))).filter (· < pos)).card ≤
      hits cfg first (hashFPStore cfg g.fp) ∧
    ∀ b₁ h b₂, between = b₁ ++ h :: b₂ → ¬ Room cfg pktId fps (first ++ g :: b₁) h

/-- Where a fingerprint of the packet may find its bucket full and need an entry, no position
that may be left over from another bucket holds an entry to be left alone. -/
def Harmless (cfg : Config) (dict : Deduplicator) (pkt : List UInt8) (hash : UInt32)
    (fpa : List FPEntryB) : Prop :=
  ∀ before f after, fpa = before ++ f :: after → ¬ Room cfg dict.ps.pktId dict.fps before f →
    (hits cfg before (hashFPStore cfg f.fp) = 0 → NeedsEntry cfg (overwrite cfg dict.ps pkt hash)
      (dict.fps (hashFPStore cfg f.fp)) ⟨f.fp, dict.ps.pktId, f.offset⟩) →
    ∀ pos, Carries cfg dict.ps.pktId dict.fps before pos →
      ¬ (dict.fps (hashFPStore cfg f.fp) pos).Protected cfg dict.ps.pktId fpa

/-- No two fingerprints of a list fall into one bucket. -/
def Apart (cfg : Config) (fpa : List FPEntryB) : Prop :=
  fpa.Pairwise fun f g => hashFPStore cfg f.fp ≠ hashFPStore cfg g.fp

section Free

variable {cfg : Config} {ps : PktStore} {fpp : FPEntry} {pktId : Nat} {pos : Fin PKTS_PER_FP}
  {r : Registration} {f : FPEntryB}

theorem mem_free : pos ∈ free cfg pktId fpp ↔ (expire cfg pktId (fpp pos)).pktId = 0 := by
  simp [free]

theorem expire_expire (cfg : Config) (pktId : Nat) (e : FPEntryB) :
    expire cfg pktId (expire cfg pktId e) = expire cfg pktId e := by
  unfold expire
  split
  · split <;> rfl
  · rfl

/-- The position that is left to the next fingerprint is the first free one of the bucket, if
there is one. -/
theorem clearExpired_snd (cfg : Config) (pktId : Nat) (todo : List (Fin PKTS_PER_FP))
    (fpp : FPEntry) (carried : Option (Fin PKTS_PER_FP)) :
    (clearExpired cfg pktId todo fpp carried).2 =
      (todo.find? fun pos => (expire cfg pktId (fpp pos)).pktId = 0).or carried := by
  induction todo with
  | nil => rfl
  | cons pos todo ih =>
    rw [clearExpired]
    by_cases hzero : (expire cfg pktId (fpp pos)).pktId = 0
    · rw [if_pos (by rw [Function.update_self]; exact hzero), List.find?_cons_of_pos (by simpa)]
      rfl
    · rw [if_neg (by rw [Function.update_self]; exact hzero),
        expire_of_pos (Nat.pos_of_ne_zero hzero), Function.update_eq_self,
        List.find?_cons_of_neg (by simpa), ih]

theorem putSharedFP_emptyPos (cfg : Config) (ps : PktStore) (r : Registration) (f : FPEntryB) :
    (putSharedFP cfg ps r f).emptyPos = ((List.finRange PKTS_PER_FP).find? fun pos =>
      (expire cfg ps.pktId (r.fps (hashFPStore cfg f.fp) pos)).pktId = 0).or r.emptyPos :=
  clearExpired_snd ..

/-- From a full bucket nothing is left. -/
theorem emptyPos_of_full (h : free cfg ps.pktId (r.fps (hashFPStore cfg f.fp)) = ∅) :
    (putSharedFP cfg ps r f).emptyPos = r.emptyPos := by
  have hnone : (List.finRange PKTS_PER_FP).find? (fun pos =>
      decide ((expire cfg ps.pktId (r.fps (hashFPStore cfg f.fp) pos)).pktId = 0)) = none := by
    refine List.find?_eq_none.mpr fun pos _ => ?_
    have hnot : pos ∉ free cfg ps.pktId (r.fps (hashFPStore cfg f.fp)) := by
      rw [h]
      exact Finset.notMem_empty pos
    rw [mem_free] at hnot
    simpa using hnot
  rw [putSharedFP_emptyPos, hnone, Option.none_or]

/-- From another bucket the first free position is left. -/
theorem emptyPos_eq_some_iff (h : (free cfg ps.pktId (r.fps (hashFPStore cfg f.fp))).Nonempty) :
    (putSharedFP cfg ps r f).emptyPos = some pos ↔
      pos ∈ free cfg ps.pktId (r.fps (hashFPStore cfg f.fp)) ∧
        ∀ q, q < pos → q ∉ free cfg ps.pktId (r.fps (hashFPStore cfg f.fp)) := by
  have hfound : (List.finRange PKTS_PER_FP).find? (fun pos =>
      decide ((expire cfg ps.pktId (r.fps (hashFPStore cfg f.fp) pos)).pktId = 0)) ≠ none := by
    obtain ⟨q, hq⟩ := h
    intro hnone
    have := List.find?_eq_none.mp hnone q (List.mem_finRange q)
    rw [mem_free] at hq
    simp [hq] at this
  have hor : (putSharedFP cfg ps r f).emptyPos = (List.finRange PKTS_PER_FP).find? fun pos =>
      (expire cfg ps.pktId (r.fps (hashFPStore cfg f.fp) pos)).pktId = 0 := by
    rw [putSharedFP_emptyPos]
    cases hf : (List.finRange PKTS_PER_FP).find? (fun pos =>
        decide ((expire cfg ps.pktId (r.fps (hashFPStore cfg f.fp) pos)).pktId = 0)) with
    | none => exact absurd hf hfound
    | some q => rfl
  rw [hor]
  simp only [mem_free]
  generalize r.fps (hashFPStore cfg f.fp) = fpp
  constructor
  · intro hsome
    obtain ⟨hpos, as, bs, hsplit, hbefore⟩ := List.find?_eq_some_iff_append.mp hsome
    refine ⟨by simpa using hpos, fun q hq => ?_⟩
    have hsorted := List.pairwise_lt_finRange PKTS_PER_FP
    have hmem := List.mem_finRange q
    rw [hsplit] at hsorted hmem
    rcases List.mem_append.mp hmem with hin | hin
    · simpa using hbefore q hin
    · rcases List.mem_cons.mp hin with heq | hin
      · exact absurd hq (by rw [heq]; exact lt_irrefl pos)
      · have hlater := (List.pairwise_cons.mp (List.pairwise_append.mp hsorted).2.1).1 q hin
        exact absurd hq (not_lt_of_gt hlater)
  · rintro ⟨hpos, hfirst⟩
    obtain ⟨as, bs, hsplit⟩ := List.append_of_mem (List.mem_finRange pos)
    refine List.find?_eq_some_iff_append.mpr ⟨by simpa using hpos, as, bs, hsplit, fun q hq => ?_⟩
    have hsorted := List.pairwise_lt_finRange PKTS_PER_FP
    rw [hsplit] at hsorted
    have hlt := (List.pairwise_append.mp hsorted).2.2 q hq pos List.mem_cons_self
    simpa using hfirst q hlt

/-- What a step does to the store: it clears the bucket of its fingerprint, and writes at most
one position there. -/
theorem putSharedFP_bucket (cfg : Config) (ps : PktStore) (r : Registration) (f : FPEntryB) :
    ∃ (cleared : FPEntry) (written : Option (Fin PKTS_PER_FP)),
      (∀ pos, cleared pos = r.fps (hashFPStore cfg f.fp) pos ∨
        cleared pos = expire cfg ps.pktId (r.fps (hashFPStore cfg f.fp) pos)) ∧
      (putSharedFP cfg ps r f).fps = Function.update r.fps (hashFPStore cfg f.fp)
        (written.elim cleared fun pos =>
          Function.update cleared pos ⟨f.fp, ps.pktId, f.offset⟩) := by
  have hcleared := clearExpired_apply cfg ps.pktId (List.finRange PKTS_PER_FP)
    (r.fps (hashFPStore cfg f.fp)) r.emptyPos
  unfold putSharedFP
  dsimp only
  generalize clearExpired cfg ps.pktId (List.finRange PKTS_PER_FP)
    (r.fps (hashFPStore cfg f.fp)) r.emptyPos = cleared at *
  by_cases hneeds : NeedsEntry cfg ps cleared.1 ⟨f.fp, ps.pktId, f.offset⟩
  · exact ⟨cleared.1, cleared.2, hcleared, registerFP_needs hneeds _ _⟩
  · obtain ⟨pos, -, -, hstored⟩ := registerFP_updates r.fps hneeds cleared.2 r.st
    exact ⟨cleared.1, some pos, hcleared, hstored⟩

/-- Only the bucket of the fingerprint loses a free position, and at most one. -/
theorem putSharedFP_free (hid : 0 < ps.pktId) (r : Registration) (f : FPEntryB)
    (fpHash : UInt32) :
    free cfg ps.pktId ((putSharedFP cfg ps r f).fps fpHash) ⊆ free cfg ps.pktId (r.fps fpHash) ∧
      (free cfg ps.pktId (r.fps fpHash) \
        free cfg ps.pktId ((putSharedFP cfg ps r f).fps fpHash)).card ≤ hits cfg [f] fpHash := by
  obtain ⟨cleared, written, hcleared, hstored⟩ := putSharedFP_bucket cfg ps r f
  rw [hstored]
  by_cases hbucket : fpHash = hashFPStore cfg f.fp
  · subst hbucket
    rw [Function.update_self]
    have hsame : ∀ pos, (expire cfg ps.pktId (cleared pos)).pktId =
        (expire cfg ps.pktId (r.fps (hashFPStore cfg f.fp) pos)).pktId := by
      intro pos
      rcases hcleared pos with h | h
      · rw [h]
      · rw [h, expire_expire]
    have hhits : hits cfg [f] (hashFPStore cfg f.fp) = 1 := by simp [hits]
    rw [hhits]
    cases written with
    | none =>
      have heq : free cfg ps.pktId cleared = free cfg ps.pktId (r.fps (hashFPStore cfg f.fp)) := by
        ext pos
        rw [mem_free, mem_free, hsame]
      rw [Option.elim_none, heq, Finset.sdiff_self]
      exact ⟨Finset.Subset.refl _, Nat.zero_le _⟩
    | some taken =>
      rw [Option.elim_some]
      have hnew : (expire cfg ps.pktId ⟨f.fp, ps.pktId, f.offset⟩).pktId ≠ 0 := by
        rw [expire, if_neg (by dsimp only; omega)]
        exact Nat.pos_iff_ne_zero.mp hid
      constructor
      · intro pos hpos
        rw [mem_free] at hpos ⊢
        by_cases heq : pos = taken
        · rw [heq, Function.update_self] at hpos
          exact absurd hpos hnew
        · rw [Function.update_of_ne heq, hsame] at hpos
          exact hpos
      · refine (Finset.card_le_card (t := {taken}) fun pos hpos => ?_).trans
          (Finset.card_singleton taken).le
        rw [Finset.mem_sdiff, mem_free, mem_free] at hpos
        rw [Finset.mem_singleton]
        by_contra hne
        rw [Function.update_of_ne hne, hsame] at hpos
        exact hpos.2 hpos.1
  · rw [Function.update_of_ne hbucket, Finset.sdiff_self]
    exact ⟨Finset.Subset.refl _, Nat.zero_le _⟩

end Free

/-! ### The call, fingerprint by fingerprint -/

/-- What the fingerprints `before` have made of the store `fps`. -/
structure Progress (cfg : Config) (ps : PktStore) (fps : FPStore) (before : List FPEntryB)
    (r : Registration) : Prop where
  free_subset : ∀ fpHash, free cfg ps.pktId (r.fps fpHash) ⊆ free cfg ps.pktId (fps fpHash)
  lost : ∀ fpHash, (free cfg ps.pktId (fps fpHash) \ free cfg ps.pktId (r.fps fpHash)).card ≤
    hits cfg before fpHash
  untouched : ∀ fpHash, hits cfg before fpHash = 0 → r.fps fpHash = fps fpHash
  carried : ∀ pos, r.emptyPos = some pos → Carries cfg ps.pktId fps before pos

section Progress

variable {cfg : Config} {ps : PktStore} {fps : FPStore} {before todo fpa : List FPEntryB}
  {r : Registration} {f : FPEntryB}

theorem hits_append (cfg : Config) (a b : List FPEntryB) (fpHash : UInt32) :
    hits cfg (a ++ b) fpHash = hits cfg a fpHash + hits cfg b fpHash :=
  List.countP_append

/-- A full bucket had no room. -/
theorem Progress.not_room (h : Progress cfg ps fps before r)
    (hfull : free cfg ps.pktId (r.fps (hashFPStore cfg f.fp)) = ∅) :
    ¬ Room cfg ps.pktId fps before f := by
  have hlost := h.lost (hashFPStore cfg f.fp)
  rw [hfull, Finset.sdiff_empty] at hlost
  exact Nat.not_lt.mpr hlost

theorem Progress.step (h : Progress cfg ps fps before r) (hid : 0 < ps.pktId) (f : FPEntryB) :
    Progress cfg ps fps (before ++ [f]) (putSharedFP cfg ps r f) := by
  have hfree : ∀ fpHash, free cfg ps.pktId ((putSharedFP cfg ps r f).fps fpHash) ⊆ _ ∧ _ :=
    putSharedFP_free hid r f
  refine ⟨?_, ?_, ?_, ?_⟩
  · intro fpHash
    exact (hfree fpHash).1.trans (h.free_subset fpHash)
  · intro fpHash
    rw [hits_append]
    refine le_trans (Finset.card_le_card ?_) ((Finset.card_union_le _ _).trans
      (Nat.add_le_add (h.lost fpHash) (hfree fpHash).2))
    intro pos hpos
    rw [Finset.mem_sdiff] at hpos
    rw [Finset.mem_union, Finset.mem_sdiff, Finset.mem_sdiff]
    by_cases hmid : pos ∈ free cfg ps.pktId (r.fps fpHash)
    · exact Or.inr ⟨hmid, hpos.2⟩
    · exact Or.inl ⟨hpos.1, hmid⟩
  · intro fpHash hzero
    rw [hits_append, Nat.add_eq_zero_iff] at hzero
    have hne : fpHash ≠ hashFPStore cfg f.fp := by
      rintro rfl
      simp [hits] at hzero
    obtain ⟨cleared, written, -, hstored⟩ := putSharedFP_bucket cfg ps r f
    rw [hstored, Function.update_of_ne hne]
    exact h.untouched fpHash hzero.1
  · intro pos hpos
    rcases (free cfg ps.pktId (r.fps (hashFPStore cfg f.fp))).eq_empty_or_nonempty with
      hfull | hsome
    · -- The position comes from a fingerprint further in front.
      rw [emptyPos_of_full hfull] at hpos
      obtain ⟨first, g, between, rfl, hin, hfront, hbetween⟩ := h.carried pos hpos
      refine ⟨first, g, between ++ [f], by simp, hin, hfront, ?_⟩
      intro b₁ x b₂ hsplit
      rcases List.append_eq_append_iff.mp hsplit with ⟨c, rfl, hc⟩ | ⟨c, rfl, hc⟩
      · cases c with
        | nil =>
          simp only [List.nil_append, List.cons.injEq] at hc
          rw [← hc.1, List.append_nil]
          exact h.not_room hfull
        | cons y c => simp at hc
      · cases c with
        | nil =>
          simp only [List.nil_append, List.cons.injEq] at hc
          rw [hc.1]
          simp only [List.append_nil] at h
          exact h.not_room hfull
        | cons y c =>
          cases hc
          exact hbetween b₁ x c rfl
    · obtain ⟨hin, hfirst⟩ := (emptyPos_eq_some_iff hsome).mp hpos
      refine ⟨before, f, [], rfl, h.free_subset _ hin, ?_, by simp⟩
      refine le_trans (Finset.card_le_card ?_) (h.lost _)
      intro q hq
      rw [Finset.mem_filter] at hq
      exact Finset.mem_sdiff.mpr ⟨hq.1, hfirst q hq.2⟩

/-- A run over some more fingerprints. -/
theorem Progress.foldl (h : Progress cfg ps fps before r) (hid : 0 < ps.pktId)
    (todo : List FPEntryB) :
    Progress cfg ps fps (before ++ todo) (todo.foldl (putSharedFP cfg ps) r) := by
  induction todo generalizing before r with
  | nil =>
    rw [List.append_nil]
    exact h
  | cons f todo ih =>
    have hrun := ih (h.step hid f)
    rw [List.append_assoc] at hrun
    exact hrun

theorem Progress.start (cfg : Config) (ps : PktStore) (fps : FPStore) (st : Statistics) :
    Progress cfg ps fps [] ⟨fps, st, none⟩ := by
  refine ⟨fun _ => Finset.Subset.refl _, ?_, fun _ _ => rfl, fun pos hpos => by cases hpos⟩
  intro fpHash
  rw [Finset.sdiff_self]
  exact Nat.zero_le _

/-- The steps of a call, each behind the ones before it. -/
theorem callKeeps_iff : CallKeeps cfg ps fpa todo r ↔ ∀ before f after,
    todo = before ++ f :: after → StepKeeps cfg ps fpa (before.foldl (putSharedFP cfg ps) r) f := by
  induction todo generalizing r with
  | nil =>
    refine iff_of_true trivial fun before f after h => ?_
    simp at h
  | cons g todo ih =>
    rw [CallKeeps, ih]
    constructor
    · rintro ⟨hstep, hrest⟩ before f after h
      cases before with
      | nil =>
        cases h
        exact hstep
      | cons b before =>
        cases h
        exact hrest before f after rfl
    · intro h
      exact ⟨h [] g todo rfl, fun before f after heq => h (g :: before) f after (by rw [heq]; rfl)⟩

/-- What is protected behind some fingerprints was there before the call. -/
theorem foldl_putSharedFP_protected (hsub : ∀ f ∈ todo, f ∈ fpa) {fpHash : UInt32}
    {pos : Fin PKTS_PER_FP}
    (h : ((todo.foldl (putSharedFP cfg ps) r).fps fpHash pos).Protected cfg ps.pktId fpa) :
    (todo.foldl (putSharedFP cfg ps) r).fps fpHash pos = r.fps fpHash pos := by
  induction todo generalizing r with
  | nil => rfl
  | cons f todo ih =>
    rw [List.foldl_cons] at h ⊢
    have hrest := ih (fun g hg => hsub g (List.mem_cons_of_mem f hg)) h
    rw [hrest] at h ⊢
    exact putSharedFP_protected (hsub f List.mem_cons_self) h

/-- Fingerprints in other buckets leave a position that is carried over as it is, if they find
their own buckets full. -/
theorem foldl_emptyPos {between : List FPEntryB} (hid : 0 < ps.pktId)
    (h : Progress cfg ps fps before r) (hapart : Apart cfg (before ++ between))
    (hfull : ∀ b₁ g b₂, between = b₁ ++ g :: b₂ → ¬ Room cfg ps.pktId fps (before ++ b₁) g) :
    (between.foldl (putSharedFP cfg ps) r).emptyPos = r.emptyPos := by
  induction between generalizing before r with
  | nil => rfl
  | cons g between ih =>
    have hzero : hits cfg before (hashFPStore cfg g.fp) = 0 := by
      refine List.countP_eq_zero.mpr fun f hf => ?_
      simpa using (List.pairwise_append.mp hapart).2.2 f hf g List.mem_cons_self
    have hempty : free cfg ps.pktId (r.fps (hashFPStore cfg g.fp)) = ∅ := by
      have hroom := hfull [] g between rfl
      rw [List.append_nil, Room, hzero, Nat.pos_iff_ne_zero, not_not, Finset.card_eq_zero]
        at hroom
      rw [h.untouched _ hzero, hroom]
    rw [List.foldl_cons, ih (h.step hid g) (by rw [List.append_assoc]; exact hapart),
      emptyPos_of_full hempty]
    intro b₁ x b₂ hsplit
    rw [List.append_assoc]
    exact hfull (g :: b₁) x b₂ (by rw [hsplit]; rfl)

/-- With every fingerprint in a bucket of its own, what may be carried over is carried over. -/
theorem emptyPos_of_carries (hid : 0 < ps.pktId) (hapart : Apart cfg before)
    {pos : Fin PKTS_PER_FP} (h : Carries cfg ps.pktId fps before pos) (st : Statistics) :
    (before.foldl (putSharedFP cfg ps) ⟨fps, st, none⟩).emptyPos = some pos := by
  obtain ⟨first, g, between, rfl, hin, hfront, hbetween⟩ := h
  have hprogress := (Progress.start cfg ps fps st).foldl hid first
  rw [List.nil_append] at hprogress
  have hzero : hits cfg first (hashFPStore cfg g.fp) = 0 := by
    refine List.countP_eq_zero.mpr fun f hf => ?_
    simpa using (List.pairwise_append.mp hapart).2.2 f hf g List.mem_cons_self
  have hsame := hprogress.untouched _ hzero
  rw [hzero, Nat.le_zero, Finset.card_eq_zero, Finset.filter_eq_empty_iff] at hfront
  have hleft : (putSharedFP cfg ps (first.foldl (putSharedFP cfg ps) ⟨fps, st, none⟩)
      g).emptyPos = some pos := by
    refine (emptyPos_eq_some_iff ⟨pos, by rw [hsame]; exact hin⟩).mpr ?_
    rw [hsame]
    exact ⟨hin, fun q hq hmem => hfront hmem hq⟩
  rw [List.foldl_append, List.foldl_cons, foldl_emptyPos hid (hprogress.step hid g)
    (by rw [List.append_assoc]; exact hapart), hleft]
  intro b₁ x b₂ hsplit
  rw [List.append_assoc]
  exact hbetween b₁ x b₂ hsplit

end Progress

section Before

variable {cfg : Config} {H : PacketHash} {dict : Deduplicator} {fpa : List FPEntryB}
  {g : SharedDictionaries}

/-- A harmless packet keeps what is protected at every step of its call. -/
theorem Harmless.callKeeps {pkt : List UInt8} {hash : UInt32} (hid : 0 < dict.ps.pktId)
    (h : Harmless cfg dict pkt hash fpa) (st : Statistics) :
    CallKeeps cfg (overwrite cfg dict.ps pkt hash) fpa fpa ⟨dict.fps, st, none⟩ := by
  refine callKeeps_iff.mpr fun before f after hsplit => ?_
  have hprogress := (Progress.start cfg (overwrite cfg dict.ps pkt hash) dict.fps st).foldl hid
    before
  rw [List.nil_append] at hprogress
  intro pos hfull hneeds hpos hprotected
  have hempty : free cfg (overwrite cfg dict.ps pkt hash).pktId
      ((before.foldl (putSharedFP cfg (overwrite cfg dict.ps pkt hash)) ⟨dict.fps, st, none⟩).fps
        (hashFPStore cfg f.fp)) = ∅ := by
    refine Finset.eq_empty_of_forall_notMem fun q hq => ?_
    have hzero := mem_free.mp hq
    have hlive := hfull q
    omega
  have hsame := foldl_putSharedFP_protected (fun x hx => by rw [hsplit]; simp [hx]) hprotected
  rw [hsame] at hprotected
  refine h before f after hsplit (hprogress.not_room hempty) (fun hzero => ?_) pos
    (hprogress.carried pos hpos) hprotected
  rw [hprogress.untouched _ hzero] at hneeds
  exact hneeds

/-- With every fingerprint in a bucket of its own, only a harmless packet does so. -/
theorem harmless_of_callKeeps {pkt : List UInt8} {hash : UInt32} (hid : 0 < dict.ps.pktId)
    (hapart : Apart cfg fpa) {st : Statistics}
    (h : CallKeeps cfg (overwrite cfg dict.ps pkt hash) fpa fpa ⟨dict.fps, st, none⟩) :
    Harmless cfg dict pkt hash fpa := by
  intro before f after hsplit hroom hneeds pos hcarries
  have hstep := callKeeps_iff.mp h before f after hsplit
  have hprogress := (Progress.start cfg (overwrite cfg dict.ps pkt hash) dict.fps st).foldl hid
    before
  rw [List.nil_append] at hprogress
  rw [hsplit] at hapart
  have happend := List.pairwise_append.mp hapart
  have hzero : hits cfg before (hashFPStore cfg f.fp) = 0 := by
    refine List.countP_eq_zero.mpr fun x hx => ?_
    simpa using happend.2.2 x hx f List.mem_cons_self
  have hid' : 0 < (overwrite cfg dict.ps pkt hash).pktId := hid
  have hcarried : (before.foldl (putSharedFP cfg (overwrite cfg dict.ps pkt hash))
      ⟨dict.fps, st, none⟩).emptyPos = some pos := emptyPos_of_carries hid' happend.1 hcarries st
  rw [StepKeeps, hprogress.untouched _ hzero] at hstep
  refine hstep pos (fun q => ?_) (hneeds hzero) hcarried
  rw [Room, hzero, Nat.pos_iff_ne_zero, not_not, Finset.card_eq_zero] at hroom
  have hnot : q ∉ free cfg dict.ps.pktId (dict.fps (hashFPStore cfg f.fp)) := by
    rw [hroom]
    exact Finset.notMem_empty q
  rw [mem_free] at hnot
  exact Nat.pos_of_ne_zero hnot

/-- Two fingerprints that both find room. -/
theorem harmless_of_room {f f' : FPEntryB} (pkt : List UInt8) (hash : UInt32)
    (hroom : Room cfg dict.ps.pktId dict.fps [] f) (hroom' : Room cfg dict.ps.pktId dict.fps [f] f') :
    Harmless cfg dict pkt hash [f, f'] := by
  intro before g after hsplit hfull
  rcases before with _ | ⟨b, _ | ⟨b', before⟩⟩
  · cases hsplit
    exact absurd hroom hfull
  · cases hsplit
    exact absurd hroom' hfull
  · simp at hsplit

theorem putPktAndFPs_harmless (cfg : Config) (h : dict.Issued) (pkt : List UInt8)
    (hash : UInt32) (fpa : List FPEntryB) :
    (Harmless cfg dict pkt hash fpa →
        KeepsLive cfg dict (putPktAndFPs cfg dict pkt hash fpa) fpa) ∧
      (Apart cfg fpa → KeepsLive cfg dict (putPktAndFPs cfg dict pkt hash fpa) fpa →
        Harmless cfg dict pkt hash fpa) := by
  have hid : 0 < dict.ps.pktId := Nat.lt_of_le_of_lt (Nat.zero_le _) (h 0 ⟨0, by decide⟩)
  rw [putPktAndFPs_keepsLive_iff h]
  exact ⟨fun hharmless => hharmless.callKeeps hid _, fun hapart => harmless_of_callKeeps hid hapart⟩

/-- **Storing a packet evicts no live entry** of another fingerprint unless a fingerprint that
may find its bucket full comes behind one that may leave it a position at which such an entry
stands. Where the fingerprints fall into different buckets, this is needed as well. -/
theorem keepsLive_iff (h : SharedReachable cfg H g) (pkt : List UInt8) :
    (Harmless cfg g.comp pkt (H pkt) (calculateRelevantFPs cfg pkt) ∧
        Harmless cfg g.desc pkt (H pkt) (calculateRelevantFPs cfg pkt) →
      KeepsLive cfg g.comp
          (putPktAndFPsComp cfg g pkt (H pkt) (calculateRelevantFPs cfg pkt)).comp
          (calculateRelevantFPs cfg pkt) ∧
        KeepsLive cfg g.desc
          (putPktAndFPsDesc cfg g pkt (H pkt) (calculateRelevantFPs cfg pkt)).desc
          (calculateRelevantFPs cfg pkt)) ∧
      (Apart cfg (calculateRelevantFPs cfg pkt) →
        KeepsLive cfg g.comp
            (putPktAndFPsComp cfg g pkt (H pkt) (calculateRelevantFPs cfg pkt)).comp
            (calculateRelevantFPs cfg pkt) ∧
          KeepsLive cfg g.desc
            (putPktAndFPsDesc cfg g pkt (H pkt) (calculateRelevantFPs cfg pkt)).desc
            (calculateRelevantFPs cfg pkt) →
        Harmless cfg g.comp pkt (H pkt) (calculateRelevantFPs cfg pkt) ∧
          Harmless cfg g.desc pkt (H pkt) (calculateRelevantFPs cfg pkt)) := by
  have hcomp := putPktAndFPs_harmless cfg h.issued.1 pkt (H pkt)
    (calculateRelevantFPs cfg pkt)
  have hdesc := putPktAndFPs_harmless cfg h.issued.2 pkt (H pkt)
    (calculateRelevantFPs cfg pkt)
  exact ⟨fun hboth => ⟨hcomp.1 hboth.1, hdesc.1 hboth.2⟩,
    fun hapart hboth => ⟨hcomp.2 hapart hboth.1, hdesc.2 hapart hboth.2⟩⟩

end Before

/-! ### A packet that evicts an entry -/

/-- Memory that was never written. -/
def blank : RawMemory := ⟨fun _ => ⟨ofList [], 0, 0⟩, fun _ _ => 0⟩

/-- A box with a ring of four packets. -/
def fourSlots (shared : Bool) : Config := ⟨1500, 4, 256, 8, shared⟩

theorem fourSlots_stores (shared : Bool) : (fourSlots shared).Stores :=
  ⟨⟨2, rfl⟩, ⟨8, rfl⟩, by simp [fourSlots], by simp [fourSlots], by decide +revert⟩

theorem calculateRelevantFPs_short (cfg : Config) {p : List UInt8} (h : p.length = BETA) :
    calculateRelevantFPs cfg p = [⟨fullRfp p, 0, 0⟩] := by
  rw [calculateRelevantFPs, if_pos (by omega)]

/-- Where one fingerprint is enough, it is the one of the first string. -/
theorem calculateRelevantFPs_one {cfg : Config} (h : cfg.FPPERPKT = 1) (packet : List UInt8) :
    calculateRelevantFPs cfg packet = [⟨fullRfp packet, 0, 0⟩] := by
  rw [calculateRelevantFPs]
  split
  · rfl
  · rename_i hlong
    obtain ⟨n, hn⟩ : ∃ n, packet.length - BETA = n + 1 := ⟨packet.length - BETA - 1, by omega⟩
    have hpass : ∀ mask fp0, (exploreFPs cfg packet mask (packet.length - BETA) BETA BETA fp0
        [⟨fullRfp packet, 0, 0⟩]).1 = [⟨fullRfp packet, 0, 0⟩] := by
      intro mask fp0
      -- The pass stops behind its first byte, which is too near to the string.
      have hnear : ¬ BETA < 2 := by decide
      rw [hn, exploreFPs]
      simp [hnear, h]
      split <;> rfl
    rw [show MAX_ITER = 3 + 1 from rfl, explorePasses, hpass, if_neg (by simp [h])]

/-- A packet of 64 equal bytes, stored with its fingerprint. -/
def storeEqual (g : SharedDictionaries) (b : UInt8) (fp : UInt64) : SharedDictionaries :=
  putPktAndFPsComp (fourSlots true) g (List.replicate 64 b) 0 [⟨fp, 0, 0⟩]

theorem storeEqual_reachable {g : SharedDictionaries} {b : UInt8} {fp : UInt64}
    (h : SharedReachable (fourSlots true) (fun _ => 0) g)
    (hfp : fullRfp (List.replicate 64 b) = fp) :
    SharedReachable (fourSlots true) (fun _ => 0) (storeEqual g b fp) := by
  have hlen : (List.replicate 64 b).length = 64 := List.length_replicate
  have hstored : SharedReachable (fourSlots true) (fun _ => 0) (putPktAndFPsComp (fourSlots true)
      g (List.replicate 64 b) 0 (calculateRelevantFPs (fourSlots true) (List.replicate 64 b))) :=
    .comp h hlen.ge (by rw [hlen]; decide)
  rw [calculateRelevantFPs_short _ hlen, hfp] at hstored
  exact hstored

/-- Two packets whose fingerprints share a bucket. -/
def twoInABucket : SharedDictionaries :=
  storeEqual (storeEqual (initDictionary blank blank) 26 1068350628788546048) 35 329585938170305280

/-- Three packets whose fingerprints share a bucket. -/
def threeInABucket : SharedDictionaries := storeEqual twoInABucket 152 1101938501594798080

theorem twoInABucket_reachable : SharedReachable (fourSlots true) (fun _ => 0) twoInABucket :=
  storeEqual_reachable (storeEqual_reachable (.init blank blank) (by decide +kernel))
    (by decide +kernel)

theorem threeInABucket_reachable : SharedReachable (fourSlots true) (fun _ => 0) threeInABucket :=
  storeEqual_reachable twoInABucket_reachable (by decide +kernel)

/-- A packet with two fingerprints, the second of which falls into that bucket. -/
def secondInBucket : List UInt8 := List.replicate 64 3 ++ List.replicate 33 6

theorem secondInBucket_fps : calculateRelevantFPs (fourSlots true) secondInBucket =
    [⟨522359439531817728, 0, 0⟩, ⟨359979365621696899, 0, 33⟩] := by decide +kernel

/-- With two packets in the bucket, both are still there behind that packet. -/
theorem twoInABucket_kept :
    (∀ pos : Fin PKTS_PER_FP, pos.val < 2 → 0 < (twoInABucket.comp.fps 237 pos).pktId) ∧
      KeepsLive (fourSlots true) twoInABucket.comp
        (putPktAndFPsComp (fourSlots true) twoInABucket secondInBucket 0
          (calculateRelevantFPs (fourSlots true) secondInBucket)).comp
        (calculateRelevantFPs (fourSlots true) secondInBucket) ∧
      KeepsLive (fourSlots true) twoInABucket.desc
        (putPktAndFPsDesc (fourSlots true) twoInABucket secondInBucket 0
          (calculateRelevantFPs (fourSlots true) secondInBucket)).desc
        (calculateRelevantFPs (fourSlots true) secondInBucket) := by
  refine ⟨by decide, (keepsLive_iff twoInABucket_reachable secondInBucket).1 ?_⟩
  rw [secondInBucket_fps]
  exact ⟨harmless_of_room _ _ (by decide) (by decide), harmless_of_room _ _ (by decide) (by decide)⟩

/-- The position that is free for its first fingerprint is taken for the second. -/
theorem threeInABucket_evicted :
    ¬ ∀ (cfg : Config) (H : PacketHash) (g : SharedDictionaries) (pkt : List UInt8), cfg.Stores →
      SharedReachable cfg H g → BETA ≤ pkt.length → pkt.length ≤ cfg.MAXPKTSIZE →
      KeepsLive cfg g.comp
          (putPktAndFPsComp cfg g pkt (H pkt) (calculateRelevantFPs cfg pkt)).comp
          (calculateRelevantFPs cfg pkt) ∧
        KeepsLive cfg g.desc
          (putPktAndFPsDesc cfg g pkt (H pkt) (calculateRelevantFPs cfg pkt)).desc
          (calculateRelevantFPs cfg pkt) := by
  intro hall
  have hkeeps := (hall (fourSlots true) (fun _ => 0) threeInABucket secondInBucket
    (fourSlots_stores true) threeInABucket_reachable (by decide) (by decide)).1 237 ⟨0, by decide⟩
  rw [secondInBucket_fps] at hkeeps
  have hbefore : threeInABucket.comp.fps 237 ⟨0, by decide⟩ = ⟨1068350628788546048, 1, 0⟩ := by
    decide
  have hafter : ((putPktAndFPsComp (fourSlots true) threeInABucket secondInBucket 0
      [⟨522359439531817728, 0, 0⟩, ⟨359979365621696899, 0, 33⟩]).comp.fps 237
        ⟨0, by decide⟩).pktId = 4 := by decide
  rw [hbefore] at hkeeps
  have hkept := hkeeps (by decide) (by decide) (by decide)
  exact absurd (hafter.symm.trans (congrArg FPEntryB.pktId hkept)) (by decide)

end Solowan.Dictionary
