/-
What a dictionary stands for: the log of the packets stored in it.

Packet `id` of a dictionary is the `id`-th packet that was ever stored. The packet
store keeps the last `PKTSTORESIZE` of them (`PktStore.Holds`) and the fingerprint
store is an index into the log (`FPStore.Sound`): a live entry names a packet of the
log and a string inside it, an empty one is unused or was expired, which happens only
once the ring is full. `Deduplicator.Represents` is the two together; it is the
relation between the code's memory and the log, and every operation is described by
what it does to the log.

The relation says nothing about the memory the code never wrote. `FPStore.Agree` is
equality of two fingerprint stores up to the offsets of unused entries, which are
part of that memory.
-/

import Solowan.Dictionary.Store

namespace Solowan.Dictionary

open Solowan.Memory

/-- The sizes of the stores under which the dictionary is operated: with others, buckets
and slots would be addressed outside the arrays that hold them. -/
structure Config.Stores (cfg : Config) : Prop where
  pktStore : ∃ k, cfg.PKTSTORESIZE = 2 ^ k
  fpStore : ∃ k, cfg.FPSTORESIZE = 2 ^ k
  fpStore_ge : 256 ≤ cfg.FPSTORESIZE
  fp_pos : 1 ≤ cfg.FPPERPKT
  fp_le : cfg.FPPERPKT ≤ MAX_FP_PER_PKT

/-- The parameter ranges under which the dictionary is operated. -/
structure Config.Valid (cfg : Config) : Prop extends cfg.Stores where
  size_le : cfg.MAXPKTSIZE ≤ 65534

/-- The packets stored in a dictionary since its creation, oldest first. -/
abbrev Log := List (List UInt8)

/-- The packet stored under `id`; ids start at 1. -/
def packetAt (log : Log) : Nat → Option (List UInt8)
  | 0 => none
  | i + 1 => log[i]?

section Ids

variable {log : Log} {id : Nat} {p q : List UInt8}

theorem packetAt_range (h : packetAt log id = some p) : 1 ≤ id ∧ id ≤ log.length := by
  cases id with
  | zero => simp [packetAt] at h
  | succ i =>
    have := (List.getElem?_eq_some_iff.mp h).1
    omega

theorem packetAt_mem (h : packetAt log id = some p) : p ∈ log := by
  cases id with
  | zero => simp [packetAt] at h
  | succ i => exact List.mem_of_getElem? h

theorem exists_packetAt (log : Log) (h : 1 ≤ id) (hle : id ≤ log.length) : ∃ p, packetAt log id = some p := by
  obtain ⟨i, rfl⟩ := Nat.exists_eq_add_of_le' h
  exact ⟨_, List.getElem?_eq_getElem (show i < log.length by omega)⟩

theorem packetAt_append (h : id ≤ log.length) : packetAt (log ++ [q]) id = packetAt log id := by
  cases id with
  | zero => rfl
  | succ i => exact List.getElem?_append_left (by omega)

theorem packetAt_append_some (h : packetAt log id = some p) :
    packetAt (log ++ [q]) id = some p := by
  rw [packetAt_append (packetAt_range h).2, h]

theorem packetAt_last (log : Log) (q : List UInt8) :
    packetAt (log ++ [q]) (log.length + 1) = some q := by
  simp [packetAt]

end Ids

/-! ### The ring -/

/-- Ids less than `PKTSTORESIZE` apart have different slots. -/
theorem slot_ne {cfg : Config} (hpow : ∃ k, cfg.PKTSTORESIZE = 2 ^ k) {id n : Nat} (hlt : id < n)
    (hnear : n < id + cfg.PKTSTORESIZE) :
    id &&& (cfg.PKTSTORESIZE - 1) ≠ n &&& (cfg.PKTSTORESIZE - 1) := by
  obtain ⟨k, hk⟩ := hpow
  rw [hk] at hnear ⊢
  rw [Nat.and_two_pow_sub_one_eq_mod, Nat.and_two_pow_sub_one_eq_mod]
  intro heq
  have hzero : (n - id) % 2 ^ k = 0 := Nat.sub_mod_eq_zero_of_mod_eq heq.symm
  rw [Nat.mod_eq_of_lt (by omega)] at hzero
  omega

/-- The packets that are found are those of the window, in their slots. -/
theorem getPkt_eq_some_iff {cfg : Config} {ps : PktStore} {id : Nat} {slot : PktEntry} :
    getPkt cfg ps id = some slot ↔ id ≤ ps.pktId ∧ ps.pktId ≤ id + cfg.PKTSTORESIZE ∧
      ps.pkts (id &&& (cfg.PKTSTORESIZE - 1)) = slot := by
  unfold getPkt
  split
  · rename_i hnew
    exact iff_of_false (by simp) (by omega)
  · split
    · rename_i hold
      exact iff_of_false (by simp) (by omega)
    · rename_i hnew hold
      rw [Option.some_inj]
      exact ⟨fun heq => ⟨by omega, by omega, heq⟩, fun h => h.2.2⟩

theorem getPkt_eq_none {cfg : Config} {ps : PktStore} {id : Nat}
    (h : id + cfg.PKTSTORESIZE < ps.pktId) : getPkt cfg ps id = none := by
  rw [Option.eq_none_iff_forall_ne_some]
  intro slot hget
  obtain ⟨-, hold, -⟩ := getPkt_eq_some_iff.mp hget
  omega

theorem getPkt_isSome_iff {cfg : Config} {ps : PktStore} {id : Nat} :
    (getPkt cfg ps id).isSome = true ↔ id ≤ ps.pktId ∧ ps.pktId ≤ id + cfg.PKTSTORESIZE := by
  rw [Option.isSome_iff_exists]
  constructor
  · rintro ⟨slot, hget⟩
    obtain ⟨hnew, hold, -⟩ := getPkt_eq_some_iff.mp hget
    exact ⟨hnew, hold⟩
  · rintro ⟨hnew, hold⟩
    exact ⟨_, getPkt_eq_some_iff.mpr ⟨hnew, hold, rfl⟩⟩

theorem one_le_size {cfg : Config} (hpow : ∃ k, cfg.PKTSTORESIZE = 2 ^ k) :
    1 ≤ cfg.PKTSTORESIZE := by
  obtain ⟨k, hk⟩ := hpow
  rw [hk]
  exact Nat.one_le_two_pow

/-- A slot that holds packet `p`. -/
structure PktEntry.Is (e : PktEntry) (H : PacketHash) (p : List UInt8) : Prop where
  len : e.len = p.length
  hash : e.hash = H p
  bytes : slice e.pkt 0 p.length = p

theorem PktEntry.Is.slice {e : PktEntry} {H : PacketHash} {p : List UInt8} (h : e.Is H p)
    {pos n : Nat} (hn : pos + n ≤ p.length) :
    Memory.slice e.pkt pos n = (p.drop pos).take n := by
  have := slice_sub (k := n) (i := pos) h.bytes hn
  simpa using this

/-- The packet store holds the packets of `log` that are still in the window. -/
structure PktStore.Holds (ps : PktStore) (cfg : Config) (H : PacketHash) (log : Log) : Prop where
  next : ps.pktId = log.length + 1
  slot : ∀ id p, packetAt log id = some p → log.length + 1 ≤ id + cfg.PKTSTORESIZE →
    (ps.pkts (id &&& (cfg.PKTSTORESIZE - 1))).Is H p

section Ring

variable {cfg : Config} {H : PacketHash} {ps : PktStore} {log : Log} {id : Nat} {p q : List UInt8}

/-- Packets in the window are found, in their slot. -/
theorem getPkt_some (h : ps.Holds cfg H log) (hp : packetAt log id = some p)
    (hwin : log.length + 1 ≤ id + cfg.PKTSTORESIZE) :
    ∃ e, getPkt cfg ps id = some e ∧ e.Is H p := by
  have hrange := packetAt_range hp
  have hnext := h.next
  exact ⟨_, getPkt_eq_some_iff.mpr ⟨by omega, by omega, rfl⟩, h.slot id p hp hwin⟩

/-- Packets that left the window are not found. -/
theorem getPkt_none (h : ps.Holds cfg H log)
    (hwin : id + cfg.PKTSTORESIZE < log.length + 1) : getPkt cfg ps id = none := by
  rw [← h.next] at hwin
  exact getPkt_eq_none hwin

/-- What is found under a stored id is the packet of the log. -/
theorem getPkt_inv (h : ps.Holds cfg H log) (hp : packetAt log id = some p) {e : PktEntry}
    (hget : getPkt cfg ps id = some e) :
    log.length + 1 ≤ id + cfg.PKTSTORESIZE ∧ e.Is H p := by
  obtain ⟨-, hwin, rfl⟩ := getPkt_eq_some_iff.mp hget
  rw [h.next] at hwin
  exact ⟨hwin, h.slot id p hp hwin⟩

theorem slot_memcpy_is (slot : PktEntry) (p : List UInt8) :
    (⟨memcpy slot.pkt 0 p, p.length, H p⟩ : PktEntry).Is H p :=
  ⟨rfl, rfl, slice_memcpy_self _ _ _⟩

/-- Storing a packet appends it to the log. -/
theorem putPkt_holds (hpow : ∃ k, cfg.PKTSTORESIZE = 2 ^ k) (h : ps.Holds cfg H log)
    (p : List UInt8) : (putPkt cfg ps p (H p)).1.Holds cfg H (log ++ [p]) := by
  have hlen : (log ++ [p]).length = log.length + 1 := by simp
  refine ⟨?_, ?_⟩
  · rw [hlen, putPkt, h.next]
  · intro id q hq hwin
    rw [hlen] at hwin
    have hrange := packetAt_range hq
    rw [hlen] at hrange
    show (Function.update ps.pkts (ps.pktId &&& (cfg.PKTSTORESIZE - 1)) _
      (id &&& (cfg.PKTSTORESIZE - 1))).Is H q
    rw [h.next]
    by_cases hid : id = log.length + 1
    · subst hid
      rw [packetAt_last] at hq
      cases hq
      rw [Function.update_self]
      exact slot_memcpy_is _ _
    · rw [packetAt_append (by omega)] at hq
      rw [Function.update_of_ne (slot_ne hpow (by omega) (by omega))]
      exact h.slot id q hq (by omega)

end Ring

/-! ### The index -/

/-- What an entry of bucket `fpHash` says about the log. -/
structure FPEntryB.Ok (e : FPEntryB) (cfg : Config) (log : Log) (fpHash : UInt32) : Prop where
  live : 0 < e.pktId → e.fp ≠ UINT64_MAX ∧ hashFPStore cfg e.fp = fpHash ∧
    ∃ p, packetAt log e.pktId = some p ∧ e.offset + BETA ≤ p.length
  empty : e.pktId = 0 → e.fp = UINT64_MAX ∨ cfg.PKTSTORESIZE < log.length

/-- Every entry of the fingerprint store is sound for the log. -/
def FPStore.Sound (fps : FPStore) (cfg : Config) (log : Log) : Prop :=
  ∀ fpHash fpidx, (fps fpHash fpidx).Ok cfg log fpHash

section Index

variable {cfg : Config} {H : PacketHash} {ps : PktStore} {fps : FPStore} {log : Log}
  {e : FPEntryB} {fpHash : UInt32}

theorem FPEntryB.Ok.append (h : e.Ok cfg log fpHash) (p : List UInt8) :
    e.Ok cfg (log ++ [p]) fpHash := by
  refine ⟨?_, ?_⟩
  · intro hlive
    obtain ⟨hfp, hbkt, q, hq, hoff⟩ := h.live hlive
    exact ⟨hfp, hbkt, q, packetAt_append_some hq, hoff⟩
  · intro hempty
    rcases h.empty hempty with hmax | hfull
    · exact Or.inl hmax
    · refine Or.inr ?_
      simp only [List.length_append, List.length_singleton]
      omega

theorem FPStore.Sound.append (h : fps.Sound cfg log) (p : List UInt8) :
    fps.Sound cfg (log ++ [p]) :=
  fun fpHash fpidx => (h fpHash fpidx).append p

/-- An entry with a real fingerprint whose packet is found is live. -/
theorem FPEntryB.Ok.pktId_pos (h : e.Ok cfg log fpHash) (hnext : ps.pktId = log.length + 1)
    (hfp : e.fp ≠ UINT64_MAX) {pkt : PktEntry} (hget : getPkt cfg ps e.pktId = some pkt) :
    0 < e.pktId := by
  rcases Nat.eq_zero_or_pos e.pktId with hzero | hpos
  · rcases h.empty hzero with hmax | hfull
    · exact absurd hmax hfp
    · obtain ⟨-, hold, -⟩ := getPkt_eq_some_iff.mp hget
      omega
  · exact hpos

/-- Expiring an entry that is out of reach of the packet just stored. -/
theorem FPEntryB.Ok.expire (h : e.Ok cfg log fpHash) {pktId : Nat} (hid : pktId ≤ log.length) :
    (expire cfg pktId e).Ok cfg log fpHash := by
  unfold Dictionary.expire
  split
  · refine ⟨?_, ?_⟩
    · intro hlive
      exact absurd hlive (Nat.lt_irrefl 0)
    · intro _
      exact Or.inr (by omega)
  · exact h

/-- The entry that registers a string of the packet just stored. -/
theorem FPEntryB.ok_new {pktId offset : Nat} {fp : UInt64} {p : List UInt8}
    (hp : packetAt log pktId = some p) (hsel : Selected p ⟨fp, 0, offset⟩) :
    (⟨fp, pktId, offset⟩ : FPEntryB).Ok cfg log (hashFPStore cfg fp) := by
  have hrange := packetAt_range hp
  refine ⟨?_, ?_⟩
  · intro _
    exact ⟨hsel.2, rfl, p, hp, hsel.1⟩
  · intro hzero
    simp only at hzero
    omega

/-- Where a registration puts its entry: nowhere, at the empty position, or over an entry
that has the same fingerprint and the same string. -/
theorem registerFP_position (cfg : Config) (fps : FPStore) (ps : PktStore) (fpp : FPEntry)
    (emptyPos : Option (Fin PKTS_PER_FP)) (entry : FPEntryB) (st : Statistics) :
    (registerFP cfg fps ps fpp emptyPos entry st).1 =
        Function.update fps (hashFPStore cfg entry.fp) fpp ∨
      ∃ pos, (registerFP cfg fps ps fpp emptyPos entry st).1 =
          Function.update fps (hashFPStore cfg entry.fp) (Function.update fpp pos entry) ∧
        (emptyPos = some pos ∨ (fpp pos).fp = entry.fp ∧
          sameString cfg ps (fpp pos) entry.pktId entry.offset = true) := by
  simp only [registerFP]
  split
  · split
    · rename_i pos
      exact Or.inr ⟨pos, rfl, Or.inl rfl⟩
    · exact Or.inl rfl
  · rename_i fpidx hfound
    split
    · rename_i hsame
      have hfp : (fpp fpidx).fp = entry.fp := by simpa using List.find?_some hfound
      exact Or.inr ⟨fpidx, rfl, Or.inr ⟨hfp, hsame⟩⟩
    · split
      · rename_i pos
        exact Or.inr ⟨pos, rfl, Or.inl rfl⟩
      · exact Or.inl rfl

/-- What a bucket looks like after a registration: as it was, with at most one position
overwritten by the new entry. -/
theorem registerFP_cases (cfg : Config) (fps : FPStore) (ps : PktStore) (fpp : FPEntry)
    (emptyPos : Option (Fin PKTS_PER_FP)) (entry : FPEntryB) (st : Statistics) :
    ∃ fpp' : FPEntry, (registerFP cfg fps ps fpp emptyPos entry st).1 =
        Function.update fps (hashFPStore cfg entry.fp) fpp' ∧
      ∀ fpidx, fpp' fpidx = fpp fpidx ∨ fpp' fpidx = entry := by
  rcases registerFP_position cfg fps ps fpp emptyPos entry st with hkept | ⟨pos, hstored, -⟩
  · exact ⟨_, hkept, fun _ => Or.inl rfl⟩
  · refine ⟨_, hstored, ?_⟩
    intro fpidx
    by_cases hpos : fpidx = pos
    · subst hpos
      exact Or.inr (Function.update_self ..)
    · exact Or.inl (Function.update_of_ne hpos ..)

/-- A property of entries that a registration keeps, if it holds of the new entry and is not
lost by expiry. -/
theorem putFP_forall {Q : UInt32 → FPEntryB → Prop} {fp : UInt64} {pktId offset : Nat}
    (h : ∀ fpHash fpidx, Q fpHash (fps fpHash fpidx))
    (hexpire : ∀ fpHash e, Q fpHash e → Q fpHash (expire cfg pktId e))
    (hnew : Q (hashFPStore cfg fp) ⟨fp, pktId, offset⟩) (st : Statistics) :
    ∀ fpHash fpidx, Q fpHash ((putFP cfg fps ps fp pktId offset st).1 fpHash fpidx) := by
  intro fpHash fpidx
  obtain ⟨fpp', heq, hcases⟩ := registerFP_cases cfg fps ps
    (fun fpidx => expire cfg pktId (fps (hashFPStore cfg fp) fpidx))
    (lastEmpty fun fpidx => expire cfg pktId (fps (hashFPStore cfg fp) fpidx))
    ⟨fp, pktId, offset⟩ st
  rw [putFP, heq]
  by_cases hbucket : fpHash = hashFPStore cfg fp
  · subst hbucket
    rw [Function.update_self]
    rcases hcases fpidx with hold | hentry
    · rw [hold]
      exact hexpire _ _ (h _ fpidx)
    · rw [hentry]
      exact hnew
  · rw [Function.update_of_ne hbucket]
    exact h fpHash fpidx

/-- The same for any number of strings of one packet. -/
theorem putFPs_forall {Q : UInt32 → FPEntryB → Prop} {pktId : Nat} {fpma : List FPEntryB}
    (h : ∀ fpHash fpidx, Q fpHash (fps fpHash fpidx))
    (hexpire : ∀ fpHash e, Q fpHash e → Q fpHash (expire cfg pktId e))
    (hnew : ∀ f ∈ fpma, Q (hashFPStore cfg f.fp) ⟨f.fp, pktId, f.offset⟩) (st : Statistics) :
    ∀ fpHash fpidx, Q fpHash ((putFPs cfg ps pktId fpma fps st).1 fpHash fpidx) := by
  unfold putFPs
  have hnew' : ∀ f ∈ fpma.reverse, Q (hashFPStore cfg f.fp) ⟨f.fp, pktId, f.offset⟩ := by
    simpa using hnew
  generalize fpma.reverse = todo at hnew'
  induction todo generalizing fps st with
  | nil => exact h
  | cons f todo ih =>
    rw [List.foldl_cons]
    exact ih (putFP_forall h hexpire (hnew' f List.mem_cons_self) st) _
      fun g hg => hnew' g (List.mem_cons_of_mem f hg)

/-- **What a registration leaves alone**: every entry whose packet is found, unless it has
the fingerprint and the string of the new one. -/
theorem putFP_keeps (cfg : Config) (fp : UInt64) {pktId : Nat} (hid : pktId ≤ ps.pktId)
    (offset : Nat) (fpHash : UInt32) (fpidx : Fin PKTS_PER_FP) (st : Statistics) {slot : PktEntry}
    (hlive : 0 < (fps fpHash fpidx).pktId)
    (hget : getPkt cfg ps (fps fpHash fpidx).pktId = some slot) :
    (putFP cfg fps ps fp pktId offset st).1 fpHash fpidx = fps fpHash fpidx ∨
      (fps fpHash fpidx).fp = fp ∧ ∃ slot', getPkt cfg ps pktId = some slot' ∧
        slice slot.pkt (fps fpHash fpidx).offset BETA = slice slot'.pkt offset BETA := by
  obtain ⟨-, hwin, -⟩ := getPkt_eq_some_iff.mp hget
  have hexpire : expire cfg pktId (fps fpHash fpidx) = fps fpHash fpidx := by
    unfold expire
    rw [if_neg (by omega)]
  by_cases hbucket : fpHash = hashFPStore cfg fp
  · subst hbucket
    rcases registerFP_position cfg fps ps
      (fun fpidx => expire cfg pktId (fps (hashFPStore cfg fp) fpidx))
      (lastEmpty fun fpidx => expire cfg pktId (fps (hashFPStore cfg fp) fpidx))
      ⟨fp, pktId, offset⟩ st with hkept | ⟨pos, hstored, hpos⟩
    · refine Or.inl ?_
      rw [putFP, hkept, Function.update_self, hexpire]
    · by_cases hidx : fpidx = pos
      · subst hidx
        rcases hpos with hempty | ⟨hfp, hsame⟩
        · -- The empty position holds no live entry.
          have hzero := List.find?_some hempty
          simp only [hexpire, beq_iff_eq] at hzero
          omega
        · refine Or.inr ?_
          simp only [hexpire] at hfp hsame
          refine ⟨hfp, ?_⟩
          unfold sameString at hsame
          rw [hget] at hsame
          split at hsame
          · rename_i slot' slot'' hnew hold
            cases hold
            exact ⟨slot', hnew, of_decide_eq_true hsame⟩
          · cases hsame
      · refine Or.inl ?_
        rw [putFP, hstored, Function.update_self, Function.update_of_ne hidx, hexpire]
  · refine Or.inl ?_
    obtain ⟨fpp', heq, -⟩ := registerFP_cases cfg fps ps
      (fun fpidx => expire cfg pktId (fps (hashFPStore cfg fp) fpidx))
      (lastEmpty fun fpidx => expire cfg pktId (fps (hashFPStore cfg fp) fpidx))
      ⟨fp, pktId, offset⟩ st
    rw [putFP, heq, Function.update_of_ne hbucket]

/-- Registering a sound entry in a sound bucket keeps the index sound. -/
theorem registerFP_sound (h : fps.Sound cfg log) {fpp : FPEntry} {entry : FPEntryB}
    (hb : ∀ fpidx, (fpp fpidx).Ok cfg log (hashFPStore cfg entry.fp))
    (hentry : entry.Ok cfg log (hashFPStore cfg entry.fp))
    (emptyPos : Option (Fin PKTS_PER_FP)) (st : Statistics) :
    (registerFP cfg fps ps fpp emptyPos entry st).1.Sound cfg log := by
  obtain ⟨fpp', heq, hcases⟩ := registerFP_cases cfg fps ps fpp emptyPos entry st
  rw [heq]
  intro bucket fpidx
  by_cases hbucket : bucket = hashFPStore cfg entry.fp
  · subst hbucket
    rw [Function.update_self]
    rcases hcases fpidx with hold | hnew
    · rw [hold]
      exact hb fpidx
    · rw [hnew]
      exact hentry
  · rw [Function.update_of_ne hbucket]
    exact h bucket fpidx

/-- `putFP` keeps the index sound. -/
theorem putFP_sound (h : fps.Sound cfg log) {p : List UInt8}
    (hp : packetAt log log.length = some p) {fp : UInt64} {offset : Nat}
    (hsel : Selected p ⟨fp, 0, offset⟩) (st : Statistics) :
    (putFP cfg fps ps fp log.length offset st).1.Sound cfg log :=
  putFP_forall (Q := fun fpHash e => e.Ok cfg log fpHash) h
    (fun _ _ he => he.expire (Nat.le_refl _)) (FPEntryB.ok_new hp hsel) st

/-- Registering any number of strings of the packet just stored keeps the index
sound. -/
theorem putFPs_sound (h : fps.Sound cfg log) {p : List UInt8}
    (hp : packetAt log log.length = some p) {fpma : List FPEntryB}
    (hsel : ∀ f ∈ fpma, Selected p f) (st : Statistics) :
    (putFPs cfg ps log.length fpma fps st).1.Sound cfg log :=
  putFPs_forall (Q := fun fpHash e => e.Ok cfg log fpHash) h
    (fun _ _ he => he.expire (Nat.le_refl _)) (fun f hf => FPEntryB.ok_new hp (hsel f hf)) st

end Index

/-! ### Two dictionaries with one log -/

/-- Equal entries, up to the offset of an entry that was never used. -/
structure FPEntryB.Agree (e e' : FPEntryB) : Prop where
  fp : e.fp = e'.fp
  pktId : e.pktId = e'.pktId
  offset : e.fp ≠ UINT64_MAX → e.offset = e'.offset

/-- Equal fingerprint stores, up to the offsets of entries that were never used. -/
def FPStore.Agree (fps fps' : FPStore) : Prop :=
  ∀ fpHash fpidx, (fps fpHash fpidx).Agree (fps' fpHash fpidx)

/-- Both stores find packet `id`, with the same first `n` bytes, or neither does. -/
def SameUpTo (cfg : Config) (ps ps' : PktStore) (id n : Nat) : Prop :=
  (getPkt cfg ps id = none ∧ getPkt cfg ps' id = none) ∨
    ∃ e e', getPkt cfg ps id = some e ∧ getPkt cfg ps' id = some e' ∧
      slice e.pkt 0 n = slice e'.pkt 0 n

section Agree

variable {cfg : Config} {H : PacketHash} {ps ps' : PktStore} {fps fps' : FPStore} {log : Log}

theorem FPEntryB.Agree.refl (e : FPEntryB) : e.Agree e := ⟨rfl, rfl, fun _ => rfl⟩

theorem FPEntryB.Agree.expire {e e' : FPEntryB} (h : e.Agree e') (pktId : Nat) :
    (expire cfg pktId e).Agree (expire cfg pktId e') := by
  unfold Dictionary.expire
  rw [← h.pktId]
  split
  · exact ⟨h.fp, rfl, h.offset⟩
  · exact h

/-- Searching a bucket by something on which agreeing entries do not differ finds the
same position. -/
theorem findBkt_congr {fpp fpp' : FPEntry} {t t' : FPEntryB → Bool}
    (h : ∀ fpidx, t (fpp fpidx) = t' (fpp' fpidx)) : findBkt fpp t = findBkt fpp' t' := by
  unfold findBkt
  congr 1
  funext fpidx
  exact h fpidx

theorem lastEmpty_congr {fpp fpp' : FPEntry} (h : ∀ fpidx, (fpp fpidx).Agree (fpp' fpidx)) :
    lastEmpty fpp = lastEmpty fpp' := by
  unfold lastEmpty
  congr 1
  funext fpidx
  rw [(h fpidx).pktId]

theorem findBkt_some {fpp : FPEntry} {t : FPEntryB → Bool} {fpidx : Fin PKTS_PER_FP}
    (h : findBkt fpp t = some fpidx) : t (fpp fpidx) = true :=
  List.find?_some (p := fun bkt => t (fpp bkt)) h

/-- A bucket with a matching entry is searched successfully. -/
theorem findBkt_isSome {fpp : FPEntry} {t : FPEntryB → Bool} {fpidx : Fin PKTS_PER_FP}
    (h : t (fpp fpidx) = true) : ∃ pos, findBkt fpp t = some pos := by
  cases hfind : findBkt fpp t with
  | some pos => exact ⟨pos, rfl⟩
  | none =>
    have := List.find?_eq_none.mp hfind fpidx (List.mem_finRange _)
    exact absurd h this

theorem sameString_congr {e e' : FPEntryB} {pktId offset n n' : Nat} (he : e.Agree e')
    (hfp : e.fp ≠ UINT64_MAX) (hnew : SameUpTo cfg ps ps' pktId n) (hn : offset + BETA ≤ n)
    (hold : SameUpTo cfg ps ps' e.pktId n') (hn' : e.offset + BETA ≤ n') :
    sameString cfg ps e pktId offset = sameString cfg ps' e' pktId offset := by
  have hstr : ∀ {a b : PktEntry} {pos k : Nat}, slice a.pkt 0 k = slice b.pkt 0 k →
      pos + BETA ≤ k → slice a.pkt pos BETA = slice b.pkt pos BETA := by
    intro a b pos k hslice hle
    apply slice_congr
    intro i hi
    have := slice_eq_apply (i := pos + i) hslice (by omega)
    simpa using this
  unfold sameString
  rw [← he.pktId, ← he.offset hfp]
  rcases hnew with ⟨h1, h1'⟩ | ⟨a, a', h1, h1', hslice⟩
  · rw [h1, h1']
  · rcases hold with ⟨h2, h2'⟩ | ⟨b, b', h2, h2', hslice'⟩
    · rw [h1, h1', h2, h2']
    · rw [h1, h1', h2, h2']
      simp only [hstr hslice hn, hstr hslice' hn']

/-- Stores that hold the same log show the same packets. -/
theorem PktStore.Holds.sameUpTo (h : ps.Holds cfg H log) (h' : ps'.Holds cfg H log) {id : Nat}
    {p : List UInt8} (hp : packetAt log id = some p) : SameUpTo cfg ps ps' id p.length := by
  have hrange := packetAt_range hp
  by_cases hwin : log.length + 1 ≤ id + cfg.PKTSTORESIZE
  · obtain ⟨e, he, his⟩ := getPkt_some h hp hwin
    obtain ⟨e', he', his'⟩ := getPkt_some h' hp hwin
    exact Or.inr ⟨e, e', he, he', his.bytes.trans his'.bytes.symm⟩
  · exact Or.inl ⟨getPkt_none h (by omega), getPkt_none h' (by omega)⟩

/-- The stores of an empty entry that has a real fingerprint show nothing. -/
theorem PktStore.Holds.sameUpTo_zero (h : ps.Holds cfg H log) (h' : ps'.Holds cfg H log)
    (hfull : cfg.PKTSTORESIZE ≤ log.length) (n : Nat) : SameUpTo cfg ps ps' 0 n := by
  exact Or.inl ⟨getPkt_none h (by omega), getPkt_none h' (by omega)⟩

/-- Overwriting the same position of agreeing buckets. -/
theorem FPEntryB.Agree.update {fpp fpp' : FPEntry} (h : ∀ fpidx, (fpp fpidx).Agree (fpp' fpidx))
    (pos : Fin PKTS_PER_FP) (entry : FPEntryB) (fpidx : Fin PKTS_PER_FP) :
    (Function.update fpp pos entry fpidx).Agree (Function.update fpp' pos entry fpidx) := by
  by_cases hpos : fpidx = pos
  · subst hpos
    rw [Function.update_self, Function.update_self]
    exact .refl entry
  · rw [Function.update_of_ne hpos, Function.update_of_ne hpos]
    exact h fpidx

/-- Replacing the same bucket of agreeing stores by agreeing buckets. -/
theorem FPStore.Agree.update (h : fps.Agree fps') {fpp fpp' : FPEntry}
    (hb : ∀ fpidx, (fpp fpidx).Agree (fpp' fpidx)) (bucket : UInt32) :
    FPStore.Agree (Function.update fps bucket fpp) (Function.update fps' bucket fpp') := by
  intro fpHash fpidx
  by_cases hbucket : fpHash = bucket
  · subst hbucket
    rw [Function.update_self, Function.update_self]
    exact hb fpidx
  · rw [Function.update_of_ne hbucket, Function.update_of_ne hbucket]
    exact h fpHash fpidx

/-- A registration takes the same decisions on two dictionaries, and leaves their
indexes in agreement, when the strings it compares are the same in both. -/
theorem registerFP_agree (hag : fps.Agree fps') {fpp fpp' : FPEntry}
    (hb : ∀ fpidx, (fpp fpidx).Agree (fpp' fpidx)) {entry : FPEntryB}
    (hsame : ∀ pos, (fpp pos).fp = entry.fp →
      sameString cfg ps (fpp pos) entry.pktId entry.offset =
        sameString cfg ps' (fpp' pos) entry.pktId entry.offset)
    (emptyPos : Option (Fin PKTS_PER_FP)) (st st' : Statistics) :
    FPStore.Agree (registerFP cfg fps ps fpp emptyPos entry st).1
      (registerFP cfg fps' ps' fpp' emptyPos entry st').1 := by
  have hfind : findBkt fpp (fun e => e.fp == entry.fp) =
      findBkt fpp' (fun e => e.fp == entry.fp) := by
    apply findBkt_congr
    intro fpidx
    rw [(hb fpidx).fp]
  simp only [registerFP]
  rw [← hfind]
  split
  · split
    · exact hag.update (FPEntryB.Agree.update hb _ _) _
    · exact hag.update hb _
  · rename_i pos hpos
    have hfp : (fpp pos).fp = entry.fp := by simpa using findBkt_some hpos
    rw [← hsame pos hfp]
    split
    · exact hag.update (FPEntryB.Agree.update hb _ _) _
    · split
      · exact hag.update (FPEntryB.Agree.update hb _ _) _
      · exact hag.update hb _

/-- The string of a sound entry is compared alike in two stores that show the same
packets of the log, the new one among them. -/
theorem sameString_agree {e e' : FPEntryB} {fpHash : UInt32} (hok : e.Ok cfg log fpHash)
    (he : e.Agree e') (hfp : e.fp ≠ UINT64_MAX) {id : Nat} {p : List UInt8}
    (hp : packetAt log id = some p) {offset : Nat} (hoff : offset + BETA ≤ p.length)
    (hlog : ∀ id q, packetAt log id = some q → SameUpTo cfg ps ps' id q.length)
    (hzero : cfg.PKTSTORESIZE < log.length → ∀ n, SameUpTo cfg ps ps' 0 n) :
    sameString cfg ps e id offset = sameString cfg ps' e' id offset := by
  rcases Nat.eq_zero_or_pos e.pktId with hempty | hlive
  · refine sameString_congr he hfp (hlog id p hp) hoff ?_ (Nat.le_refl _)
    rw [hempty]
    exact hzero ((hok.empty hempty).resolve_left hfp) _
  · obtain ⟨-, -, q, hq, hqoff⟩ := hok.live hlive
    exact sameString_congr he hfp (hlog id p hp) hoff (hlog _ q hq) hqoff

/-- `putFP` takes the same decisions on two dictionaries with one log, and leaves
their indexes in agreement. -/
theorem putFP_agree (hps : ps.Holds cfg H log) (hps' : ps'.Holds cfg H log)
    (hs : fps.Sound cfg log) (hag : fps.Agree fps') {p : List UInt8}
    (hp : packetAt log log.length = some p) {fp : UInt64} {offset : Nat}
    (hsel : Selected p ⟨fp, 0, offset⟩) (st st' : Statistics) :
    FPStore.Agree (putFP cfg fps ps fp log.length offset st).1
      (putFP cfg fps' ps' fp log.length offset st').1 := by
  have hb : ∀ fpidx, (expire cfg log.length (fps (hashFPStore cfg fp) fpidx)).Agree
      (expire cfg log.length (fps' (hashFPStore cfg fp) fpidx)) :=
    fun fpidx => (hag _ fpidx).expire _
  simp only [putFP]
  rw [← lastEmpty_congr hb]
  refine registerFP_agree hag hb ?_ _ st st'
  intro pos hfp
  refine sameString_agree ((hs _ pos).expire (Nat.le_refl _)) (hb pos) ?_ hp hsel.1 ?_ ?_
  · rw [hfp]
    exact hsel.2
  · intro id q hq
    exact hps.sameUpTo hps' hq
  · intro hfull n
    exact hps.sameUpTo_zero hps' (by omega) n

theorem putFPs_agree (hps : ps.Holds cfg H log) (hps' : ps'.Holds cfg H log)
    (hs : fps.Sound cfg log) (hag : fps.Agree fps') {p : List UInt8}
    (hp : packetAt log log.length = some p) {fpma : List FPEntryB}
    (hsel : ∀ f ∈ fpma, Selected p f) (st st' : Statistics) :
    FPStore.Agree (putFPs cfg ps log.length fpma fps st).1
      (putFPs cfg ps' log.length fpma fps' st').1 := by
  unfold putFPs
  have hsel' : ∀ f ∈ fpma.reverse, Selected p f := by simpa using hsel
  generalize fpma.reverse = todo at hsel'
  induction todo generalizing fps fps' st st' with
  | nil => exact hag
  | cons f todo ih =>
    rw [List.foldl_cons, List.foldl_cons]
    have hf := hsel' f List.mem_cons_self
    exact ih (putFP_sound hs hp hf st) (putFP_agree hps hps' hs hag hp hf st st') _ _
      fun g hg => hsel' g (List.mem_cons_of_mem f hg)

end Agree

/-! ### Lookups -/

section Lookup

variable {cfg : Config} {fps : FPStore} {ps : PktStore} {fp : UInt64} {e : FPEntryB}

/-- What `getFPcontent` returns: a live entry of the bucket, for a packet that has the
string there. -/
theorem getFPcontent_some {chunk : List UInt8} (h : getFPcontent cfg fps ps fp chunk = some e) :
    ∃ fpidx pkt, fps (hashFPStore cfg fp) fpidx = e ∧ 0 < e.pktId ∧ e.fp = fp ∧
      getPkt cfg ps e.pktId = some pkt ∧ chunk = slice pkt.pkt e.offset BETA := by
  obtain ⟨fpidx, hfind, rfl⟩ := Option.map_eq_some_iff.mp h
  have htest := findBkt_some hfind
  simp only [matchesContent, Bool.and_eq_true, decide_eq_true_eq, beq_iff_eq] at htest
  obtain ⟨⟨hlive, hfp⟩, hpkt⟩ := htest
  split at hpkt
  · cases hpkt
  · rename_i pkt hget
    exact ⟨fpidx, pkt, rfl, hlive, hfp, hget, of_decide_eq_true hpkt⟩

/-- What `getFPhash` returns: an entry of the bucket, for a packet of that hash. -/
theorem getFPhash_some {hash : UInt32} (h : getFPhash cfg fps ps fp hash = some e) :
    ∃ fpidx pkt, fps (hashFPStore cfg fp) fpidx = e ∧ e.fp = fp ∧
      getPkt cfg ps e.pktId = some pkt ∧ pkt.hash = hash := by
  obtain ⟨fpidx, hfind, rfl⟩ := Option.map_eq_some_iff.mp h
  have htest := findBkt_some hfind
  simp only [matchesHash, Bool.and_eq_true, beq_iff_eq] at htest
  obtain ⟨hfp, hpkt⟩ := htest
  split at hpkt
  · cases hpkt
  · rename_i pkt hget
    exact ⟨fpidx, pkt, rfl, hfp, hget, by simpa using hpkt⟩

/-- `getFPhash` finds something when the bucket has an entry for such a packet. -/
theorem getFPhash_isSome {fpidx : Fin PKTS_PER_FP} {pkt : PktEntry}
    (hfp : (fps (hashFPStore cfg fp) fpidx).fp = fp)
    (hget : getPkt cfg ps (fps (hashFPStore cfg fp) fpidx).pktId = some pkt) :
    ∃ e, getFPhash cfg fps ps fp pkt.hash = some e := by
  have htest : matchesHash cfg ps fp pkt.hash (fps (hashFPStore cfg fp) fpidx) = true := by
    simp [matchesHash, hfp, hget]
  obtain ⟨pos, hpos⟩ := findBkt_isSome (t := matchesHash cfg ps fp pkt.hash) htest
  exact ⟨_, by rw [getFPhash, hpos, Option.map_some]⟩

end Lookup

/-! ### Dictionaries -/

/-- A dictionary represents a log: its ring holds the end of the log, its index is
sound for it, and every packet in it is long enough to be fingerprinted and fits. -/
structure Deduplicator.Represents (pd : Deduplicator) (cfg : Config) (H : PacketHash)
    (log : Log) : Prop where
  ps : pd.ps.Holds cfg H log
  fps : pd.fps.Sound cfg log
  sizes : ∀ p ∈ log, BETA ≤ p.length ∧ p.length ≤ cfg.MAXPKTSIZE

section Represents

variable {cfg : Config} {H : PacketHash} {pd pd' : Deduplicator} {log : Log} {p : List UInt8}

/-- A fresh dictionary represents the empty log, whatever memory it was given. -/
theorem newDeduplicator_represents (cfg : Config) (H : PacketHash) (mem : RawMemory) :
    (newDeduplicator mem).Represents cfg H [] where
  ps := by
    refine ⟨rfl, ?_⟩
    intro id p hp
    have := packetAt_range hp
    simp at this
    omega
  fps := by
    intro fpHash fpidx
    exact ⟨fun hlive => absurd hlive (Nat.lt_irrefl 0), fun _ => Or.inl rfl⟩
  sizes := by simp

theorem newDeduplicator_agree (mem mem' : RawMemory) :
    (newDeduplicator mem).fps.Agree (newDeduplicator mem').fps :=
  fun _ _ => ⟨rfl, rfl, fun hne => absurd rfl hne⟩

/-- Only the counters depend on the counters. -/
theorem putFP_fst (cfg : Config) (fps : FPStore) (ps : PktStore) (fp : UInt64)
    (pktId offset : Nat) (st st' : Statistics) :
    (putFP cfg fps ps fp pktId offset st).1 = (putFP cfg fps ps fp pktId offset st').1 := by
  simp only [putFP, registerFP]
  split
  · split <;> rfl
  · split
    · rfl
    · split <;> rfl

theorem putFPs_fst (cfg : Config) (ps : PktStore) (pktId : Nat) (fpma : List FPEntryB)
    (fps : FPStore) (st st' : Statistics) :
    (putFPs cfg ps pktId fpma fps st).1 = (putFPs cfg ps pktId fpma fps st').1 := by
  unfold putFPs
  generalize fpma.reverse = todo
  induction todo generalizing fps st st' with
  | nil => rfl
  | cons f todo ih =>
    rw [List.foldl_cons, List.foldl_cons,
      ← Prod.mk.eta (p := putFP cfg fps ps f.fp pktId f.offset st),
      ← Prod.mk.eta (p := putFP cfg fps ps f.fp pktId f.offset st'),
      putFP_fst cfg fps ps f.fp pktId f.offset st st']
    exact ih _ _ _

/-- Storing a packet appends it to the log the dictionary represents. -/
theorem storePacket_represents (hcfg : cfg.Valid) (h : pd.Represents cfg H log)
    (hlen : BETA ≤ p.length) (hsize : p.length ≤ cfg.MAXPKTSIZE) :
    (storePacket cfg pd p (H p) (calculateRelevantFPs cfg p)).Represents cfg H (log ++ [p]) := by
  have hps := putPkt_holds hcfg.pktStore h.ps p
  have hid : (putPkt cfg pd.ps p (H p)).2 = (log ++ [p]).length := by
    simp [putPkt, h.ps.next]
  have hlast : packetAt (log ++ [p]) (log ++ [p]).length = some p := by
    simpa using packetAt_last log p
  refine ⟨hps, ?_, ?_⟩
  · show (putFPs cfg _ (putPkt cfg pd.ps p (H p)).2 _ _ _).1.Sound cfg (log ++ [p])
    rw [hid]
    exact putFPs_sound (h.fps.append p) hlast (calculateRelevantFPs_selected cfg hlen) _
  · intro q hq
    rcases List.mem_append.mp hq with hq | hq
    · exact h.sizes q hq
    · rw [List.mem_singleton.mp hq]
      exact ⟨hlen, hsize⟩

/-- The counters of a dictionary have no part in what it represents. -/
theorem Deduplicator.Represents.of_stores (h : pd.Represents cfg H log) (hps : pd'.ps = pd.ps)
    (hfps : pd'.fps = pd.fps) : pd'.Represents cfg H log := by
  refine ⟨?_, ?_, h.sizes⟩
  · rw [hps]
    exact h.ps
  · rw [hfps]
    exact h.fps

/-- The counters of a dictionary have no part in how a packet is stored. -/
theorem storePacket_count (cfg : Config) (pd : Deduplicator) (f : Statistics → Statistics)
    (p : List UInt8) (hash : UInt32) (fpma : List FPEntryB) :
    (storePacket cfg (pd.count f) p hash fpma).ps = (storePacket cfg pd p hash fpma).ps ∧
      (storePacket cfg (pd.count f) p hash fpma).fps = (storePacket cfg pd p hash fpma).fps :=
  ⟨rfl, putFPs_fst ..⟩

/-- Storing the same packet in two dictionaries with one log keeps their indexes in
agreement. -/
theorem storePacket_agree (hcfg : cfg.Valid) (h : pd.Represents cfg H log)
    (h' : pd'.Represents cfg H log) (hag : pd.fps.Agree pd'.fps) (hlen : BETA ≤ p.length) :
    FPStore.Agree (storePacket cfg pd p (H p) (calculateRelevantFPs cfg p)).fps
      (storePacket cfg pd' p (H p) (calculateRelevantFPs cfg p)).fps := by
  have hid : (putPkt cfg pd.ps p (H p)).2 = (log ++ [p]).length := by
    simp [putPkt, h.ps.next]
  have hid' : (putPkt cfg pd'.ps p (H p)).2 = (log ++ [p]).length := by
    simp [putPkt, h'.ps.next]
  have hlast : packetAt (log ++ [p]) (log ++ [p]).length = some p := by
    simpa using packetAt_last log p
  show FPStore.Agree (putFPs cfg _ (putPkt cfg pd.ps p (H p)).2 _ _ _).1
    (putFPs cfg _ (putPkt cfg pd'.ps p (H p)).2 _ _ _).1
  rw [hid, hid']
  exact putFPs_agree (putPkt_holds hcfg.pktStore h.ps p) (putPkt_holds hcfg.pktStore h'.ps p)
    (h.fps.append p) hag hlast (calculateRelevantFPs_selected cfg hlen) _ _

end Represents

end Solowan.Dictionary
