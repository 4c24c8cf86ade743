/-
The dictionaries all workers share (`lib/dedup_common.c`, "Dictionary API").

With `shared_dictionary_mode` on, a box has one dictionary for compressing and one for
decompressing. They are looked up in batches, and a packet is stored together with its
fingerprints by code that differs from `putPkt` and `putFP` in three ways:

* the slot is overwritten before the id is advanced, so that the oldest packet of the
  window is still found while the fingerprints are registered, under the bytes of the
  new packet (`overwrite_sameUpTo`);
* the loop that clears expired entries stops at the first empty position;
* the empty position is carried from one fingerprint to the next, so that an entry may
  be written over a live one of another bucket.

None of the three depends on anything but the log: `putPktAndFPs_represents` and
`putPktAndFPs_agree` are the counterparts of `storePacket_represents` and
`storePacket_agree`.

The batch lookups copy to arrays of `PKTSIZELIMIT` bytes, whatever `MAX_PKT_SIZE()` is set to.
Behind the array of an element lie its other fields and the next elements, so a lookup that
would copy more has no result here.
-/

import Solowan.Dictionary.Log

namespace Solowan.Dictionary

open Solowan.Memory

/-- The two dictionaries of a box: `psComp`, `fpStoreComp`, `compSt` and `psDesc`,
`fpStoreDesc`, `descSt`. -/
structure SharedDictionaries where
  comp : Deduplicator
  desc : Deduplicator

/-- `initDictionary`, on the memory the allocator returned for either dictionary. -/
def initDictionary (memComp memDesc : RawMemory) : SharedDictionaries :=
  ⟨newDeduplicator memComp, newDeduplicator memDesc⟩

/-! ### Batch lookups -/

/-- The longest packet that can be referred to. With the shared dictionaries it has to fit the
arrays of the batch lookups. -/
def Config.longestFound (cfg : Config) : Nat :=
  if cfg.shared_dictionary_mode then min cfg.MAXPKTSIZE PKTSIZELIMIT else cfg.MAXPKTSIZE

theorem Config.longestFound_le (cfg : Config) : cfg.longestFound ≤ cfg.MAXPKTSIZE := by
  unfold longestFound
  split
  · exact Nat.min_le_left _ _
  · exact Nat.le_refl _

/-- A packet of the dictionary that shares a string with the packet being compressed;
`pktLen = 0` means that there is none. The array `pkt` of the shared mode has `PKTSIZELIMIT`
bytes. -/
structure DictElement where
  pktLen : Nat
  pkt : Mem
  pktHash : UInt32
  offset : Nat

/-- The lookup of one fingerprint in `getPktsByFPsAndContent`. It searches the bucket as
`getFPcontent` does and copies the packet out; the copy ends with the packet. A packet
longer than the array is copied over what lies behind it. -/
def getPktByFPAndContent (cfg : Config) (dict : Deduplicator) (pkt : List UInt8)
    (f : FPEntryB) : Option DictElement :=
  match getFPcontent cfg dict.fps dict.ps f.fp ((pkt.drop f.offset).take BETA) with
  | none => some ⟨0, ofList [], 0, 0⟩
  | some e =>
    match getPkt cfg dict.ps e.pktId with
    | none => some ⟨0, ofList [], 0, 0⟩
    | some pktE =>
      if pktE.len > PKTSIZELIMIT then none
      else some ⟨pktE.len, ofList (slice pktE.pkt 0 pktE.len), pktE.hash, e.offset⟩

/-- The packets that share a string with `pkt`, one for each of its fingerprints. -/
def getPktsByFPsAndContent (cfg : Config) (g : SharedDictionaries) (pkt : List UInt8)
    (fpa : List FPEntryB) : Option (List DictElement) :=
  fpa.mapM (getPktByFPAndContent cfg g.comp pkt)

/-- A reference parsed from a compressed packet. -/
structure PktChunk where
  fp : UInt64
  hash : UInt32
  left : Nat
  right : Nat
  deriving DecidableEq, Repr

/-- A piece of a packet of the dictionary. The array `pktFrag` has `PKTSIZELIMIT` bytes, and
`pktFragLen` lies behind it. -/
structure PktFrag where
  pktFrag : List UInt8
  pktFragLen : Nat
  deriving DecidableEq, Repr

/-- The pieces a list of references names, and how many references were found before
the first one that was not. A right limit equal to the packet's length passes the
test, and the length of a piece is a `uint16_t`. A piece longer than the array is copied over
what lies behind it. -/
def getPktsByFPsAndHash (cfg : Config) (g : SharedDictionaries) :
    List PktChunk → Option (Nat × List PktFrag)
  | [] => some (0, [])
  | c :: fpa =>
    match getPktByHash cfg g.desc.fps g.desc.ps c.fp c.hash with
    | none => some (0, [⟨[], 0⟩])
    | some pkt =>
      if c.right > pkt.len then some (0, [⟨[], 0⟩])
      else
        let pktFragLen := (c.right - c.left + 1) % 65536
        if pktFragLen > PKTSIZELIMIT then none
        else
          (getPktsByFPsAndHash cfg g fpa).map fun rest =>
            (rest.1 + 1, ⟨slice pkt.pkt c.left pktFragLen, pktFragLen⟩ :: rest.2)

/-! ### Storing -/

/-- The loop that clears expired entries and stops at the first empty position. -/
def clearExpired (cfg : Config) (pktId : Nat) :
    List (Fin PKTS_PER_FP) → FPEntry → Option (Fin PKTS_PER_FP) →
      FPEntry × Option (Fin PKTS_PER_FP)
  | [], fpp, emptyPos => (fpp, emptyPos)
  | fpidx :: todo, fpp, emptyPos =>
    let fpp := Function.update fpp fpidx (expire cfg pktId (fpp fpidx))
    if (fpp fpidx).pktId = 0 then (fpp, some fpidx)
    else clearExpired cfg pktId todo fpp emptyPos

/-- What the loop over the fingerprints of a packet works on. -/
structure Registration where
  fps : FPStore
  st : Statistics
  emptyPos : Option (Fin PKTS_PER_FP)

/-- One fingerprint of the packet being stored; `pktStore` has its slot overwritten and
its id not yet advanced. -/
def putSharedFP (cfg : Config) (pktStore : PktStore) (r : Registration) (f : FPEntryB) :
    Registration :=
  let cleared := clearExpired cfg pktStore.pktId (List.finRange PKTS_PER_FP)
    (r.fps (hashFPStore cfg f.fp)) r.emptyPos
  let stored := registerFP cfg r.fps pktStore cleared.1 cleared.2
    ⟨f.fp, pktStore.pktId, f.offset⟩ r.st
  ⟨stored.1, stored.2, cleared.2⟩

/-- Store a packet and its fingerprints in one of the two dictionaries. -/
def putPktAndFPs (cfg : Config) (dict : Deduplicator) (pkt : List UInt8)
    (computedPacketHash : UInt32) (fpa : List FPEntryB) : Deduplicator :=
  let ps := overwrite cfg dict.ps pkt computedPacketHash
  let r := fpa.foldl (putSharedFP cfg ps) ⟨dict.fps, dict.compStats, none⟩
  { compStats := { r.st with lastPktId := UInt64.ofNat ps.pktId }
    fps := r.fps
    ps := { ps with pktId := ps.pktId + 1 } }

def putPktAndFPsComp (cfg : Config) (g : SharedDictionaries) (pkt : List UInt8)
    (computedPacketHash : UInt32) (fpa : List FPEntryB) : SharedDictionaries :=
  { g with comp := putPktAndFPs cfg g.comp pkt computedPacketHash fpa }

def putPktAndFPsDesc (cfg : Config) (g : SharedDictionaries) (pkt : List UInt8)
    (computedPacketHash : UInt32) (fpa : List FPEntryB) : SharedDictionaries :=
  { g with desc := putPktAndFPs cfg g.desc pkt computedPacketHash fpa }

/-! ### The batch lookup by content -/

section Lookup

variable {cfg : Config} {dict : Deduplicator} {g : SharedDictionaries} {pkt : List UInt8}
  {fpa : List FPEntryB} {elements : List DictElement}

/-- The packet found for `f`, if one is, fits the array it is copied to. -/
def FoundFits (cfg : Config) (dict : Deduplicator) (pkt : List UInt8) (f : FPEntryB) : Prop :=
  ∀ e pktE, getFPcontent cfg dict.fps dict.ps f.fp ((pkt.drop f.offset).take BETA) = some e →
    getPkt cfg dict.ps e.pktId = some pktE → pktE.len ≤ PKTSIZELIMIT

theorem getPktByFPAndContent_isSome_iff (cfg : Config) (dict : Deduplicator) (pkt : List UInt8)
    (f : FPEntryB) :
    (∃ element, getPktByFPAndContent cfg dict pkt f = some element) ↔
      FoundFits cfg dict pkt f := by
  unfold getPktByFPAndContent FoundFits
  cases hfound : getFPcontent cfg dict.fps dict.ps f.fp ((pkt.drop f.offset).take BETA) with
  | none => simp
  | some e =>
    dsimp only
    cases hget : getPkt cfg dict.ps e.pktId with
    | none =>
      refine iff_of_true ⟨_, rfl⟩ fun e' pktE he hpkt => ?_
      cases he
      rw [hget] at hpkt
      cases hpkt
    | some pktE =>
      dsimp only
      split
      · rename_i hlong
        refine iff_of_false (by simp) fun hfit => ?_
        have := hfit e pktE rfl hget
        omega
      · refine iff_of_true ⟨_, rfl⟩ fun e' pktE' he hpkt => ?_
        cases he
        rw [hget] at hpkt
        cases hpkt
        omega

/-- The lookup has a result exactly when everything it finds fits. -/
theorem getPktsByFPsAndContent_isSome_iff :
    (∃ elements, getPktsByFPsAndContent cfg g pkt fpa = some elements) ↔
      ∀ f ∈ fpa, FoundFits cfg g.comp pkt f := by
  unfold getPktsByFPsAndContent
  induction fpa with
  | nil => exact iff_of_true ⟨[], rfl⟩ (by simp)
  | cons f fpa ih =>
    rw [List.forall_mem_cons, ← ih, ← getPktByFPAndContent_isSome_iff, List.mapM_cons]
    constructor
    · rintro ⟨elements, h⟩
      obtain ⟨element, hf, hrest⟩ := Option.bind_eq_some_iff.mp h
      obtain ⟨rest, hrest, -⟩ := Option.bind_eq_some_iff.mp hrest
      exact ⟨⟨element, hf⟩, rest, hrest⟩
    · rintro ⟨⟨element, hf⟩, rest, hrest⟩
      rw [hf, hrest]
      exact ⟨element :: rest, rfl⟩

theorem getPktsByFPsAndContent_length (h : getPktsByFPsAndContent cfg g pkt fpa = some elements) :
    elements.length = fpa.length := by
  unfold getPktsByFPsAndContent at h
  induction fpa generalizing elements with
  | nil =>
    cases h
    rfl
  | cons f fpa ih =>
    rw [List.mapM_cons] at h
    obtain ⟨element, -, htail⟩ := Option.bind_eq_some_iff.mp h
    obtain ⟨rest, hrest, hcons⟩ := Option.bind_eq_some_iff.mp htail
    cases hcons
    rw [List.length_cons, List.length_cons, ih hrest]

/-- Every element is the one of its own fingerprint. -/
theorem getPktsByFPsAndContent_zip (h : getPktsByFPsAndContent cfg g pkt fpa = some elements)
    {f : FPEntryB} {element : DictElement} (hmem : (f, element) ∈ fpa.zip elements) :
    f ∈ fpa ∧ getPktByFPAndContent cfg g.comp pkt f = some element := by
  unfold getPktsByFPsAndContent at h
  induction fpa generalizing elements with
  | nil => simp at hmem
  | cons f' fpa ih =>
    rw [List.mapM_cons] at h
    obtain ⟨element', hf, htail⟩ := Option.bind_eq_some_iff.mp h
    obtain ⟨rest, hrest, hcons⟩ := Option.bind_eq_some_iff.mp htail
    cases hcons
    rcases List.mem_cons.mp hmem with heq | hmem
    · cases heq
      exact ⟨List.mem_cons_self, hf⟩
    · obtain ⟨hin, hlookup⟩ := ih hrest hmem
      exact ⟨List.mem_cons_of_mem f' hin, hlookup⟩

end Lookup

/-! ### The window while a packet is stored -/

section Window

variable {cfg : Config} {H : PacketHash} {ps ps' : PktStore} {log : Log} {p : List UInt8}

theorem overwrite_pktId (cfg : Config) (ps : PktStore) (p : List UInt8) (hash : UInt32) :
    (overwrite cfg ps p hash).pktId = ps.pktId := rfl

/-- Every slot of an overwritten store shows the same bytes as that of another, up to
where they did before or where the new packet reaches. -/
theorem overwrite_slot {n i : Nat} {hash : UInt32} (hid : ps.pktId = ps'.pktId)
    (h : slice (ps.pkts i).pkt 0 n = slice (ps'.pkts i).pkt 0 n) :
    slice ((overwrite cfg ps p hash).pkts i).pkt 0 n =
      slice ((overwrite cfg ps' p hash).pkts i).pkt 0 n := by
  simp only [overwrite, ← hid]
  by_cases hi : i = ps.pktId &&& (cfg.PKTSTORESIZE - 1)
  · subst hi
    rw [Function.update_self, Function.update_self]
    dsimp only
    apply slice_congr
    intro j hj
    have hbyte := slice_eq_apply h hj
    by_cases hin : j < p.length
    · rw [memcpy_apply_inside hin, memcpy_apply_inside hin]
    · rw [memcpy_apply_outside (by omega), memcpy_apply_outside (by omega)]
      exact hbyte
  · rw [Function.update_of_ne hi, Function.update_of_ne hi]
    exact h

/-- While a packet is being stored, two dictionaries with one log show the same packets:
the new one under the next id, and under the oldest id of the window the new one over
what was there. -/
theorem overwrite_sameUpTo (h : ps.Holds cfg H log) (h' : ps'.Holds cfg H log) {id : Nat}
    {q : List UInt8} (hq : packetAt (log ++ [p]) id = some q) :
    SameUpTo cfg (overwrite cfg ps p (H p)) (overwrite cfg ps' p (H p)) id q.length := by
  have hrange := packetAt_range hq
  simp only [List.length_append, List.length_singleton] at hrange
  have hget : ∀ {s : PktStore}, s.Holds cfg H log → log.length + 1 ≤ id + cfg.PKTSTORESIZE →
      getPkt cfg (overwrite cfg s p (H p)) id =
        some ((overwrite cfg s p (H p)).pkts (id &&& (cfg.PKTSTORESIZE - 1))) := by
    intro s hs hwin
    have hnext := hs.next
    exact getPkt_eq_some_iff.mpr
      ⟨by rw [overwrite_pktId]; omega, by rw [overwrite_pktId]; omega, rfl⟩
  by_cases hwin : log.length + 1 ≤ id + cfg.PKTSTORESIZE
  · refine Or.inr ⟨_, _, hget h hwin, hget h' hwin, ?_⟩
    by_cases hnew : id = log.length + 1
    · have hslot : ∀ {s : PktStore}, s.Holds cfg H log →
          slice ((overwrite cfg s p (H p)).pkts (id &&& (cfg.PKTSTORESIZE - 1))).pkt 0 q.length =
            q := by
        intro s hs
        rw [hnew, packetAt_last] at hq
        cases hq
        simp only [overwrite, hs.next, hnew, Function.update_self]
        exact slice_memcpy_self _ _ _
      rw [hslot h, hslot h']
    · rw [packetAt_append (by omega)] at hq
      apply overwrite_slot (h.next.trans h'.next.symm)
      rw [(h.slot id q hq hwin).bytes, (h'.slot id q hq hwin).bytes]
  · have hnone : ∀ {s : PktStore}, s.Holds cfg H log →
        getPkt cfg (overwrite cfg s p (H p)) id = none := by
      intro s hs
      apply getPkt_eq_none
      rw [overwrite_pktId, hs.next]
      omega
    exact Or.inl ⟨hnone h, hnone h'⟩

/-- An expired entry shows nothing while a packet is being stored. -/
theorem overwrite_sameUpTo_zero (h : ps.Holds cfg H log) (h' : ps'.Holds cfg H log)
    (hfull : cfg.PKTSTORESIZE < log.length + 1) (n : Nat) :
    SameUpTo cfg (overwrite cfg ps p (H p)) (overwrite cfg ps' p (H p)) 0 n := by
  have hnone : ∀ {s : PktStore}, s.Holds cfg H log →
      getPkt cfg (overwrite cfg s p (H p)) 0 = none := by
    intro s hs
    apply getPkt_eq_none
    rw [overwrite_pktId, hs.next]
    omega
  exact Or.inl ⟨hnone h, hnone h'⟩

end Window

/-! ### Soundness and agreement -/

section Shared

variable {cfg : Config} {H : PacketHash} {ps ps' : PktStore} {log : Log} {p : List UInt8}
  {r r' : Registration} {f : FPEntryB} {dict dict' : Deduplicator}

theorem clearExpired_ok {fpp : FPEntry} {fpHash : UInt32} {pktId : Nat}
    (h : ∀ fpidx, (fpp fpidx).Ok cfg log fpHash) (hid : pktId ≤ log.length)
    (todo : List (Fin PKTS_PER_FP)) (emptyPos : Option (Fin PKTS_PER_FP))
    (fpidx : Fin PKTS_PER_FP) :
    ((clearExpired cfg pktId todo fpp emptyPos).1 fpidx).Ok cfg log fpHash := by
  induction todo generalizing fpp with
  | nil => exact h fpidx
  | cons pos todo ih =>
    have hstep : ∀ i, (Function.update fpp pos (expire cfg pktId (fpp pos)) i).Ok cfg log
        fpHash := by
      intro i
      by_cases hpos : i = pos
      · subst hpos
        rw [Function.update_self]
        exact (h i).expire hid
      · rw [Function.update_of_ne hpos]
        exact h i
    simp only [clearExpired]
    split
    · exact hstep fpidx
    · exact ih hstep

theorem clearExpired_agree (cfg : Config) {fpp fpp' : FPEntry}
    (h : ∀ fpidx, (fpp fpidx).Agree (fpp' fpidx)) (pktId : Nat) (todo : List (Fin PKTS_PER_FP))
    (emptyPos : Option (Fin PKTS_PER_FP)) :
    (∀ fpidx, ((clearExpired cfg pktId todo fpp emptyPos).1 fpidx).Agree
        ((clearExpired cfg pktId todo fpp' emptyPos).1 fpidx)) ∧
      (clearExpired cfg pktId todo fpp emptyPos).2 =
        (clearExpired cfg pktId todo fpp' emptyPos).2 := by
  induction todo generalizing fpp fpp' with
  | nil => exact ⟨h, rfl⟩
  | cons pos todo ih =>
    have hstep : ∀ i, (Function.update fpp pos (expire cfg pktId (fpp pos)) i).Agree
        (Function.update fpp' pos (expire cfg pktId (fpp' pos)) i) := by
      intro i
      by_cases hpos : i = pos
      · subst hpos
        rw [Function.update_self, Function.update_self]
        exact (h i).expire pktId
      · rw [Function.update_of_ne hpos, Function.update_of_ne hpos]
        exact h i
    simp only [clearExpired]
    rw [← (hstep pos).pktId]
    split
    · exact ⟨hstep, rfl⟩
    · exact ih hstep

/-- One fingerprint keeps the index sound, wherever its entry is put. -/
theorem putSharedFP_sound (hr : r.fps.Sound cfg (log ++ [p])) (hid : ps.pktId = log.length + 1)
    (hsel : Selected p f) : (putSharedFP cfg ps r f).fps.Sound cfg (log ++ [p]) := by
  have hlast : packetAt (log ++ [p]) ps.pktId = some p := by
    rw [hid]
    exact packetAt_last log p
  refine registerFP_sound hr ?_ (FPEntryB.ok_new hlast hsel) _ _
  intro fpidx
  exact clearExpired_ok (fun i => hr _ i) (by simp [hid]) _ _ fpidx

/-- One fingerprint leaves agreeing registrations in agreement. -/
theorem putSharedFP_agree (h : ps.Holds cfg H log) (h' : ps'.Holds cfg H log)
    (hr : r.fps.Sound cfg (log ++ [p])) (hag : r.fps.Agree r'.fps)
    (hpos : r.emptyPos = r'.emptyPos) (hsel : Selected p f) :
    (putSharedFP cfg (overwrite cfg ps p (H p)) r f).fps.Agree
        (putSharedFP cfg (overwrite cfg ps' p (H p)) r' f).fps ∧
      (putSharedFP cfg (overwrite cfg ps p (H p)) r f).emptyPos =
        (putSharedFP cfg (overwrite cfg ps' p (H p)) r' f).emptyPos := by
  simp only [putSharedFP, overwrite_pktId, h.next, h'.next, ← hpos]
  obtain ⟨hb, hempty⟩ := clearExpired_agree cfg (fun i => hag (hashFPStore cfg f.fp) i)
    (log.length + 1) (List.finRange PKTS_PER_FP) r.emptyPos
  rw [← hempty]
  refine ⟨?_, rfl⟩
  refine registerFP_agree hag hb ?_ _ _ _
  intro pos hfp
  refine sameString_agree (clearExpired_ok (fun i => hr _ i) (by simp) _ _ pos) (hb pos) ?_
    (packetAt_last log p) hsel.1 ?_ ?_
  · rw [hfp]
    exact hsel.2
  · intro id q hq
    exact overwrite_sameUpTo h h' hq
  · intro hfull n
    exact overwrite_sameUpTo_zero h h' (by simpa using hfull) n

theorem foldl_putSharedFP_sound (hid : ps.pktId = log.length + 1) {fpa : List FPEntryB}
    (hsel : ∀ f ∈ fpa, Selected p f) (hr : r.fps.Sound cfg (log ++ [p])) :
    (fpa.foldl (putSharedFP cfg ps) r).fps.Sound cfg (log ++ [p]) := by
  induction fpa generalizing r with
  | nil => exact hr
  | cons f fpa ih =>
    rw [List.foldl_cons]
    exact ih (fun g hg => hsel g (List.mem_cons_of_mem f hg))
      (putSharedFP_sound hr hid (hsel f List.mem_cons_self))

theorem foldl_putSharedFP_agree (h : ps.Holds cfg H log) (h' : ps'.Holds cfg H log)
    {fpa : List FPEntryB} (hsel : ∀ f ∈ fpa, Selected p f)
    (hr : r.fps.Sound cfg (log ++ [p])) (hag : r.fps.Agree r'.fps)
    (hpos : r.emptyPos = r'.emptyPos) :
    (fpa.foldl (putSharedFP cfg (overwrite cfg ps p (H p))) r).fps.Agree
      (fpa.foldl (putSharedFP cfg (overwrite cfg ps' p (H p))) r').fps := by
  induction fpa generalizing r r' with
  | nil => exact hag
  | cons f fpa ih =>
    rw [List.foldl_cons, List.foldl_cons]
    have hf := hsel f List.mem_cons_self
    obtain ⟨hag', hpos'⟩ := putSharedFP_agree h h' hr hag hpos hf
    exact ih (fun g hg => hsel g (List.mem_cons_of_mem f hg))
      (putSharedFP_sound hr (by rw [overwrite_pktId, h.next]) hf) hag' hpos'

/-- Storing a packet in a shared dictionary appends it to the log. -/
theorem putPktAndFPs_represents (hcfg : cfg.Valid) (h : dict.Represents cfg H log)
    (hlen : BETA ≤ p.length) (hsize : p.length ≤ cfg.MAXPKTSIZE) :
    (putPktAndFPs cfg dict p (H p) (calculateRelevantFPs cfg p)).Represents cfg H
      (log ++ [p]) := by
  refine ⟨putPkt_holds hcfg.pktStore h.ps p, ?_, ?_⟩
  · exact foldl_putSharedFP_sound (by rw [overwrite_pktId, h.ps.next])
      (calculateRelevantFPs_selected cfg hlen) (h.fps.append p)
  · intro q hq
    rcases List.mem_append.mp hq with hq | hq
    · exact h.sizes q hq
    · rw [List.mem_singleton.mp hq]
      exact ⟨hlen, hsize⟩

/-- Storing the same packet in two shared dictionaries with one log keeps their indexes
in agreement. -/
theorem putPktAndFPs_agree (h : dict.Represents cfg H log) (h' : dict'.Represents cfg H log)
    (hag : dict.fps.Agree dict'.fps) (hlen : BETA ≤ p.length) :
    FPStore.Agree (putPktAndFPs cfg dict p (H p) (calculateRelevantFPs cfg p)).fps
      (putPktAndFPs cfg dict' p (H p) (calculateRelevantFPs cfg p)).fps :=
  foldl_putSharedFP_agree h.ps h'.ps (calculateRelevantFPs_selected cfg hlen)
    (h.fps.append p) hag rfl

end Shared

end Solowan.Dictionary
