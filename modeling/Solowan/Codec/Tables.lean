/-
The tables on the stack of `uncomp` in shared mode (`lib/uncomp.c`, `getPktsByFPsAndHash` in
`lib/dedup_common.c`).

The descriptors of an input are collected in `fptopkt` and `tablePtrFrag`, and the strings that
are found for them in `pktfr`. All three have `MAX_FP_PER_PKT` places, and nothing compares
`fpNum` with that number: the tests of the loop are on the size of the output, where a descriptor
may take as little as one byte.

* `tablePlaces_inside_iff`: a call writes inside its tables if and only if the input has no more
  than `MAX_FP_PER_PKT` descriptors, up to the first that is refused.
* `uncomp_overrun_iff`: the model ends with `overrun` on the other inputs.
-/

import Solowan.Codec.Modes

namespace Solowan.Codec

open Solowan.Memory Solowan.Dictionary

/-! ### The places that are written -/

inductive Table where
  | fptopkt
  | tablePtrFrag
  | pktfr
  deriving DecidableEq, Repr

/-- A place of a table: the table and the index. -/
abbrev Place := Table × Nat

/-- The places an iteration writes. The descriptor is stored as it is read, the place of its
string behind the test. -/
def stepPlaces (cfg : Config) (optpkt : Mem) (s : SharedDecoder) : List Place :=
  let fpNum := s.fptopkt.length
  let fpt := chunkAt optpkt s.cur.pos
  if fpt.left > fpt.right ∨ s.orig + fpt.right - fpt.left > cfg.MAXPKTSIZE then
    [(.fptopkt, fpNum)]
  else [(.fptopkt, fpNum), (.tablePtrFrag, fpNum)]

/-- The places the loop writes. -/
def loopPlaces (cfg : Config) (optpkt : Mem) : Nat → SharedDecoder → List Place
  | 0, _ => []
  | fuel + 1, s =>
    if s.left ≥ DESCRIPTOR then
      stepPlaces cfg optpkt s ++
        match decodeSharedStep cfg optpkt s with
        | .next s => loopPlaces cfg optpkt fuel s
        | .stop _ _ => []
    else []

/-- The places `getPktsByFPsAndHash` writes: `pf` moves on with every reference, and the first
that is not found is the last to be written. A lookup without a result has copied a string that
is longer than a place; it may still come to every reference. -/
def lookupPlaces (cfg : Config) (g : SharedDictionaries) (fpa : List PktChunk) : List Place :=
  match getPktsByFPsAndHash cfg g fpa with
  | some (_, pktfr) => (List.range pktfr.length).map (Prod.mk .pktfr)
  | none => (List.range fpa.length).map (Prod.mk .pktfr)

/-- The places a call of `uncomp` writes. -/
def tablePlaces (cfg : Config) (g : SharedDictionaries) (packet : Mem) (optpkt : Mem)
    (optlen : Nat) : List Place :=
  match decodeHeader cfg optpkt optlen packet with
  | (_, .stop _ _) => []
  | (_, .next d) =>
    loopPlaces cfg optpkt FUEL ⟨d, []⟩ ++
      match decodeLoop SharedDecoder.left (decodeSharedStep cfg optpkt) FUEL ⟨d, []⟩ with
      | (some _, _) => []
      | (none, s) =>
        if s.pktlen > cfg.MAXPKTSIZE ∨ s.orig > cfg.MAXPKTSIZE then []
        else lookupPlaces cfg g (s.fptopkt.map Prod.fst)

/-- Every place is one the table has. -/
def Inside (places : List Place) : Prop := ∀ place ∈ places, place.2 < MAX_FP_PER_PKT

section Inside

variable {places places' : List Place}

theorem inside_nil : Inside [] := fun _ h => absurd h List.not_mem_nil

theorem inside_append : Inside (places ++ places') ↔ Inside places ∧ Inside places' := by
  unfold Inside
  exact List.forall_mem_append

end Inside

/-! ### The loop -/

section Loop

variable {cfg : Config} {optpkt : Mem} {s s' : SharedDecoder}

theorem stepPlaces_inside_iff (cfg : Config) (optpkt : Mem) (s : SharedDecoder) :
    Inside (stepPlaces cfg optpkt s) ↔ s.fptopkt.length < MAX_FP_PER_PKT := by
  unfold Inside stepPlaces
  dsimp only
  split
  · simp
  · simp

/-- **The loop writes inside the tables** if and only if there is room for the descriptors that
are left. -/
theorem loopPlaces_inside_iff (optpkt : Mem) (hmax : cfg.MAXPKTSIZE ≤ 65534) (fuel : Nat)
    (hpkt : s.pktlen = s.orig) (h : s.fptopkt.length ≤ MAX_FP_PER_PKT) :
    Inside (loopPlaces cfg optpkt fuel s) ↔
      s.fptopkt.length + (walk cfg optpkt fuel s.cur s.orig).1.length ≤ MAX_FP_PER_PKT := by
  induction fuel generalizing s with
  | zero => exact iff_of_true inside_nil h
  | succ fuel ih =>
    rw [loopPlaces, walk]
    by_cases hleft : s.cur.left ≥ DESCRIPTOR
    · rw [if_pos hleft, if_pos hleft, inside_append, stepPlaces_inside_iff]
      dsimp only
      cases href : refused cfg optpkt s.cur s.orig with
      | true =>
        obtain ⟨s', hstop, -⟩ := decodeSharedStep_stops hmax href
        rw [hstop, if_pos rfl, List.length_singleton]
        exact and_iff_left inside_nil
      | false =>
        rw [if_neg (by decide), List.length_cons]
        by_cases hroom : s.fptopkt.length < MAX_FP_PER_PKT
        · obtain ⟨s', hnext, hcur, horig, hpkt', htable, -⟩ := decodeSharedStep_next hmax href hpkt
          have hlen : s'.fptopkt.length = s.fptopkt.length + 1 := by
            rw [htable, List.length_append, List.length_singleton]
          have hrest := ih hpkt' (by omega)
          rw [hcur, horig, hlen] at hrest
          rw [hnext]
          dsimp only
          rw [hrest, and_iff_right hroom, Nat.add_right_comm, Nat.add_assoc]
        · refine iff_of_false (fun hin => hroom hin.1) ?_
          omega
    · rw [if_neg hleft, if_neg hleft]
      exact iff_of_true inside_nil h

end Loop

/-! ### The whole call -/

section Call

variable {cfg : Config}

theorem getPktsByFPsAndHash_length {g : SharedDictionaries} {fpa : List PktChunk} {curr : Nat}
    {pktfr : List PktFrag} (h : getPktsByFPsAndHash cfg g fpa = some (curr, pktfr)) :
    pktfr.length ≤ fpa.length := by
  induction fpa generalizing curr pktfr with
  | nil =>
    cases h
    exact Nat.le_refl 0
  | cons c fpa ih =>
    have hone : 1 ≤ (c :: fpa).length := Nat.succ_le_succ (Nat.zero_le _)
    rw [getPktsByFPsAndHash] at h
    split at h
    · cases h
      exact hone
    · split at h
      · cases h
        exact hone
      · dsimp only at h
        split at h
        · cases h
        · obtain ⟨⟨curr', rest⟩, hrest, heq⟩ := Option.map_eq_some_iff.mp h
          cases heq
          exact Nat.succ_le_succ (ih hrest)

theorem lookupPlaces_inside (cfg : Config) (g : SharedDictionaries) {fpa : List PktChunk}
    (h : fpa.length ≤ MAX_FP_PER_PKT) : Inside (lookupPlaces cfg g fpa) := by
  intro place hplace
  unfold lookupPlaces at hplace
  split at hplace
  · rename_i curr pktfr hfound
    obtain ⟨i, hi, rfl⟩ := List.mem_map.mp hplace
    have hlen := getPktsByFPsAndHash_length hfound
    have hlt := List.mem_range.mp hi
    show i < MAX_FP_PER_PKT
    omega
  · obtain ⟨i, hi, rfl⟩ := List.mem_map.mp hplace
    have hlt := List.mem_range.mp hi
    show i < MAX_FP_PER_PKT
    omega

/-- Behind a loop that has stayed inside the tables, the lookup does too. -/
theorem tablePlaces_behind (g : SharedDictionaries) (optpkt : Mem) (hmax : cfg.MAXPKTSIZE ≤ 65534)
    {d : Decoder} (hpkt : d.pktlen = d.orig) (horig : d.orig ≤ cfg.MAXPKTSIZE)
    (hroom : (walk cfg optpkt FUEL d.cur d.orig).1.length ≤ MAX_FP_PER_PKT) :
    Inside (match decodeLoop SharedDecoder.left (decodeSharedStep cfg optpkt) FUEL ⟨d, []⟩ with
      | (some _, _) => []
      | (none, s) =>
        if s.pktlen > cfg.MAXPKTSIZE ∨ s.orig > cfg.MAXPKTSIZE then []
        else lookupPlaces cfg g (s.fptopkt.map Prod.fst)) := by
  obtain ⟨hgood, hbad⟩ := decodeSharedLoop_walk optpkt ⟨d, []⟩ hmax FUEL hpkt horig
  cases hok : (walk cfg optpkt FUEL d.cur d.orig).2 with
  | false =>
    obtain ⟨exit, s', hloop, -⟩ := hbad hok
    rw [hloop]
    exact inside_nil
  | true =>
    obtain ⟨s', hloop, -, -, -, htable, -⟩ := hgood hok
    rw [hloop]
    dsimp only
    split
    · exact inside_nil
    · apply lookupPlaces_inside
      rw [htable, List.nil_append, map_fst_table, List.length_map]
      exact hroom

/-- **A call writes inside its tables** if and only if the input has no more descriptors than
they have places. -/
theorem tablePlaces_inside_iff (hlimit : cfg.MAXPKTSIZE ≤ PKTSIZELIMIT) (g : SharedDictionaries)
    (packet optpkt : Mem) (optlen : UInt16) :
    Inside (tablePlaces cfg g packet optpkt optlen.toNat) ↔
      (layout cfg optpkt optlen.toNat).items.length ≤ MAX_FP_PER_PKT := by
  have hmax : cfg.MAXPKTSIZE ≤ 65534 := Nat.le_trans hlimit (by decide)
  unfold tablePlaces
  rcases decodeHeader_layout optpkt optlen.toNat packet hmax with ⟨⟨hash, d, hhead⟩, -, hitems⟩ |
    ⟨d, hhead, hhold, hfirst, hwalk⟩
  · rw [hhead, hitems]
    exact iff_of_true inside_nil (Nat.zero_le _)
  · have hloop := loopPlaces_inside_iff (s := ⟨d, []⟩) optpkt hmax FUEL
      (hhold.pktlen.trans hhold.orig.symm) (Nat.zero_le _)
    dsimp only at hloop
    rw [hwalk, List.length_nil, Nat.zero_add] at hloop
    rw [hhead]
    dsimp only
    rw [inside_append, hloop]
    refine ⟨And.left, fun hroom => ⟨hroom, ?_⟩⟩
    refine tablePlaces_behind g optpkt hmax (hhold.pktlen.trans hhold.orig.symm)
      (by rw [hhold.orig]; exact hfirst) ?_
    rw [hwalk]
    exact hroom

/-- With packets no longer than the arrays of the lookup, the calls that write outside the tables
are the ones that end as an overrun. -/
theorem uncomp_overrun_iff (hlimit : cfg.MAXPKTSIZE ≤ PKTSIZELIMIT) (H : PacketHash)
    (pd : Deduplicator) (g : SharedDictionaries) (packet optpkt : Mem) (optlen : UInt16)
    (hmode : cfg.shared_dictionary_mode = true) :
    (uncomp cfg H pd g packet optpkt optlen.toNat).exit = .overrun ↔
      ¬ Inside (tablePlaces cfg g packet optpkt optlen.toNat) := by
  have hmax : cfg.MAXPKTSIZE ≤ 65534 := Nat.le_trans hlimit (by decide)
  rw [uncomp, if_pos hmode, uncompShared_overrun_iff hmax, tablePlaces_inside_iff hlimit, Overruns,
    not_le]
  refine or_iff_left fun hbad => hbad.2 (fragsFit_of_le fun item hitem => ?_)
  exact Nat.le_trans (layout_span hbad.1 item hitem) hlimit

end Call

/-! ### An input with one descriptor too many -/

/-- Null bytes. Every 18 of them are a descriptor for one byte, with nothing behind it. -/
def nulls : Mem := fun _ => 0

/-- As many such descriptors as the tables have places. -/
theorem tablePlaces_inside_thirtyTwo :
    (smallBox true).MAXPKTSIZE ≤ PKTSIZELIMIT ∧
      Inside (tablePlaces (smallBox true) (initDictionary zeroed zeroed) nulls nulls 582) :=
  ⟨by decide, (tablePlaces_inside_iff (by decide) (initDictionary zeroed zeroed) nulls nulls
    582).mpr (by decide)⟩

/-- One more is stored behind the end of `fptopkt`. -/
theorem thirtyThree_not_inside :
    ¬ ∀ (cfg : Config) (g : SharedDictionaries) (packet optpkt : Mem) (optlen : UInt16),
      cfg.shared_dictionary_mode = true → cfg.MAXPKTSIZE ≤ PKTSIZELIMIT →
      Inside (tablePlaces cfg g packet optpkt optlen.toNat) := by
  intro hall
  have hin := hall (smallBox true) (initDictionary zeroed zeroed) nulls nulls 600 rfl
    (by decide)
  have hmem : (Table.fptopkt, 32) ∈ tablePlaces (smallBox true) (initDictionary zeroed zeroed)
      nulls nulls (600 : UInt16).toNat := by decide
  exact absurd (hin _ hmem) (by decide)

end Solowan.Codec
