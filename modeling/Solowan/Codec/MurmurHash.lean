/-
The hash of a packet (`MurmurHash3_x86_32`, `lib/MurmurHash3.c`).

It goes in front of every compressed packet, and `uncomp` accepts what it has decoded when that
has the hash that was sent. Packets of four bytes or more may share a hash; here is what packets
of one length that do so have in common.

* `words_apart`: packets of one length with one hash are the same, or differ in two of their
  32-bit words at least.
* `uncomp_accepts`: what `uncomp` accepts has the hash it was sent, whatever else has become of
  the input, and whatever the dictionary holds.
* `uncomp_detects`: so a packet that is accepted in place of another of its length is damaged in
  two words.
-/

import Solowan.Codec.Modes
import Solowan.Memory.Mixing

namespace Solowan.Codec

open Function Solowan.Memory Solowan.Dictionary

/-! ### The function -/

def rotl32 (x r : UInt32) : UInt32 := (x <<< r) ||| (x >>> (32 - r))

/-- `getblock32`: block `i` of the packet. The loop of the source counts from `-nblocks` up to 0
and takes the blocks relative to their end. -/
def getblock32 (data : Mem) (i : Nat) : UInt32 := UInt32.ofNat (loadLE data (4 * i) 4)

def fmix32 (h : UInt32) : UInt32 :=
  let h := h ^^^ (h >>> 16)
  let h := h * 0x85ebca6b
  let h := h ^^^ (h >>> 13)
  let h := h * 0xc2b2ae35
  h ^^^ (h >>> 16)

/-- `k1 *= c1; k1 = ROTL32(k1,15); k1 *= c2`. -/
def scramble (k1 : UInt32) : UInt32 :=
  let k1 := k1 * 0xcc9e2d51
  let k1 := rotl32 k1 15
  k1 * 0x1b873593

/-- One round of the loop. -/
def mixBlock (h1 k1 : UInt32) : UInt32 :=
  let h1 := h1 ^^^ scramble k1
  let h1 := rotl32 h1 13
  h1 * 5 + 0xe6546b64

/-- The switch, whose cases fall through: the word made of the bytes behind the last block. -/
def tailWord (tail : Mem) (len : Nat) : UInt32 :=
  let k1 : UInt32 := 0
  let k1 := if len % 4 ≥ 3 then k1 ^^^ ((tail 2).toUInt32 <<< 16) else k1
  let k1 := if len % 4 ≥ 2 then k1 ^^^ ((tail 1).toUInt32 <<< 8) else k1
  if len % 4 ≥ 1 then k1 ^^^ (tail 0).toUInt32 else k1

/-- What its last case does with that word. -/
def mixTail (tail : Mem) (len : Nat) (h1 : UInt32) : UInt32 :=
  if len % 4 ≥ 1 then h1 ^^^ scramble (tailWord tail len) else h1

def murmurHash3_x86_32 (data : Mem) (len : Nat) (seed : UInt32) : UInt32 :=
  let nblocks := len / 4
  let h1 := ((List.range nblocks).map (getblock32 data)).foldl mixBlock seed
  let h1 := mixTail (window data (4 * nblocks)) len h1
  fmix32 (h1 ^^^ UInt32.ofNat len)

def SEED : UInt32 := 0x8BADF00D

/-- The hash of a packet, as all its users take it. -/
def packetHash : PacketHash := fun packet =>
  murmurHash3_x86_32 (ofList packet) packet.length SEED

/-- The five bytes of `hello`. -/
example : murmurHash3_x86_32 (ofList [104, 101, 108, 108, 111]) 5 0 = 0x248bfa47 := by
  decide +kernel

/-! ### Nothing is merged -/

section Steps

/-- A function on words merges nothing when it does so on their bits. -/
theorem injective_of_toBitVec {f : UInt32 → UInt32} {g : BitVec 32 → BitVec 32}
    (hfg : ∀ x, (f x).toBitVec = g x.toBitVec) (hg : Injective g) : Injective f := by
  intro x y hxy
  have h := congrArg UInt32.toBitVec hxy
  rw [hfg, hfg] at h
  exact UInt32.toBitVec_inj.mp (hg h)

theorem rotl32_injective {r : UInt32} (hpos : 0 < r.toNat) (hr : r.toNat < 32) :
    Injective (rotl32 · r) := by
  have hmod : (r.toBitVec % 32).toNat = r.toNat := Nat.mod_eq_of_lt hr
  have hsub : ((32 - r).toBitVec % 32).toNat = 32 - r.toNat := by
    have h : (32 - r).toNat = 32 - r.toNat :=
      UInt32.toNat_sub_of_le 32 r (UInt32.le_iff_toNat_le.mpr (Nat.le_of_lt hr))
    exact (Nat.mod_eq_of_lt (by rw [UInt32.toNat_toBitVec, h]; exact Nat.sub_lt (by decide) hpos)).trans h
  refine injective_of_toBitVec (fun x => ?_) (rotate_injective hr)
  rw [rotl32, UInt32.toBitVec_or, UInt32.toBitVec_shiftLeft, UInt32.toBitVec_shiftRight,
    BitVec.shiftLeft_eq', BitVec.ushiftRight_eq', hmod, hsub]

theorem mul_injective {c : UInt32} (hc : c.toNat % 2 = 1) : Injective fun x : UInt32 => x * c :=
  injective_of_toBitVec (fun _ => rfl) (mul_odd_injective hc)

theorem shift_injective {s : UInt32} (hpos : 0 < s.toNat) (hs : s.toNat < 32) :
    Injective fun x : UInt32 => x ^^^ (x >>> s) := by
  have hmod : (s.toBitVec % 32).toNat = s.toNat := Nat.mod_eq_of_lt hs
  refine injective_of_toBitVec (fun x => ?_) (xorShiftRight_injective hpos)
  rw [UInt32.toBitVec_xor, UInt32.toBitVec_shiftRight, BitVec.ushiftRight_eq', hmod]

theorem scramble_injective : Injective scramble :=
  ((mul_injective (by decide)).comp (rotl32_injective (by decide) (by decide))).comp
    (mul_injective (by decide))

theorem fmix32_injective : Injective fmix32 :=
  ((((shift_injective (by decide) (by decide)).comp (mul_injective (by decide))).comp
    (shift_injective (by decide) (by decide))).comp (mul_injective (by decide))).comp
    (shift_injective (by decide) (by decide))

theorem xor_injective (c : UInt32) : Injective fun x : UInt32 => c ^^^ x :=
  fun _ _ h => (UInt32.xor_right_inj c).mp h

/-- **A round** merges neither two words nor two states. -/
theorem mixBlock_absorbs : Absorbs mixBlock := by
  have hround : Injective fun h1 : UInt32 => rotl32 h1 13 * 5 + 0xe6546b64 := by
    have hadd : Injective fun x : UInt32 => x + 0xe6546b64 :=
      fun _ _ h => (UInt32.add_left_inj _).mp h
    exact (hadd.comp (mul_injective (by decide))).comp (rotl32_injective (by decide) (by decide))
  constructor
  · intro h1
    exact hround.comp ((xor_injective h1).comp scramble_injective)
  · intro k1 h h' heq
    have hx := hround heq
    exact (UInt32.xor_left_inj _).mp hx

end Steps

/-! ### Packets with one hash -/

section Apart

variable {m m' : Mem} {i : Nat}

/-- A block that is the same has the same bytes. -/
theorem bytes_of_getblock32 (h : getblock32 m i = getblock32 m' i) :
    ∀ k, k < 4 → m (4 * i + k) = m' (4 * i + k) := by
  have hlt : ∀ m : Mem, loadLE m (4 * i) 4 < 2 ^ 32 := by
    intro m
    have h := beNat_lt (slice m (4 * i) 4).reverse
    rwa [List.length_reverse, length_slice] at h
  have hload : loadLE m (4 * i) 4 = loadLE m' (4 * i) 4 := by
    have hnat := congrArg UInt32.toNat h
    rwa [getblock32, getblock32, UInt32.toNat_ofNat_of_lt' (hlt m),
      UInt32.toNat_ofNat_of_lt' (hlt m')] at hnat
  exact fun k hk => slice_eq_apply (loadLE_injective hload) hk

/-- Each byte behind the last block has its place in the word of the switch. -/
theorem getLsbD_tailWord {tail : Mem} {len j : Nat} (hi : i < len % 4) (hj : j < 8) :
    (tailWord tail len).toBitVec.getLsbD (8 * i + j) = (tail i).toBitVec.getLsbD j := by
  have hlt : len % 4 < 4 := Nat.mod_lt len (by decide)
  have hplace : i = 0 ∨ i = 1 ∨ i = 2 := by omega
  have h8 : 8 + j < 16 := by omega
  have h16 : 16 + j < 32 := by omega
  have h32 : 8 + j < 32 := by omega
  have hj16 : j < 16 := by omega
  have hj32 : j < 32 := by omega
  unfold tailWord
  rcases hplace with rfl | rfl | rfl
  · split_ifs <;> simp [hj, hj16, hj32] <;> omega
  · have hpos : len % 4 ≥ 1 := by omega
    have htwo : len % 4 ≥ 2 := hi
    rw [if_pos hpos, if_pos htwo]
    split_ifs <;> simp [h8, h32]
  · have hpos : len % 4 ≥ 1 := by omega
    have htwo : len % 4 ≥ 2 := by omega
    have hthree : len % 4 ≥ 3 := hi
    have hone : (tail 1).toBitVec.getLsbD (16 + j - 8) = false :=
      BitVec.getLsbD_of_ge _ _ (by omega)
    have hzero : (tail 0).toBitVec.getLsbD (16 + j) = false :=
      BitVec.getLsbD_of_ge _ _ (by omega)
    rw [if_pos hpos, if_pos htwo, if_pos hthree]
    simp [h16, hone, hzero]

theorem bytes_of_tailWord {len : Nat} (h : tailWord m len = tailWord m' len) :
    ∀ k, k < len % 4 → m k = m' k := by
  intro k hk
  refine UInt8.toBitVec_inj.mp (BitVec.eq_of_getLsbD_eq fun j hj => ?_)
  rw [← getLsbD_tailWord hk hj, ← getLsbD_tailWord hk hj, h]

theorem mixTail_eq (tail : Mem) (len : Nat) (h1 : UInt32) :
    mixTail tail len h1 = h1 ^^^ scramble (tailWord tail len) := by
  unfold mixTail
  split
  · rfl
  · rename_i hno
    have hzero : tailWord tail len = 0 := by
      unfold tailWord
      rw [if_neg hno, if_neg (by omega), if_neg (by omega)]
    rw [hzero]
    exact UInt32.xor_zero.symm

/-- Memories in which the blocks and the word behind them are the same, are the same up to there. -/
theorem agree_of_words {len : Nat} (hblocks : ∀ a, a < len / 4 → getblock32 m a = getblock32 m' a)
    (htail : tailWord (window m (4 * (len / 4))) len = tailWord (window m' (4 * (len / 4))) len) :
    ∀ i, i < len → m i = m' i := by
  intro i hi
  by_cases hin : i < 4 * (len / 4)
  · have h := bytes_of_getblock32 (hblocks (i / 4) (by omega)) (i % 4) (Nat.mod_lt i (by decide))
    rwa [Nat.div_add_mod] at h
  · have h := bytes_of_tailWord htail (i - 4 * (len / 4)) (by omega)
    rwa [window, window, Nat.add_sub_cancel' (Nat.le_of_not_lt hin)] at h

/-- Two states and two last words that end in one hash. -/
theorem tails_of_murmurHash3 {len : Nat} {seed : UInt32}
    (h : murmurHash3_x86_32 m len seed = murmurHash3_x86_32 m' len seed) :
    ((List.range (len / 4)).map (getblock32 m)).foldl mixBlock seed ^^^
        scramble (tailWord (window m (4 * (len / 4))) len) =
      ((List.range (len / 4)).map (getblock32 m')).foldl mixBlock seed ^^^
        scramble (tailWord (window m' (4 * (len / 4))) len) := by
  have hmix := (UInt32.xor_left_inj _).mp (fmix32_injective h)
  rwa [mixTail_eq, mixTail_eq] at hmix

end Apart

/-- The packets differ in the 32-bit word number `a`. -/
def DifferIn (p q : List UInt8) (a : Nat) : Prop := ∃ i, i / 4 = a ∧ p[i]? ≠ q[i]?

section Packets

variable {p q : List UInt8}

theorem differIn_of_byte {i : Nat} (h : ofList p i ≠ ofList q i) : DifferIn p q (i / 4) := by
  refine ⟨i, rfl, fun heq => h ?_⟩
  rw [ofList, ofList, List.getD_eq_getElem?_getD, List.getD_eq_getElem?_getD, heq]

theorem differIn_of_getblock32 {a : Nat}
    (h : getblock32 (ofList p) a ≠ getblock32 (ofList q) a) : DifferIn p q a := by
  by_contra hno
  refine h (congrArg UInt32.ofNat (loadLE_congr fun k hk => ?_))
  by_contra hbyte
  have hplace : (4 * a + k) / 4 = a := by omega
  exact hno (hplace ▸ differIn_of_byte hbyte)

theorem differIn_of_tailWord {n len : Nat}
    (h : tailWord (window (ofList p) (4 * n)) len ≠ tailWord (window (ofList q) (4 * n)) len) :
    DifferIn p q n := by
  by_contra hno
  have hbyte : ∀ k, k < 3 → window (ofList p) (4 * n) k = window (ofList q) (4 * n) k := by
    intro k hk
    by_contra hne
    have hplace : (4 * n + k) / 4 = n := by omega
    exact hno (hplace ▸ differIn_of_byte hne)
  apply h
  unfold tailWord
  rw [hbyte 0 (by decide), hbyte 1 (by decide), hbyte 2 (by decide)]

/-- **Packets of one length with one hash** are the same, or differ in two of their words. -/
theorem words_apart (hlen : p.length = q.length) (h : packetHash p = packetHash q) :
    p = q ∨ ∃ a b, a ≠ b ∧ DifferIn p q a ∧ DifferIn p q b := by
  unfold packetHash at h
  rw [← hlen] at h
  have hmix := tails_of_murmurHash3 h
  generalize hn : p.length / 4 = n at hmix
  have hsame : ∀ a, a < n →
      ((List.range n).map (getblock32 (ofList p)))[a]? ≠
        ((List.range n).map (getblock32 (ofList q)))[a]? → DifferIn p q a := by
    intro a ha hne
    refine differIn_of_getblock32 fun heq => hne ?_
    rw [List.getElem?_map, List.getElem?_map, List.getElem?_range ha]
    exact congrArg some heq
  have hbound : ∀ a, ((List.range n).map (getblock32 (ofList p)))[a]? ≠
      ((List.range n).map (getblock32 (ofList q)))[a]? → a < n := by
    intro a hne
    by_contra hge
    refine hne ?_
    rw [List.getElem?_eq_none (by simpa using hge), List.getElem?_eq_none (by simpa using hge)]
  have hlist : ((List.range n).map (getblock32 (ofList p))).length =
      ((List.range n).map (getblock32 (ofList q))).length := by
    rw [List.length_map, List.length_map]
  by_cases htail : tailWord (window (ofList p) (4 * n)) p.length =
      tailWord (window (ofList q) (4 * n)) p.length
  · rw [htail] at hmix
    rcases mixBlock_absorbs.two_apart hlist ((UInt32.xor_left_inj _).mp hmix) with
      hwords | ⟨a, b, hab, ha, hb⟩
    · refine Or.inl (List.ext_getElem hlen fun i hi hi' => ?_)
      have hblocks : ∀ a, a < p.length / 4 →
          getblock32 (ofList p) a = getblock32 (ofList q) a :=
        fun a ha => (List.map_inj_left.mp hwords) a (List.mem_range.mpr (hn ▸ ha))
      have hbyte := agree_of_words hblocks (hn ▸ htail) i hi
      rwa [ofList, ofList, List.getD_eq_getElem _ _ hi, List.getD_eq_getElem _ _ hi'] at hbyte
    · exact Or.inr ⟨a, b, hab, hsame a (hbound a ha) ha, hsame b (hbound b hb) hb⟩
  · -- The states in front of the last words make up for the difference.
    have hstates : ((List.range n).map (getblock32 (ofList p))).foldl mixBlock SEED ≠
        ((List.range n).map (getblock32 (ofList q))).foldl mixBlock SEED := by
      intro heq
      rw [heq] at hmix
      exact htail (scramble_injective ((UInt32.xor_right_inj _).mp hmix))
    obtain ⟨a, ha⟩ : ∃ a : Nat, ((List.range n).map (getblock32 (ofList p)))[a]? ≠
        ((List.range n).map (getblock32 (ofList q)))[a]? := by
      by_contra hno
      simp only [not_exists, not_not] at hno
      exact hstates (congrArg _ (List.ext_getElem? hno))
    have hlast := differIn_of_tailWord htail
    exact Or.inr ⟨a, n, Nat.ne_of_lt (hbound a ha), hsame a (hbound a ha) ha, hlast⟩

end Packets

/-! ### What `uncomp` accepts -/

section Accepting

variable {cfg : Config} {H : PacketHash} {optpkt : Mem} {optlen : Nat}

/-- The packet, with the code that says so, has the hash. -/
def Uncompressed.Hashes (H : PacketHash) (hash : UInt32) (r : Uncompressed) : Prop :=
  r.exit = .ok → H (slice r.packet 0 r.pktlen) = hash

theorem finishUncomp_hashes (pd : Deduplicator) (g : SharedDictionaries) (hash : UInt32)
    (optlen : Nat) (d : Decoder) : (finishUncomp cfg H pd g hash optlen d).Hashes H hash := by
  unfold finishUncomp
  dsimp only
  split
  · rename_i hhash
    exact fun _ => hhash
  · exact UncompExit.noConfusion

theorem failUncomp_hashes (pd : Deduplicator) (g : SharedDictionaries) (hash : UInt32)
    {exit : UncompExit} (h : exit ≠ .ok) (d : Decoder) :
    (failUncomp pd g exit d).Hashes H hash := fun hok => absurd hok h

theorem resolveFrags_hashes (pd : Deduplicator) (g : SharedDictionaries) (hash : UInt32)
    (optlen : Nat) (s : SharedDecoder) :
    (resolveFrags cfg H pd g hash optlen s).Hashes H hash := by
  unfold resolveFrags
  split
  · exact failUncomp_hashes pd g hash UncompExit.noConfusion _
  · split
    · exact failUncomp_hashes pd g hash UncompExit.noConfusion _
    · split
      · exact failUncomp_hashes pd g hash UncompExit.noConfusion _
      · split
        · exact failUncomp_hashes pd g hash UncompExit.noConfusion _
        · exact finishUncomp_hashes pd g hash optlen _

/-- The hash is taken from the first four bytes, and the loop comes after them. -/
theorem decodeHeader_hash (cfg : Config) (optpkt : Mem) (optlen : Nat) (output : Mem) :
    (decodeHeader cfg optpkt optlen output).1 = ntoh32 optpkt 0 ∧
      ∀ exit d, (decodeHeader cfg optpkt optlen output).2 = .stop exit d → exit ≠ .ok := by
  unfold decodeHeader
  dsimp only
  split
  · split
    · refine ⟨rfl, ?_⟩
      rintro exit d ⟨⟩
      exact UncompExit.noConfusion
    · refine ⟨rfl, ?_⟩
      rintro exit d ⟨⟩
  · refine ⟨rfl, ?_⟩
    rintro exit d ⟨⟩

theorem uncompThread_hashes (pd : Deduplicator) (g : SharedDictionaries) (output : Mem) :
    (uncompThread cfg H pd g output optpkt optlen).Hashes H (ntoh32 optpkt 0) := by
  obtain ⟨hhash, hstop⟩ := decodeHeader_hash cfg optpkt optlen output
  unfold uncompThread
  split
  · rename_i exit d hhead
    exact failUncomp_hashes pd g _ (hstop exit d (by rw [hhead])) d
  · rename_i hash d hhead
    rw [hhead] at hhash
    subst hhash
    split
    · rename_i exit d' hloop
      exact failUncomp_hashes pd g _
        (decodeLoop_exit (fun hs => decodeStep_exit cfg pd optpkt hs) hloop) d'
    · split
      · exact finishUncomp_hashes pd g _ optlen _
      · exact failUncomp_hashes pd g _ UncompExit.noConfusion _

theorem uncompShared_hashes (pd : Deduplicator) (g : SharedDictionaries) (output : Mem) :
    (uncompShared cfg H pd g output optpkt optlen).Hashes H (ntoh32 optpkt 0) := by
  obtain ⟨hhash, hstop⟩ := decodeHeader_hash cfg optpkt optlen output
  unfold uncompShared
  split
  · rename_i exit d hhead
    exact failUncomp_hashes pd g _ (hstop exit d (by rw [hhead])) d
  · rename_i hash d hhead
    rw [hhead] at hhash
    subst hhash
    rcases hloop : decodeLoop SharedDecoder.left (decodeSharedStep cfg optpkt) FUEL ⟨d, []⟩ with
      ⟨_ | exit, s⟩
    · dsimp only
      split
      · exact failUncomp_hashes pd g _ UncompExit.noConfusion _
      · exact resolveFrags_hashes pd g _ optlen _
    · dsimp only
      split
      · exact failUncomp_hashes pd g _ UncompExit.noConfusion _
      · exact failUncomp_hashes pd g _
          (decodeLoop_exit (fun hs => decodeSharedStep_exit cfg optpkt hs) hloop) s.toDecoder

/-- **What is accepted** has the hash it was sent. -/
theorem uncomp_accepts (pd : Deduplicator) (g : SharedDictionaries) (output : Mem) :
    (uncomp cfg H pd g output optpkt optlen).Hashes H (ntoh32 optpkt 0) := by
  unfold uncomp
  dsimp only
  split
  · exact uncompShared_hashes _ g output
  · exact uncompThread_hashes _ g output

end Accepting

/-- **Damage is detected.** Of a packet that was sent, the first four bytes arrive, with its
hash. Whatever the other bytes have become, and whatever the dictionary holds: a packet that is
accepted and has the length of the one sent is that one, or differs from it in two 32-bit words
at least. -/
theorem uncomp_detects (cfg : Config) (pd : Deduplicator) (g : SharedDictionaries)
    (output optpkt : Mem) (optlen : Nat) (p : List UInt8)
    (hsent : ntoh32 optpkt 0 = packetHash p)
    (hok : (uncomp cfg packetHash pd g output optpkt optlen).exit = .ok)
    (hlen : (uncomp cfg packetHash pd g output optpkt optlen).pktlen = p.length) :
    slice (uncomp cfg packetHash pd g output optpkt optlen).packet 0 p.length = p ∨
      ∃ a b, a ≠ b ∧
        DifferIn (slice (uncomp cfg packetHash pd g output optpkt optlen).packet 0 p.length) p a ∧
        DifferIn (slice (uncomp cfg packetHash pd g output optpkt optlen).packet 0 p.length) p b := by
  have hhash := uncomp_accepts pd g output hok
  rw [hlen] at hhash
  exact words_apart (length_slice _ _ _) (hhash.trans hsent)

/-- A dictionary with one packet. -/
def oneStored : Deduplicator :=
  (updateCaches (smallBox false) packetHash (newDeduplicator zeroed)
    (initDictionary zeroed zeroed) (List.replicate 64 7)).1

/-- Eight bytes in front of the packet that is stored. -/
def eightAndStored : List UInt8 := [1, 2, 3, 4, 5, 6, 7, 8] ++ List.replicate 64 7

/-- It arrives with other bytes in its first two words, which have been chosen so that the state
of the hash behind them is the same. -/
def damagedInput : Mem :=
  ofList (encode (packetHash eightAndStored)
    [{ fp := fullRfp (List.replicate 64 7)
       hash := packetHash (List.replicate 64 7)
       left := 0
       right := 63
       lit := [9, 2, 3, 4, 4, 108, 30, 63]
       body := List.replicate 64 7 }] [])

def damaged : Uncompressed :=
  uncomp (smallBox false) packetHash oneStored (initDictionary zeroed zeroed) (ofList [])
    damagedInput 32

/-- Damage in two words that goes unnoticed. -/
theorem uncomp_detects_damaged :
    damaged.exit = .ok ∧ damaged.pktlen = 72 ∧
      slice damaged.packet 0 72 ≠ eightAndStored ∧
        ∃ a b, a ≠ b ∧ DifferIn (slice damaged.packet 0 72) eightAndStored a ∧
          DifferIn (slice damaged.packet 0 72) eightAndStored b := by
  have hsent : ntoh32 damagedInput 0 = packetHash eightAndStored := by decide +kernel
  have hrun : damaged.exit = .ok ∧ damaged.pktlen = 72 ∧
      slice damaged.packet 0 72 ≠ eightAndStored := by decide +kernel
  obtain ⟨hok, hlen, hother⟩ := hrun
  have hwords := uncomp_detects (smallBox false) oneStored (initDictionary zeroed zeroed)
    (ofList []) damagedInput 32 eightAndStored hsent hok hlen
  exact ⟨hok, hlen, hother, hwords.resolve_left hother⟩

end Solowan.Codec
