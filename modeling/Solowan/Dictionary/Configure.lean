/-
The sizes of the dictionaries, from the configuration file to the tables
(`configure`, `opennopd/configure.c`; `init_common`, `lib/dedup_common.c`).

The three sizes are rounded down to powers of two one by one, and 0 is logged and kept. The
fingerprint store has as many buckets as their 32-bit product says; the limits that
`init_common` applies to two of them are not applied there. The hash of a fingerprint is masked
with the size less one, and eight further bits are then mixed in.

* `configure_accepts`: whatever the three values are, they are accepted.
* `hashFPStore_lt`, `hashFPStore_ge`: every bucket is inside the table if it has 256 buckets,
  and some bucket is not if it has fewer, or none.
* `configured_inRange_iff`: the tables are indexed inside their bounds if and only if the product
  of the three sizes is from 256 up to 2^31.
-/

import Mathlib.Tactic.IntervalCases
import Solowan.Dictionary.Fingerprint
import Solowan.Memory.CString

namespace Solowan.Dictionary

open Solowan.Memory

/-! ### The configuration file -/

/-- What `configure` sets: its arguments, the switches, and the variables it keeps from one line
to the next. -/
structure Settings where
  localID : UInt32
  packet_number : UInt32
  packet_size : UInt32
  thr_num : UInt32
  fpPerPkt : UInt32
  fpsFactor : UInt32
  compression : Bool
  deduplication : Bool
  packetPipeline : Bool
  shareddict : Bool
  tempIP : UInt32
  checked : Bool
  num_pkts : UInt32
  pkt_size : UInt32

def PACKET_SIZE : UInt32 := 1500
def PACKET_NUMBER : UInt32 := 131072
def DEF_THR_NUM : UInt32 := 1
def DEF_FP_PER_PKT : UInt32 := 32
def DEF_FPS_FACTOR : UInt32 := 2

/-- `__builtin_clz`, of a number that is not 0. -/
def clz (x : UInt32) : UInt32 := 31 - UInt32.ofNat x.toNat.log2

def roundDownToPowerOf2 (x : UInt32) : UInt32 := 0x80000000 >>> clz x

/-- `*fpPerPkt` and `*fpsFactor`, once the value is read. -/
def roundedValue (value : UInt32) : UInt32 :=
  if value > 0 then roundDownToPowerOf2 value else value

/-- `*packet_number`, once `num_pkts` is read. -/
def packetNumber (num_pkts packet_number : UInt32) : UInt32 :=
  if num_pkts > 0 then roundDownToPowerOf2 num_pkts else packet_number

/-- The delimiters of a line. -/
def isDelimiter (c : Char) : Bool := c = '\t' || c = ' ' || c = '=' || c = '\n' || c = '\r'

/-- A part of an address in dotted notation. -/
def inetPart (s : List Char) : Option UInt32 :=
  if s ≠ [] ∧ s.all Char.isDigit ∧ (s.head? = some '0' → s.length = 1) then
    let n := s.foldl (fun n c => 10 * n + (c.toNat - 48)) 0
    if n ≤ 255 then some (UInt32.ofNat n) else none
  else none

/-- `inet_pton(AF_INET, ..)`: the address, in the byte order of the network. -/
def inetPton (s : List Char) : Option UInt32 :=
  match (s.splitOn '.').map inetPart with
  | [some a, some b, some c, some d] => some (a ||| b <<< 8 ||| c <<< 16 ||| d <<< 24)
  | _ => none

/-- The branch for `optimization`. -/
def setOptimization (c : Settings) (value : String) : Settings :=
  if value = "compression" then { c with compression := true, deduplication := false }
  else if value = "deduplication" then { c with deduplication := true, compression := false }
  else if value = "combined" then { c with deduplication := true, compression := true }
  else
    { c with
      compression := false
      deduplication := false
      packetPipeline := c.packetPipeline || value = "pipeline" }

/-- The branch for `localid`. -/
def setLocalid (c : Settings) (value : String) : Settings :=
  match inetPton value.toList with
  | none => c
  | some ip =>
    if ip ≠ 16777343 then { c with tempIP := ip, localID := ip, checked := true }
    else { c with tempIP := ip }

/-- The branches, by the first token. A value that is no number leaves the variable as it is. -/
def setValue (c : Settings) (token value : String) : Settings :=
  let read := fun old => (sscanfUnsigned value).getD old
  if token = "optimization" then setOptimization c value
  else if token = "dictionary" then
    if value = "shared" then { c with shareddict := true }
    else if value = "thread" then { c with shareddict := false }
    else c
  else if token = "localid" then setLocalid c value
  else if token = "thrnum" then { c with thr_num := read c.thr_num }
  else if token = "fp_per_pkt" then { c with fpPerPkt := roundedValue (read c.fpPerPkt) }
  else if token = "fps_factor" then { c with fpsFactor := roundedValue (read c.fpsFactor) }
  else if token = "num_pkt_cache_size" then
    let num_pkts := read c.num_pkts
    { c with num_pkts := num_pkts, packet_number := packetNumber num_pkts c.packet_number }
  else
    let pkt_size := read c.pkt_size
    { c with
      pkt_size := pkt_size
      packet_size := if pkt_size > 0 then pkt_size else c.packet_size }

/-- The tokens that take a value. -/
def settingNames : List String :=
  ["optimization", "dictionary", "localid", "thrnum", "fp_per_pkt", "fps_factor",
    "num_pkt_cache_size", "pkt_size"]

/-- A line of the file. The value is used without looking whether there is one, so that a line
that ends behind the name is not survived. -/
def configureLine (c : Settings) (line : String) : Option Settings :=
  match (tokens isDelimiter line.toList).map String.ofList with
  | [] => some c
  | token :: values =>
    if token.toList.head? = some '#' ∨ token ∉ settingNames then some c
    else values.head?.map (setValue c token)

/-- The settings `main` starts from. -/
def Settings.default : Settings where
  localID := 0
  packet_number := PACKET_NUMBER
  packet_size := PACKET_SIZE
  thr_num := DEF_THR_NUM
  fpPerPkt := DEF_FP_PER_PKT
  fpsFactor := DEF_FPS_FACTOR
  compression := true
  deduplication := true
  packetPipeline := false
  shareddict := false
  tempIP := 0
  checked := false
  num_pkts := 0
  pkt_size := 0

/-- `configure`, on the lines of a file that could be opened: the settings, and the result. -/
def configure (lines : List String) : Option (Settings × Nat) :=
  (lines.foldlM configureLine Settings.default).map fun c => (c, if c.checked then 0 else 1)

/-! ### The tables -/

def MAX_FPS_FACTOR : Nat := 4

/-- `init_common`. `FPSFACTOR`, which is limited to `MAX_FPS_FACTOR`, is not used again. -/
def initCommon (pktStoreSize pktSize fpPerPkt fpsFactor : UInt32) (shareddict : Bool) :
    Config where
  MAXPKTSIZE := pktSize.toNat
  PKTSTORESIZE := pktStoreSize.toNat
  FPSTORESIZE := (fpPerPkt * pktStoreSize * fpsFactor).toNat
  FPPERPKT := min fpPerPkt.toNat MAX_FP_PER_PKT
  shared_dictionary_mode := shareddict

/-- The tables that are set up for the values of `num_pkt_cache_size`, `fp_per_pkt` and
`fps_factor` in the file. -/
def configured (num_pkt_cache_size fp_per_pkt fps_factor pkt_size : UInt32) (shareddict : Bool) :
    Config :=
  initCommon (packetNumber num_pkt_cache_size PACKET_NUMBER) pkt_size (roundedValue fp_per_pkt)
    (roundedValue fps_factor) shareddict

/-- **All values are accepted**, 0 among them, in a file that names this box. -/
theorem configure_accepts {lines : List String} {ip a b c : String} {n f s address : UInt32}
    (hlines : lines.map (fun line => (tokens isDelimiter line.toList).map String.ofList) =
      [["localid", ip], ["num_pkt_cache_size", a], ["fp_per_pkt", b], ["fps_factor", c]])
    (hip : inetPton ip.toList = some address) (hne : address ≠ 16777343)
    (ha : sscanfUnsigned a = some n) (hb : sscanfUnsigned b = some f)
    (hc : sscanfUnsigned c = some s) :
    ∃ p, configure lines = some (p, 0) ∧ ∀ pkt_size shareddict,
      initCommon p.packet_number pkt_size p.fpPerPkt p.fpsFactor shareddict =
        configured n f s pkt_size shareddict := by
  obtain ⟨l₁, l₂, l₃, l₄, rfl⟩ : ∃ l₁ l₂ l₃ l₄, lines = [l₁, l₂, l₃, l₄] := by
    have hlen := congrArg List.length hlines
    rw [List.length_map] at hlen
    rcases lines with _ | ⟨l₁, _ | ⟨l₂, _ | ⟨l₃, _ | ⟨l₄, _ | ⟨l₅, lines⟩⟩⟩⟩⟩ <;> simp at hlen
    exact ⟨l₁, l₂, l₃, l₄, rfl⟩
  simp only [List.map_cons, List.map_nil, List.cons.injEq, and_true] at hlines
  obtain ⟨h₁, h₂, h₃, h₄⟩ := hlines
  have hline : ∀ (c : Settings) (line token value : String),
      (tokens isDelimiter line.toList).map String.ofList = [token, value] →
      token.toList.head? ≠ some '#' → token ∈ settingNames →
      configureLine c line = some (setValue c token value) := by
    intro c line token value htokens hcomment hname
    simp [configureLine, htokens, hcomment, hname]
  refine ⟨setValue (setValue (setValue (setValue Settings.default "localid" ip)
    "num_pkt_cache_size" a) "fp_per_pkt" b) "fps_factor" c, ?_, ?_⟩
  · have hchecked : (setValue (setValue (setValue (setValue Settings.default "localid" ip)
        "num_pkt_cache_size" a) "fp_per_pkt" b) "fps_factor" c).checked = true := by
      simp [setValue, setLocalid, hip, hne]
    simp only [configure, List.foldlM_cons, List.foldlM_nil,
      hline _ _ _ _ h₁ (by decide) (by decide), hline _ _ _ _ h₂ (by decide) (by decide),
      hline _ _ _ _ h₃ (by decide) (by decide), hline _ _ _ _ h₄ (by decide) (by decide)]
    show some (_, if (setValue _ "fps_factor" c).checked then 0 else 1) = some (_, 0)
    rw [if_pos hchecked]
  · intro pkt_size shareddict
    simp [setValue, setLocalid, hip, hne, ha, hb, hc, configured, Settings.default]

/-! ### The sizes -/

section Sizes

variable {x n f s : UInt32}

/-- A power of two that an `unsigned int` holds. -/
def PowerOfTwo (n : Nat) : Prop := ∃ k, k < 32 ∧ n = 2 ^ k

theorem powerOfTwo_roundDown (hx : x ≠ 0) : PowerOfTwo (roundDownToPowerOf2 x).toNat := by
  have hne : x.toNat ≠ 0 := fun h => hx (UInt32.toNat_inj.mp h)
  have hlog : x.toNat.log2 < 32 := (Nat.log2_lt hne).mpr x.toNat_lt
  obtain ⟨k, hk⟩ : ∃ k, x.toNat.log2 = k := ⟨_, rfl⟩
  rw [hk] at hlog
  refine ⟨k, hlog, ?_⟩
  rw [roundDownToPowerOf2, clz, hk]
  interval_cases k <;> rfl

/-- A value is rounded to a power of two, and 0 is kept. -/
theorem roundedValue_cases (x : UInt32) :
    (roundedValue x).toNat = 0 ∨ PowerOfTwo (roundedValue x).toNat := by
  by_cases hx : x = 0
  · subst hx
    exact Or.inl rfl
  · rw [roundedValue, if_pos (UInt32.pos_iff_ne_zero.mpr hx)]
    exact Or.inr (powerOfTwo_roundDown hx)

theorem powerOfTwo_packetNumber (n : UInt32) : PowerOfTwo (packetNumber n PACKET_NUMBER).toNat := by
  by_cases hn : n = 0
  · subst hn
    exact ⟨17, by decide, by decide⟩
  · rw [packetNumber, if_pos (UInt32.pos_iff_ne_zero.mpr hn)]
    exact powerOfTwo_roundDown hn

/-- The product of the three sizes, before it is cut to 32 bits. -/
def sizeProduct (num_pkt_cache_size fp_per_pkt fps_factor : UInt32) : Nat :=
  (roundedValue fp_per_pkt).toNat * (packetNumber num_pkt_cache_size PACKET_NUMBER).toNat *
    (roundedValue fps_factor).toNat

theorem sizeProduct_cases (n f s : UInt32) :
    sizeProduct n f s = 0 ∨ ∃ k, sizeProduct n f s = 2 ^ k := by
  unfold sizeProduct
  obtain ⟨kn, -, hn⟩ := powerOfTwo_packetNumber n
  rcases roundedValue_cases f with hf | ⟨kf, -, hf⟩
  · rw [hf, Nat.zero_mul, Nat.zero_mul]
    exact Or.inl rfl
  · rcases roundedValue_cases s with hs | ⟨ks, -, hs⟩
    · rw [hs, Nat.mul_zero]
      exact Or.inl rfl
    · rw [hf, hn, hs, ← Nat.pow_add, ← Nat.pow_add]
      exact Or.inr ⟨_, rfl⟩

/-- The number of buckets: the product, or 0 when it does not fit. -/
theorem configured_FPSTORESIZE (pkt_size : UInt32) (shareddict : Bool) :
    (configured n f s pkt_size shareddict).FPSTORESIZE =
      if sizeProduct n f s < 4294967296 then sizeProduct n f s else 0 := by
  have hmod : (configured n f s pkt_size shareddict).FPSTORESIZE =
      sizeProduct n f s % 4294967296 := by
    rw [configured, initCommon, sizeProduct, UInt32.toNat_mul, UInt32.toNat_mul]
    simp [Nat.mul_mod]
  rw [hmod]
  split
  · rename_i hlt
    exact Nat.mod_eq_of_lt hlt
  · rename_i hge
    rcases sizeProduct_cases n f s with hzero | ⟨k, hk⟩
    · rw [hzero]
    · have hk32 : 32 ≤ k := by
        rw [hk, Nat.not_lt] at hge
        exact (Nat.pow_le_pow_iff_right (a := 2) (by decide)).mp hge
      rw [hk]
      exact Nat.mod_eq_zero_of_dvd (Nat.pow_dvd_pow 2 hk32)

end Sizes

/-! ### The buckets -/

section Buckets

variable {cfg : Config} {k : Nat}

/-- The eight bits that are mixed in stay inside a table of 256 buckets or more, -/
theorem hashFPStore_lt (hsize : cfg.FPSTORESIZE = 2 ^ k) (hlow : 8 ≤ k) (hhigh : k < 32)
    (fp : UInt64) : (hashFPStore cfg fp).toNat < cfg.FPSTORESIZE := by
  have hpow : 2 ^ k < 4294967296 := Nat.pow_lt_pow_right (by decide) hhigh
  have hpos : 0 < 2 ^ k := Nat.two_pow_pos k
  have hbits : 256 ≤ 2 ^ k := Nat.pow_le_pow_right (n := 2) (by decide) hlow
  have hmask : (UInt32.ofNat (2 ^ k) - 1).toNat = 2 ^ k - 1 := by
    rw [UInt32.toNat_sub_of_le]
    · rw [UInt32.toNat_ofNat', Nat.mod_eq_of_lt hpow]
      rfl
    · rw [UInt32.le_iff_toNat_le, UInt32.toNat_ofNat', Nat.mod_eq_of_lt hpow]
      exact hpos
  rw [hashFPStore, hsize, UInt32.toNat_xor]
  refine Nat.xor_lt_two_pow ?_ ?_
  · rw [UInt32.toNat_and, hmask]
    exact Nat.and_lt_two_pow _ (by omega)
  · refine Nat.lt_of_lt_of_le ?_ hbits
    rw [UInt32.toNat_shiftRight]
    have hlt := ((fp >>> GAMMA &&& 0xffffffff).toUInt32 ^^^
      (fp >>> GAMMA >>> 32 &&& 0xffffffff).toUInt32).toNat_lt
    have hshift : (24 : UInt32).toNat % 32 = 24 := rfl
    rw [hshift, Nat.shiftRight_eq_div_pow]
    omega

/-- but reach behind a smaller one. -/
theorem hashFPStore_ge (hsize : cfg.FPSTORESIZE = 2 ^ k) (hk : k < 8) :
    ∃ fp, cfg.FPSTORESIZE ≤ (hashFPStore cfg fp).toNat := by
  refine ⟨0x1FE0000000, ?_⟩
  rw [hashFPStore, hsize]
  interval_cases k <;> decide

/-- Every index into the fingerprint store is inside it, and no packet has more fingerprints than
the tables for them have places. -/
structure InRange (cfg : Config) : Prop where
  buckets : ∀ fp, (hashFPStore cfg fp).toNat < cfg.FPSTORESIZE
  fingerprints : ∀ packet : List UInt8, packet.length ≤ cfg.MAXPKTSIZE →
    (calculateRelevantFPs cfg packet).length ≤ MAX_FP_PER_PKT

/-- **Which configurations are in range**: those with a product of the three rounded sizes from
256 up to 2^31. -/
theorem configured_inRange_iff (num_pkt_cache_size fp_per_pkt fps_factor pkt_size : UInt32)
    (shareddict : Bool) :
    InRange (configured num_pkt_cache_size fp_per_pkt fps_factor pkt_size shareddict) ↔
      256 ≤ sizeProduct num_pkt_cache_size fp_per_pkt fps_factor ∧
        sizeProduct num_pkt_cache_size fp_per_pkt fps_factor < 4294967296 := by
  obtain ⟨cfg, hcfg⟩ : ∃ cfg, configured num_pkt_cache_size fp_per_pkt fps_factor pkt_size
      shareddict = cfg := ⟨_, rfl⟩
  have hsize : cfg.FPSTORESIZE = _ := hcfg ▸ configured_FPSTORESIZE pkt_size shareddict
  rw [hcfg]
  constructor
  · intro h
    by_cases hfits : sizeProduct num_pkt_cache_size fp_per_pkt fps_factor < 4294967296
    · rw [if_pos hfits] at hsize
      refine ⟨?_, hfits⟩
      rcases sizeProduct_cases num_pkt_cache_size fp_per_pkt fps_factor with hzero | ⟨k, hk⟩
      · have hlt := h.buckets 0
        rw [hsize, hzero] at hlt
        exact absurd hlt (Nat.not_lt_zero _)
      · rw [hk] at hsize ⊢
        by_cases hlow : k < 8
        · obtain ⟨fp, hfp⟩ := hashFPStore_ge hsize hlow
          exact absurd (h.buckets fp) (Nat.not_lt.mpr hfp)
        · exact Nat.pow_le_pow_right (n := 2) (by decide) (Nat.not_lt.mp hlow)
    · have hlt := h.buckets 0
      rw [hsize, if_neg hfits] at hlt
      exact absurd hlt (Nat.not_lt_zero _)
  · rintro ⟨hlow, hfits⟩
    rw [if_pos hfits] at hsize
    have hfp : 1 ≤ cfg.FPPERPKT ∧ cfg.FPPERPKT ≤ MAX_FP_PER_PKT := by
      have hne : (roundedValue fp_per_pkt).toNat ≠ 0 := by
        intro hzero
        rw [sizeProduct, hzero, Nat.zero_mul, Nat.zero_mul] at hlow
        exact absurd hlow (by decide)
      rw [← hcfg]
      exact ⟨Nat.le_min.mpr ⟨Nat.pos_of_ne_zero hne, by decide⟩, Nat.min_le_right _ _⟩
    constructor
    · rcases sizeProduct_cases num_pkt_cache_size fp_per_pkt fps_factor with hzero | ⟨k, hk⟩
      · rw [hzero] at hlow
        exact absurd hlow (by decide)
      · rw [hk] at hsize hlow hfits
        refine hashFPStore_lt hsize ?_ ?_
        · exact (Nat.pow_le_pow_iff_right (a := 2) (by decide)).mp hlow
        · exact (Nat.pow_lt_pow_iff_right (a := 2) (by decide)).mp hfits
    · intro packet _
      exact Nat.le_trans (calculateRelevantFPs_length packet hfp.1).2 hfp.2

/-- A small cache: 64 packets with one fingerprint each. The file is accepted, the store has 64
buckets, and a fingerprint has the bucket 255. -/
theorem small_cache_out_of_range :
    (∃ p, configure ["localid 10.0.0.1\n", "num_pkt_cache_size 64\n", "fp_per_pkt = 1\n",
        "fps_factor=1\n"] = some (p, 0) ∧ ∀ pkt_size shareddict,
          initCommon p.packet_number pkt_size p.fpPerPkt p.fpsFactor shareddict =
            configured 64 1 1 pkt_size shareddict) ∧
      (configured 64 1 1 1500 false).FPSTORESIZE = 64 ∧
      (hashFPStore (configured 64 1 1 1500 false) 0x1FE0000000).toNat = 255 ∧
      ¬ InRange (configured 64 1 1 1500 false) := by
  refine ⟨?_, by decide, by decide, ?_⟩
  · exact configure_accepts (by decide)
      (show inetPton "10.0.0.1".toList = some 0x100000A by decide) (by decide)
      (show sscanfUnsigned "64" = some 64 by decide) (show sscanfUnsigned "1" = some 1 by decide)
      (show sscanfUnsigned "1" = some 1 by decide)
  · intro h
    exact absurd (h.buckets 0x1FE0000000) (by decide)

end Buckets

end Solowan.Dictionary
