/-
The compressed packet format.

The comment that stands in `cacheAndCompressIfNeeded` and twice in `uncomp` describes
it as a header followed by uncompressed chunks and interleaved descriptors:

    32 bit hash of the original packet
    16 bit offset from the end of this header to the first descriptor
    chunk, descriptor, chunk, descriptor, ..., chunk

where a descriptor is a 64 bit fingerprint, a 32 bit packet hash, a 16 bit left and a
16 bit right limit, and a 16 bit offset to the next descriptor (all ones if there is
none). Read from the front, the offset always stands right before the chunk whose
length it is. So a compressed packet is a hash, a list of tokens, each a chunk with its
length in front and a reference behind, and a last chunk after the all-ones mark
(`encode`); what it stands for is the chunks and the referenced strings in that order
(`expand`).
-/

import Solowan.Dictionary.Shared

namespace Solowan.Codec

open Solowan.Memory Solowan.Dictionary

/-! ### Integers in network order -/

def hton16 (n : Nat) : List UInt8 := beBytes 2 n

def hton32 (n : UInt32) : List UInt8 := beBytes 4 n.toNat

def hton64 (n : UInt64) : List UInt8 := beBytes 8 n.toNat

def ntoh16 (m : Mem) (pos : Nat) : Nat := loadBE m pos 2

def ntoh32 (m : Mem) (pos : Nat) : UInt32 := UInt32.ofNat (loadBE m pos 4)

def ntoh64 (m : Mem) (pos : Nat) : UInt64 := UInt64.ofNat (loadBE m pos 8)

@[simp] theorem length_hton16 (n : Nat) : (hton16 n).length = 2 := length_beBytes 2 n

@[simp] theorem length_hton32 (n : UInt32) : (hton32 n).length = 4 := length_beBytes 4 _

@[simp] theorem length_hton64 (n : UInt64) : (hton64 n).length = 8 := length_beBytes 8 _

theorem ntoh16_lt (m : Mem) (pos : Nat) : ntoh16 m pos < 65536 := loadBE_lt m pos 2

theorem ntoh16_of_slice {m : Mem} {pos n : Nat} (h : slice m pos 2 = hton16 n) (hn : n < 65536) :
    ntoh16 m pos = n := by
  rw [ntoh16, loadBE, h, hton16, beNat_beBytes]
  exact Nat.mod_eq_of_lt hn

theorem ntoh32_of_slice {m : Mem} {pos : Nat} {n : UInt32} (h : slice m pos 4 = hton32 n) :
    ntoh32 m pos = n := by
  have hlt : n.toNat < 256 ^ 4 := n.toNat_lt
  rw [ntoh32, loadBE, h, hton32, beNat_beBytes, Nat.mod_eq_of_lt hlt]
  exact UInt32.ofNat_toNat

theorem ntoh64_of_slice {m : Mem} {pos : Nat} {n : UInt64} (h : slice m pos 8 = hton64 n) :
    ntoh64 m pos = n := by
  have hlt : n.toNat < 256 ^ 8 := n.toNat_lt
  rw [ntoh64, loadBE, h, hton64, beNat_beBytes, Nat.mod_eq_of_lt hlt]
  exact UInt64.ofNat_toNat

/-! ### Tokens -/

/-- The mark in place of an offset when no descriptor follows. -/
def NO_MORE : Nat := 0xffff

/-- The part of a descriptor in front of the next offset. -/
def descriptor (c : PktChunk) : List UInt8 :=
  hton64 c.fp ++ hton32 c.hash ++ hton16 c.left ++ hton16 c.right

/-- A chunk and the reference behind it. `body` is the referenced string; it is what
the token stands for and is not transmitted. -/
structure Token extends PktChunk where
  lit : List UInt8
  body : List UInt8

def Token.bytes (t : Token) : List UInt8 :=
  hton16 t.lit.length ++ t.lit ++ descriptor t.toPktChunk

/-- What follows the packet hash. -/
def encodeTokens (ts : List Token) (tail : List UInt8) : List UInt8 :=
  ts.flatMap Token.bytes ++ hton16 NO_MORE ++ tail

/-- A compressed packet. -/
def encode (hash : UInt32) (ts : List Token) (tail : List UInt8) : List UInt8 :=
  hton32 hash ++ encodeTokens ts tail

/-- The packet a compressed packet stands for. -/
def expand (ts : List Token) (tail : List UInt8) : List UInt8 :=
  ts.flatMap (fun t => t.lit ++ t.body) ++ tail

@[simp] theorem length_descriptor (c : PktChunk) : (descriptor c).length = 16 := by
  simp [descriptor]

theorem Token.length_bytes (t : Token) : t.bytes.length = t.lit.length + 18 := by
  simp only [bytes, List.length_append, length_hton16, length_descriptor]
  omega

theorem encodeTokens_cons (t : Token) (ts : List Token) (tail : List UInt8) :
    encodeTokens (t :: ts) tail =
      hton16 t.lit.length ++ t.lit ++ descriptor t.toPktChunk ++ encodeTokens ts tail := by
  simp [encodeTokens, Token.bytes]

/-- A token list without its last chunk, the form in which the encoder keeps it. -/
theorem encode_snoc (hash : UInt32) (ts : List Token) (t : Token) :
    encode hash (ts ++ [t]) [] =
      hton32 hash ++ ts.flatMap Token.bytes ++ t.bytes ++ hton16 NO_MORE := by
  simp [encode, encodeTokens]

theorem encode_tail (hash : UInt32) (ts : List Token) (tail : List UInt8) :
    encode hash ts tail = encode hash ts [] ++ tail := by
  simp [encode, encodeTokens]

theorem expand_snoc (ts : List Token) (t : Token) :
    expand (ts ++ [t]) [] = expand ts [] ++ t.lit ++ t.body := by
  simp [expand]

theorem expand_tail (ts : List Token) (tail : List UInt8) :
    expand ts tail = expand ts [] ++ tail := by
  simp [expand]

theorem expand_cons (t : Token) (ts : List Token) (tail : List UInt8) :
    expand (t :: ts) tail = t.lit ++ t.body ++ expand ts tail := by
  simp [expand]

/-- Six bytes of frame, and eighteen for each token beside its chunk. -/
theorem length_encode (hash : UInt32) (ts : List Token) (tail : List UInt8) :
    (encode hash ts tail).length =
      6 + 18 * ts.length + (ts.map fun t => t.lit.length).sum + tail.length := by
  induction ts with
  | nil =>
    simp only [encode, encodeTokens, List.flatMap_nil, List.nil_append, List.length_append,
      length_hton32, length_hton16, List.length_nil, List.map_nil, List.sum_nil]
    omega
  | cons t ts ih =>
    simp only [encode, List.length_append, length_hton32] at ih
    simp only [encode, encodeTokens_cons, List.length_append, length_hton32, length_hton16,
      length_descriptor, List.length_cons, List.map_cons, List.sum_cons]
    omega

/-- Tokens whose references are at least 64 bytes long take 46 bytes less than what
they stand for, each. -/
theorem length_encode_add_le (hash : UInt32) (ts : List Token) (tail : List UInt8)
    (h : ∀ t ∈ ts, 64 ≤ t.body.length) :
    (encode hash ts tail).length + 46 * ts.length ≤ 6 + (expand ts tail).length := by
  induction ts with
  | nil =>
    simp only [encode, encodeTokens, expand, List.flatMap_nil, List.nil_append,
      List.length_append, length_hton32, length_hton16, List.length_nil]
    omega
  | cons t ts ih =>
    have ht := h t List.mem_cons_self
    have ih := ih fun u hu => h u (List.mem_cons_of_mem t hu)
    simp only [encode, List.length_append, length_hton32] at ih
    simp only [encode, encodeTokens_cons, expand_cons, List.length_append, length_hton32,
      length_hton16, length_descriptor, List.length_cons]
    omega

end Solowan.Codec
