/-
What the compressor writes.

* `encodePacket_spec`: whatever the lookups returned, as long as each names a packet
  that has the looked-up string, the output is a list of tokens in the documented format
  that expands to the packet, no assertion fails, and the output has the packet's length
  or is at least 40 bytes shorter.
* `threadCandidates_matching`, `sharedCandidates_matching`: the lookups of either mode do
  name such packets, on every dictionary that represents a log.

The loop invariant is `Encoding`: the tokens written so far expand to the part of the
packet that is covered, and the buffer holds their bytes up to the place of the next
offset.
-/

import Solowan.Codec.Dedup

namespace Solowan.Codec

open Solowan.Memory Solowan.Dictionary

/-! ### One match -/

/-- What the loop relies on when a fingerprint was found: the string lies inside both
packets and is the same, and the packet found is no longer than the limit. -/
structure Matching (cfg : Config) (packet : List UInt8) (f : FPEntryB) (fpt : Reference) :
    Prop where
  string_le : f.offset + BETA ≤ packet.length
  found_le : fpt.offset + BETA ≤ fpt.pktLen
  fits : fpt.pktLen ≤ cfg.MAXPKTSIZE
  same : slice fpt.pkt fpt.offset BETA = slice (ofList packet) f.offset BETA

/-- A token refers to an interval of the packet that was found. -/
structure Token.Names (t : Token) (fpt : Reference) : Prop where
  fp : t.fp = fpt.fp
  hash : t.hash = fpt.pktHash
  left_le : t.left ≤ t.right
  right_lt : t.right < fpt.pktLen
  body : t.body = slice fpt.pkt t.left (t.right - t.left + 1)
  long : BETA ≤ t.body.length

section Match

variable {cfg : Config} {packet : List UInt8} {f : FPEntryB} {fpt : Reference} {orig : Nat}

theorem matchLeft_le (packet : List UInt8) (ofs1 orig : Nat) (fpt : Reference) :
    matchLeft packet ofs1 orig fpt ≤ ofs1 - orig ∧
      matchLeft packet ofs1 orig fpt ≤ fpt.offset := by
  have h := scanWhile_le
    (fun i => packet.getD (ofs1 - (i + 1)) 0 == fpt.pkt (fpt.offset - (i + 1)))
    (if ofs1 - orig < fpt.offset then ofs1 - orig else fpt.offset)
  change matchLeft packet ofs1 orig fpt ≤ _ at h
  split at h <;> omega

theorem matchLeft_spec {ofs1 i : Nat} (h : i < matchLeft packet ofs1 orig fpt) :
    packet.getD (ofs1 - (i + 1)) 0 = fpt.pkt (fpt.offset - (i + 1)) := by
  simpa using scanWhile_spec h

theorem matchRight_le (h : Matching cfg packet f fpt) :
    f.offset + BETA + matchRight packet f.offset fpt ≤ packet.length ∧
      fpt.offset + BETA + matchRight packet f.offset fpt ≤ fpt.pktLen := by
  have hin := h.string_le
  have hfound := h.found_le
  have hle := scanWhile_le
    (fun i => packet.getD (f.offset + i + BETA) 0 == fpt.pkt (fpt.offset + i + BETA))
    (if packet.length - f.offset < fpt.pktLen - fpt.offset then packet.length - f.offset - BETA
      else fpt.pktLen - fpt.offset - BETA)
  change matchRight packet f.offset fpt ≤ _ at hle
  split at hle <;> omega

theorem matchRight_spec {ofs1 i : Nat} (h : i < matchRight packet ofs1 fpt) :
    packet.getD (ofs1 + i + BETA) 0 = fpt.pkt (fpt.offset + i + BETA) := by
  simpa using scanWhile_spec h

/-- The extended match is the same string in both packets. -/
theorem matched_string (h : Matching cfg packet f fpt) (orig : Nat) :
    slice fpt.pkt (fpt.offset - matchLeft packet f.offset orig fpt)
        (matchLeft packet f.offset orig fpt + BETA + matchRight packet f.offset fpt) =
      slice (ofList packet) (f.offset - matchLeft packet f.offset orig fpt)
        (matchLeft packet f.offset orig fpt + BETA + matchRight packet f.offset fpt) := by
  have hl := matchLeft_le packet f.offset orig fpt
  apply slice_congr
  intro i hi
  -- Left of the fingerprinted string, inside it, or to its right.
  rcases Nat.lt_or_ge i (matchLeft packet f.offset orig fpt) with hleft | hright
  · have hlt : matchLeft packet f.offset orig fpt - (i + 1) < matchLeft packet f.offset orig fpt := by
      omega
    have hspec := matchLeft_spec hlt
    have h1 : f.offset - (matchLeft packet f.offset orig fpt - (i + 1) + 1) =
        f.offset - matchLeft packet f.offset orig fpt + i := by omega
    have h2 : fpt.offset - (matchLeft packet f.offset orig fpt - (i + 1) + 1) =
        fpt.offset - matchLeft packet f.offset orig fpt + i := by omega
    rw [h1, h2] at hspec
    exact hspec.symm
  · obtain ⟨j, rfl⟩ := Nat.exists_eq_add_of_le hright
    have h1 : fpt.offset - matchLeft packet f.offset orig fpt +
        (matchLeft packet f.offset orig fpt + j) = fpt.offset + j := by omega
    have h2 : f.offset - matchLeft packet f.offset orig fpt +
        (matchLeft packet f.offset orig fpt + j) = f.offset + j := by omega
    rw [h1, h2]
    rcases Nat.lt_or_ge j BETA with hin | hout
    · exact slice_eq_apply h.same hin
    · obtain ⟨k, rfl⟩ := Nat.exists_eq_add_of_le hout
      have hlt : k < matchRight packet f.offset fpt := by omega
      have hspec := matchRight_spec hlt
      have h3 : fpt.offset + (BETA + k) = fpt.offset + k + BETA := by omega
      have h4 : f.offset + (BETA + k) = f.offset + k + BETA := by omega
      rw [h3, h4]
      exact hspec.symm

/-- The token written for a match, when `orig` bytes of the packet are covered. -/
def matchToken (packet : List UInt8) (orig : Nat) (f : FPEntryB) (fpt : Reference) : Token where
  fp := fpt.fp
  hash := fpt.pktHash
  left := fpt.offset - matchLeft packet f.offset orig fpt
  right := fpt.offset + matchRight packet f.offset fpt + BETA - 1
  lit := (packet.drop orig).take (f.offset - matchLeft packet f.offset orig fpt - orig)
  body := slice fpt.pkt (fpt.offset - matchLeft packet f.offset orig fpt)
    (matchLeft packet f.offset orig fpt + BETA + matchRight packet f.offset fpt)

theorem matchToken_names (h : Matching cfg packet f fpt) (orig : Nat) :
    (matchToken packet orig f fpt).Names fpt := by
  have hl := matchLeft_le packet f.offset orig fpt
  have hr := matchRight_le h
  have hbeta : BETA = 64 := rfl
  refine ⟨rfl, rfl, ?_, ?_, ?_, ?_⟩
  · simp only [matchToken]
    omega
  · simp only [matchToken]
    omega
  · simp only [matchToken]
    congr 1
    omega
  · simp only [matchToken, length_slice]
    omega

/-- The chunk and the match cover the packet from `orig` up to the end of the match. -/
theorem matchToken_covers (h : Matching cfg packet f fpt) (horig : orig ≤ f.offset) :
    packet.take orig ++ (matchToken packet orig f fpt).lit ++ (matchToken packet orig f fpt).body =
      packet.take (f.offset + matchRight packet f.offset fpt + BETA) := by
  have hl := matchLeft_le packet f.offset orig fpt
  have hr := matchRight_le h
  have hlit : (matchToken packet orig f fpt).lit = slice (ofList packet) orig
      (f.offset - matchLeft packet f.offset orig fpt - orig) :=
    (slice_ofList (by omega)).symm
  have hbody : (matchToken packet orig f fpt).body = slice (ofList packet)
      (f.offset - matchLeft packet f.offset orig fpt)
      (matchLeft packet f.offset orig fpt + BETA + matchRight packet f.offset fpt) :=
    matched_string h orig
  have htake : ∀ {n : Nat}, n ≤ packet.length → packet.take n = slice (ofList packet) 0 n := by
    intro n hn
    rw [slice_ofList (by omega), List.drop_zero]
  rw [htake (by omega), htake (by omega), hlit, hbody, ← slice_append_at _ (by omega),
    ← slice_append_at _ (by omega)]
  congr 1
  omega

end Match

/-! ### The loop -/

/-- The length of the first chunk, as the header announces it. -/
def FirstChunk (ts : List Token) (n : Nat) : Prop :=
  ts.head?.map (fun t => t.lit.length) = some n

/-- The buffer and the positions after at least one match: the tokens are written up to
the place of the next offset, which holds the mark. -/
structure Encoder.Wrote (s : Encoder) (hash : UInt32) (ts : List Token) : Prop where
  wire : slice s.optpkt 0 s.poffsetFPD = hton32 hash ++ ts.flatMap Token.bytes
  mark : slice s.optpkt s.poffsetFPD 2 = hton16 NO_MORE
  dest : s.dest = s.poffsetFPD + 2
  optlen : s.optlen = s.dest
  first : FirstChunk ts s.firstoffs

/-- The loop invariant. `found` says what is known of the packets referred to. -/
structure Encoding (packet : List UInt8) (hash : UInt32) (found : Reference → Prop)
    (s : Encoder) (ts : List Token) : Prop where
  covered : expand ts [] = packet.take s.orig
  orig_le : s.orig ≤ packet.length
  names : ∀ t ∈ ts, ∃ fpt, found fpt ∧ t.Names fpt
  fresh : ts = [] → s.dest = 0 ∧ s.poffsetFPD = 4 ∧ s.orig = 0 ∧ s.optlen = packet.length
  wrote : ts ≠ [] → s.Wrote hash ts
  asserts : s.asserts = true

/-- The whole packet is encoded. -/
structure Encoded (packet : List UInt8) (hash : UInt32) (found : Reference → Prop)
    (s : Encoder) (ts : List Token) (tail : List UInt8) : Prop where
  expands : expand ts tail = packet
  orig_le : s.orig ≤ packet.length
  names : ∀ t ∈ ts, ∃ fpt, found fpt ∧ t.Names fpt
  plain : ts = [] → s.optlen = packet.length
  wire : ts ≠ [] → slice s.optpkt 0 s.optlen = encode hash ts tail
  first : ts ≠ [] → FirstChunk ts s.firstoffs
  asserts : s.asserts = true

section Loop

variable {cfg : Config} {packet : List UInt8} {hash : UInt32} {found : Reference → Prop}
  {s : Encoder} {ts : List Token} {tail : List UInt8} {f : FPEntryB} {fpt : Reference}

/-- The writes for one match in two blocks: the chunk with its length, and the
descriptor with the mark. -/
theorem writeMatch_eq (m : Mem) (poffsetFPD dest : Nat) (chunk : List UInt8) (c : PktChunk) :
    writeMatch m poffsetFPD dest chunk c =
      memcpy (memcpy (memcpy m dest chunk) poffsetFPD (hton16 chunk.length))
        (dest + chunk.length) (descriptor c ++ hton16 NO_MORE) := by
  simp only [writeMatch, descriptor]
  rw [memcpy_append _ (by simp), memcpy_append _ (by simp), memcpy_append _ (by simp),
    memcpy_append _ (by simp)]
  simp only [List.append_assoc]

/-- What the buffer holds after the writes for one match. -/
theorem slice_writeMatch {m : Mem} {pos : Nat} {written : List UInt8} (h : slice m 0 pos = written)
    (chunk : List UInt8) (c : PktChunk) :
    slice (writeMatch m pos (pos + 2) chunk c) 0 (pos + 2 + chunk.length + 16) =
        written ++ hton16 chunk.length ++ chunk ++ descriptor c ∧
      slice (writeMatch m pos (pos + 2) chunk c) (pos + 2 + chunk.length + 16) 2 =
        hton16 NO_MORE := by
  have hlast : slice (writeMatch m pos (pos + 2) chunk c) (pos + 2 + chunk.length) (16 + 2) =
      descriptor c ++ hton16 NO_MORE := by
    rw [writeMatch_eq]
    exact slice_memcpy_self' (by simp)
  rw [slice_append] at hlast
  obtain ⟨hdesc, hmark⟩ := List.append_inj hlast (by simp)
  refine ⟨?_, hmark⟩
  have hlit : slice (writeMatch m pos (pos + 2) chunk c) (pos + 2) chunk.length = chunk := by
    rw [writeMatch_eq, slice_memcpy_disjoint (by simp), slice_memcpy_disjoint (by simp),
      slice_memcpy_self]
  have hofs : slice (writeMatch m pos (pos + 2) chunk c) pos 2 = hton16 chunk.length := by
    rw [writeMatch_eq, slice_memcpy_disjoint (by omega), slice_memcpy_self' (by simp)]
  have hold : slice (writeMatch m pos (pos + 2) chunk c) 0 pos = written := by
    rw [writeMatch_eq, slice_memcpy_disjoint (by omega), slice_memcpy_disjoint (by omega),
      slice_memcpy_disjoint (by omega), h]
  rw [slice_append_at (pos + 2 + chunk.length) (by omega),
    slice_append_at (pos + 2) (by omega), slice_append_at pos (by omega),
    hold, hofs, hlit, hdesc]

/-- With the header in place, the buffer ends with room for one offset. -/
theorem writeHeader_spec (h : Encoding packet hash found s ts) (chunkLen : Nat) :
    slice (writeHeader hash chunkLen s).optpkt 0 (writeHeader hash chunkLen s).poffsetFPD =
        hton32 hash ++ ts.flatMap Token.bytes ∧
      (writeHeader hash chunkLen s).dest = (writeHeader hash chunkLen s).poffsetFPD + 2 ∧
      (writeHeader hash chunkLen s).orig = s.orig ∧
      (writeHeader hash chunkLen s).asserts = true ∧
      (ts = [] → (writeHeader hash chunkLen s).firstoffs = chunkLen % 65536) ∧
      (ts ≠ [] → (writeHeader hash chunkLen s).firstoffs = s.firstoffs) := by
  by_cases hts : ts = []
  · obtain ⟨hdest, hpos, -, -⟩ := h.fresh hts
    rw [writeHeader, if_pos hdest, hts, List.flatMap_nil, List.append_nil]
    refine ⟨?_, ?_, rfl, h.asserts, fun _ => rfl, fun hne => absurd rfl hne⟩
    · show slice (memcpy s.optpkt 0 (hton32 hash)) 0 s.poffsetFPD = hton32 hash
      rw [hpos]
      exact slice_memcpy_self' (by simp)
    · show 4 + 2 = s.poffsetFPD + 2
      rw [hpos]
  · have hw := h.wrote hts
    have hdest : s.dest ≠ 0 := by
      rw [hw.dest]
      omega
    rw [writeHeader, if_neg hdest]
    exact ⟨hw.wire, hw.dest, rfl, h.asserts, fun hnil => absurd hnil hts, fun _ => rfl⟩

/-- One match extends the encoding by its token. -/
theorem encodeMatch_encoding (h : Encoding packet hash found s ts)
    (hsize : packet.length ≤ cfg.MAXPKTSIZE) (hmax : cfg.MAXPKTSIZE ≤ 65534)
    (hm : Matching cfg packet f fpt) (hf : found fpt) (horig : s.orig ≤ f.offset) :
    Encoding packet hash found (encodeMatch cfg packet hash f.offset fpt s)
      (ts ++ [matchToken packet s.orig f fpt]) := by
  have hl := matchLeft_le packet f.offset s.orig fpt
  have hr := matchRight_le hm
  have hfits := hm.fits
  have hnames : ∀ t ∈ ts ++ [matchToken packet s.orig f fpt], ∃ fpt, found fpt ∧ t.Names fpt := by
    intro t ht
    rcases List.mem_append.mp ht with ht | ht
    · exact h.names t ht
    · rw [List.mem_singleton.mp ht]
      exact ⟨fpt, hf, matchToken_names hm s.orig⟩
  have hcov : expand (ts ++ [matchToken packet s.orig f fpt]) [] =
      packet.take (f.offset + matchRight packet f.offset fpt + BETA) := by
    rw [expand_snoc, h.covered, matchToken_covers hm horig]
  have hchunk : (matchToken packet s.orig f fpt).lit.length =
      f.offset - matchLeft packet f.offset s.orig fpt - s.orig := by
    simp only [matchToken, List.length_take, List.length_drop]
    omega
  obtain ⟨hwire, hdest, horig', hasserts, hfirst, hfirst'⟩ := writeHeader_spec h
    (f.offset - matchLeft packet f.offset s.orig fpt - s.orig)
  -- The bytes written so far are fewer than those they stand for.
  have hshort := length_encode_add_le hash (ts ++ [matchToken packet s.orig f fpt]) []
    (fun t ht => by
      obtain ⟨_, _, ht⟩ := hnames t ht
      exact ht.long)
  have hcount : (ts ++ [matchToken packet s.orig f fpt]).length = ts.length + 1 := by simp
  rw [hcov, encode_snoc, hcount] at hshort
  simp only [List.length_append, List.length_take, length_hton16, length_hton32,
    Token.length_bytes, hchunk] at hshort
  have hlen := congrArg List.length hwire
  simp only [length_slice, List.length_append, length_hton32] at hlen
  have hnew := slice_writeMatch hwire (matchToken packet s.orig f fpt).lit
    (matchToken packet s.orig f fpt).toPktChunk
  rw [hchunk, ← hdest] at hnew
  refine ⟨hcov, ?_, hnames, fun hnil => absurd hnil (by simp), ?_, ?_⟩
  · simp only [encodeMatch]
    omega
  · intro _
    refine ⟨?_, ?_, ?_, ?_, ?_⟩
    · simp only [encodeMatch]
      rw [horig', List.flatMap_append, ← List.append_assoc]
      refine hnew.1.trans ?_
      simp [Token.bytes, hchunk]
    · simp only [encodeMatch]
      rw [horig']
      exact hnew.2
    · simp only [encodeMatch]
      omega
    · simp only [encodeMatch]
      rw [horig']
      apply Nat.mod_eq_of_lt
      omega
    · cases ts with
      | nil =>
        simp only [FirstChunk, List.nil_append, List.head?_cons, Option.map_some, encodeMatch,
          hchunk, hfirst rfl]
        rw [Nat.mod_eq_of_lt (by omega)]
      | cons t ts =>
        have hold := (h.wrote (List.cons_ne_nil t ts)).first
        simp only [FirstChunk, List.cons_append, List.head?_cons, encodeMatch] at hold ⊢
        rw [hfirst' (List.cons_ne_nil t ts)]
        exact hold
  · simp only [encodeMatch, hasserts, horig', Bool.true_and, Bool.and_eq_true, decide_eq_true_eq]
    omega

/-- The encoding of a packet that is covered to its end. -/
theorem Encoding.encoded (h : Encoding packet hash found s ts) (hend : s.orig = packet.length) :
    Encoded packet hash found s ts [] := by
  refine ⟨?_, h.orig_le, h.names, fun hts => (h.fresh hts).2.2.2, ?_, ?_, h.asserts⟩
  · rw [h.covered, hend, List.take_length]
  · intro hts
    have hw := h.wrote hts
    rw [hw.optlen, hw.dest, slice_append, hw.wire, Nat.zero_add, hw.mark]
    simp [encode, encodeTokens]
  · intro hts
    exact (h.wrote hts).first

/-- Copying the rest of the packet behind the last descriptor completes the encoding. -/
theorem Encoding.copyTail (h : Encoding packet hash found s ts)
    (hsize : packet.length < 65536) {orig : Nat} (horig : orig ≤ packet.length) :
    Encoded packet hash found
      { s with
        optpkt := copyTail packet s
        optlen := (s.dest + (packet.length - s.orig)) % 65536
        orig := orig }
      ts (packet.drop s.orig) := by
  have hexp : expand ts (packet.drop s.orig) = packet := by
    rw [expand_tail, h.covered, List.take_append_drop]
  have horig_le := h.orig_le
  refine ⟨hexp, horig, h.names, ?_, ?_, ?_, h.asserts⟩
  · intro hts
    obtain ⟨hdest, -, horig0, -⟩ := h.fresh hts
    simp only [hdest, horig0]
    omega
  · intro hts
    have hw := h.wrote hts
    have hbuf : slice s.optpkt 0 s.dest = encode hash ts [] := by
      rw [hw.dest, slice_append, hw.wire, Nat.zero_add, hw.mark]
      simp [encode, encodeTokens]
    have hshort := length_encode_add_le hash ts (packet.drop s.orig) (fun t ht => by
      obtain ⟨_, _, ht⟩ := h.names t ht
      exact ht.long)
    rw [hexp, encode_tail] at hshort
    have hlen := congrArg List.length hbuf
    have hpos := List.length_pos_of_ne_nil hts
    simp only [length_slice] at hlen
    simp only [List.length_append, List.length_drop] at hshort
    have hmod : (s.dest + (packet.length - s.orig)) % 65536 =
        s.dest + (packet.drop s.orig).length := by
      rw [List.length_drop]
      apply Nat.mod_eq_of_lt
      omega
    have hcopy := slice_memcpy_extend s.optpkt 0 s.dest (packet.drop s.orig)
    rw [Nat.zero_add] at hcopy
    simp only [hmod]
    rw [Codec.copyTail, hcopy, hbuf, ← encode_tail]
  · intro hts
    exact (h.wrote hts).first

/-- The loop ends with an encoding of a part of the packet or of the whole packet. It has a
token as soon as something was found: the first match is not covered by another. -/
theorem encodeLoop_encoding {todo : List (FPEntryB × Option Reference)}
    (h : Encoding packet hash found s ts)
    (hsize : packet.length ≤ cfg.MAXPKTSIZE) (hmax : cfg.MAXPKTSIZE ≤ 65534)
    (htodo : ∀ f fpt, (f, some fpt) ∈ todo → Matching cfg packet f fpt ∧ found fpt) :
    ∃ ts', ts'.length ≤ ts.length + todo.length ∧
      (ts' = [] ↔ ts = [] ∧ ∀ f fpt, (f, some fpt) ∉ todo) ∧
      (Encoding packet hash found (encodeLoop cfg packet hash todo s) ts' ∨
        ∃ tail, Encoded packet hash found (encodeLoop cfg packet hash todo s) ts' tail ∧
          (encodeLoop cfg packet hash todo s).orig = packet.length) := by
  induction todo generalizing s ts with
  | nil => exact ⟨ts, by simp, by simp, Or.inl h⟩
  | cons c todo ih =>
    have hrest : ∀ f fpt, (f, some fpt) ∈ todo → Matching cfg packet f fpt ∧ found fpt :=
      fun f fpt hmem => htodo f fpt (List.mem_cons_of_mem c hmem)
    obtain ⟨f, _ | fpt⟩ := c
    · obtain ⟨ts', hlen, hnil, hts'⟩ := ih h hrest
      refine ⟨ts', by rw [List.length_cons]; omega, ?_, hts'⟩
      rw [hnil]
      simp
    · obtain ⟨hm, hf⟩ := htodo f fpt List.mem_cons_self
      have hsome : ¬ (ts = [] ∧ ∀ f' fpt', (f', some fpt') ∉ (f, some fpt) :: todo) :=
        fun hno => hno.2 f fpt List.mem_cons_self
      rw [encodeLoop]
      by_cases hskip : s.orig > f.offset
      · rw [if_pos hskip]
        obtain ⟨ts', hlen, hnil, hts'⟩ := ih h hrest
        refine ⟨ts', by rw [List.length_cons]; omega, iff_of_false ?_ hsome, hts'⟩
        intro hempty
        obtain ⟨-, -, horig, -⟩ := h.fresh (hnil.mp hempty).1
        omega
      · rw [if_neg hskip]
        have hstep := encodeMatch_encoding h hsize hmax hm hf (by omega)
        have hlen : (ts ++ [matchToken packet s.orig f fpt]).length ≤
            ts.length + ((f, some fpt) :: todo).length := by
          simp only [List.length_append, List.length_cons, List.length_nil]
          omega
        have hne : ts ++ [matchToken packet s.orig f fpt] ≠ [] := by simp
        dsimp only
        generalize encodeMatch cfg packet hash f.offset fpt s = s' at hstep
        split
        · exact ⟨_, hlen, iff_of_false hne hsome, Or.inl hstep⟩
        · split
          · have hw := hstep.wrote hne
            have hdone := hstep.copyTail (by omega) (Nat.le_refl packet.length)
            rw [hw.optlen]
            exact ⟨_, hlen, iff_of_false hne hsome, Or.inr ⟨_, hdone, rfl⟩⟩
          · obtain ⟨ts', hlen', hnil, hts'⟩ := ih hstep hrest
            refine ⟨ts', ?_, iff_of_false (fun hempty => hne (hnil.mp hempty).1) hsome, hts'⟩
            simp only [List.length_append, List.length_cons, List.length_nil] at hlen' ⊢
            omega

/-- The two assertions on the first offset hold. -/
theorem Encoded.first_offset (h : Encoded packet hash found s ts tail) (hts : ts ≠ [])
    (hsize : packet.length ≤ cfg.MAXPKTSIZE) (hmax : cfg.MAXPKTSIZE ≤ 65534) :
    ntoh16 s.optpkt 4 = s.firstoffs ∧ ntoh16 s.optpkt 4 < cfg.MAXPKTSIZE := by
  have hfirst := h.first hts
  have hwire := h.wire hts
  have hexp := congrArg List.length h.expands
  obtain ⟨t, rest, rfl⟩ := List.exists_cons_of_ne_nil hts
  obtain ⟨_, _, ht⟩ := h.names t List.mem_cons_self
  have hlong := ht.long
  have hbeta : BETA = 64 := rfl
  simp only [FirstChunk, List.head?_cons, Option.map_some, Option.some.injEq] at hfirst
  rw [expand_cons, List.length_append, List.length_append] at hexp
  have hslice : slice s.optpkt 4 2 = hton16 t.lit.length := by
    rw [encode, encodeTokens_cons] at hwire
    obtain ⟨-, hrest⟩ := slice_split hwire
    rw [length_hton32] at hrest
    simp only [List.append_assoc] at hrest
    have := (slice_split hrest).1
    simpa using this
  rw [ntoh16_of_slice hslice (by omega), hfirst]
  exact ⟨rfl, by omega⟩

end Loop

/-! ### The packet -/

section Packet

variable {cfg : Config} {packet : List UInt8} {candidates : List (FPEntryB × Option Reference)}

/-- **The compressor's output.** No assertion fails, and the output stands for the packet:
it is the packet itself when nothing was found, and otherwise a list of tokens in the
documented format, at least 40 bytes shorter. -/
theorem encodePacket_spec (hash : UInt32) (found : Reference → Prop)
    (hsize : packet.length ≤ cfg.MAXPKTSIZE) (hmax : cfg.MAXPKTSIZE ≤ 65534)
    (hfound : ∀ f fpt, (f, some fpt) ∈ candidates → Matching cfg packet f fpt ∧ found fpt)
    (optpkt : Mem) :
    ∃ ts tail, ts.length ≤ candidates.length ∧
      (ts = [] ↔ ∀ f fpt, (f, some fpt) ∉ candidates) ∧
      Encoded packet hash found (encodePacket cfg packet hash candidates optpkt) ts tail := by
  have hinit : Encoding packet hash found ⟨optpkt, 4, 0, 0, packet.length, 0, true⟩ [] := by
    refine ⟨rfl, Nat.zero_le _, by simp, fun _ => ⟨rfl, rfl, rfl, rfl⟩,
      fun hne => absurd rfl hne, rfl⟩
  obtain ⟨ts, hlen, hnil, hloop⟩ := encodeLoop_encoding hinit hsize hmax hfound
  rw [List.length_nil, Nat.zero_add] at hlen
  rw [eq_self_iff_true, true_and] at hnil
  rw [encodePacket]
  generalize encodeLoop cfg packet hash candidates _ = s at hloop
  -- The rest of the packet is copied unless the loop has done so or there is none.
  have hcopied : ∃ tail, Encoded packet hash found
      (if s.orig < packet.length then
        { s with
          optpkt := copyTail packet s
          optlen := (s.dest + packet.length - s.orig) % 65536 }
      else s) ts tail := by
    rcases hloop with henc | ⟨tail, hdone, hend⟩
    · have horig := henc.orig_le
      by_cases hlt : s.orig < packet.length
      · rw [if_pos hlt, Nat.add_sub_assoc horig]
        exact ⟨_, henc.copyTail (by omega) horig⟩
      · rw [if_neg hlt]
        exact ⟨_, henc.encoded (by omega)⟩
    · rw [if_neg (by omega)]
      exact ⟨tail, hdone⟩
  obtain ⟨tail, hdone⟩ := hcopied
  refine ⟨ts, tail, hlen, hnil, ?_⟩
  rw [encodeEnd]
  generalize (if s.orig < packet.length then
    { s with
      optpkt := copyTail packet s
      optlen := (s.dest + packet.length - s.orig) % 65536 }
    else s) = s' at hdone
  split
  · rename_i hshort
    have hts : ts ≠ [] := by
      intro hnil
      have := hdone.plain hnil
      omega
    obtain ⟨hofs, hlt⟩ := hdone.first_offset hts hsize hmax
    refine { hdone with asserts := ?_ }
    simp only [hdone.asserts, hlt, Bool.and_true, Bool.true_and, decide_true, decide_eq_true_eq]
    exact hofs
  · exact hdone

/-- An encoded packet is at least 40 bytes shorter than the packet. -/
theorem Encoded.short {hash : UInt32} {found : Reference → Prop} {s : Encoder} {ts : List Token}
    {tail : List UInt8}
    (h : Encoded packet hash found s ts tail) (hts : ts ≠ []) :
    s.optlen = (encode hash ts tail).length ∧ s.optlen + 40 ≤ packet.length := by
  have hlen := congrArg List.length (h.wire hts)
  rw [length_slice] at hlen
  have hshort := length_encode_add_le hash ts tail (fun t ht => by
    obtain ⟨_, _, ht⟩ := h.names t ht
    exact ht.long)
  have hpos := List.length_pos_of_ne_nil hts
  rw [h.expands] at hshort
  exact ⟨hlen, by omega⟩

end Packet

/-! ### The lookups -/

/-- The packet a reference names is packet `pktId` of the log, for an entry of the index
under the transmitted fingerprint, and it is in the window of a dictionary that has
stored just the log. -/
def Resolvable (cfg : Config) (H : PacketHash) (fps : FPStore) (log : Log) (fpt : Reference) :
    Prop :=
  ∃ fpidx q, (fps (hashFPStore cfg fpt.fp) fpidx).fp = fpt.fp ∧
    packetAt log (fps (hashFPStore cfg fpt.fp) fpidx).pktId = some q ∧
    log.length + 1 ≤ (fps (hashFPStore cfg fpt.fp) fpidx).pktId + cfg.PKTSTORESIZE ∧
    fpt.pktLen = q.length ∧ fpt.pktHash = H q ∧ slice fpt.pkt 0 q.length = q

section Candidates

variable {cfg : Config} {H : PacketHash} {pd : Deduplicator} {g : SharedDictionaries} {log : Log}
  {packet : List UInt8} {f : FPEntryB} {fpt : Reference}

/-- A packet found by content, in a ring that holds the log and perhaps one packet more.
`pkt` is the stored packet or a copy of it. -/
theorem getFPcontent_matching {log' : Log} {ps : PktStore} {e : FPEntryB} {stored : PktEntry}
    {pkt : Mem}
    (h : pd.Represents cfg H log) (hps : ps.Holds cfg H log') (hlen : log.length ≤ log'.length)
    (hext : ∀ id q, packetAt log id = some q → packetAt log' id = some q)
    (hsel : Selected packet f)
    (hfound : getFPcontent cfg pd.fps ps f.fp ((packet.drop f.offset).take BETA) = some e)
    (hget : getPkt cfg ps e.pktId = some stored)
    (hcopy : slice pkt 0 stored.len = slice stored.pkt 0 stored.len) :
    Matching cfg packet f
        { pktLen := stored.len, pkt := pkt, pktHash := stored.hash, offset := e.offset,
          fp := e.fp } ∧
      Resolvable cfg H pd.fps log
        { pktLen := stored.len, pkt := pkt, pktHash := stored.hash, offset := e.offset,
          fp := e.fp } := by
  obtain ⟨fpidx, stored', hent, hlive, hfp, hget', hchunk⟩ := getFPcontent_some hfound
  rw [hget] at hget'
  cases hget'
  have hok := h.fps (hashFPStore cfg f.fp) fpidx
  rw [hent] at hok
  obtain ⟨-, -, q, hq, hoff⟩ := hok.live hlive
  obtain ⟨hwin, his⟩ := getPkt_inv hps (hext _ _ hq) hget
  obtain ⟨-, hq_le⟩ := h.sizes q (packetAt_mem hq)
  refine ⟨⟨hsel.1, ?_, ?_, ?_⟩, fpidx, q, ?_, ?_, ?_, his.len, his.hash, ?_⟩
  · show e.offset + BETA ≤ stored.len
    rw [his.len]
    exact hoff
  · show stored.len ≤ cfg.MAXPKTSIZE
    rw [his.len]
    exact hq_le
  · show slice pkt e.offset BETA = slice (ofList packet) f.offset BETA
    rw [slice_ofList hsel.1, hchunk]
    apply slice_congr
    intro i hi
    have := slice_eq_apply (i := e.offset + i) hcopy (by rw [his.len]; omega)
    simpa using this
  · show (pd.fps (hashFPStore cfg e.fp) fpidx).fp = e.fp
    rw [hfp, hent, hfp]
  · show packetAt log (pd.fps (hashFPStore cfg e.fp) fpidx).pktId = some q
    rw [hfp, hent]
    exact hq
  · show log.length + 1 ≤ (pd.fps (hashFPStore cfg e.fp) fpidx).pktId + cfg.PKTSTORESIZE
    rw [hfp, hent]
    omega
  · show slice pkt 0 q.length = q
    rw [← his.len, hcopy, his.len]
    exact his.bytes

/-- Thread dictionary: what is found after the packet was stored is a packet stored
before it. -/
theorem threadCandidates_matching (hcfg : cfg.Valid) (h : pd.Represents cfg H log)
    (hlen : BETA ≤ packet.length)
    (hmem : (f, some fpt) ∈ threadCandidates cfg pd.fps (putPkt cfg pd.ps packet (H packet)).1
      packet (calculateRelevantFPs cfg packet)) :
    Matching cfg packet f fpt ∧ Resolvable cfg H pd.fps log fpt := by
  obtain ⟨f', hf', heq⟩ := List.mem_map.mp hmem
  simp only [threadCandidate, Prod.mk.injEq] at heq
  obtain ⟨rfl, heq⟩ := heq
  obtain ⟨e, hfound, heq⟩ := Option.bind_eq_some_iff.mp heq
  obtain ⟨stored, hget, rfl⟩ := Option.map_eq_some_iff.mp heq
  exact getFPcontent_matching h (putPkt_holds hcfg.pktStore h.ps packet) (by simp)
    (fun _ _ hq => packetAt_append_some hq) (calculateRelevantFPs_selected cfg hlen f' hf') hfound
    hget rfl

/-- Shared dictionary: what the batch lookup found. -/
theorem sharedCandidates_matching (h : g.comp.Represents cfg H log) (hlen : BETA ≤ packet.length)
    {candidates : List (FPEntryB × Option Reference)}
    (hlookup : sharedCandidates cfg g packet (calculateRelevantFPs cfg packet) = some candidates)
    (hmem : (f, some fpt) ∈ candidates) :
    Matching cfg packet f fpt ∧ Resolvable cfg H g.comp.fps log fpt ∧
      fpt.pktLen ≤ PKTSIZELIMIT := by
  obtain ⟨elements, helements, rfl⟩ := Option.map_eq_some_iff.mp hlookup
  obtain ⟨⟨f', element⟩, hzip, heq⟩ := List.mem_map.mp hmem
  simp only [Prod.mk.injEq] at heq
  obtain ⟨rfl, heq⟩ := heq
  obtain ⟨hf', hget⟩ := getPktsByFPsAndContent_zip helements hzip
  split at heq
  · rename_i hlen0
    simp only [Option.some.injEq] at heq
    unfold getPktByFPAndContent at hget
    cases hfound : getFPcontent cfg g.comp.fps g.comp.ps f'.fp
        ((packet.drop f'.offset).take BETA) with
    | none =>
      rw [hfound] at hget
      cases hget
      exact absurd rfl hlen0
    | some e =>
      obtain ⟨-, stored, -, -, hfp, hstored, -⟩ := getFPcontent_some hfound
      have hcopy : slice (ofList (slice stored.pkt 0 stored.len)) 0 stored.len =
          slice stored.pkt 0 stored.len := by
        rw [slice_ofList (by simp), List.drop_zero]
        exact List.take_of_length_le (by simp)
      have hm := getFPcontent_matching h h.ps (Nat.le_refl _) (fun _ _ hq => hq)
        (calculateRelevantFPs_selected cfg hlen f' hf') hfound hstored hcopy
      simp only [hfound, hstored] at hget
      split at hget
      · cases hget
      · rename_i hfits
        cases hget
        rw [← heq, ← hfp]
        exact ⟨hm.1, hm.2, Nat.not_lt.mp hfits⟩
  · cases heq

/-- The batch lookup has a result exactly when what it finds fits its arrays. -/
theorem sharedCandidates_isSome_iff {fpa : List FPEntryB} :
    (∃ candidates, sharedCandidates cfg g packet fpa = some candidates) ↔
      ∀ f ∈ fpa, FoundFits cfg g.comp packet f := by
  rw [← getPktsByFPsAndContent_isSome_iff]
  unfold sharedCandidates
  constructor
  · rintro ⟨candidates, h⟩
    obtain ⟨elements, h, -⟩ := Option.map_eq_some_iff.mp h
    exact ⟨elements, h⟩
  · rintro ⟨elements, h⟩
    exact ⟨_, by rw [h, Option.map_some]⟩

theorem sharedCandidates_length {fpa : List FPEntryB}
    {candidates : List (FPEntryB × Option Reference)}
    (h : sharedCandidates cfg g packet fpa = some candidates) :
    candidates.length = fpa.length := by
  obtain ⟨elements, helements, rfl⟩ := Option.map_eq_some_iff.mp h
  rw [List.length_map, List.length_zip, getPktsByFPsAndContent_length helements, Nat.min_self]

end Candidates

end Solowan.Codec
