/-
What the decompressor makes of an encoded packet.

On the bytes of a token list the decoding loop goes from token to token: it never reads
past the input, and what it writes has the shape of what the tokens stand for. What it
copies for a reference is decided by the dictionary, so the two may differ in content
(`SameShape`).

* `decodeLoop_tokens`: with the thread dictionary, the loop stops at a reference that is
  not in the dictionary, or writes the chunks and what the dictionary has for the
  references; if it has what the tokens stand for, that is the packet.
* `decodeSharedLoop_tokens`, `pasteFrags_tokens`: with the shared dictionary, the loop
  writes the chunks and leaves gaps, and pasting what the tokens stand for into the gaps
  gives the packet.
-/

import Solowan.Codec.Uncomp

namespace Solowan.Codec

open Solowan.Memory Solowan.Dictionary

/-- The decoder has `rest` of its input before it and has written `done`. -/
structure Decoder.At (d : Decoder) (optpkt : Mem) (optlen : Nat) (rest done : List UInt8) :
    Prop where
  within : d.cur.Within optlen
  left : d.cur.left = rest.length
  input : slice optpkt d.cur.pos rest.length = rest
  orig : d.orig = done.length
  pktlen : d.pktlen = done.length
  output : slice d.packet 0 done.length = done

/-- The tokens agree in all that is transmitted and in the length of what they stand
for. -/
def SameShape (ts us : List Token) : Prop :=
  List.Forall₂ (fun t u => t.toPktChunk = u.toPktChunk ∧ t.lit = u.lit ∧
    t.body.length = u.body.length) ts us

theorem SameShape.length_expand {ts us : List Token} (h : SameShape ts us) (tail : List UInt8) :
    (expand ts tail).length = (expand us tail).length := by
  induction h with
  | nil => rfl
  | cons hsame _ ih =>
    obtain ⟨-, hlit, hbody⟩ := hsame
    simp only [expand_cons, List.length_append, hlit, hbody, ih]

/-- The limits of a token are those of an interval of its length that a `uint16_t` can
describe. -/
structure Token.WellFormed (t : Token) : Prop where
  left_le : t.left ≤ t.right
  right_lt : t.right < 65536
  body_length : t.body.length = t.right - t.left + 1

section Moves

variable {d : Decoder} {optpkt : Mem} {optlen : Nat} {a rest done : List UInt8}

/-- Reading a field moves past it. -/
theorem Decoder.At.advance (h : d.At optpkt optlen (a ++ rest) done) :
    slice optpkt d.cur.pos a.length = a ∧
      ({ d with cur := d.cur.advance a.length } : Decoder).At optpkt optlen rest done := by
  have hleft := h.left
  have hinput := h.input
  rw [List.length_append] at hleft hinput
  have hfit : a.length ≤ d.cur.left := by omega
  obtain ⟨ha, hrest⟩ := slice_split hinput
  refine ⟨ha, (Cursor.within_advance_iff h.within).mpr hfit, ?_, hrest, h.orig, h.pktlen,
    h.output⟩
  rw [Cursor.left_advance h.within hfit]
  omega

theorem Decoder.At.advance_of_length {n : Nat} (h : d.At optpkt optlen (a ++ rest) done)
    (hn : a.length = n) :
    slice optpkt d.cur.pos n = a ∧
      ({ d with cur := d.cur.advance n } : Decoder).At optpkt optlen rest done := by
  subst hn
  exact h.advance

/-- Writing extends the output. -/
theorem Decoder.At.put (h : d.At optpkt optlen rest done) {bs : List UInt8}
    (hlen : done.length + bs.length < 65536) :
    (d.put bs).At optpkt optlen rest (done ++ bs) := by
  refine ⟨h.within, h.left, h.input, ?_, ?_, ?_⟩
  · simp only [Decoder.put, h.orig, List.length_append]
    exact Nat.mod_eq_of_lt hlen
  · simp only [Decoder.put, h.pktlen, List.length_append]
    exact Nat.mod_eq_of_lt hlen
  · have hext := slice_memcpy_extend d.packet 0 done.length bs
    rw [Nat.zero_add] at hext
    simp only [Decoder.put, h.orig, List.length_append]
    rw [hext, h.output]

/-- A gap extends the output by what is there. -/
theorem Decoder.At.skip (h : d.At optpkt optlen rest done) {n : Nat}
    (hlen : done.length + n < 65536) :
    (d.skip n).At optpkt optlen rest (done ++ slice d.packet done.length n) := by
  refine ⟨h.within, h.left, h.input, ?_, ?_, ?_⟩
  · simp only [Decoder.skip, h.orig, List.length_append, length_slice]
    exact Nat.mod_eq_of_lt hlen
  · simp only [Decoder.skip, h.pktlen, List.length_append, length_slice]
    exact Nat.mod_eq_of_lt hlen
  · simp only [Decoder.skip, List.length_append, length_slice]
    rw [slice_append, h.output, Nat.zero_add]

theorem Decoder.At.copyChunk (h : d.At optpkt optlen (a ++ rest) done)
    (hlen : done.length + a.length < 65536) :
    (d.copyChunk optpkt a.length).At optpkt optlen rest (done ++ a) := by
  obtain ⟨ha, hadv⟩ := h.advance
  have hput := hadv.put hlen
  rw [Decoder.copyChunk, ha]
  exact ⟨hput.within, hput.left, hput.input, hput.orig, hput.pktlen, hput.output⟩

theorem Decoder.At.copyRest (h : d.At optpkt optlen rest done)
    (hlen : done.length + rest.length < 65536) :
    (d.copyRest optpkt).At optpkt optlen [] (done ++ rest) := by
  have hput := h.put hlen
  rw [Decoder.copyRest, h.left, h.input]
  exact ⟨Cursor.within_drain h.within, rfl, rfl, hput.orig, hput.pktlen, hput.output⟩

end Moves

section Offset

variable {cfg : Config} {d : Decoder} {optpkt : Mem} {optlen : Nat} {done tail : List UInt8}
  {t : Token} {ts : List Token}

/-- The end of an iteration, in front of another descriptor. -/
theorem decodeOffset_cons
    (h : d.At optpkt optlen (encodeTokens (t :: ts) tail) done)
    (hsize : done.length + (expand (t :: ts) tail).length ≤ cfg.MAXPKTSIZE)
    (hmax : cfg.MAXPKTSIZE ≤ 65534) :
    ∃ d', decodeOffset cfg optpkt d = .next d' ∧
      d'.At optpkt optlen (descriptor t.toPktChunk ++ encodeTokens ts tail) (done ++ t.lit) := by
  rw [encodeTokens_cons, List.append_assoc, List.append_assoc] at h
  rw [expand_cons, List.length_append, List.length_append] at hsize
  obtain ⟨hofs, hadv⟩ := h.advance_of_length (length_hton16 _)
  have hval : ntoh16 optpkt d.cur.pos = t.lit.length := ntoh16_of_slice hofs (by omega)
  refine ⟨_, ?_, hadv.copyChunk (by omega)⟩
  simp only [decodeOffset, hval]
  rw [if_neg (by simp only [NO_MORE]; omega), if_neg]
  simp only [h.orig]
  omega

/-- The end of the last iteration. -/
theorem decodeOffset_nil
    (h : d.At optpkt optlen (encodeTokens [] tail) done)
    (hsize : done.length + tail.length ≤ cfg.MAXPKTSIZE) (hmax : cfg.MAXPKTSIZE ≤ 65534) :
    ∃ d', decodeOffset cfg optpkt d = .next d' ∧ d'.At optpkt optlen [] (done ++ tail) := by
  rw [encodeTokens, List.flatMap_nil, List.nil_append] at h
  obtain ⟨hofs, hadv⟩ := h.advance_of_length (length_hton16 _)
  have hval : ntoh16 optpkt d.cur.pos = NO_MORE := ntoh16_of_slice hofs (by decide)
  refine ⟨_, ?_, hadv.copyRest (by omega)⟩
  simp only [decodeOffset, hval, if_true]
  have hleft : (d.cur.advance 2).left = tail.length := hadv.left
  rw [hleft, h.orig, if_neg (by omega)]

/-- What stands in front of the loop. -/
theorem decodeHeader_encode {hash : UInt32} (packet : Mem)
    (h : slice optpkt 0 optlen = encode hash (t :: ts) tail) (hlen : optlen < 65536)
    (hsize : (expand (t :: ts) tail).length ≤ cfg.MAXPKTSIZE) (hmax : cfg.MAXPKTSIZE ≤ 65534) :
    ∃ d, decodeHeader cfg optpkt optlen packet = (hash, .next d) ∧
      d.At optpkt optlen (descriptor t.toPktChunk ++ encodeTokens ts tail) t.lit := by
  have hlen' : optlen = (encode hash (t :: ts) tail).length := by
    rw [← h, length_slice]
  have hstart : (⟨Cursor.start optlen, 0, 0, packet⟩ : Decoder).At optpkt optlen
      (hton32 hash ++ (hton16 t.lit.length ++ (t.lit ++ (descriptor t.toPktChunk ++
        encodeTokens ts tail)))) [] := by
    rw [encode, encodeTokens_cons] at h hlen'
    simp only [List.append_assoc] at h hlen'
    refine ⟨Cursor.within_start hlen, hlen', ?_, rfl, rfl, rfl⟩
    rw [← hlen']
    exact h
  rw [expand_cons, List.length_append, List.length_append] at hsize
  obtain ⟨hhash, hadv⟩ := hstart.advance_of_length (length_hton32 _)
  obtain ⟨hofs, hadv'⟩ := hadv.advance_of_length (length_hton16 _)
  have hval := ntoh16_of_slice hofs (show t.lit.length < 65536 by omega)
  simp only [decodeHeader, ntoh32_of_slice hhash]
  rw [hval]
  by_cases hpos : t.lit.length > 0
  · rw [if_pos hpos, if_neg (by omega)]
    have hcopy := hadv'.copyChunk (by simp only [List.length_nil]; omega)
    exact ⟨_, rfl, by simpa using hcopy⟩
  · rw [if_neg hpos]
    have hnil : t.lit = [] := List.length_eq_zero_iff.mp (by omega)
    rw [hnil] at hadv' ⊢
    exact ⟨_, rfl, hadv'⟩

end Offset

/-! ### The loop -/

section Loop

variable {σ : Type} (left : σ → Nat) {step : σ → Step σ} {s s' : σ} {fuel : Nat}

theorem decodeLoop_next (h : left s ≥ DESCRIPTOR) (hstep : step s = .next s') :
    decodeLoop left step (fuel + 1) s = decodeLoop left step fuel s' := by
  simp only [decodeLoop, if_pos h, hstep]

theorem decodeLoop_stop {exit : UncompExit} (h : left s ≥ DESCRIPTOR)
    (hstep : step s = .stop exit s') :
    decodeLoop left step (fuel + 1) s = (some exit, s') := by
  simp only [decodeLoop, if_pos h, hstep]

theorem decodeLoop_end (h : left s = 0) : decodeLoop left step fuel s = (none, s) := by
  have hless : ¬ left s ≥ DESCRIPTOR := by
    rw [h]
    decide
  cases fuel with
  | zero => simp only [decodeLoop, if_neg hless]
  | succ fuel => simp only [decodeLoop, if_neg hless]

/-- In front of a descriptor there is enough input for another iteration. -/
theorem Decoder.At.enough {d : Decoder} {optpkt : Mem} {optlen : Nat} {done tail : List UInt8}
    {c : PktChunk} {ts : List Token}
    (h : d.At optpkt optlen (descriptor c ++ encodeTokens ts tail) done) :
    d.cur.left ≥ DESCRIPTOR := by
  have hleft := h.left
  simp only [List.length_append, length_descriptor, encodeTokens, length_hton16] at hleft
  simp only [DESCRIPTOR]
  omega

end Loop

/-! ### The thread dictionary -/

/-- The cursor behind the first four fields of a descriptor. -/
def Decoder.pastLimits (d : Decoder) : Decoder :=
  { d with cur := (((d.cur.advance 8).advance 4).advance 2).advance 2 }

/-- The dictionary has what the token stands for. -/
def Token.ResolvesIn (t : Token) (cfg : Config) (pd : Deduplicator) : Prop :=
  ∃ pkt, getPktByHash cfg pd.fps pd.ps t.fp t.hash = some pkt ∧ t.right < pkt.len ∧
    slice pkt.pkt t.left (t.right - t.left + 1) = t.body

/-- The ways in which the loop stops at a reference. -/
def UncompExit.IsMiss : UncompExit → Prop
  | .fpNotFound _ _ => True
  | .badPacketFormat => True
  | _ => False

section Thread

variable {cfg : Config} {d : Decoder} {optpkt : Mem} {optlen : Nat}
  {rest done tail : List UInt8} {t : Token} {ts : List Token} {c : PktChunk}

/-- Reading the fields of a descriptor. -/
theorem Decoder.At.descriptor (h : d.At optpkt optlen (descriptor c ++ rest) done)
    (hleft : c.left < 65536) (hright : c.right < 65536) :
    ntoh64 optpkt d.cur.pos = c.fp ∧ ntoh32 optpkt (d.cur.advance 8).pos = c.hash ∧
      ntoh16 optpkt ((d.cur.advance 8).advance 4).pos = c.left ∧
      ntoh16 optpkt (((d.cur.advance 8).advance 4).advance 2).pos = c.right ∧
      ((d.cur.advance 8).advance 4).Within optlen ∧ d.pastLimits.At optpkt optlen rest done := by
  simp only [Codec.descriptor, List.append_assoc] at h
  obtain ⟨hfp, h1⟩ := h.advance_of_length (length_hton64 _)
  obtain ⟨hhash, h2⟩ := h1.advance_of_length (length_hton32 _)
  obtain ⟨hl, h3⟩ := h2.advance_of_length (length_hton16 _)
  obtain ⟨hr, h4⟩ := h3.advance_of_length (length_hton16 _)
  exact ⟨ntoh64_of_slice hfp, ntoh32_of_slice hhash, ntoh16_of_slice hl hleft,
    ntoh16_of_slice hr hright, h2.within, h4⟩

/-- One iteration up to the next offset: the loop stops at a reference that is not in the
dictionary, or goes on with what the dictionary has for it. -/
theorem decodeStep_descriptor (pd : Deduplicator)
    (h : d.At optpkt optlen (descriptor t.toPktChunk ++ rest) done)
    (hwf : t.WellFormed) (hsize : done.length + t.body.length ≤ cfg.MAXPKTSIZE)
    (hmax : cfg.MAXPKTSIZE ≤ 65534) :
    (¬ t.ResolvesIn cfg pd ∧ ∃ exit d', decodeStep cfg pd optpkt d = .stop exit d' ∧
        exit.IsMiss ∧ d'.cur.Within optlen) ∨
      ∃ found d', decodeStep cfg pd optpkt d = decodeOffset cfg optpkt d' ∧
        found.length = t.body.length ∧ (t.ResolvesIn cfg pd → found = t.body) ∧
        d'.At optpkt optlen rest (done ++ found) := by
  have hleft_le := hwf.left_le
  have hright_lt := hwf.right_lt
  have hbody := hwf.body_length
  obtain ⟨hfp, hhash, hleft, hright, hin, hat⟩ := h.descriptor (by omega) (by omega)
  simp only [decodeStep, hfp, hhash, hleft, hright]
  cases hget : getPktByHash cfg pd.fps pd.ps t.fp t.hash with
  | none =>
    left
    refine ⟨?_, _, _, rfl, trivial, hin⟩
    rintro ⟨pkt, hpkt, -⟩
    rw [hget] at hpkt
    cases hpkt
  | some pkt =>
    dsimp only
    by_cases hlong : t.right ≥ pkt.len
    · left
      rw [if_pos (Or.inr (Or.inl hlong))]
      refine ⟨?_, _, _, rfl, trivial, hat.within⟩
      rintro ⟨pkt', hpkt', hlt, -⟩
      rw [hget] at hpkt'
      cases hpkt'
      omega
    · right
      rw [if_neg (by rw [h.orig]; omega)]
      refine ⟨_, _, rfl, ?_, ?_, hat.put ?_⟩
      · rw [length_slice, hbody]
      · rintro ⟨pkt', hpkt', -, hslice⟩
        rw [hget] at hpkt'
        cases hpkt'
        exact hslice
      · rw [length_slice, ← hbody]
        omega

/-- The outcome of the loop on a list of tokens, the first of which has its chunk already
copied. -/
theorem decodeLoop_tokens (pd : Deduplicator) {fuel : Nat}
    (h : d.At optpkt optlen (descriptor t.toPktChunk ++ encodeTokens ts tail) done)
    (hwf : ∀ u ∈ t :: ts, u.WellFormed)
    (hsize : done.length + t.body.length + (expand ts tail).length ≤ cfg.MAXPKTSIZE)
    (hmax : cfg.MAXPKTSIZE ≤ 65534) (hfuel : ts.length < fuel) :
    ∃ d', d'.cur.Within optlen ∧
      (((∃ u ∈ t :: ts, ¬ u.ResolvesIn cfg pd) ∧ ∃ exit, exit.IsMiss ∧
          decodeLoop Decoder.left (decodeStep cfg pd optpkt) fuel d = (some exit, d')) ∨
        decodeLoop Decoder.left (decodeStep cfg pd optpkt) fuel d = (none, d') ∧
          ∃ out, out.length = t.body.length + (expand ts tail).length ∧
            d'.At optpkt optlen [] (done ++ out) ∧
            ((∀ u ∈ t :: ts, u.ResolvesIn cfg pd) → out = t.body ++ expand ts tail)) := by
  induction ts generalizing fuel d done t with
  | nil =>
    obtain ⟨fuel, rfl⟩ := Nat.exists_eq_add_of_lt hfuel
    rw [List.length_nil, Nat.zero_add]
    have hexp : expand [] tail = tail := rfl
    rw [hexp] at hsize ⊢
    rcases decodeStep_descriptor pd h (hwf t List.mem_cons_self) (by omega) hmax with
      ⟨hmiss, exit, d', hstop, hexit, hin⟩ | ⟨found, d', hstep, hlen, hres, hat⟩
    · exact ⟨d', hin, Or.inl ⟨⟨t, List.mem_cons_self, hmiss⟩, exit, hexit,
        decodeLoop_stop Decoder.left h.enough hstop⟩⟩
    · obtain ⟨d'', hofs, hat'⟩ := decodeOffset_nil hat (by rw [List.length_append]; omega) hmax
      rw [decodeLoop_next Decoder.left h.enough (hstep.trans hofs), decodeLoop_end Decoder.left hat'.left]
      refine ⟨d'', hat'.within, Or.inr ⟨rfl, found ++ tail, ?_, ?_, ?_⟩⟩
      · rw [List.length_append, hlen]
      · rw [← List.append_assoc]
        exact hat'
      · intro hall
        rw [hres (hall t List.mem_cons_self)]
  | cons u ts ih =>
    obtain ⟨fuel, rfl⟩ := Nat.exists_eq_add_of_lt hfuel
    have hexp : (expand (u :: ts) tail).length =
        u.lit.length + u.body.length + (expand ts tail).length := by
      rw [expand_cons, List.length_append, List.length_append]
    rcases decodeStep_descriptor pd h (hwf t List.mem_cons_self) (by omega) hmax with
      ⟨hmiss, exit, d', hstop, hexit, hin⟩ | ⟨found, d', hstep, hlen, hres, hat⟩
    · exact ⟨d', hin, Or.inl ⟨⟨t, List.mem_cons_self, hmiss⟩, exit, hexit,
        decodeLoop_stop Decoder.left h.enough hstop⟩⟩
    · obtain ⟨d'', hofs, hat'⟩ := decodeOffset_cons hat (by rw [List.length_append]; omega) hmax
      rw [decodeLoop_next Decoder.left h.enough (hstep.trans hofs)]
      obtain ⟨d₃, hin, hrest⟩ := ih hat'
        (fun v hv => hwf v (List.mem_cons_of_mem t hv))
        (by simp only [List.length_append]; omega)
        (show ts.length < (u :: ts).length + fuel by rw [List.length_cons]; omega)
      refine ⟨d₃, hin, ?_⟩
      rcases hrest with ⟨⟨v, hv, hmiss⟩, hexit⟩ | ⟨hend, out, hout, hat₃, hres'⟩
      · exact Or.inl ⟨⟨v, List.mem_cons_of_mem t hv, hmiss⟩, hexit⟩
      · refine Or.inr ⟨hend, found ++ u.lit ++ out, ?_, ?_, ?_⟩
        · simp only [List.length_append]
          omega
        · simpa [List.append_assoc] using hat₃
        · intro hall
          rw [hres (hall t List.mem_cons_self),
            hres' (fun v hv => hall v (List.mem_cons_of_mem t hv)), expand_cons]
          simp only [List.append_assoc]

end Thread

/-! ### The shared dictionary -/

/-- Where the referenced strings of a token list go, when it starts at offset `pos`. -/
def bodyOffsets : Nat → List Token → List Nat
  | _, [] => []
  | pos, t :: ts =>
    (pos + t.lit.length) :: bodyOffsets (pos + t.lit.length + t.body.length) ts

@[simp] theorem length_bodyOffsets (pos : Nat) (ts : List Token) :
    (bodyOffsets pos ts).length = ts.length := by
  induction ts generalizing pos with
  | nil => rfl
  | cons t ts ih => rw [bodyOffsets, List.length_cons, List.length_cons, ih]

section Shared

variable {cfg : Config} {s : SharedDecoder} {optpkt : Mem} {optlen : Nat}
  {rest done tail : List UInt8} {t : Token} {ts : List Token}

/-- One iteration up to the next offset: the descriptor is recorded and a gap is left for
its string. -/
theorem decodeSharedStep_descriptor
    (h : s.At optpkt optlen (descriptor t.toPktChunk ++ rest) done)
    (hwf : t.WellFormed) (hsize : done.length + t.body.length ≤ cfg.MAXPKTSIZE)
    (hmax : cfg.MAXPKTSIZE ≤ 65534) :
    ∃ gap d, gap.length = t.body.length ∧ d.At optpkt optlen rest (done ++ gap) ∧
      ∀ d', decodeOffset cfg optpkt d = .next d' →
        decodeSharedStep cfg optpkt s =
          .next ⟨d', s.fptopkt ++ [(t.toPktChunk, done.length)]⟩ := by
  have hleft_le := hwf.left_le
  have hright_lt := hwf.right_lt
  have hbody := hwf.body_length
  obtain ⟨hfp, hhash, hleft, hright, -, hat⟩ := h.descriptor (by omega) (by omega)
  refine ⟨_, _, ?_, hat.skip (n := t.right - t.left + 1) (by omega), ?_⟩
  · rw [length_slice, hbody]
  · intro d' hofs
    simp only [decodeSharedStep, hfp, hhash, hleft, hright]
    rw [if_neg (by rw [h.orig]; omega)]
    simp only [Decoder.pastLimits] at hofs
    rw [hofs, h.orig, Step.map]

/-- The outcome of the loop on a list of tokens, the first of which has its chunk already
copied: all descriptors are recorded, and the output is complete but for the gaps. -/
theorem decodeSharedLoop_tokens {fuel : Nat}
    (h : s.At optpkt optlen (descriptor t.toPktChunk ++ encodeTokens ts tail) done)
    (hwf : ∀ u ∈ t :: ts, u.WellFormed)
    (hsize : done.length + t.body.length + (expand ts tail).length ≤ cfg.MAXPKTSIZE)
    (hmax : cfg.MAXPKTSIZE ≤ 65534) (hfuel : ts.length < fuel) :
    ∃ s' gap us, decodeLoop SharedDecoder.left (decodeSharedStep cfg optpkt) fuel s = (none, s') ∧
      gap.length = t.body.length ∧ SameShape ts us ∧
      s'.At optpkt optlen [] (done ++ gap ++ expand us tail) ∧
      s'.fptopkt = s.fptopkt ++ (t.toPktChunk, done.length) ::
        (ts.map Token.toPktChunk).zip (bodyOffsets (done.length + t.body.length) ts) := by
  induction ts generalizing fuel s done t with
  | nil =>
    obtain ⟨fuel, rfl⟩ := Nat.exists_eq_add_of_lt hfuel
    have hexp : expand [] tail = tail := rfl
    rw [hexp] at hsize
    obtain ⟨gap, d, hgap, hat, hstep⟩ := decodeSharedStep_descriptor h (hwf t List.mem_cons_self)
      (by omega) hmax
    obtain ⟨d', hofs, hat'⟩ := decodeOffset_nil hat (by rw [List.length_append]; omega) hmax
    refine ⟨⟨d', s.fptopkt ++ [(t.toPktChunk, done.length)]⟩, gap, [], ?_, hgap, .nil, hat', rfl⟩
    rw [decodeLoop_next SharedDecoder.left h.enough (hstep d' hofs)]
    exact decodeLoop_end SharedDecoder.left hat'.left
  | cons u ts ih =>
    obtain ⟨fuel, rfl⟩ := Nat.exists_eq_add_of_lt hfuel
    have hexp : (expand (u :: ts) tail).length =
        u.lit.length + u.body.length + (expand ts tail).length := by
      rw [expand_cons, List.length_append, List.length_append]
    obtain ⟨gap, d, hgap, hat, hstep⟩ := decodeSharedStep_descriptor h (hwf t List.mem_cons_self)
      (by omega) hmax
    obtain ⟨d', hofs, hat'⟩ := decodeOffset_cons hat (by rw [List.length_append]; omega) hmax
    obtain ⟨s', gap', us, hloop, hgap', hshape, hat'', htable⟩ :=
      ih (s := ⟨d', s.fptopkt ++ [(t.toPktChunk, done.length)]⟩) hat'
        (fun v hv => hwf v (List.mem_cons_of_mem t hv))
        (by simp only [List.length_append]; omega)
        (show ts.length < (u :: ts).length + fuel by rw [List.length_cons]; omega)
    refine ⟨s', gap, { u with body := gap' } :: us, ?_, hgap, ?_, ?_, ?_⟩
    · rw [decodeLoop_next SharedDecoder.left h.enough (hstep d' hofs)]
      exact hloop
    · exact .cons ⟨rfl, rfl, hgap'.symm⟩ hshape
    · rw [expand_cons]
      simpa only [List.append_assoc] using hat''
    · rw [htable]
      simp only [List.length_append, hgap, List.append_assoc, List.singleton_append,
        List.map_cons, bodyOffsets, List.zip_cons_cons, Nat.add_assoc]

/-- The pieces looked up for the tokens, when the dictionary has what they stand for and the
arrays have room for it. -/
theorem getPktsByFPsAndHash_tokens {g : SharedDictionaries}
    (hwf : ∀ t ∈ ts, t.WellFormed) (hbody : ∀ t ∈ ts, t.body.length ≤ PKTSIZELIMIT)
    (hres : ∀ t ∈ ts, t.ResolvesIn cfg g.desc) :
    getPktsByFPsAndHash cfg g (ts.map Token.toPktChunk) =
      some (ts.length, ts.map fun t => ⟨t.body, t.body.length⟩) := by
  induction ts with
  | nil => rfl
  | cons t ts ih =>
    obtain ⟨pkt, hget, hlt, hslice⟩ := hres t List.mem_cons_self
    have hlen := (hwf t List.mem_cons_self).body_length
    have hfits := hbody t List.mem_cons_self
    have hmod : (t.right - t.left + 1) % 65536 = t.right - t.left + 1 := by
      simp only [PKTSIZELIMIT] at hfits
      omega
    rw [List.map_cons, getPktsByFPsAndHash]
    simp only [hget]
    rw [if_neg (by omega), hmod, if_neg (by omega), hslice,
      ih (fun u hu => hwf u (List.mem_cons_of_mem t hu))
        (fun u hu => hbody u (List.mem_cons_of_mem t hu))
        (fun u hu => hres u (List.mem_cons_of_mem t hu))]
    simp [hlen]

/-- Pasting what the tokens stand for into the gaps. -/
theorem pasteFrags_tokens {us : List Token} {m : Mem} {front : List UInt8} {n : Nat}
    (hshape : SameShape ts us) (hpos : ∀ t ∈ ts, t.body ≠ [])
    (hm : slice m 0 n = front ++ expand us tail) :
    ∃ m', pasteFrags (((ts.map Token.toPktChunk).zip (bodyOffsets front.length ts)).zip
        (ts.map fun t => ⟨t.body, t.body.length⟩)) m = (none, m') ∧
      slice m' 0 n = front ++ expand ts tail := by
  induction hshape generalizing m front with
  | nil => exact ⟨m, rfl, hm⟩
  | @cons t u ts us hsame hshape ih =>
    obtain ⟨hchunk, hlit, hlen⟩ := hsame
    have hne : t.body.length ≠ 0 := by
      have := List.length_pos_of_ne_nil (hpos t List.mem_cons_self)
      omega
    rw [expand_cons, ← hlit] at hm
    -- The gap lies behind the chunk and is as long as the string.
    have hpaste : slice (memcpy m (front.length + t.lit.length) t.body) 0 n =
        (front ++ t.lit ++ t.body) ++ expand us tail := by
      have hsplit : slice m 0 n = (front ++ t.lit) ++ (u.body ++ expand us tail) := by
        rw [hm]
        simp only [List.append_assoc]
      have hmid := slice_memcpy_middle hsplit hlen
      rw [Nat.zero_add, List.length_append] at hmid
      rw [hmid, List.append_assoc (front ++ t.lit)]
    obtain ⟨m', hrest, hm'⟩ := ih (fun v hv => hpos v (List.mem_cons_of_mem t hv)) hpaste
    refine ⟨m', ?_, ?_⟩
    · simp only [List.map_cons, bodyOffsets, List.zip_cons_cons, pasteFrags, if_neg hne]
      simpa only [List.length_append] using hrest
    · rw [hm', expand_cons]
      simp only [List.append_assoc]

end Shared

end Solowan.Codec
