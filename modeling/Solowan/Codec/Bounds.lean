/-
Which inputs `uncomp` reads without leaving them.

The descriptors are read only when 18 bytes are left, so they are never the problem. The
header is read unconditionally, and the length of a chunk comes from the packet and is
compared with the room in the output only. So `uncomp` stays inside its input exactly when
the input has a header and each chunk it goes on to copy is as long as announced
(`InputFits`); which chunks it goes on to copy depends on whether the descriptors in front
of them are taken, which is where the two modes differ (`takesThread`, `takesShared`).

`uncomp_inBounds_iff` states this for both modes. The proof follows the cursor: a step from
inside the input ends inside it or has wrapped the counter (`StepBounds`), and a wrapped
counter stays wrapped (`wrapped_decodeStep`, `wrapped_decodeSharedStep`).
-/

import Solowan.Codec.RoundTrip

namespace Solowan.Codec

open Solowan.Memory Solowan.Dictionary

/-! ### Inputs that fit -/

/-- The descriptor that starts at `pos`. -/
def chunkAt (optpkt : Mem) (pos : Nat) : PktChunk :=
  ⟨ntoh64 optpkt pos, ntoh32 optpkt (pos + 8), ntoh16 optpkt (pos + 12), ntoh16 optpkt (pos + 14)⟩

/-- With the thread dictionary, a descriptor is taken when its packet is found and has the
interval, and the output has room for it. -/
def takesThread (cfg : Config) (pd : Deduplicator) (c : PktChunk) (orig : Nat) : Prop :=
  ∃ storedPkt, getPktByHash cfg pd.fps pd.ps c.fp c.hash = some storedPkt ∧
    ¬ (c.left > c.right ∨ c.right ≥ storedPkt.len ∨ orig + c.right - c.left > cfg.MAXPKTSIZE)

/-- With the shared dictionary, a descriptor is taken when the output has room for it. Nothing
asks whether the tables have. -/
def takesShared (cfg : Config) (c : PktChunk) (orig : Nat) : Prop :=
  ¬ (c.left > c.right ∨ orig + c.right - c.left > cfg.MAXPKTSIZE)

/-- The position in the output behind the string of descriptor `c`. -/
def origAfter (c : PktChunk) (orig : Nat) : Nat := (orig + (c.right - c.left + 1)) % 65536

/-- From the descriptor at `pos` on, with `left` bytes to go and `orig` bytes written, every
chunk that is copied is as long as announced: there is no further descriptor, or it is
refused, or it is the last, or the chunk behind it is refused as too long for the output, or
that chunk is there and the rest fits. -/
inductive RunsFit (cfg : Config) (takes : PktChunk → Nat → Prop) (optpkt : Mem) :
    Nat → Nat → Nat → Prop where
  | short {pos left orig : Nat} (h : left < DESCRIPTOR) : RunsFit cfg takes optpkt pos left orig
  | refused {pos left orig : Nat} (h : ¬ takes (chunkAt optpkt pos) orig) :
      RunsFit cfg takes optpkt pos left orig
  | last {pos left orig : Nat} (h : ntoh16 optpkt (pos + 16) = NO_MORE) :
      RunsFit cfg takes optpkt pos left orig
  | tooLong {pos left orig : Nat}
      (h : origAfter (chunkAt optpkt pos) orig + ntoh16 optpkt (pos + 16) > cfg.MAXPKTSIZE) :
      RunsFit cfg takes optpkt pos left orig
  | run {pos left orig : Nat} (h : ntoh16 optpkt (pos + 16) ≤ left - DESCRIPTOR)
      (rest : RunsFit cfg takes optpkt (pos + DESCRIPTOR + ntoh16 optpkt (pos + 16))
        (left - DESCRIPTOR - ntoh16 optpkt (pos + 16))
        ((origAfter (chunkAt optpkt pos) orig + ntoh16 optpkt (pos + 16)) % 65536)) :
      RunsFit cfg takes optpkt pos left orig

/-- The input has a header, and every chunk that is copied is as long as announced. -/
def InputFits (cfg : Config) (takes : PktChunk → Nat → Prop) (optpkt : Mem) (optlen : Nat) :
    Prop :=
  6 ≤ optlen ∧ (ntoh16 optpkt 4 > cfg.MAXPKTSIZE ∨
    ntoh16 optpkt 4 ≤ optlen - 6 ∧
      RunsFit cfg takes optpkt (6 + ntoh16 optpkt 4) (optlen - 6 - ntoh16 optpkt 4)
        (ntoh16 optpkt 4))

/-- Which descriptors are taken, by mode. -/
def takes (cfg : Config) (pd : Deduplicator) : PktChunk → Nat → Prop :=
  if cfg.shared_dictionary_mode then takesShared cfg else takesThread cfg pd

/-! ### One iteration -/

/-- The cursor behind a descriptor and the offset that follows it. -/
def pastDescriptor (c : Cursor) : Cursor :=
  ((((c.advance 8).advance 4).advance 2).advance 2).advance 2

/-- The outcome of an iteration from inside the input. Either it stops inside, or it has
drained the input, or it has copied a chunk whose length was not compared with what is
left. -/
inductive StepBounds {σ : Type} (cfg : Config) (takes : PktChunk → Nat → Prop)
    (optpkt : Mem) (optlen : Nat) (dec : σ → Decoder) (d : Decoder) : Step σ → Prop where
  | halt {exit : UncompExit} {s' : σ}
      (fits : ∀ left, RunsFit cfg takes optpkt d.cur.pos left d.orig)
      (within : (dec s').cur.Within optlen) :
      StepBounds cfg takes optpkt optlen dec d (.stop exit s')
  | drained {s' : σ} (fits : ∀ left, RunsFit cfg takes optpkt d.cur.pos left d.orig)
      (within : (dec s').cur.Within optlen) (left : (dec s').cur.left = 0) :
      StepBounds cfg takes optpkt optlen dec d (.next s')
  | run {s' : σ} (taken : takes (chunkAt optpkt d.cur.pos) d.orig)
      (more : ntoh16 optpkt (d.cur.pos + 16) ≠ NO_MORE)
      (room : origAfter (chunkAt optpkt d.cur.pos) d.orig + ntoh16 optpkt (d.cur.pos + 16) ≤
        cfg.MAXPKTSIZE)
      (cur : (dec s').cur = (pastDescriptor d.cur).advance (ntoh16 optpkt (d.cur.pos + 16)))
      (orig : (dec s').orig =
        (origAfter (chunkAt optpkt d.cur.pos) d.orig + ntoh16 optpkt (d.cur.pos + 16)) % 65536) :
      StepBounds cfg takes optpkt optlen dec d (.next s')

section Step

variable {cfg : Config} {optpkt : Mem} {optlen : Nat} {d : Decoder} {c : Cursor}

/-- The fields of a descriptor are inside the input when it is long enough. -/
theorem within_pastDescriptor (h : c.Within optlen) (hleft : DESCRIPTOR ≤ c.left) :
    ((c.advance 8).advance 4).Within optlen ∧
      ((((c.advance 8).advance 4).advance 2).advance 2).Within optlen ∧
      (pastDescriptor c).Within optlen ∧ (pastDescriptor c).left = c.left - DESCRIPTOR := by
  simp only [DESCRIPTOR] at hleft
  have hl1 := Cursor.left_advance h (show 8 ≤ c.left by omega)
  have h1 := (Cursor.within_advance_iff h).mpr (show 8 ≤ c.left by omega)
  have hl2 := Cursor.left_advance h1 (show 4 ≤ (c.advance 8).left by omega)
  have h2 := (Cursor.within_advance_iff h1).mpr (show 4 ≤ (c.advance 8).left by omega)
  have hl3 := Cursor.left_advance h2 (show 2 ≤ ((c.advance 8).advance 4).left by omega)
  have h3 := (Cursor.within_advance_iff h2).mpr (show 2 ≤ ((c.advance 8).advance 4).left by omega)
  have hl4 := Cursor.left_advance h3
    (show 2 ≤ (((c.advance 8).advance 4).advance 2).left by omega)
  have h4 := (Cursor.within_advance_iff h3).mpr
    (show 2 ≤ (((c.advance 8).advance 4).advance 2).left by omega)
  have hl5 := Cursor.left_advance h4
    (show 2 ≤ ((((c.advance 8).advance 4).advance 2).advance 2).left by omega)
  have h5 := (Cursor.within_advance_iff h4).mpr
    (show 2 ≤ ((((c.advance 8).advance 4).advance 2).advance 2).left by omega)
  refine ⟨h2, h4, h5, ?_⟩
  rw [pastDescriptor, hl5, hl4, hl3, hl2, hl1]
  simp only [DESCRIPTOR]
  omega

/-- The end of an iteration, with the cursor in front of the offset. -/
theorem decodeOffset_bounds (cfg : Config) (optpkt : Mem) (h : (d.cur.advance 2).Within optlen) :
    (∃ exit d', decodeOffset cfg optpkt d = .stop exit d' ∧ d'.cur.Within optlen ∧
        (ntoh16 optpkt d.cur.pos = NO_MORE ∨
          d.orig + ntoh16 optpkt d.cur.pos > cfg.MAXPKTSIZE)) ∨
      (∃ d', decodeOffset cfg optpkt d = .next d' ∧ d'.cur.Within optlen ∧ d'.cur.left = 0 ∧
        ntoh16 optpkt d.cur.pos = NO_MORE) ∨
      ∃ d', decodeOffset cfg optpkt d = .next d' ∧ ntoh16 optpkt d.cur.pos ≠ NO_MORE ∧
        d.orig + ntoh16 optpkt d.cur.pos ≤ cfg.MAXPKTSIZE ∧
        d'.cur = (d.cur.advance 2).advance (ntoh16 optpkt d.cur.pos) ∧
        d'.orig = (d.orig + ntoh16 optpkt d.cur.pos) % 65536 := by
  rw [decodeOffset]
  dsimp only
  split
  · rename_i hlast
    split
    · exact Or.inl ⟨_, _, rfl, h, Or.inl hlast⟩
    · exact Or.inr (Or.inl ⟨_, rfl, Cursor.within_drain h, rfl, hlast⟩)
  · rename_i hmore
    split
    · rename_i hlong
      exact Or.inl ⟨_, _, rfl, h, Or.inr hlong⟩
    · rename_i hroom
      refine Or.inr (Or.inr ⟨_, rfl, hmore, by omega, rfl, ?_⟩)
      simp only [Decoder.copyChunk, Decoder.put, length_slice]

/-- The end of an iteration that has taken its descriptor: `d₁` is in front of the offset,
and `f` puts the decoder back into the state of the loop. -/
theorem stepBounds_offset {σ : Type} {takes : PktChunk → Nat → Prop} {dec : σ → Decoder}
    {f : Decoder → σ} {d₁ : Decoder} (hdec : ∀ d, dec (f d) = d)
    (htake : takes (chunkAt optpkt d.cur.pos) d.orig)
    (hcur : d₁.cur = (((d.cur.advance 8).advance 4).advance 2).advance 2)
    (horig : d₁.orig = origAfter (chunkAt optpkt d.cur.pos) d.orig)
    (h : (pastDescriptor d.cur).Within optlen) :
    StepBounds cfg takes optpkt optlen dec d ((decodeOffset cfg optpkt d₁).map f) := by
  have hpos : d₁.cur.pos = d.cur.pos + 16 := by
    rw [hcur]
    simp only [Cursor.advance]
  have h' : (d₁.cur.advance 2).Within optlen := by
    rw [hcur]
    exact h
  rcases decodeOffset_bounds cfg optpkt h' with
    ⟨exit, d', hstop, hin, hwhy⟩ | ⟨d', hnext, hin, hzero, hlast⟩ |
      ⟨d', hnext, hmore, hroom, hcur', horig'⟩
  · rw [hstop, Step.map]
    rw [hpos, horig] at hwhy
    refine .halt (fun left => ?_) (by rw [hdec]; exact hin)
    rcases hwhy with hlast | hlong
    · exact .last hlast
    · exact .tooLong hlong
  · rw [hnext, Step.map]
    rw [hpos] at hlast
    exact .drained (fun _ => .last hlast) (by rw [hdec]; exact hin) (by rw [hdec]; exact hzero)
  · rw [hnext, Step.map]
    rw [hpos] at hmore hcur' horig'
    rw [hpos, horig] at hroom
    refine .run htake hmore hroom ?_ ?_
    · rw [hdec, hcur', hcur, pastDescriptor]
    · rw [hdec, horig', horig]

theorem Step.map_id {σ : Type} (step : Step σ) : step.map id = step := by
  cases step <;> rfl

/-- An iteration with the thread dictionary, from inside the input. -/
theorem decodeStep_bounds (pd : Deduplicator) (h : d.cur.Within optlen)
    (hleft : DESCRIPTOR ≤ d.cur.left) :
    StepBounds cfg (takesThread cfg pd) optpkt optlen id d (decodeStep cfg pd optpkt d) := by
  obtain ⟨h12, h16, h18, -⟩ := within_pastDescriptor h hleft
  rw [decodeStep]
  dsimp only
  cases hget : getPktByHash cfg pd.fps pd.ps (ntoh64 optpkt d.cur.pos)
      (ntoh32 optpkt (d.cur.advance 8).pos) with
  | none =>
    refine .halt (fun left => .refused ?_) h12
    rintro ⟨pkt, hpkt, -⟩
    exact absurd (hget.symm.trans hpkt) (by simp)
  | some pkt =>
    dsimp only
    split
    · rename_i hbad
      refine .halt (fun left => .refused ?_) h16
      rintro ⟨pkt', hpkt', hgood⟩
      have hsame : pkt = pkt' := Option.some.inj (hget.symm.trans hpkt')
      subst hsame
      exact hgood hbad
    · rename_i hgood
      have htake : takesThread cfg pd (chunkAt optpkt d.cur.pos) d.orig := ⟨pkt, hget, hgood⟩
      rw [← Step.map_id (decodeOffset cfg optpkt _)]
      refine stepBounds_offset (fun _ => rfl) htake rfl ?_ h18
      simp only [Decoder.put, length_slice, origAfter, chunkAt, Cursor.advance]

/-- An iteration with the shared dictionary, from inside the input. -/
theorem decodeSharedStep_bounds {s : SharedDecoder} (h : s.cur.Within optlen)
    (hleft : DESCRIPTOR ≤ s.cur.left) :
    StepBounds cfg (takesShared cfg) optpkt optlen SharedDecoder.toDecoder s.toDecoder
      (decodeSharedStep cfg optpkt s) := by
  obtain ⟨-, h16, h18, -⟩ := within_pastDescriptor h hleft
  rw [decodeSharedStep]
  dsimp only
  split
  · rename_i hbad
    exact .halt (fun left => .refused fun hgood => hgood hbad) h16
  · rename_i hgood
    have htake : takesShared cfg (chunkAt optpkt s.cur.pos) s.orig := hgood
    exact stepBounds_offset (fun _ => rfl) htake rfl rfl h18

end Step

/-! ### A wrapped counter stays wrapped -/

section Wrapped

variable {cfg : Config} {optpkt : Mem}

/-- The state an iteration ends with. -/
def Step.state {σ : Type} : Step σ → σ
  | .next s => s
  | .stop _ s => s

theorem Step.state_map {σ τ : Type} (f : σ → τ) (step : Step σ) :
    (step.map f).state = f step.state := by
  cases step <;> rfl

theorem wrapped_decodeOffset (cfg : Config) (optpkt : Mem) {d : Decoder} (h : d.cur.wrapped = true) :
    (decodeOffset cfg optpkt d).state.cur.wrapped = true := by
  have h2 := Cursor.wrapped_advance h 2
  rw [decodeOffset]
  dsimp only
  split
  · split
    · exact h2
    · exact Cursor.wrapped_drain h2
  · split
    · exact h2
    · exact Cursor.wrapped_advance h2 _

theorem wrapped_decodeStep (pd : Deduplicator) {d : Decoder} (h : d.cur.wrapped = true) :
    (decodeStep cfg pd optpkt d).state.cur.wrapped = true := by
  have h2 := Cursor.wrapped_advance (Cursor.wrapped_advance h 8) 4
  have h4 := Cursor.wrapped_advance (Cursor.wrapped_advance h2 2) 2
  rw [decodeStep]
  dsimp only
  split
  · exact h2
  · split
    · exact h4
    · exact wrapped_decodeOffset cfg optpkt h4

theorem wrapped_decodeSharedStep {s : SharedDecoder} (h : s.cur.wrapped = true) :
    (decodeSharedStep cfg optpkt s).state.cur.wrapped = true := by
  have h2 := Cursor.wrapped_advance (Cursor.wrapped_advance h 8) 4
  have h4 := Cursor.wrapped_advance (Cursor.wrapped_advance h2 2) 2
  rw [decodeSharedStep]
  dsimp only
  split
  · exact h4
  · rw [Step.state_map]
    exact wrapped_decodeOffset cfg optpkt h4

/-- What every iteration keeps, the loop keeps. -/
theorem decodeLoop_invariant {σ : Type} {P : σ → Prop} (left : σ → Nat) {step : σ → Step σ}
    (hstep : ∀ s, P s → P (step s).state) (fuel : Nat) {s : σ} (h : P s) :
    P (decodeLoop left step fuel s).2 := by
  induction fuel generalizing s with
  | zero => exact h
  | succ fuel ih =>
    rw [decodeLoop]
    split
    · have hs := hstep s h
      split
      · rename_i s' heq
        rw [heq] at hs
        exact ih hs
      · rename_i exit s' heq
        rw [heq] at hs
        exact hs
    · exact h

theorem wrapped_decodeLoop {σ : Type} (left : σ → Nat) (dec : σ → Decoder) {step : σ → Step σ}
    (hstep : ∀ s, (dec s).cur.wrapped = true → (dec (step s).state).cur.wrapped = true)
    (fuel : Nat) {s : σ} (h : (dec s).cur.wrapped = true) :
    (dec (decodeLoop left step fuel s).2).cur.wrapped = true :=
  decodeLoop_invariant (P := fun s => (dec s).cur.wrapped = true) left hstep fuel h

end Wrapped

/-! ### The length of the output -/

section Pktlen

variable {cfg : Config}

theorem Decoder.put_pktlen (d : Decoder) (bs : List UInt8) : (d.put bs).pktlen < 65536 :=
  Nat.mod_lt _ (by decide)

theorem Decoder.skip_pktlen (d : Decoder) (n : Nat) : (d.skip n).pktlen < 65536 :=
  Nat.mod_lt _ (by decide)

theorem pktlen_decodeOffset (cfg : Config) (optpkt : Mem) {d : Decoder} (h : d.pktlen < 65536) :
    (decodeOffset cfg optpkt d).state.pktlen < 65536 := by
  rw [decodeOffset]
  dsimp only
  split
  · split
    · exact h
    · exact Decoder.put_pktlen _ _
  · split
    · exact h
    · exact Decoder.put_pktlen _ _

theorem pktlen_decodeStep (cfg : Config) (optpkt : Mem) (pd : Deduplicator) {d : Decoder} (h : d.pktlen < 65536) :
    (decodeStep cfg pd optpkt d).state.pktlen < 65536 := by
  rw [decodeStep]
  dsimp only
  split
  · exact h
  · split
    · exact h
    · exact pktlen_decodeOffset cfg optpkt (Decoder.put_pktlen _ _)

theorem pktlen_decodeSharedStep (cfg : Config) (optpkt : Mem) {s : SharedDecoder} (h : s.pktlen < 65536) :
    (decodeSharedStep cfg optpkt s).state.pktlen < 65536 := by
  rw [decodeSharedStep]
  dsimp only
  split
  · exact h
  · rw [Step.state_map]
    exact pktlen_decodeOffset cfg optpkt (Decoder.skip_pktlen _ _)

theorem pktlen_decodeHeader (cfg : Config) (optpkt : Mem) (optlen : Nat) (output : Mem) :
    (decodeHeader cfg optpkt optlen output).2.state.pktlen < 65536 := by
  have hzero : 0 < 65536 := by decide
  rw [decodeHeader]
  split
  · split
    · exact hzero
    · exact Decoder.put_pktlen _ _
  · exact hzero

theorem pktlen_failUncomp (pd : Deduplicator) (g : SharedDictionaries) (exit : UncompExit)
    (d : Decoder) : (failUncomp pd g exit d).pktlen < 65536 :=
  show 0 < 65536 by decide

theorem pktlen_finishUncomp {H : PacketHash} (pd : Deduplicator) (g : SharedDictionaries)
    (hash : UInt32) (optlen : Nat) {d : Decoder} (h : d.pktlen < 65536) :
    (finishUncomp cfg H pd g hash optlen d).pktlen < 65536 := by
  rw [finishUncomp]
  split
  · exact h
  · exact pktlen_failUncomp _ _ _ _

theorem pktlen_resolveFrags {H : PacketHash} (pd : Deduplicator) (g : SharedDictionaries)
    (hash : UInt32) (optlen : Nat) {s : SharedDecoder} (h : s.pktlen < 65536) :
    (resolveFrags cfg H pd g hash optlen s).pktlen < 65536 := by
  rw [resolveFrags]
  dsimp only
  split
  · exact pktlen_failUncomp _ _ _ _
  · split
    · exact pktlen_failUncomp _ _ _ _
    · split
      · exact pktlen_failUncomp _ _ _ _
      · split
        · exact pktlen_failUncomp _ _ _ _
        · exact pktlen_finishUncomp pd g hash optlen h

theorem uncompThread_pktlen_lt (cfg : Config) (H : PacketHash) (pd : Deduplicator)
    (g : SharedDictionaries) (packet optpkt : Mem) (optlen : Nat) :
    (uncompThread cfg H pd g packet optpkt optlen).pktlen < 65536 := by
  have hheader := pktlen_decodeHeader cfg optpkt optlen packet
  rw [uncompThread]
  split
  · exact pktlen_failUncomp _ _ _ _
  · rename_i d heq
    rw [heq] at hheader
    have hloop := decodeLoop_invariant (P := fun d : Decoder => d.pktlen < 65536) Decoder.left
      (fun _ => pktlen_decodeStep cfg optpkt pd) FUEL (s := d) hheader
    split
    · exact pktlen_failUncomp _ _ _ _
    · rename_i d' hd'
      rw [hd'] at hloop
      split
      · exact pktlen_finishUncomp pd g _ _ hloop
      · exact pktlen_failUncomp _ _ _ _

theorem uncompShared_pktlen_lt (cfg : Config) (H : PacketHash) (pd : Deduplicator)
    (g : SharedDictionaries) (packet optpkt : Mem) (optlen : Nat) :
    (uncompShared cfg H pd g packet optpkt optlen).pktlen < 65536 := by
  have hheader := pktlen_decodeHeader cfg optpkt optlen packet
  rw [uncompShared]
  split
  · exact pktlen_failUncomp _ _ _ _
  · rename_i d heq
    rw [heq] at hheader
    have hloop := decodeLoop_invariant (P := fun s : SharedDecoder => s.pktlen < 65536)
      SharedDecoder.left (fun _ => pktlen_decodeSharedStep cfg optpkt) FUEL (s := ⟨d, []⟩) hheader
    dsimp only
    split
    · exact pktlen_failUncomp _ _ _ _
    · split
      · exact pktlen_failUncomp _ _ _ _
      · exact pktlen_resolveFrags pd g _ _ hloop

/-- However a call ends, the length it reports is one of 16 bits. -/
theorem uncomp_pktlen_lt (cfg : Config) (H : PacketHash) (pd : Deduplicator)
    (g : SharedDictionaries) (packet optpkt : Mem) (optlen : Nat) :
    (uncomp cfg H pd g packet optpkt optlen).pktlen < 65536 := by
  rw [uncomp]
  split
  · exact uncompShared_pktlen_lt ..
  · exact uncompThread_pktlen_lt ..

end Pktlen

/-! ### The loop -/

section Loop

variable {cfg : Config} {optpkt : Mem} {optlen : Nat} {takes : PktChunk → Nat → Prop}

/-- What is left to fit when a chunk was copied. -/
theorem runsFit_run_iff {pos left orig : Nat} (hleft : DESCRIPTOR ≤ left)
    (htake : takes (chunkAt optpkt pos) orig) (hmore : ntoh16 optpkt (pos + 16) ≠ NO_MORE)
    (hroom : origAfter (chunkAt optpkt pos) orig + ntoh16 optpkt (pos + 16) ≤ cfg.MAXPKTSIZE) :
    RunsFit cfg takes optpkt pos left orig ↔ ntoh16 optpkt (pos + 16) ≤ left - DESCRIPTOR ∧
      RunsFit cfg takes optpkt (pos + DESCRIPTOR + ntoh16 optpkt (pos + 16))
        (left - DESCRIPTOR - ntoh16 optpkt (pos + 16))
        ((origAfter (chunkAt optpkt pos) orig + ntoh16 optpkt (pos + 16)) % 65536) := by
  constructor
  · intro h
    cases h with
    | short h => omega
    | refused h => exact absurd htake h
    | last h => exact absurd h hmore
    | tooLong h => omega
    | run h rest => exact ⟨h, rest⟩
  · rintro ⟨h, rest⟩
    exact .run h rest

/-- The loop, started inside the input, ends inside it when the chunks fit, and has
wrapped the counter when they do not. Inside the input every iteration takes a
descriptor off what is left, so that the loop ends by itself. -/
theorem decodeLoop_bounds {σ : Type} (left : σ → Nat) (dec : σ → Decoder)
    {step : σ → Step σ} (hleft : ∀ s, left s = (dec s).cur.left)
    (hstep : ∀ s, (dec s).cur.Within optlen → DESCRIPTOR ≤ (dec s).cur.left →
      StepBounds cfg takes optpkt optlen dec (dec s) (step s))
    (hwrap : ∀ s, (dec s).cur.wrapped = true → (dec (step s).state).cur.wrapped = true)
    (fuel : Nat) {s : σ} (h : (dec s).cur.Within optlen)
    (hfuel : (dec s).cur.left < DESCRIPTOR * (fuel + 1)) :
    (RunsFit cfg takes optpkt (dec s).cur.pos (dec s).cur.left (dec s).orig →
        (dec (decodeLoop left step fuel s).2).cur.Within optlen) ∧
      (¬ RunsFit cfg takes optpkt (dec s).cur.pos (dec s).cur.left (dec s).orig →
        (dec (decodeLoop left step fuel s).2).cur.wrapped = true) := by
  induction fuel generalizing s with
  | zero =>
    have hshort : (dec s).cur.left < DESCRIPTOR := by omega
    exact ⟨fun _ => h, fun hno => absurd (.short hshort) hno⟩
  | succ fuel ih =>
    by_cases hgo : DESCRIPTOR ≤ (dec s).cur.left
    · have hgo' : left s ≥ DESCRIPTOR := by
        rw [hleft]
        exact hgo
      have hb := hstep s h hgo
      generalize hst : step s = st at hb
      cases hb with
      | halt fits within =>
        rw [decodeLoop_stop left hgo' hst]
        exact ⟨fun _ => within, fun hno => absurd (fits _) hno⟩
      | @drained s' fits within hzero =>
        rw [decodeLoop_next left hgo' hst, decodeLoop_end left (by rw [hleft]; exact hzero)]
        exact ⟨fun _ => within, fun hno => absurd (fits _) hno⟩
      | @run s' taken more room cur orig =>
        rw [decodeLoop_next left hgo' hst, runsFit_run_iff hgo taken more room]
        obtain ⟨-, -, hpast, hpastLeft⟩ := within_pastDescriptor h hgo
        by_cases hfit : ntoh16 optpkt ((dec s).cur.pos + 16) ≤ (dec s).cur.left - DESCRIPTOR
        · have hin : (dec s').cur.Within optlen := by
            rw [cur]
            exact (Cursor.within_advance_iff hpast).mpr (by omega)
          have hleft' : (dec s').cur.left = (dec s).cur.left - DESCRIPTOR -
              ntoh16 optpkt ((dec s).cur.pos + 16) := by
            rw [cur, Cursor.left_advance hpast (by omega), hpastLeft]
          have hpos' : (dec s').cur.pos = (dec s).cur.pos + DESCRIPTOR +
              ntoh16 optpkt ((dec s).cur.pos + 16) := by
            rw [cur]
            simp only [Cursor.advance, pastDescriptor, DESCRIPTOR]
          have hrest := ih hin (by
            rw [hleft']
            simp only [DESCRIPTOR] at hfuel hgo ⊢
            omega)
          rw [hleft', hpos', orig] at hrest
          refine ⟨fun hruns => hrest.1 hruns.2, fun hno => hrest.2 fun hruns => hno ⟨hfit, hruns⟩⟩
        · have hwrapped : (dec s').cur.wrapped = true := by
            rw [cur]
            exact Cursor.wrapped_advance_of_lt (by omega)
          exact ⟨fun hruns => absurd hruns.1 hfit,
            fun _ => wrapped_decodeLoop left dec hwrap fuel hwrapped⟩
    · have hend : decodeLoop left step (fuel + 1) s = (none, s) := by
        rw [decodeLoop, if_neg (by rw [hleft]; omega)]
      rw [hend]
      exact ⟨fun _ => h, fun hno => absurd (.short (by omega)) hno⟩

end Loop

/-! ### The whole call -/

section Call

variable {cfg : Config} {H : PacketHash} {pd : Deduplicator} {g : SharedDictionaries}
  {packet optpkt : Mem} {optlen : Nat}

/-- The header, and the chunk in front of the first descriptor. -/
theorem decodeHeader_bounds (cfg : Config) (optpkt packet : Mem) (hlen : optlen < 65536) :
    (∃ hash exit d, decodeHeader cfg optpkt optlen packet = (hash, .stop exit d) ∧
        ntoh16 optpkt 4 > cfg.MAXPKTSIZE ∧ (6 ≤ optlen → d.cur.Within optlen) ∧
        (¬ 6 ≤ optlen → d.cur.wrapped = true)) ∨
      ∃ hash d, decodeHeader cfg optpkt optlen packet = (hash, .next d) ∧
        ¬ ntoh16 optpkt 4 > cfg.MAXPKTSIZE ∧ d.orig = ntoh16 optpkt 4 ∧
        (6 ≤ optlen ∧ ntoh16 optpkt 4 ≤ optlen - 6 → d.cur.Within optlen ∧
          d.cur.pos = 6 + ntoh16 optpkt 4 ∧ d.cur.left = optlen - 6 - ntoh16 optpkt 4) ∧
        (¬ (6 ≤ optlen ∧ ntoh16 optpkt 4 ≤ optlen - 6) → d.cur.wrapped = true) := by
  have hpos : ((Cursor.start optlen).advance 4).pos = 4 := rfl
  have hlt := ntoh16_lt optpkt 4
  have hstart := Cursor.within_start hlen
  -- The cursor behind the six bytes of the header.
  have h6 : 6 ≤ optlen → (((Cursor.start optlen).advance 4).advance 2).Within optlen ∧
      (((Cursor.start optlen).advance 4).advance 2).left = optlen - 6 := by
    intro hge
    have hl : (Cursor.start optlen).left = optlen := rfl
    have hl4 := Cursor.left_advance hstart (show 4 ≤ (Cursor.start optlen).left by omega)
    have h4 := (Cursor.within_advance_iff hstart).mpr
      (show 4 ≤ (Cursor.start optlen).left by omega)
    have hl6 := Cursor.left_advance h4 (show 2 ≤ ((Cursor.start optlen).advance 4).left by omega)
    refine ⟨(Cursor.within_advance_iff h4).mpr (by omega), ?_⟩
    rw [hl6, hl4, hl]
    omega
  have hno6 : ¬ 6 ≤ optlen → (((Cursor.start optlen).advance 4).advance 2).wrapped = true := by
    intro hshort
    by_cases h4 : optlen < 4
    · exact Cursor.wrapped_advance (Cursor.wrapped_advance_of_lt h4) 2
    · have hl : (Cursor.start optlen).left = optlen := rfl
      have hl4 := Cursor.left_advance hstart (show 4 ≤ (Cursor.start optlen).left by omega)
      exact Cursor.wrapped_advance_of_lt (by omega)
  rw [decodeHeader]
  dsimp only
  rw [hpos]
  split
  · split
    · rename_i hlong
      exact Or.inl ⟨_, _, _, rfl, hlong, fun hge => (h6 hge).1, hno6⟩
    · rename_i hroom
      refine Or.inr ⟨_, _, rfl, hroom, ?_, ?_, ?_⟩
      · simp only [Decoder.copyChunk, Decoder.put, length_slice]
        omega
      · rintro ⟨hge, hfit⟩
        obtain ⟨hin, hleft⟩ := h6 hge
        refine ⟨(Cursor.within_advance_iff hin).mpr (by omega), rfl, ?_⟩
        show ((((Cursor.start optlen).advance 4).advance 2).advance _).left = _
        rw [Cursor.left_advance hin (by omega), hleft]
      · intro hno
        by_cases hge : 6 ≤ optlen
        · obtain ⟨-, hleft⟩ := h6 hge
          refine Cursor.wrapped_advance_of_lt ?_
          show (((Cursor.start optlen).advance 4).advance 2).left < _
          omega
        · exact Cursor.wrapped_advance (hno6 hge) _
  · rename_i hzero
    have hn : ntoh16 optpkt 4 = 0 := by omega
    refine Or.inr ⟨_, _, rfl, by omega, by rw [hn], ?_, ?_⟩
    · rintro ⟨hge, -⟩
      obtain ⟨hin, hleft⟩ := h6 hge
      rw [hn]
      exact ⟨hin, rfl, hleft⟩
    · intro hno
      exact hno6 fun hge => hno ⟨hge, by omega⟩

/-- A cursor that is inside the input when the input fits, and has wrapped when it does
not, tells whether it fits. -/
theorem inBounds_iff_of_bounds {c : Cursor} {fits : Prop} (hin : fits → c.Within optlen)
    (hout : ¬ fits → c.wrapped = true) : c.InBounds optlen ↔ fits := by
  constructor
  · rintro ⟨hflag, -⟩
    by_contra hno
    rw [hout hno] at hflag
    cases hflag
  · intro h
    exact (hin h).inBounds

/-- What the header and the loop together do to the cursor, in either mode: `final` is the
cursor the loop ends with, as a function of the decoder it starts with. -/
theorem inputFits_bounds (packet : Mem) {takes : PktChunk → Nat → Prop} {c : Cursor}
    (hlen : optlen < 65536)
    (hstop : ∀ hash exit d, decodeHeader cfg optpkt optlen packet = (hash, .stop exit d) →
      c = d.cur)
    (hwrapped : ∀ hash d, decodeHeader cfg optpkt optlen packet = (hash, .next d) →
      d.cur.wrapped = true → c.wrapped = true)
    (hloop : ∀ hash d, decodeHeader cfg optpkt optlen packet = (hash, .next d) →
      d.cur.Within optlen →
      (RunsFit cfg takes optpkt d.cur.pos d.cur.left d.orig → c.Within optlen) ∧
        (¬ RunsFit cfg takes optpkt d.cur.pos d.cur.left d.orig → c.wrapped = true)) :
    c.InBounds optlen ↔ InputFits cfg takes optpkt optlen := by
  unfold InputFits
  rcases decodeHeader_bounds cfg optpkt packet hlen with
    ⟨hash, exit, d, hhead, hlong, hin, hout⟩ | ⟨hash, d, hhead, hroom, horig, hin, hout⟩
  · rw [hstop hash exit d hhead]
    refine inBounds_iff_of_bounds (fun h => hin h.1) (fun hno => hout fun hge => hno ⟨hge, Or.inl hlong⟩)
  · by_cases hfit : 6 ≤ optlen ∧ ntoh16 optpkt 4 ≤ optlen - 6
    · obtain ⟨hwithin, hpos, hleft⟩ := hin hfit
      obtain ⟨hfits, hno⟩ := hloop hash d hhead hwithin
      rw [hpos, hleft, horig] at hfits hno
      refine inBounds_iff_of_bounds ?_ ?_
      · rintro ⟨-, hlong | ⟨-, hruns⟩⟩
        · exact absurd hlong hroom
        · exact hfits hruns
      · intro hnot
        exact hno fun hruns => hnot ⟨hfit.1, Or.inr ⟨hfit.2, hruns⟩⟩
    · refine inBounds_iff_of_bounds ?_ (fun _ => hwrapped hash d hhead (hout hfit))
      rintro ⟨hge, hlong | ⟨hle, -⟩⟩
      · exact absurd hlong hroom
      · exact absurd ⟨hge, hle⟩ hfit

/-- The input pointer at the end of a call with the thread dictionary. -/
theorem uncompThread_cur (cfg : Config) (H : PacketHash) (pd : Deduplicator)
    (g : SharedDictionaries) (packet optpkt : Mem) (optlen : Nat) :
    (uncompThread cfg H pd g packet optpkt optlen).cur =
      match (decodeHeader cfg optpkt optlen packet).2 with
      | .stop _ d => d.cur
      | .next d => (decodeLoop Decoder.left (decodeStep cfg pd optpkt) FUEL d).2.cur := by
  rw [uncompThread]
  split
  · rename_i hhead
    rw [hhead]
    rfl
  · rename_i hash d hhead
    rw [hhead]
    dsimp only
    split
    · rename_i hloop
      rw [hloop]
      rfl
    · rename_i hloop
      rw [hloop]
      split
      · exact (finishUncomp_spec cfg H pd g hash optlen rfl).1
      · rfl

/-- The input pointer at the end of a call with the shared dictionary. -/
theorem uncompShared_cur (cfg : Config) (H : PacketHash) (pd : Deduplicator)
    (g : SharedDictionaries) (packet optpkt : Mem) (optlen : Nat) :
    (uncompShared cfg H pd g packet optpkt optlen).cur =
      match (decodeHeader cfg optpkt optlen packet).2 with
      | .stop _ d => d.cur
      | .next d => (decodeLoop SharedDecoder.left (decodeSharedStep cfg optpkt) FUEL ⟨d, []⟩).2.cur := by
  rw [uncompShared]
  split
  · rename_i hhead
    rw [hhead]
    rfl
  · rename_i hash d hhead
    rw [hhead]
    dsimp only
    generalize decodeLoop SharedDecoder.left (decodeSharedStep cfg optpkt) FUEL ⟨d, []⟩ = r
    obtain ⟨exit, s⟩ := r
    dsimp only
    split
    · rfl
    · cases exit with
      | some exit => rfl
      | none =>
        dsimp only
        rw [resolveFrags]
        split
        · rfl
        · split
          · rfl
          · split
            · rfl
            · split
              · rfl
              · exact (finishUncomp_spec cfg H pd g hash optlen rfl).1

theorem uncompThread_inBounds_iff (hlen : optlen < 65536) :
    (uncompThread cfg H pd g packet optpkt optlen).cur.InBounds optlen ↔
      InputFits cfg (takesThread cfg pd) optpkt optlen := by
  rw [uncompThread_cur]
  refine inputFits_bounds packet hlen ?_ ?_ ?_
  · intro hash exit d hhead
    rw [hhead]
  · intro hash d hhead hwrapped
    rw [hhead]
    exact wrapped_decodeLoop Decoder.left id (fun _ h => wrapped_decodeStep pd h) FUEL hwrapped
  · intro hash d hhead hwithin
    rw [hhead]
    have hnarrow := hwithin.narrow
    exact decodeLoop_bounds Decoder.left id (fun _ => rfl)
      (fun _ h hleft => decodeStep_bounds pd h hleft) (fun _ h => wrapped_decodeStep pd h)
      FUEL (s := d) hwithin (by
        simp only [DESCRIPTOR, FUEL, id]
        omega)

theorem uncompShared_inBounds_iff (hlen : optlen < 65536) :
    (uncompShared cfg H pd g packet optpkt optlen).cur.InBounds optlen ↔
      InputFits cfg (takesShared cfg) optpkt optlen := by
  rw [uncompShared_cur]
  refine inputFits_bounds packet hlen ?_ ?_ ?_
  · intro hash exit d hhead
    rw [hhead]
  · intro hash d hhead hwrapped
    rw [hhead]
    exact wrapped_decodeLoop SharedDecoder.left SharedDecoder.toDecoder
      (fun _ h => wrapped_decodeSharedStep h) FUEL (s := ⟨d, []⟩) hwrapped
  · intro hash d hhead hwithin
    rw [hhead]
    have hnarrow := hwithin.narrow
    exact decodeLoop_bounds SharedDecoder.left SharedDecoder.toDecoder (fun _ => rfl)
      (fun _ h hleft => decodeSharedStep_bounds h hleft)
      (fun _ h => wrapped_decodeSharedStep h) FUEL (s := ⟨d, []⟩) hwithin (by
        simp only [DESCRIPTOR, FUEL]
        omega)

theorem uncomp_bounds (cfg : Config) (H : PacketHash) (pd : Deduplicator) (g : SharedDictionaries)
    (packet optpkt : Mem) (hlen : optlen < 65536) :
    (uncomp cfg H pd g packet optpkt optlen).cur.InBounds optlen ↔
      InputFits cfg (takes cfg pd) optpkt optlen := by
  rw [uncomp, takes]
  by_cases hmode : cfg.shared_dictionary_mode = true
  · rw [if_pos hmode, if_pos hmode]
    exact uncompShared_inBounds_iff hlen
  · rw [if_neg hmode, if_neg hmode]
    exact uncompThread_inBounds_iff hlen

end Call

/-- **`uncomp` stays inside its input exactly when the input fits.** -/
theorem uncomp_inBounds_iff (cfg : Config) (H : PacketHash) (pd : Deduplicator)
    (g : SharedDictionaries) (packet optpkt : Mem) (optlen : UInt16) :
    (uncomp cfg H pd g packet optpkt optlen.toNat).cur.InBounds optlen.toNat ↔
      InputFits cfg (takes cfg pd) optpkt optlen.toNat :=
  uncomp_bounds cfg H pd g packet optpkt optlen.toNat_lt

/-- Seven bytes that announce a chunk of 100. -/
def truncatedInput : Mem := ofList [0, 0, 0, 0, 0, 100, 7]

theorem truncatedInput_not_fits (shared : Bool) (takes : PktChunk → Nat → Prop) :
    ¬ InputFits (smallBox shared) takes truncatedInput 1 ∧
      ¬ InputFits (smallBox shared) takes truncatedInput 7 := by
  have hchunk : ntoh16 truncatedInput 4 = 100 := by decide
  have hmax : (smallBox shared).MAXPKTSIZE = 1500 := rfl
  unfold InputFits
  rw [hchunk, hmax]
  omega

/-- In both modes, with a fresh dictionary, an input of one byte and one of seven bytes that
announce a chunk of 100 are read past their end. -/
theorem uncomp_reads_past_end :
    (¬ (uncomp (smallBox false) firstByte (newDeduplicator zeroed) (initDictionary zeroed zeroed)
          (ofList []) truncatedInput 1).cur.InBounds 1 ∧
      ¬ (uncomp (smallBox false) firstByte (newDeduplicator zeroed) (initDictionary zeroed zeroed)
          (ofList []) truncatedInput 7).cur.InBounds 7) ∧
    ¬ (uncomp (smallBox true) firstByte (newDeduplicator zeroed) (initDictionary zeroed zeroed)
          (ofList []) truncatedInput 1).cur.InBounds 1 ∧
      ¬ (uncomp (smallBox true) firstByte (newDeduplicator zeroed) (initDictionary zeroed zeroed)
          (ofList []) truncatedInput 7).cur.InBounds 7 := by
  have hone : 1 < 65536 := by decide
  have hseven : 7 < 65536 := by decide
  rw [uncomp_bounds _ _ _ _ _ _ hone, uncomp_bounds _ _ _ _ _ _ hone,
    uncomp_bounds _ _ _ _ _ _ hseven, uncomp_bounds _ _ _ _ _ _ hseven]
  exact ⟨truncatedInput_not_fits false _, truncatedInput_not_fits true _⟩

end Solowan.Codec
