/-
The two decoders (`uncomp` with the thread and with the shared dictionary, `lib/uncomp.c`).

One looks a reference up as soon as it is read and copies the string, the other reads all
descriptors, has them looked up together and pastes the strings into the gaps it has left. What
an input says is defined here apart from both: its chunks and descriptors (`layout`), and what
these stand for in a dictionary (`reading`). The only parameter is the test of a right limit
against the length of the stored packet.

* `uncompThread_returns_iff`, `uncompShared_returns_iff`: either decoder returns what the input
  reads as, the first with limits below the length, the second with limits up to the length and
  only strings that fit the arrays of the batch lookup.
* `uncompShared_overrun_iff`: the inputs that have the second write outside its tables.
* `modes_agree_iff`: they agree unless a limit is the length or a string is too long.
* `boundary_reference`: with a limit that is the length the shared decoder hands out a byte that
  is not of the packet.
-/

import Solowan.Codec.Soundness

namespace Solowan.Codec

open Solowan.Memory Solowan.Dictionary

/-! ### What an input says -/

/-- A descriptor with the chunk behind it. -/
abbrev Item := PktChunk × List UInt8

/-- The length of the string a descriptor stands for. -/
def span (c : PktChunk) : Nat := c.right - c.left + 1

/-- The bytes of the chunk behind a descriptor, from the place of its offset: as many as the
offset says, or all that are left. -/
def behind (optpkt : Mem) (cur : Cursor) : Nat :=
  if ntoh16 optpkt cur.pos = NO_MORE then (cur.advance 2).left else ntoh16 optpkt cur.pos

/-- The cursor behind that chunk. -/
def pastChunk (optpkt : Mem) (cur : Cursor) : Cursor :=
  if ntoh16 optpkt cur.pos = NO_MORE then (cur.advance 2).drain
  else (cur.advance 2).advance (ntoh16 optpkt cur.pos)

/-- The cursor in front of the offset of a descriptor. -/
def pastLimits (cur : Cursor) : Cursor := (((cur.advance 8).advance 4).advance 2).advance 2

/-- The format has no room for the descriptor at `cur` or the chunk behind it when `orig` bytes
are in the output. -/
def refused (cfg : Config) (optpkt : Mem) (cur : Cursor) (orig : Nat) : Bool :=
  let c := chunkAt optpkt cur.pos
  decide (c.left > c.right) || decide (orig + c.right - c.left > cfg.MAXPKTSIZE) ||
    decide (orig + span c + behind optpkt (pastLimits cur) > cfg.MAXPKTSIZE)

/-- The descriptors from `cur` on, and whether none of them is refused. -/
def walk (cfg : Config) (optpkt : Mem) : Nat → Cursor → Nat → List Item × Bool
  | 0, cur, _ => ([], decide (cur.left < DESCRIPTOR))
  | fuel + 1, cur, orig =>
    if cur.left ≥ DESCRIPTOR then
      let c := chunkAt optpkt cur.pos
      if refused cfg optpkt cur orig then ([(c, [])], false)
      else
        let n := behind optpkt (pastLimits cur)
        let rest := walk cfg optpkt fuel (pastChunk optpkt (pastLimits cur)) (orig + span c + n)
        ((c, slice optpkt ((pastLimits cur).advance 2).pos n) :: rest.1, rest.2)
    else ([], true)

/-- An input: the hash, the chunk in front of the first descriptor, and the descriptors. -/
structure Layout where
  hash : UInt32
  first : List UInt8
  items : List Item
  complete : Bool

def layout (cfg : Config) (optpkt : Mem) (optlen : Nat) : Layout :=
  let cur := ((Cursor.start optlen).advance 4).advance 2
  let offset := ntoh16 optpkt 4
  if offset > cfg.MAXPKTSIZE then ⟨ntoh32 optpkt 0, [], [], false⟩
  else
    let cur := if offset > 0 then cur.advance offset else cur
    let items := walk cfg optpkt FUEL cur offset
    ⟨ntoh32 optpkt 0, slice optpkt 6 offset, items.1, items.2⟩

/-- What descriptors stand for in a dictionary, when a right limit may be any that `inside`
allows. -/
def expansion (cfg : Config) (dict : Deduplicator) (inside : Nat → Nat → Bool) :
    List Item → Option (List UInt8)
  | [] => some []
  | (c, lit) :: items =>
    match getPktByHash cfg dict.fps dict.ps c.fp c.hash with
    | none => none
    | some pkt =>
      if inside c.right pkt.len then
        (expansion cfg dict inside items).map fun out => slice pkt.pkt c.left (span c) ++ (lit ++ out)
      else none

/-- The packet an input stands for, if it has the hash that was sent. -/
def reading (cfg : Config) (H : PacketHash) (dict : Deduplicator) (inside : Nat → Nat → Bool)
    (optpkt : Mem) (optlen : Nat) : Option (List UInt8) :=
  let l := layout cfg optpkt optlen
  if l.complete then
    (expansion cfg dict inside l.items).bind fun out =>
      if H (l.first ++ out) = l.hash then some (l.first ++ out) else none
  else none

/-- The strings that are copied for descriptors, up to the first that is not found, fit the
arrays they are copied to. -/
def FragsFit (cfg : Config) (dict : Deduplicator) : List Item → Prop
  | [] => True
  | (c, _) :: items =>
    ∀ pkt, getPktByHash cfg dict.fps dict.ps c.fp c.hash = some pkt → c.right ≤ pkt.len →
      span c ≤ PKTSIZELIMIT ∧ FragsFit cfg dict items

/-- The test of the thread mode, `right < len`. -/
def insideThread (right len : Nat) : Bool := decide (right < len)

/-- The test of the shared mode, `right <= len`. -/
def insideShared (right len : Nat) : Bool := decide (right ≤ len)

/-- The call returns `UNCOMP_OK` with output `q`. -/
def Uncompressed.Returns (r : Uncompressed) (q : List UInt8) : Prop :=
  r.exit = .ok ∧ slice r.packet 0 r.pktlen = q

/-! ### The chunks -/

section Chunks

variable {cfg : Config} {optpkt : Mem} {d : Decoder}

/-- The decoder in front of the first descriptor behind a chunk. -/
def Decoder.pastBehind (d : Decoder) (optpkt : Mem) : Decoder :=
  { d.put (slice optpkt (d.cur.advance 2).pos (behind optpkt d.cur)) with
    cur := pastChunk optpkt d.cur }

theorem decodeOffset_eq (cfg : Config) (optpkt : Mem) (d : Decoder) :
    decodeOffset cfg optpkt d =
      if d.orig + behind optpkt d.cur > cfg.MAXPKTSIZE then
        .stop .badPacketFormat { d with cur := d.cur.advance 2 }
      else .next (d.pastBehind optpkt) := by
  unfold decodeOffset Decoder.pastBehind behind pastChunk
  dsimp only
  by_cases hlast : ntoh16 optpkt d.cur.pos = NO_MORE
  · simp only [if_pos hlast]
    rfl
  · simp only [if_neg hlast]
    rfl

theorem refused_eq_false_iff {cur : Cursor} {orig : Nat} :
    refused cfg optpkt cur orig = false ↔
      (chunkAt optpkt cur.pos).left ≤ (chunkAt optpkt cur.pos).right ∧
        orig + (chunkAt optpkt cur.pos).right - (chunkAt optpkt cur.pos).left ≤ cfg.MAXPKTSIZE ∧
        orig + span (chunkAt optpkt cur.pos) + behind optpkt (pastLimits cur) ≤ cfg.MAXPKTSIZE := by
  simp only [refused, Bool.or_eq_false_iff, decide_eq_false_iff_not, not_lt, gt_iff_lt, and_assoc]

end Chunks

/-! ### One descriptor at a time -/

/-- The output so far: `orig` and `*pktlen` are the number of its bytes. -/
structure Decoder.Holding (d : Decoder) (done : List UInt8) : Prop where
  orig : d.orig = done.length
  pktlen : d.pktlen = done.length
  output : slice d.packet 0 done.length = done

section Thread

variable {cfg : Config} {pd : Deduplicator} {optpkt : Mem} {d : Decoder} {done : List UInt8}

theorem Decoder.Holding.put (h : d.Holding done) (bs : List UInt8)
    (hlen : done.length + bs.length < 65536) : (d.put bs).Holding (done ++ bs) := by
  have hmod : (done.length + bs.length) % 65536 = done.length + bs.length := Nat.mod_eq_of_lt hlen
  refine ⟨?_, ?_, ?_⟩
  · simp only [Decoder.put, h.orig, hmod, List.length_append]
  · simp only [Decoder.put, h.pktlen, hmod, List.length_append]
  · have hext := slice_memcpy_extend d.packet 0 done.length bs
    rw [Nat.zero_add, h.output] at hext
    simp only [Decoder.put, h.orig, List.length_append]
    exact hext

theorem Decoder.Holding.pastBehind (h : d.Holding done) (optpkt : Mem)
    (hlen : done.length + behind optpkt d.cur < 65536) :
    (d.pastBehind optpkt).Holding
      (done ++ slice optpkt (d.cur.advance 2).pos (behind optpkt d.cur)) := by
  have hput := h.put (slice optpkt (d.cur.advance 2).pos (behind optpkt d.cur))
    (by rw [length_slice]; exact hlen)
  exact ⟨hput.orig, hput.pktlen, hput.output⟩

/-- An iteration, by the descriptor it reads. -/
theorem decodeStep_eq (cfg : Config) (pd : Deduplicator) (optpkt : Mem) (d : Decoder) :
    decodeStep cfg pd optpkt d =
      match getPktByHash cfg pd.fps pd.ps (chunkAt optpkt d.cur.pos).fp
          (chunkAt optpkt d.cur.pos).hash with
      | none => .stop (.fpNotFound (chunkAt optpkt d.cur.pos).fp (chunkAt optpkt d.cur.pos).hash)
          { d with cur := (d.cur.advance 8).advance 4 }
      | some pkt =>
        if (chunkAt optpkt d.cur.pos).left > (chunkAt optpkt d.cur.pos).right ∨
            (chunkAt optpkt d.cur.pos).right ≥ pkt.len ∨
            d.orig + (chunkAt optpkt d.cur.pos).right - (chunkAt optpkt d.cur.pos).left >
              cfg.MAXPKTSIZE then
          .stop .badPacketFormat { d with cur := pastLimits d.cur }
        else decodeOffset cfg optpkt (({ d with cur := pastLimits d.cur } : Decoder).put
          (slice pkt.pkt (chunkAt optpkt d.cur.pos).left (span (chunkAt optpkt d.cur.pos)))) :=
  rfl

/-- A descriptor that is refused, or whose string is not there, ends the loop. -/
theorem decodeStep_stops (pd : Deduplicator) (optpkt : Mem) (d : Decoder)
    (hmax : cfg.MAXPKTSIZE ≤ 65534)
    (h : refused cfg optpkt d.cur d.orig = true ∨
      ∀ pkt, getPktByHash cfg pd.fps pd.ps (chunkAt optpkt d.cur.pos).fp
        (chunkAt optpkt d.cur.pos).hash = some pkt →
          insideThread (chunkAt optpkt d.cur.pos).right pkt.len = false) :
    ∃ exit d', decodeStep cfg pd optpkt d = .stop exit d' := by
  rw [decodeStep_eq]
  split
  · exact ⟨_, _, rfl⟩
  · rename_i pkt hpkt
    split
    · exact ⟨_, _, rfl⟩
    · rename_i hgood
      rcases h with href | hout
      · have hlong : ¬ (d.orig + span (chunkAt optpkt d.cur.pos) +
            behind optpkt (pastLimits d.cur) ≤ cfg.MAXPKTSIZE) := by
          intro hroom
          have hfalse := refused_eq_false_iff.mpr ⟨by omega, by omega, hroom⟩
          rw [href] at hfalse
          cases hfalse
        have hmod : (d.orig + span (chunkAt optpkt d.cur.pos)) % 65536 =
            d.orig + span (chunkAt optpkt d.cur.pos) := by
          apply Nat.mod_eq_of_lt
          unfold span
          omega
        rw [decodeOffset_eq, if_pos]
        · exact ⟨_, _, rfl⟩
        · simp only [Decoder.put, length_slice, hmod]
          omega
      · have hin := hout pkt hpkt
        simp only [insideThread, decide_eq_false_iff_not] at hin
        omega

/-- Any other is copied, with the chunk behind it. -/
theorem decodeStep_next (hmax : cfg.MAXPKTSIZE ≤ 65534) {pkt : PktEntry}
    (href : refused cfg optpkt d.cur d.orig = false)
    (hpkt : getPktByHash cfg pd.fps pd.ps (chunkAt optpkt d.cur.pos).fp
      (chunkAt optpkt d.cur.pos).hash = some pkt)
    (hin : insideThread (chunkAt optpkt d.cur.pos).right pkt.len = true)
    (h : d.Holding done) :
    ∃ d', decodeStep cfg pd optpkt d = .next d' ∧ d'.cur = pastChunk optpkt (pastLimits d.cur) ∧
      d'.Holding (done ++ slice pkt.pkt (chunkAt optpkt d.cur.pos).left
        (span (chunkAt optpkt d.cur.pos)) ++
          slice optpkt ((pastLimits d.cur).advance 2).pos (behind optpkt (pastLimits d.cur))) := by
  obtain ⟨hord, hroom, hfits⟩ := refused_eq_false_iff.mp href
  simp only [insideThread, decide_eq_true_eq] at hin
  have horig := h.orig
  have h' : ({ d with cur := pastLimits d.cur } : Decoder).Holding done :=
    ⟨h.orig, h.pktlen, h.output⟩
  have hstring := h'.put (slice pkt.pkt (chunkAt optpkt d.cur.pos).left
    (span (chunkAt optpkt d.cur.pos))) (by rw [length_slice]; omega)
  have hchunk := hstring.pastBehind optpkt (by
    rw [List.length_append, length_slice]
    show done.length + span (chunkAt optpkt d.cur.pos) + behind optpkt (pastLimits d.cur) < 65536
    omega)
  refine ⟨_, ?_, rfl, hchunk⟩
  rw [decodeStep_eq, hpkt]
  dsimp only
  rw [if_neg (by omega), decodeOffset_eq, if_neg]
  rw [hstring.orig, List.length_append, length_slice]
  show ¬ done.length + span (chunkAt optpkt d.cur.pos) +
    behind optpkt (pastLimits d.cur) > cfg.MAXPKTSIZE
  omega

/-- **The loop with the thread dictionary** ends with what the descriptors stand for, or at
the first that does not stand for anything. -/
theorem decodeLoop_walk (pd : Deduplicator) (hmax : cfg.MAXPKTSIZE ≤ 65534) (fuel : Nat)
    (h : d.Holding done) (hdone : done.length ≤ cfg.MAXPKTSIZE) :
    (∀ out, (walk cfg optpkt fuel d.cur d.orig).2 = true →
      expansion cfg pd insideThread (walk cfg optpkt fuel d.cur d.orig).1 = some out →
      ∃ d', decodeLoop Decoder.left (decodeStep cfg pd optpkt) fuel d = (none, d') ∧
        d'.Holding (done ++ out) ∧ (done ++ out).length ≤ cfg.MAXPKTSIZE) ∧
      ((walk cfg optpkt fuel d.cur d.orig).2 = false ∨
        expansion cfg pd insideThread (walk cfg optpkt fuel d.cur d.orig).1 = none →
      ∃ exit d', decodeLoop Decoder.left (decodeStep cfg pd optpkt) fuel d = (some exit, d')) := by
  induction fuel generalizing d done with
  | zero =>
    rw [walk, decodeLoop]
    dsimp only
    by_cases hleft : d.cur.left ≥ DESCRIPTOR
    · rw [if_pos hleft, decide_eq_false (by omega)]
      exact ⟨fun _ hfalse => absurd hfalse (by decide), fun _ => ⟨_, _, rfl⟩⟩
    · rw [if_neg hleft, decide_eq_true (by omega)]
      refine ⟨?_, ?_⟩
      · rintro out - ⟨⟩
        exact ⟨d, rfl, by rw [List.append_nil]; exact h, by rw [List.append_nil]; exact hdone⟩
      · rintro (hfalse | hnone)
        · cases hfalse
        · cases hnone
  | succ fuel ih =>
    rw [walk, decodeLoop]
    by_cases hleft : d.cur.left ≥ DESCRIPTOR
    · rw [if_pos hleft, if_pos hleft]
      dsimp only
      cases href : refused cfg optpkt d.cur d.orig with
      | true =>
        obtain ⟨exit, d', hstop⟩ := decodeStep_stops pd optpkt d hmax (Or.inl href)
        rw [hstop, if_pos rfl]
        exact ⟨fun _ hfalse => (by cases hfalse), fun _ => ⟨exit, d', rfl⟩⟩
      | false =>
        rw [if_neg (by decide)]
        dsimp only
        obtain ⟨-, -, hfits⟩ := refused_eq_false_iff.mp href
        rw [expansion]
        cases hpkt : getPktByHash cfg pd.fps pd.ps (chunkAt optpkt d.cur.pos).fp
            (chunkAt optpkt d.cur.pos).hash with
        | none =>
          obtain ⟨exit, d', hstop⟩ := decodeStep_stops pd optpkt d hmax
            (Or.inr fun pkt h' => by rw [hpkt] at h'; cases h')
          rw [hstop]
          exact ⟨fun _ _ hno => (by cases hno), fun _ => ⟨exit, d', rfl⟩⟩
        | some pkt =>
          dsimp only
          cases hin : insideThread (chunkAt optpkt d.cur.pos).right pkt.len with
          | false =>
            obtain ⟨exit, d', hstop⟩ := decodeStep_stops pd optpkt d hmax
              (Or.inr fun pkt' h' => by
                rw [hpkt] at h'
                cases h'
                exact hin)
            rw [hstop, if_neg (by decide)]
            exact ⟨fun _ _ hno => (by cases hno), fun _ => ⟨exit, d', rfl⟩⟩
          | true =>
            rw [if_pos rfl]
            obtain ⟨d', hnext, hcur, hhold⟩ := decodeStep_next hmax href hpkt hin h
            have horig : d'.orig = d.orig + span (chunkAt optpkt d.cur.pos) +
                behind optpkt (pastLimits d.cur) := by
              rw [hhold.orig, List.length_append, List.length_append, length_slice, length_slice,
                h.orig]
            obtain ⟨hgood, hbad⟩ := ih hhold (by
              rw [← hhold.orig, horig]
              exact hfits)
            rw [hnext]
            dsimp only
            rw [hcur, horig] at hgood hbad
            refine ⟨?_, ?_⟩
            · intro out hok hout
              obtain ⟨rest, hrest, rfl⟩ := Option.map_eq_some_iff.mp hout
              have := hgood rest hok hrest
              simpa only [List.append_assoc] using this
            · rintro (hfalse | hnone)
              · exact hbad (Or.inl hfalse)
              · exact hbad (Or.inr (Option.map_eq_none_iff.mp hnone))
    · rw [if_neg hleft, if_neg hleft]
      refine ⟨?_, ?_⟩
      · rintro out - ⟨⟩
        exact ⟨d, rfl, by rw [List.append_nil]; exact h, by rw [List.append_nil]; exact hdone⟩
      · rintro (hfalse | hnone)
        · cases hfalse
        · cases hnone

end Thread

/-! ### The ends of a call -/

section Ends

variable {cfg : Config} {H : PacketHash} {q : List UInt8} {d : Decoder} {done : List UInt8}

/-- The layout of an input whose first chunk fits. -/
theorem layout_eq {optpkt : Mem} (optlen : Nat) (h : ¬ ntoh16 optpkt 4 > cfg.MAXPKTSIZE) {items : List Item × Bool}
    (hitems : walk cfg optpkt FUEL
      (if ntoh16 optpkt 4 > 0 then
        (((Cursor.start optlen).advance 4).advance 2).advance (ntoh16 optpkt 4)
      else ((Cursor.start optlen).advance 4).advance 2) (ntoh16 optpkt 4) = items) :
    layout cfg optpkt optlen =
      ⟨ntoh32 optpkt 0, slice optpkt 6 (ntoh16 optpkt 4), items.1, items.2⟩ := by
  unfold layout
  dsimp only
  rw [if_neg h, hitems]

/-- What stands in front of the loop. -/
theorem decodeHeader_layout (optpkt : Mem) (optlen : Nat) (output : Mem)
    (hmax : cfg.MAXPKTSIZE ≤ 65534) :
    ((∃ hash d, decodeHeader cfg optpkt optlen output = (hash, .stop .badPacketFormat d)) ∧
        (layout cfg optpkt optlen).complete = false ∧ (layout cfg optpkt optlen).items = []) ∨
      ∃ d, decodeHeader cfg optpkt optlen output = ((layout cfg optpkt optlen).hash, .next d) ∧
        d.Holding (layout cfg optpkt optlen).first ∧
        (layout cfg optpkt optlen).first.length ≤ cfg.MAXPKTSIZE ∧
        walk cfg optpkt FUEL d.cur d.orig =
          ((layout cfg optpkt optlen).items, (layout cfg optpkt optlen).complete) := by
  have hpos : ((Cursor.start optlen).advance 4).pos = 4 := rfl
  by_cases hlong : ntoh16 optpkt 4 > cfg.MAXPKTSIZE
  · refine Or.inl ?_
    unfold decodeHeader layout
    dsimp only
    rw [hpos, if_pos hlong, if_pos (by omega), if_pos hlong]
    exact ⟨⟨_, _, rfl⟩, rfl, rfl⟩
  · refine Or.inr ?_
    -- The walk stays a variable: the kernel would unfold it to compare pairs.
    obtain ⟨items, hitems⟩ : ∃ items, walk cfg optpkt FUEL
        (if ntoh16 optpkt 4 > 0 then
          (((Cursor.start optlen).advance 4).advance 2).advance (ntoh16 optpkt 4)
        else ((Cursor.start optlen).advance 4).advance 2) (ntoh16 optpkt 4) = items := ⟨_, rfl⟩
    rw [layout_eq optlen hlong hitems]
    unfold decodeHeader
    dsimp only
    rw [hpos]
    by_cases hzero : ntoh16 optpkt 4 > 0
    · rw [if_pos hzero] at hitems
      rw [if_pos hzero, if_neg hlong]
      have hempty : (⟨((Cursor.start optlen).advance 4).advance 2, 0, 0, output⟩ : Decoder).Holding
        [] := ⟨rfl, rfl, rfl⟩
      have hfirst := hempty.put (slice optpkt 6 (ntoh16 optpkt 4))
        (by rw [length_slice, List.length_nil]; omega)
      rw [List.nil_append] at hfirst
      refine ⟨_, rfl, ⟨hfirst.orig, hfirst.pktlen, hfirst.output⟩, ?_, ?_⟩
      · rw [length_slice]
        omega
      · have horig := hfirst.orig
        rw [length_slice] at horig
        have horig' : (Decoder.copyChunk optpkt (ntoh16 optpkt 4)
          ⟨((Cursor.start optlen).advance 4).advance 2, 0, 0, output⟩).orig = ntoh16 optpkt 4 := horig
        rw [horig']
        exact hitems
    · rw [if_neg hzero] at hitems
      rw [if_neg hzero]
      have hnil : ntoh16 optpkt 4 = 0 := by omega
      rw [hnil] at hitems ⊢
      exact ⟨_, rfl, ⟨rfl, rfl, rfl⟩, Nat.zero_le _, hitems⟩

theorem finishUncomp_returns_iff (pd : Deduplicator) (g : SharedDictionaries) (hash : UInt32)
    (optlen : Nat) (h : d.Holding done) :
    (finishUncomp cfg H pd g hash optlen d).Returns q ↔ H done = hash ∧ done = q := by
  have hq : slice d.packet 0 d.pktlen = done := by
    rw [h.pktlen]
    exact h.output
  obtain ⟨-, hok, hbad⟩ := finishUncomp_spec cfg H pd g hash optlen hq
  constructor
  · rintro ⟨hexit, hout⟩
    by_cases hh : H done = hash
    · exact ⟨hh, (hok hh).output.symm.trans hout⟩
    · have := (hbad hh).exit
      rw [hexit] at this
      exact this.elim
  · rintro ⟨hh, rfl⟩
    exact ⟨(hok hh).exit, (hok hh).output⟩

theorem failUncomp_not_returns (pd : Deduplicator) (g : SharedDictionaries) {exit : UncompExit}
    (h : exit ≠ .ok) (d : Decoder) : ¬ (failUncomp pd g exit d).Returns q :=
  fun hret => h hret.1

/-- What an input reads as when it has a layout. -/
theorem reading_eq_some_iff {dict : Deduplicator} {inside : Nat → Nat → Bool} {optpkt : Mem}
    {optlen : Nat} :
    reading cfg H dict inside optpkt optlen = some q ↔
      (layout cfg optpkt optlen).complete = true ∧
        ∃ out, expansion cfg dict inside (layout cfg optpkt optlen).items = some out ∧
          H ((layout cfg optpkt optlen).first ++ out) = (layout cfg optpkt optlen).hash ∧
          (layout cfg optpkt optlen).first ++ out = q := by
  unfold reading
  dsimp only
  split
  · rename_i hok
    rw [Option.bind_eq_some_iff]
    simp only [hok, true_and, Option.ite_none_right_eq_some, Option.some.injEq]
  · rename_i hno
    simp [hno]

end Ends

/-- The loop with the thread dictionary never reports success by itself. -/
theorem decodeStep_exit (cfg : Config) (pd : Deduplicator) (optpkt : Mem) {d d' : Decoder}
    {exit : UncompExit} (h : decodeStep cfg pd optpkt d = .stop exit d') : exit ≠ .ok := by
  rw [decodeStep_eq] at h
  split at h
  · cases h
    exact UncompExit.noConfusion
  · split at h
    · cases h
      exact UncompExit.noConfusion
    · rw [decodeOffset_eq] at h
      split at h
      · cases h
        exact UncompExit.noConfusion
      · cases h

/-- What an iteration does not exit with, the loop does not. -/
theorem decodeLoop_exit {σ : Type} {left : σ → Nat} {step : σ → Step σ}
    (hstep : ∀ {s s' exit}, step s = .stop exit s' → exit ≠ .ok) {fuel : Nat} {s s' : σ}
    {exit : UncompExit} (h : decodeLoop left step fuel s = (some exit, s')) : exit ≠ .ok := by
  induction fuel generalizing s with
  | zero =>
    rw [decodeLoop, Prod.mk.injEq] at h
    obtain ⟨h, -⟩ := h
    split at h
    · cases h
      exact UncompExit.noConfusion
    · cases h
  | succ fuel ih =>
    rw [decodeLoop] at h
    split at h
    · split at h
      · exact ih h
      · rename_i hs
        cases h
        exact hstep hs
    · cases h

/-- **The thread decoder** returns what the input reads as. -/
theorem uncompThread_returns_iff {cfg : Config} (hmax : cfg.MAXPKTSIZE ≤ 65534) (H : PacketHash)
    (pd : Deduplicator) (g : SharedDictionaries) (output optpkt : Mem) (optlen : Nat)
    (q : List UInt8) :
    (uncompThread cfg H pd g output optpkt optlen).Returns q ↔
      reading cfg H pd insideThread optpkt optlen = some q := by
  rw [reading_eq_some_iff, uncompThread]
  rcases decodeHeader_layout optpkt optlen output hmax with ⟨⟨hash, d, hhead⟩, hno, -⟩ |
    ⟨d, hhead, hhold, hfirst, hwalk⟩
  · rw [hhead, hno]
    refine iff_of_false (failUncomp_not_returns pd g (by simp) d) ?_
    rintro ⟨hfalse, -⟩
    cases hfalse
  · rw [hhead]
    dsimp only
    obtain ⟨hgood, hbad⟩ := decodeLoop_walk pd hmax FUEL hhold hfirst
    rw [hwalk] at hgood hbad
    by_cases hreads : (layout cfg optpkt optlen).complete = true ∧
        ∃ out, expansion cfg pd insideThread (layout cfg optpkt optlen).items = some out
    · obtain ⟨hok, out, hout⟩ := hreads
      obtain ⟨d', hloop, hhold', hlen⟩ := hgood out hok hout
      rw [hloop]
      dsimp only
      rw [if_pos (by rw [hhold'.pktlen, hhold'.orig]; exact ⟨hlen, hlen⟩),
        finishUncomp_returns_iff pd g _ optlen hhold']
      simp [hok, hout]
    · have hfails : (layout cfg optpkt optlen).complete = false ∨
          expansion cfg pd insideThread (layout cfg optpkt optlen).items = none := by
        by_cases hok : (layout cfg optpkt optlen).complete = true
        · refine Or.inr (Option.eq_none_iff_forall_ne_some.mpr ?_)
          intro out hout
          exact hreads ⟨hok, out, hout⟩
        · exact Or.inl (Bool.eq_false_of_not_eq_true hok)
      obtain ⟨exit, d', hloop⟩ := hbad hfails
      rw [hloop]
      refine iff_of_false (failUncomp_not_returns pd g
        (decodeLoop_exit (fun hs => decodeStep_exit cfg pd optpkt hs) hloop) d') ?_
      rintro ⟨hok, out, hout, -⟩
      exact hreads ⟨hok, out, hout⟩

/-! ### All descriptors together -/

/-- The bytes the items take in the output. -/
def extent (items : List Item) : Nat := (items.map fun item => span item.1 + item.2.length).sum

/-- The descriptors with the places of their strings, from `orig` on. -/
def table : Nat → List Item → List (PktChunk × Nat)
  | _, [] => []
  | orig, (c, lit) :: items => (c, orig) :: table (orig + span c + lit.length) items

/-- The chunks are in their places, and there are gaps for the strings. -/
def Gapped (m : Mem) : Nat → List Item → Prop
  | _, [] => True
  | orig, (c, lit) :: items =>
    slice m (orig + span c) lit.length = lit ∧ Gapped m (orig + span c + lit.length) items

section Shared

variable {cfg : Config} {optpkt : Mem} {s : SharedDecoder} {m m' : Mem} {items : List Item}

theorem extent_cons (c : PktChunk) (lit : List UInt8) (items : List Item) :
    extent ((c, lit) :: items) = span c + lit.length + extent items := by
  simp [extent]

theorem length_expansion {dict : Deduplicator} {inside : Nat → Nat → Bool} {out : List UInt8}
    (h : expansion cfg dict inside items = some out) : out.length = extent items := by
  induction items generalizing out with
  | nil =>
    cases h
    rfl
  | cons item items ih =>
    obtain ⟨c, lit⟩ := item
    rw [expansion] at h
    split at h
    · cases h
    · split at h
      · obtain ⟨rest, hrest, rfl⟩ := Option.map_eq_some_iff.mp h
        rw [extent_cons, List.length_append, List.length_append, length_slice, ih hrest,
          Nat.add_assoc]
      · cases h

theorem Gapped.congr {orig : Nat} (h : Gapped m orig items) (hsame : ∀ i, orig ≤ i → m' i = m i) :
    Gapped m' orig items := by
  induction items generalizing orig with
  | nil => trivial
  | cons item items ih =>
    obtain ⟨c, lit⟩ := item
    obtain ⟨hlit, hrest⟩ := h
    refine ⟨?_, ih hrest fun i hi => hsame i (by omega)⟩
    refine Eq.trans ?_ hlit
    apply slice_congr
    intro i _
    exact hsame _ (by omega)

/-- The decoder behind the limits of a descriptor, with the descriptor in the table. -/
def SharedDecoder.entered (s : SharedDecoder) (optpkt : Mem) : SharedDecoder :=
  ⟨{ s.toDecoder with cur := pastLimits s.cur },
    s.fptopkt ++ [(chunkAt optpkt s.cur.pos, s.orig)]⟩

/-- An iteration, by the descriptor it reads. -/
theorem decodeSharedStep_eq (cfg : Config) (optpkt : Mem) (s : SharedDecoder) :
    decodeSharedStep cfg optpkt s =
      if (chunkAt optpkt s.cur.pos).left > (chunkAt optpkt s.cur.pos).right ∨
          s.orig + (chunkAt optpkt s.cur.pos).right - (chunkAt optpkt s.cur.pos).left >
            cfg.MAXPKTSIZE then
        .stop .badPacketFormat (s.entered optpkt)
      else (decodeOffset cfg optpkt ((s.entered optpkt).toDecoder.skip
          (span (chunkAt optpkt s.cur.pos)))).map fun d => ⟨d, (s.entered optpkt).fptopkt⟩ :=
  rfl

/-- A refused descriptor ends the loop. It is in the table all the same. -/
theorem decodeSharedStep_stops (hmax : cfg.MAXPKTSIZE ≤ 65534)
    (href : refused cfg optpkt s.cur s.orig = true) :
    ∃ s', decodeSharedStep cfg optpkt s = .stop .badPacketFormat s' ∧
      s'.fptopkt.length = s.fptopkt.length + 1 := by
  have hentered : (s.entered optpkt).fptopkt.length = s.fptopkt.length + 1 := by
    rw [SharedDecoder.entered, List.length_append, List.length_singleton]
  rw [decodeSharedStep_eq]
  split
  · exact ⟨_, rfl, hentered⟩
  · rename_i hgood
    have hlong : ¬ (s.orig + span (chunkAt optpkt s.cur.pos) +
        behind optpkt (pastLimits s.cur) ≤ cfg.MAXPKTSIZE) := by
      intro hroom
      have hfalse := refused_eq_false_iff.mpr ⟨by omega, by omega, hroom⟩
      rw [href] at hfalse
      cases hfalse
    have hmod : (s.orig + span (chunkAt optpkt s.cur.pos)) % 65536 =
        s.orig + span (chunkAt optpkt s.cur.pos) := by
      apply Nat.mod_eq_of_lt
      unfold span
      omega
    rw [decodeOffset_eq, if_pos, Step.map]
    · exact ⟨_, rfl, hentered⟩
    · simp only [Decoder.skip, SharedDecoder.entered, hmod]
      omega

/-- Any other is entered into the table, and the chunk behind its gap is copied. -/
theorem decodeSharedStep_next (hmax : cfg.MAXPKTSIZE ≤ 65534)
    (href : refused cfg optpkt s.cur s.orig = false) (hpkt : s.pktlen = s.orig) :
    ∃ s', decodeSharedStep cfg optpkt s = .next s' ∧
      s'.cur = pastChunk optpkt (pastLimits s.cur) ∧
      s'.orig = s.orig + span (chunkAt optpkt s.cur.pos) + behind optpkt (pastLimits s.cur) ∧
      s'.pktlen = s'.orig ∧
      s'.fptopkt = s.fptopkt ++ [(chunkAt optpkt s.cur.pos, s.orig)] ∧
      s'.packet = memcpy s.packet (s.orig + span (chunkAt optpkt s.cur.pos))
        (slice optpkt ((pastLimits s.cur).advance 2).pos (behind optpkt (pastLimits s.cur))) := by
  obtain ⟨hord, hfit, hfits⟩ := refused_eq_false_iff.mp href
  have hmod : (s.orig + span (chunkAt optpkt s.cur.pos)) % 65536 =
      s.orig + span (chunkAt optpkt s.cur.pos) := Nat.mod_eq_of_lt (by omega)
  have hmod' : (s.orig + span (chunkAt optpkt s.cur.pos) + behind optpkt (pastLimits s.cur)) %
      65536 = s.orig + span (chunkAt optpkt s.cur.pos) + behind optpkt (pastLimits s.cur) :=
    Nat.mod_eq_of_lt (by omega)
  rw [decodeSharedStep_eq, if_neg (by omega), decodeOffset_eq, if_neg, Step.map]
  · refine ⟨_, rfl, rfl, ?_, ?_, rfl, ?_⟩
    · simp only [Decoder.pastBehind, Decoder.put, Decoder.skip, SharedDecoder.entered, length_slice,
        hmod, hmod']
    · simp only [Decoder.pastBehind, Decoder.put, Decoder.skip, SharedDecoder.entered, hpkt]
    · simp only [Decoder.pastBehind, Decoder.put, Decoder.skip, SharedDecoder.entered, hmod]
  · simp only [Decoder.skip, SharedDecoder.entered, hmod]
    omega

/-- **The loop with the shared dictionary** enters all descriptors into the table, up to the
first that is refused. -/
theorem decodeSharedLoop_walk (optpkt : Mem) (s : SharedDecoder) (hmax : cfg.MAXPKTSIZE ≤ 65534)
    (fuel : Nat) (hpkt : s.pktlen = s.orig) (horig : s.orig ≤ cfg.MAXPKTSIZE) :
    ((walk cfg optpkt fuel s.cur s.orig).2 = true →
      ∃ s', decodeLoop SharedDecoder.left (decodeSharedStep cfg optpkt) fuel s = (none, s') ∧
        s'.orig = s.orig + extent (walk cfg optpkt fuel s.cur s.orig).1 ∧ s'.pktlen = s'.orig ∧
        s'.orig ≤ cfg.MAXPKTSIZE ∧
        s'.fptopkt = s.fptopkt ++ table s.orig (walk cfg optpkt fuel s.cur s.orig).1 ∧
        (∀ i, i < s.orig → s'.packet i = s.packet i) ∧
        Gapped s'.packet s.orig (walk cfg optpkt fuel s.cur s.orig).1) ∧
      ((walk cfg optpkt fuel s.cur s.orig).2 = false →
        ∃ exit s', decodeLoop SharedDecoder.left (decodeSharedStep cfg optpkt) fuel s =
            (some exit, s') ∧ exit ≠ .ok ∧ exit ≠ .overrun ∧
          s'.fptopkt.length = s.fptopkt.length + (walk cfg optpkt fuel s.cur s.orig).1.length) := by
  induction fuel generalizing s with
  | zero =>
    rw [walk, decodeLoop]
    dsimp only
    by_cases hleft : s.cur.left ≥ DESCRIPTOR
    · rw [if_pos hleft, decide_eq_false (by omega)]
      exact ⟨fun hfalse => (by cases hfalse),
        fun _ => ⟨_, _, rfl, UncompExit.noConfusion, UncompExit.noConfusion, rfl⟩⟩
    · rw [if_neg hleft, decide_eq_true (by omega)]
      refine ⟨fun _ => ⟨s, rfl, rfl, hpkt, horig, ?_, fun _ _ => rfl, trivial⟩,
        fun hfalse => by cases hfalse⟩
      rw [table, List.append_nil]
  | succ fuel ih =>
    rw [walk]
    rw [decodeLoop]
    by_cases hleft : s.cur.left ≥ DESCRIPTOR
    · rw [if_pos hleft]
      rw [if_pos hleft]
      dsimp only
      cases href : refused cfg optpkt s.cur s.orig with
      | true =>
        obtain ⟨s', hstop, hlen⟩ := decodeSharedStep_stops hmax href
        rw [hstop, if_pos rfl]
        exact ⟨fun hfalse => (by cases hfalse),
          fun _ => ⟨_, s', rfl, UncompExit.noConfusion, UncompExit.noConfusion, hlen⟩⟩
      | false =>
        rw [if_neg (by decide)]
        dsimp only
        obtain ⟨-, -, hfits⟩ := refused_eq_false_iff.mp href
        obtain ⟨s', hnext, hcur, horig', hpkt', htable, hpacket⟩ :=
          decodeSharedStep_next hmax href hpkt
        obtain ⟨hgood, hbad⟩ := ih s' hpkt' (by rw [horig']; exact hfits)
        rw [hnext]
        dsimp only
        rw [hcur, horig'] at hgood hbad
        have hcount : s'.fptopkt.length = s.fptopkt.length + 1 := by
          rw [htable, List.length_append, List.length_singleton]
        refine ⟨?_, fun hno => ?_⟩
        rotate_left
        · obtain ⟨exit, s'', hloop, hok, hover, hlen⟩ := hbad hno
          refine ⟨exit, s'', hloop, hok, hover, ?_⟩
          rw [hlen, hcount, List.length_cons, Nat.add_right_comm, Nat.add_assoc]
        intro hok
        obtain ⟨s'', hloop, hend, hpkt'', hle, htable', hframe, hgaps⟩ := hgood hok
        refine ⟨s'', hloop, ?_, hpkt'', hle, ?_, ?_, ?_⟩
        · rw [hend, extent_cons, length_slice]
          omega
        · rw [htable', htable, table, List.append_assoc, List.singleton_append, length_slice]
        · intro i hi
          rw [hframe i (by omega), hpacket]
          exact memcpy_apply_outside (Or.inl (by omega))
        · refine ⟨?_, by rw [length_slice]; exact hgaps⟩
          have hkept : slice s''.packet (s.orig + span (chunkAt optpkt s.cur.pos))
              (behind optpkt (pastLimits s.cur)) =
                slice s'.packet (s.orig + span (chunkAt optpkt s.cur.pos))
                  (behind optpkt (pastLimits s.cur)) :=
            slice_congr fun i hi => hframe _ (by omega)
          rw [length_slice, hkept, hpacket]
          exact slice_memcpy_self' (length_slice ..)
    · rw [if_neg hleft]
      rw [if_neg hleft]
      refine ⟨fun _ => ⟨s, rfl, rfl, hpkt, horig, ?_, fun _ _ => rfl, trivial⟩,
        fun hfalse => by cases hfalse⟩
      rw [table, List.append_nil]

/-- The strings of a walk that is complete fit into the output, one by one. -/
theorem walk_span (optpkt : Mem) (fuel : Nat) (cur : Cursor) (orig : Nat)
    (h : (walk cfg optpkt fuel cur orig).2 = true) :
    ∀ item ∈ (walk cfg optpkt fuel cur orig).1, span item.1 ≤ cfg.MAXPKTSIZE := by
  induction fuel generalizing cur orig with
  | zero =>
    intro item hitem
    cases hitem
  | succ fuel ih =>
    rw [walk] at h ⊢
    split at h
    · rename_i hleft
      rw [if_pos hleft]
      dsimp only at h ⊢
      cases href : refused cfg optpkt cur orig with
      | true =>
        rw [href] at h
        cases h
      | false =>
        rw [href, if_neg (by decide)] at h
        rw [if_neg (by decide)]
        obtain ⟨-, -, hfits⟩ := refused_eq_false_iff.mp href
        intro item hitem
        rcases List.mem_cons.mp hitem with rfl | hitem
        · show span (chunkAt optpkt cur.pos) ≤ cfg.MAXPKTSIZE
          omega
        · exact ih _ _ h item hitem
    · rename_i hleft
      rw [if_neg hleft]
      intro item hitem
      cases hitem

theorem fragsFit_of_le {dict : Deduplicator}
    (h : ∀ item ∈ items, span item.1 ≤ PKTSIZELIMIT) : FragsFit cfg dict items := by
  induction items with
  | nil => trivial
  | cons item items ih =>
    intro pkt _ _
    exact ⟨h item List.mem_cons_self, ih fun item' hitem => h item' (List.mem_cons_of_mem _ hitem)⟩

/-- Descriptors that stand for something are found, and their strings fill the gaps. -/
theorem pasteFrags_expansion {g : SharedDictionaries} {out : List UInt8} {orig : Nat}
    (h : expansion cfg g.desc insideShared items = some out) (hfits : FragsFit cfg g.desc items)
    (hgaps : Gapped m orig items) :
    ∃ frags m', getPktsByFPsAndHash cfg g (items.map Prod.fst) = some (items.length, frags) ∧
      pasteFrags ((table orig items).zip frags) m = (none, m') ∧
      slice m' 0 (orig + extent items) = slice m 0 orig ++ out := by
  induction items generalizing m orig out with
  | nil =>
    cases h
    exact ⟨[], m, rfl, rfl, by rw [List.append_nil]; rfl⟩
  | cons item items ih =>
    obtain ⟨c, lit⟩ := item
    obtain ⟨hlit, hgaps⟩ := hgaps
    rw [expansion] at h
    cases hpkt : getPktByHash cfg g.desc.fps g.desc.ps c.fp c.hash with
    | none =>
      rw [hpkt] at h
      cases h
    | some pkt =>
      rw [hpkt] at h
      dsimp only at h
      split at h
      · rename_i hin
        simp only [insideShared, decide_eq_true_eq] at hin
        obtain ⟨rest, hrest, rfl⟩ := Option.map_eq_some_iff.mp h
        obtain ⟨hfit, hfits⟩ := hfits pkt hpkt hin
        have hmod : (c.right - c.left + 1) % 65536 = span c := by
          simp only [PKTSIZELIMIT] at hfit
          exact Nat.mod_eq_of_lt (show span c < 65536 by omega)
        -- The string is written in front of all that is still to come.
        have hgaps' : Gapped (memcpy m orig (slice pkt.pkt c.left (span c)))
            (orig + span c + lit.length) items :=
          hgaps.congr fun i hi => memcpy_apply_outside (Or.inr (by rw [length_slice]; omega))
        obtain ⟨frags, m', hfrags, hpaste, hm'⟩ := ih hrest hfits hgaps'
        refine ⟨⟨slice pkt.pkt c.left (span c), span c⟩ :: frags, m', ?_, ?_, ?_⟩
        · rw [List.map_cons, getPktsByFPsAndHash, hpkt]
          dsimp only
          rw [if_neg (by omega), hmod, if_neg (by omega), hfrags]
          rfl
        · have hsome : ¬ span c = 0 := Nat.succ_ne_zero _
          rw [table, List.zip_cons_cons, pasteFrags, if_neg hsome]
          exact hpaste
        · have hbefore : slice (memcpy m orig (slice pkt.pkt c.left (span c))) 0
              (orig + span c + lit.length) =
                slice m 0 orig ++ slice pkt.pkt c.left (span c) ++ lit := by
            have hstring := slice_memcpy_extend m 0 orig (slice pkt.pkt c.left (span c))
            rw [Nat.zero_add, length_slice] at hstring
            rw [slice_append, hstring, Nat.zero_add, slice_memcpy_disjoint
              (Or.inr (by rw [length_slice])), hlit]
          rw [extent_cons, ← Nat.add_assoc, ← Nat.add_assoc, hm', hbefore, List.append_assoc,
            List.append_assoc]
      · cases h

/-- A descriptor that stands for nothing is not found. -/
theorem getPktsByFPsAndHash_missing {g : SharedDictionaries}
    (h : expansion cfg g.desc insideShared items = none) (hfits : FragsFit cfg g.desc items) :
    ∃ curr frags, getPktsByFPsAndHash cfg g (items.map Prod.fst) = some (curr, frags) ∧
      curr < items.length := by
  induction items with
  | nil => cases h
  | cons item items ih =>
    obtain ⟨c, lit⟩ := item
    rw [expansion] at h
    rw [List.map_cons, getPktsByFPsAndHash, List.length_cons]
    dsimp only
    cases hpkt : getPktByHash cfg g.desc.fps g.desc.ps c.fp c.hash with
    | none => exact ⟨_, _, rfl, Nat.succ_pos _⟩
    | some pkt =>
      rw [hpkt] at h
      dsimp only at h ⊢
      by_cases hin : c.right ≤ pkt.len
      · rw [if_pos (by simpa [insideShared] using hin), Option.map_eq_none_iff] at h
        obtain ⟨hfit, hfits⟩ := hfits pkt hpkt hin
        obtain ⟨curr, frags, hfound, hlt⟩ := ih h hfits
        have hmod : (c.right - c.left + 1) % 65536 = span c := by
          simp only [PKTSIZELIMIT] at hfit
          exact Nat.mod_eq_of_lt (show span c < 65536 by omega)
        rw [if_neg (by omega), hmod, if_neg (by omega), hfound]
        exact ⟨_, _, rfl, Nat.succ_lt_succ hlt⟩
      · rw [if_pos (by omega)]
        exact ⟨_, _, rfl, Nat.succ_pos _⟩

/-- A string that does not fit its array is copied over what lies behind it. -/
theorem getPktsByFPsAndHash_overrun {g : SharedDictionaries}
    (hspan : ∀ item ∈ items, span item.1 < 65536) (h : ¬ FragsFit cfg g.desc items) :
    getPktsByFPsAndHash cfg g (items.map Prod.fst) = none := by
  induction items with
  | nil => exact absurd trivial h
  | cons item items ih =>
    obtain ⟨c, lit⟩ := item
    simp only [FragsFit, not_forall] at h
    obtain ⟨pkt, hpkt, hin, h⟩ := h
    have hmod : (c.right - c.left + 1) % 65536 = span c :=
      Nat.mod_eq_of_lt (hspan (c, lit) List.mem_cons_self)
    rw [List.map_cons, getPktsByFPsAndHash]
    simp only [hpkt]
    rw [if_neg (by omega), hmod]
    split
    · rfl
    · rename_i hfit
      rw [ih (fun item hitem => hspan item (List.mem_cons_of_mem _ hitem))
        (fun hfits => h ⟨by omega, hfits⟩)]
      rfl

theorem map_fst_table (orig : Nat) (items : List Item) :
    (table orig items).map Prod.fst = items.map Prod.fst := by
  induction items generalizing orig with
  | nil => rfl
  | cons item items ih => rw [table, List.map_cons, List.map_cons, ih]

end Shared

/-- The loop with the shared dictionary never reports success by itself. -/
theorem decodeSharedStep_exit (cfg : Config) (optpkt : Mem) {s s' : SharedDecoder}
    {exit : UncompExit} (h : decodeSharedStep cfg optpkt s = .stop exit s') : exit ≠ .ok := by
  rw [decodeSharedStep_eq] at h
  split at h
  · cases h
    exact UncompExit.noConfusion
  · rw [decodeOffset_eq] at h
    split at h
    · cases h
      exact UncompExit.noConfusion
    · cases h

/-- The end of a call never counts as an overrun. -/
theorem finishUncomp_not_overrun (cfg : Config) (H : PacketHash) (pd : Deduplicator)
    (g : SharedDictionaries) (hash : UInt32) (optlen : Nat) (d : Decoder) :
    (finishUncomp cfg H pd g hash optlen d).exit ≠ .overrun := by
  unfold finishUncomp
  dsimp only
  split
  · exact UncompExit.noConfusion
  · exact UncompExit.noConfusion

/-- The call writes outside its tables: there are more descriptors than places, or a string is
copied that does not fit its array. -/
def Overruns (cfg : Config) (dict : Deduplicator) (l : Layout) : Prop :=
  MAX_FP_PER_PKT < l.items.length ∨ l.complete = true ∧ ¬ FragsFit cfg dict l.items

section SharedCall

variable {cfg : Config} {H : PacketHash} {g : SharedDictionaries} {optpkt : Mem} {optlen : Nat}

/-- What follows the loop, when the descriptors are those of the layout. -/
theorem resolveFrags_cases (pd : Deduplicator) {s : SharedDecoder} {l : Layout}
    (hfirst : slice s.packet 0 l.first.length = l.first)
    (horig : s.orig = l.first.length + extent l.items) (hpkt : s.pktlen = s.orig)
    (hle : s.orig ≤ cfg.MAXPKTSIZE) (hspan : ∀ item ∈ l.items, span item.1 < 65536)
    (htable : s.fptopkt = table l.first.length l.items)
    (hgaps : Gapped s.packet l.first.length l.items) :
    (¬ FragsFit cfg g.desc l.items ∧
        (resolveFrags cfg H pd g l.hash optlen s).exit = .overrun) ∨
      FragsFit cfg g.desc l.items ∧ (resolveFrags cfg H pd g l.hash optlen s).exit ≠ .overrun ∧
        ∀ q, (resolveFrags cfg H pd g l.hash optlen s).Returns q ↔
          ∃ out, expansion cfg g.desc insideShared l.items = some out ∧
            H (l.first ++ out) = l.hash ∧ l.first ++ out = q := by
  have hchunks : s.fptopkt.map Prod.fst = l.items.map Prod.fst := by
    rw [htable, map_fst_table]
  have hlength : s.fptopkt.length = l.items.length := by
    have := congrArg List.length hchunks
    simpa using this
  rw [resolveFrags, if_neg (by omega), hchunks]
  by_cases hfits : FragsFit cfg g.desc l.items
  · refine Or.inr ⟨hfits, ?_⟩
    cases hout : expansion cfg g.desc insideShared l.items with
    | none =>
      obtain ⟨curr, frags, hfound, hlt⟩ := getPktsByFPsAndHash_missing hout hfits
      rw [← hlength] at hlt
      rw [hfound]
      dsimp only
      rw [List.getElem?_eq_getElem hlt]
      refine ⟨UncompExit.noConfusion, fun q => ?_⟩
      refine iff_of_false (failUncomp_not_returns pd g (by simp) s.toDecoder) ?_
      rintro ⟨out, hsome, -⟩
      cases hsome
    | some out =>
      obtain ⟨frags, m', hfrags, hpaste, hm'⟩ := pasteFrags_expansion hout hfits hgaps
      rw [hfrags]
      dsimp only
      rw [List.getElem?_eq_none (by omega), htable]
      dsimp only
      rw [hpaste]
      dsimp only
      have hlen : s.orig = (l.first ++ out).length := by
        rw [List.length_append, length_expansion hout, horig]
      have hholds : ({ s.toDecoder with packet := m' } : Decoder).Holding (l.first ++ out) := by
        refine ⟨hlen, hpkt.trans hlen, ?_⟩
        rw [← hlen, horig, hm', hfirst]
      refine ⟨finishUncomp_not_overrun cfg H pd g _ optlen _, fun q => ?_⟩
      rw [finishUncomp_returns_iff pd g _ optlen hholds]
      simp
  · refine Or.inl ⟨hfits, ?_⟩
    rw [getPktsByFPsAndHash_overrun hspan hfits]
    rfl

/-- A call with the shared dictionary either writes outside its tables or returns what the
input reads as. -/
theorem uncompShared_cases (hmax : cfg.MAXPKTSIZE ≤ 65534) (H : PacketHash) (pd : Deduplicator)
    (g : SharedDictionaries) (output optpkt : Mem) (optlen : Nat) :
    (Overruns cfg g.desc (layout cfg optpkt optlen) ∧
        (uncompShared cfg H pd g output optpkt optlen).exit = .overrun) ∨
      ¬ Overruns cfg g.desc (layout cfg optpkt optlen) ∧
        (uncompShared cfg H pd g output optpkt optlen).exit ≠ .overrun ∧
        ∀ q, (uncompShared cfg H pd g output optpkt optlen).Returns q ↔
          reading cfg H g.desc insideShared optpkt optlen = some q := by
  simp only [reading_eq_some_iff]
  rw [uncompShared]
  rcases decodeHeader_layout optpkt optlen output hmax with ⟨⟨hash, d, hhead⟩, hno, hitems⟩ |
    ⟨d, hhead, hhold, hfirst, hwalk⟩
  · rw [hhead]
    refine Or.inr ⟨?_, UncompExit.noConfusion, fun q => ?_⟩
    · rw [Overruns, hno, hitems]
      simp
    · refine iff_of_false (failUncomp_not_returns pd g (by simp) d) ?_
      rw [hno]
      rintro ⟨hfalse, -⟩
      cases hfalse
  · rw [hhead]
    dsimp only
    have hpkt : d.pktlen = d.orig := hhold.pktlen.trans hhold.orig.symm
    have horig : d.orig ≤ cfg.MAXPKTSIZE := by
      rw [hhold.orig]
      exact hfirst
    obtain ⟨hgood, hbad⟩ := decodeSharedLoop_walk optpkt ⟨d, []⟩ hmax FUEL hpkt horig
    have hspan : (walk cfg optpkt FUEL d.cur d.orig).2 = true → _ :=
      walk_span optpkt FUEL d.cur d.orig
    rw [hwalk] at hgood hbad hspan
    generalize layout cfg optpkt optlen = l at hhold hgood hbad hspan ⊢
    cases hok : l.complete with
    | false =>
      obtain ⟨exit, s', hloop, hexit, hover, hlen⟩ := hbad hok
      rw [List.length_nil, Nat.zero_add] at hlen
      rw [hloop]
      dsimp only
      by_cases hroom : s'.fptopkt.length > MAX_FP_PER_PKT
      · rw [if_pos hroom]
        exact Or.inl ⟨Or.inl (by rw [← hlen]; exact hroom), rfl⟩
      · rw [if_neg hroom]
        refine Or.inr ⟨?_, hover, fun q => ?_⟩
        · rw [Overruns, hok, ← hlen]
          simp only [Bool.false_eq_true, false_and, or_false]
          exact hroom
        · refine iff_of_false (failUncomp_not_returns pd g hexit s'.toDecoder) ?_
          rintro ⟨hfalse, -⟩
          cases hfalse
    | true =>
      obtain ⟨s', hloop, hend, hpkt', hle, htable, hframe, hgaps⟩ := hgood hok
      rw [List.nil_append] at htable
      have hlength : s'.fptopkt.length = l.items.length := by
        have := congrArg List.length (map_fst_table d.orig l.items)
        rw [htable]
        simpa using this
      rw [hloop]
      dsimp only
      by_cases hroom : s'.fptopkt.length > MAX_FP_PER_PKT
      · rw [if_pos hroom]
        exact Or.inl ⟨Or.inl (by rw [← hlength]; exact hroom), rfl⟩
      · rw [if_neg hroom]
        have hkept : slice s'.packet 0 l.first.length = l.first := by
          refine Eq.trans (slice_congr fun i hi => hframe _ ?_) hhold.output
          show 0 + i < d.orig
          rw [hhold.orig]
          omega
        have hno : ¬ MAX_FP_PER_PKT < l.items.length := by
          rw [← hlength]
          exact hroom
        rw [hhold.orig] at hend htable hgaps
        rcases @resolveFrags_cases cfg H g optlen pd _ _ hkept hend hpkt' hle
          (fun item hitem => Nat.lt_of_le_of_lt (hspan hok item hitem) (by omega)) htable hgaps with
          ⟨hlong, hexit⟩ | ⟨hfits, hexit, hret⟩
        · exact Or.inl ⟨Or.inr ⟨hok, hlong⟩, hexit⟩
        · refine Or.inr ⟨?_, hexit, fun q => ?_⟩
          · rintro (hmany | ⟨-, hlong⟩)
            · exact hno hmany
            · exact hlong hfits
          · rw [hret]
            simp

/-- **The shared decoder** returns what the input reads as, with a looser test of the right
limits, unless it writes outside its tables. -/
theorem uncompShared_returns_iff (hmax : cfg.MAXPKTSIZE ≤ 65534) (H : PacketHash)
    (pd : Deduplicator) (g : SharedDictionaries) (output optpkt : Mem) (optlen : Nat)
    (q : List UInt8) :
    (uncompShared cfg H pd g output optpkt optlen).Returns q ↔
      ¬ Overruns cfg g.desc (layout cfg optpkt optlen) ∧
        reading cfg H g.desc insideShared optpkt optlen = some q := by
  rcases uncompShared_cases hmax H pd g output optpkt optlen with ⟨hover, hexit⟩ |
    ⟨hno, -, hret⟩
  · refine iff_of_false ?_ fun h => h.1 hover
    rintro ⟨hok, -⟩
    rw [hexit] at hok
    cases hok
  · rw [hret, and_iff_right hno]

theorem uncompShared_overrun_iff (hmax : cfg.MAXPKTSIZE ≤ 65534) (H : PacketHash)
    (pd : Deduplicator) (g : SharedDictionaries) (output optpkt : Mem) (optlen : Nat) :
    (uncompShared cfg H pd g output optpkt optlen).exit = .overrun ↔
      Overruns cfg g.desc (layout cfg optpkt optlen) := by
  rcases uncompShared_cases hmax H pd g output optpkt optlen with ⟨hover, hexit⟩ |
    ⟨hno, hexit, -⟩
  · exact iff_of_true hexit hover
  · exact iff_of_false hexit hno

/-- The strings of an input that is not refused fit into the output. -/
theorem layout_span (h : (layout cfg optpkt optlen).complete = true) :
    ∀ item ∈ (layout cfg optpkt optlen).items, span item.1 ≤ cfg.MAXPKTSIZE := by
  unfold layout at h ⊢
  dsimp only at h ⊢
  split at h
  · cases h
  · rename_i hfirst
    rw [if_neg hfirst]
    exact walk_span optpkt FUEL _ _ h

end SharedCall

/-! ### The two tests of a right limit -/

section Tests

variable {cfg : Config} {H : PacketHash} {dict : Deduplicator} {items : List Item}
  {optpkt : Mem} {optlen : Nat}

/-- No descriptor has the length of the packet it names as its right limit. -/
def Short (cfg : Config) (dict : Deduplicator) (items : List Item) : Prop :=
  ∀ item ∈ items, ∀ pkt, getPktByHash cfg dict.fps dict.ps item.1.fp item.1.hash = some pkt →
    item.1.right ≠ pkt.len

/-- The tests agree on limits that are not the length. -/
theorem expansion_eq_of_short (h : Short cfg dict items) :
    expansion cfg dict insideThread items = expansion cfg dict insideShared items := by
  induction items with
  | nil => rfl
  | cons item items ih =>
    obtain ⟨c, lit⟩ := item
    rw [expansion, expansion, ih fun item hitem => h item (List.mem_cons_of_mem _ hitem)]
    cases hpkt : getPktByHash cfg dict.fps dict.ps c.fp c.hash with
    | none => rfl
    | some pkt =>
      have hne : c.right ≠ pkt.len := h (c, lit) List.mem_cons_self pkt hpkt
      have htest : insideThread c.right pkt.len = insideShared c.right pkt.len := by
        simp only [insideThread, insideShared, decide_eq_decide]
        omega
      dsimp only
      rw [htest]

/-- What the stricter test accepts has no such limit. -/
theorem short_of_expansion {out : List UInt8}
    (h : expansion cfg dict insideThread items = some out) : Short cfg dict items := by
  induction items generalizing out with
  | nil =>
    intro item hitem
    cases hitem
  | cons item items ih =>
    obtain ⟨c, lit⟩ := item
    rw [expansion] at h
    cases hpkt : getPktByHash cfg dict.fps dict.ps c.fp c.hash with
    | none =>
      rw [hpkt] at h
      cases h
    | some pkt =>
      rw [hpkt] at h
      dsimp only at h
      split at h
      · rename_i hin
        simp only [insideThread, decide_eq_true_eq] at hin
        obtain ⟨rest, hrest, -⟩ := Option.map_eq_some_iff.mp h
        intro item hitem pkt' hpkt'
        rcases List.mem_cons.mp hitem with rfl | hitem
        · rw [hpkt] at hpkt'
          cases hpkt'
          exact Nat.ne_of_lt hin
        · exact ih hrest item hitem pkt' hpkt'
      · cases h

theorem reading_eq_of_short (h : Short cfg dict (layout cfg optpkt optlen).items) :
    reading cfg H dict insideThread optpkt optlen =
      reading cfg H dict insideShared optpkt optlen := by
  unfold reading
  dsimp only
  rw [expansion_eq_of_short h]

theorem short_of_reading {q : List UInt8}
    (h : reading cfg H dict insideThread optpkt optlen = some q) :
    Short cfg dict (layout cfg optpkt optlen).items := by
  obtain ⟨-, out, hout, -⟩ := reading_eq_some_iff.mp h
  exact short_of_expansion hout

end Tests

/-! ### The mode and the counters are no part of what an input says -/

section Mode

variable (cfg : Config) (b : Bool)

/-- The configuration with the dictionaries of the threads, or with the shared ones. -/
def inMode : Config := { cfg with shared_dictionary_mode := b }

theorem walk_inMode (optpkt : Mem) (fuel : Nat) (cur : Cursor) (orig : Nat) :
    walk (inMode cfg b) optpkt fuel cur orig = walk cfg optpkt fuel cur orig := by
  induction fuel generalizing cur orig with
  | zero => rfl
  | succ fuel ih =>
    rw [walk, walk]
    simp only [ih]
    rfl

theorem layout_inMode (optpkt : Mem) (optlen : Nat) :
    layout (inMode cfg b) optpkt optlen = layout cfg optpkt optlen := by
  unfold layout
  simp only [walk_inMode]
  rfl

theorem expansion_inMode (dict : Deduplicator) (inside : Nat → Nat → Bool) (items : List Item) :
    expansion (inMode cfg b) dict inside items = expansion cfg dict inside items := by
  induction items with
  | nil => rfl
  | cons item items ih =>
    rw [expansion, expansion, ih]
    rfl

theorem fragsFit_inMode (dict : Deduplicator) (items : List Item) :
    FragsFit (inMode cfg b) dict items ↔ FragsFit cfg dict items := by
  induction items with
  | nil => exact Iff.rfl
  | cons item items ih =>
    simp only [FragsFit, ih]
    exact Iff.rfl

theorem reading_inMode (H : PacketHash) (dict : Deduplicator) (inside : Nat → Nat → Bool)
    (optpkt : Mem) (optlen : Nat) :
    reading (inMode cfg b) H dict inside optpkt optlen =
      reading cfg H dict inside optpkt optlen := by
  unfold reading
  simp only [layout_inMode, expansion_inMode]

end Mode

theorem expansion_count (cfg : Config) (dict : Deduplicator) (f : Statistics → Statistics)
    (inside : Nat → Nat → Bool) (items : List Item) :
    expansion cfg (dict.count f) inside items = expansion cfg dict inside items := by
  induction items with
  | nil => rfl
  | cons item items ih =>
    rw [expansion, expansion, ih]
    rfl

theorem reading_count (cfg : Config) (H : PacketHash) (dict : Deduplicator)
    (f : Statistics → Statistics) (inside : Nat → Nat → Bool) (optpkt : Mem) (optlen : Nat) :
    reading cfg H (dict.count f) inside optpkt optlen =
      reading cfg H dict inside optpkt optlen := by
  unfold reading
  simp only [expansion_count]

section Calls

variable {cfg : Config} (H : PacketHash) (pd : Deduplicator) (g : SharedDictionaries)
  (output optpkt : Mem) (optlen : Nat) (q : List UInt8)

theorem uncomp_thread_returns_iff (hmax : cfg.MAXPKTSIZE ≤ 65534) :
    (uncomp (inMode cfg false) H pd g output optpkt optlen).Returns q ↔
      reading cfg H pd insideThread optpkt optlen = some q := by
  have hmax' : (inMode cfg false).MAXPKTSIZE ≤ 65534 := hmax
  rw [uncomp, if_neg (by simp [inMode]), uncompThread_returns_iff hmax', reading_inMode,
    reading_count]

theorem overruns_inMode (b : Bool) (dict : Deduplicator) (l : Layout) :
    Overruns (inMode cfg b) dict l ↔ Overruns cfg dict l := by
  unfold Overruns
  rw [fragsFit_inMode]

theorem uncomp_shared_returns_iff (hmax : cfg.MAXPKTSIZE ≤ 65534) :
    (uncomp (inMode cfg true) H pd g output optpkt optlen).Returns q ↔
      ¬ Overruns cfg g.desc (layout cfg optpkt optlen) ∧
        reading cfg H g.desc insideShared optpkt optlen = some q := by
  have hmax' : (inMode cfg true).MAXPKTSIZE ≤ 65534 := hmax
  rw [uncomp, if_pos (by simp [inMode]), uncompShared_returns_iff hmax', reading_inMode,
    overruns_inMode, layout_inMode]

theorem uncomp_shared_overrun_iff (hmax : cfg.MAXPKTSIZE ≤ 65534) :
    (uncomp (inMode cfg true) H pd g output optpkt optlen).exit = .overrun ↔
      Overruns cfg g.desc (layout cfg optpkt optlen) := by
  have hmax' : (inMode cfg true).MAXPKTSIZE ≤ 65534 := hmax
  rw [uncomp, if_pos (by simp [inMode]), uncompShared_overrun_iff hmax', overruns_inMode,
    layout_inMode]

end Calls

/-- **Where the modes agree.** On one dictionary and one input the shared decoder stays inside
its tables and the two return the same packets, exactly when no string is copied that is longer
than the arrays are, and the input does not name a string that ends behind its packet and has
the hash of what comes out. -/
theorem modes_agree_iff (cfg : Config) (H : PacketHash) (dict comp pd : Deduplicator)
    (g : SharedDictionaries) (output output' optpkt : Mem) (optlen : UInt16)
    (hmax : cfg.MAXPKTSIZE ≤ 65534)
    (hroom : (layout cfg optpkt optlen.toNat).items.length ≤ MAX_FP_PER_PKT) :
    ((uncomp (inMode cfg true) H pd ⟨comp, dict⟩ output' optpkt optlen.toNat).exit ≠ .overrun ∧
        ∀ q, (uncomp (inMode cfg false) H dict g output optpkt optlen.toNat).Returns q ↔
          (uncomp (inMode cfg true) H pd ⟨comp, dict⟩ output' optpkt optlen.toNat).Returns q) ↔
      ((layout cfg optpkt optlen.toNat).complete = true →
          FragsFit cfg dict (layout cfg optpkt optlen.toNat).items) ∧
        (Short cfg dict (layout cfg optpkt optlen.toNat).items ∨
          reading cfg H dict insideShared optpkt optlen.toNat = none) := by
  have hover : ¬ Overruns cfg dict (layout cfg optpkt optlen.toNat) ↔
      ((layout cfg optpkt optlen.toNat).complete = true →
        FragsFit cfg dict (layout cfg optpkt optlen.toNat).items) := by
    rw [Overruns, not_or, not_and, not_not]
    exact and_iff_right (Nat.not_lt.mpr hroom)
  rw [← hover]
  simp only [uncomp_thread_returns_iff _ _ _ _ _ _ _ hmax,
    uncomp_shared_returns_iff _ _ _ _ _ _ _ hmax, ne_eq,
    uncomp_shared_overrun_iff _ _ _ _ _ _ hmax]
  refine and_congr_right fun hno => ?_
  simp only [hno, not_false_iff, true_and]
  constructor
  · intro hagree
    cases hreads : reading cfg H dict insideShared optpkt optlen.toNat with
    | none => exact Or.inr rfl
    | some q => exact Or.inl (short_of_reading ((hagree q).mpr hreads))
  · rintro (hshort | hnone) q
    · rw [reading_eq_of_short hshort]
    · rw [hnone]
      constructor
      · intro hreads
        rw [reading_eq_of_short (short_of_reading hreads), hnone] at hreads
        exact hreads
      · rintro ⟨⟩

/-- A reference to the packet of `afterOne`, from its first byte to a right limit. -/
def referenceInput (right : Nat) : Mem :=
  ofList (hton32 7 ++ hton16 0 ++ hton64 (fullRfp (List.replicate 64 7)) ++ hton32 7 ++
    hton16 0 ++ hton16 right ++ hton16 NO_MORE)

/-- One descriptor for a short string is within the tables. -/
theorem not_overruns_one {cfg : Config} {dict : Deduplicator} {l : Layout} {n : Nat}
    (h : (l.items.map fun item => span item.1) = [n]) (hn : n ≤ PKTSIZELIMIT) :
    ¬ Overruns cfg dict l := by
  have hlen : l.items.length = 1 := by simpa using congrArg List.length h
  rintro (hmany | ⟨-, hlong⟩)
  · rw [hlen] at hmany
    exact absurd hmany (by decide)
  · refine hlong (fragsFit_of_le fun item hitem => ?_)
    have hmem := List.mem_map_of_mem (f := fun item : Item => span item.1) hitem
    rw [h, List.mem_singleton] at hmem
    omega

/-- **The end of the packet.** `getPktsByFPsAndHash` tests `fpa->right > pkt->len` where the
other decoder tests `right >= storedPkt->len`: the shared decoder delivers 65 bytes of a packet
that has 64. -/
theorem boundary_reference :
    (layout (smallBox false) (referenceInput 64) 24).items.length = 1 ∧
      (uncomp (inMode (smallBox false) false) firstByte afterOne.pd afterOne.g (ofList [])
        (referenceInput 64) 24).cur.InBounds 24 ∧
      (uncomp (inMode (smallBox false) true) firstByte afterOne.pd ⟨afterOne.g.comp, afterOne.pd⟩
        (ofList []) (referenceInput 64) 24).cur.InBounds 24 ∧
      (∀ q, ¬ (uncomp (inMode (smallBox false) false) firstByte afterOne.pd afterOne.g (ofList [])
        (referenceInput 64) 24).Returns q) ∧
      (uncomp (inMode (smallBox false) true) firstByte afterOne.pd ⟨afterOne.g.comp, afterOne.pd⟩
        (ofList []) (referenceInput 64) 24).Returns (List.replicate 64 7 ++ [0]) := by
  have hthread : (uncomp (inMode (smallBox false) false) firstByte afterOne.pd afterOne.g
      (ofList []) (referenceInput 64) 24).exit = .badPacketFormat := by
    rw [referenceInput, fullRfp_7, afterOne_pd]
    decide
  have hspan : ((layout (smallBox false) (referenceInput 64) 24).items.map fun item =>
      span item.1) = [65] := by
    rw [referenceInput, fullRfp_7]
    decide
  refine ⟨by simpa using congrArg List.length hspan, ?_, ?_, ?_, ?_⟩
  · rw [referenceInput, fullRfp_7, afterOne_pd]
    exact ⟨by decide, by decide⟩
  · rw [referenceInput, fullRfp_7, afterOne_pd]
    exact ⟨by decide, by decide⟩
  · rintro q ⟨hok, -⟩
    rw [hthread] at hok
    cases hok
  · refine (uncomp_shared_returns_iff _ _ _ _ _ _ _ (by decide)).mpr
      ⟨not_overruns_one hspan (by decide), ?_⟩
    rw [referenceInput, fullRfp_7, afterOne_pd]
    decide

/-- An input that is a reference to a whole packet. -/
theorem modes_agree_inside :
    (layout (smallBox false) (referenceInput 63) (24 : UInt16).toNat).items.length = 1 ∧
      (uncomp (inMode (smallBox false) true) firstByte afterOne.pd ⟨afterOne.g.comp, afterOne.pd⟩
        (ofList []) (referenceInput 63) (24 : UInt16).toNat).exit ≠ .overrun ∧
      ∀ q, (uncomp (inMode (smallBox false) false) firstByte afterOne.pd afterOne.g (ofList [])
          (referenceInput 63) (24 : UInt16).toNat).Returns q ↔
        (uncomp (inMode (smallBox false) true) firstByte afterOne.pd ⟨afterOne.g.comp, afterOne.pd⟩
          (ofList []) (referenceInput 63) (24 : UInt16).toNat).Returns q := by
  have hitems : ((layout (smallBox false) (referenceInput 63) (24 : UInt16).toNat).items.map fun item =>
      (item.1.fp, item.1.hash, item.1.right, span item.1)) = [(65917187634061056, 7, 63, 64)] := by
    rw [referenceInput, fullRfp_7]
    decide
  have hitem : ∀ item ∈ (layout (smallBox false) (referenceInput 63) (24 : UInt16).toNat).items,
      (item.1.fp, item.1.hash, item.1.right, span item.1) = (65917187634061056, 7, 63, 64) := by
    intro item hitem
    have hmem := List.mem_map_of_mem
      (f := fun item : Item => (item.1.fp, item.1.hash, item.1.right, span item.1)) hitem
    rwa [hitems, List.mem_singleton] at hmem
  have hlen : (layout (smallBox false) (referenceInput 63) (24 : UInt16).toNat).items.length = 1 := by
    simpa using congrArg List.length hitems
  have hlens : (getPktByHash (smallBox false) afterOne.pd.fps afterOne.pd.ps
      65917187634061056 7).map PktEntry.len = some 64 := by
    rw [afterOne_pd]
    decide
  refine ⟨hlen, (modes_agree_iff (smallBox false) firstByte afterOne.pd afterOne.g.comp afterOne.pd
    afterOne.g (ofList []) (ofList []) (referenceInput 63) 24 (by decide) (by rw [hlen]; decide)).mpr
      ⟨fun _ => fragsFit_of_le fun item h => ?_, Or.inl fun item h pkt hpkt => ?_⟩⟩
  · have heq := hitem item h
    simp only [Prod.mk.injEq] at heq
    rw [heq.2.2.2]
    decide
  · have heq := hitem item h
    simp only [Prod.mk.injEq] at heq
    rw [heq.1, heq.2.1] at hpkt
    rw [hpkt, Option.map_some, Option.some.injEq] at hlens
    rw [heq.2.2.1, hlens]
    decide

end Solowan.Codec
