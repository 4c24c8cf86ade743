/-
A SYN segment at two accelerators (`fetcher_callback`, `opennopd/subsystems/fetcher.c`).

The first one reduces the segment size, sets option 32 to 1 and writes its header where the
data begins; the second clears the option and cuts as many bytes off the end. A worker moves
the data to make room for the header and to close the gap. The fetcher does not move it.

* `announce_carries`, `acknowledge_carries`: the two edits, on the entries of the option area
  and on the data.
* `synSegment_crosses_iff`: when a SYN segment arrives as it was sent. Its data agrees with the
  header of the first accelerator, and no option 32 of another length hides the one that is set.
* `synSegment_data_lost`: a SYN segment with one byte of data arrives with a byte of the header.
-/

import Solowan.Fetcher.Keepalive
import Solowan.Net.OptionList

namespace Solowan.Fetcher

open Solowan.Memory Solowan.Net Solowan.Sessions Solowan.Worker

/-! ### The header over the data -/

section Overlay

variable {m : Mem} {n pos : Nat} {f : Flow} {sq : UInt32} {area payload : List UInt8}

/-- Copying what is there already changes nothing. -/
theorem memcpy_append_slice (m : Mem) (pos : Nat) (hdr : List UInt8) (k : Nat) :
    memcpy m pos (hdr ++ slice m (pos + hdr.length) k) = memcpy m pos hdr := by
  rw [← memcpy_append m rfl]
  funext i
  by_cases hi : pos + hdr.length ≤ i ∧ i < pos + hdr.length + k
  · obtain ⟨j, rfl⟩ := Nat.exists_eq_add_of_le hi.1
    have hj : j < k := by omega
    rw [memcpy_apply_inside (by rw [length_slice]; exact hj), getD_slice hj,
      memcpy_apply_outside (Or.inr (Nat.le_add_right _ _))]
  · rw [memcpy_apply_outside (by rw [length_slice]; omega)]

/-- A header that is written over the data and counted on top of it: behind it stand bytes of
the data and bytes from behind the packet. -/
theorem overlay (h : Segment m n f sq area payload) (hdr : List UInt8)
    (hfit : 4 * n + TCPHDR + area.length + (hdr.length + payload.length) < 65536) :
    Segment (addTotLen (memcpy m (tcpdata m) hdr) hdr.length) n f sq area
      (hdr ++ slice m (tcpdata m + hdr.length) payload.length) := by
  rw [← memcpy_append_slice m (tcpdata m) hdr payload.length]
  apply h.replace
  · rw [List.length_append, length_slice]
    omega
  · rw [List.length_append, length_slice]
    exact hfit

/-- The first bytes of the data that is sent. -/
theorem overlay_take (h : slice m pos payload.length = payload) (hdr : List UInt8) :
    (hdr ++ slice m (pos + hdr.length) payload.length).take payload.length =
      hdr.take payload.length ++ payload.drop hdr.length := by
  rw [List.take_append, slice_take _ _ (Nat.sub_le _ _)]
  congr 1
  by_cases hlen : hdr.length ≤ payload.length
  · obtain ⟨k, hk⟩ := Nat.exists_eq_add_of_le hlen
    rw [hk, slice_append] at h
    rw [hk, Nat.add_sub_cancel_left, ← h, List.drop_append, length_slice, Nat.sub_self,
      List.drop_zero, List.drop_of_length_le (by rw [length_slice]), List.nil_append]
  · rw [Nat.sub_eq_zero_of_le (by omega), slice_zero, List.drop_of_length_le (by omega)]

/-- A header over the data changes nothing if one of the two begins with the other. -/
theorem overlay_eq_iff (hdr payload : List UInt8) :
    hdr.take payload.length ++ payload.drop hdr.length = payload ↔
      payload <+: hdr ∨ hdr <+: payload := by
  constructor
  · intro h
    have hcut : hdr.take payload.length ++ payload.drop hdr.length =
        payload.take hdr.length ++ payload.drop hdr.length := by
      rw [h, List.take_append_drop]
    have hsame := List.append_cancel_right hcut
    rcases Nat.le_total payload.length hdr.length with hle | hle
    · rw [List.take_of_length_le hle] at hsame
      exact Or.inl (List.prefix_iff_eq_take.mpr hsame.symm)
    · rw [List.take_of_length_le hle] at hsame
      exact Or.inr (List.prefix_iff_eq_take.mpr hsame)
  · rintro (hpre | hpre)
    · rw [← List.prefix_iff_eq_take.mp hpre, List.drop_of_length_le hpre.length_le,
        List.append_nil]
    · obtain ⟨tail, rfl⟩ := hpre
      rw [List.take_of_length_le (by simp), List.drop_left]

end Overlay

/-! ### The two edits -/

/-- The options with the segment size reduced. -/
def reduced (mss : UInt16) (items : List TcpOption) : List TcpOption :=
  overwriteFirst MSS_OPTION 4 (beBytes 2 (mss - 68).toNat) items

/-- The options that the first accelerator sends. -/
def tagged (mss : UInt16) (items : List TcpOption) : List TcpOption :=
  setOption OPENNOP_OPTION 3 [1] (reduced mss items)

/-- There is an option 32 of three bytes, or room for one. -/
def RoomForTag (items : List TcpOption) : Prop :=
  Present OPENNOP_OPTION 3 items ∨ (optionBytes (withoutNops items)).length + 3 ≤ 40

/-- The option 32 that is set is the one that is read: none of another length is in front of
it. -/
def TagReadable (items : List TcpOption) : Prop :=
  Present OPENNOP_OPTION 3 items → ∃ b, lookup OPENNOP_OPTION items = some [b]

section Edits

variable {m : Mem} {n pad : Nat} {f : Flow} {sq : UInt32} {items : List TcpOption}
  {payload hdr rest : List UInt8} {mss : UInt16}

theorem present_of_mss (h : lookup MSS_OPTION items = some (beBytes 2 mss.toNat)) :
    Present MSS_OPTION 4 items := by
  obtain ⟨pre, post, rfl, -⟩ := lookup_eq_some h
  exact ⟨.option MSS_OPTION (beBytes 2 mss.toNat), by simp,
    TcpOption.matches_option (by rw [length_beBytes])⟩

theorem lookup_mss_tagged (h : lookup MSS_OPTION items = some (beBytes 2 mss.toNat)) :
    lookup MSS_OPTION (tagged mss items) = some (beBytes 2 (mss - 68).toNat) := by
  rw [tagged, lookup_setOption_of_ne (by decide), reduced, lookup_overwriteFirst h,
    if_pos (by rw [length_beBytes])]

/-- **A segment is announced**: two options are set, and the header lies over the data. -/
theorem announce_carries (h : Carries m n f sq items pad payload)
    (hmss : lookup MSS_OPTION items = some (beBytes 2 mss.toNat)) (hgt : 68 < mss)
    (hroom : RoomForTag items) (hfit : totLen m ≤ 2 * BUFSIZE) (localID : UInt32) (queue : UInt8) :
    ∃ m' pad' rest, announce localID queue m = some (m', true) ∧
      Carries m' n f sq (tagged mss items) pad' ((synHeader localID queue).bytes ++ rest) ∧
      rest.length = payload.length ∧
      ((synHeader localID queue).bytes ++ rest).take payload.length =
        (synHeader localID queue).bytes.take payload.length ++ payload.drop OPENNOP_HEADER := by
  have hget : getTcpOption m MSS_OPTION = some mss.toUInt64 := by
    rw [h.getTcpOption (by decide), hmss, Option.elim_some, dataValue_word]
  obtain ⟨m₁, hset₁, h₁⟩ := h.setTcpOption_present (by decide) (Or.inr rfl) (mss - 68).toUInt64
    (present_of_mss hmss)
  have hbytes : beBytes (4 - 2) (mss - 68).toUInt64.toNat = beBytes 2 (mss - 68).toNat := by
    rw [UInt16.toNat_toUInt64]
  rw [hbytes] at h₁
  have hlen : (beBytes 2 (mss - 68).toNat).length + 2 = 4 := by rw [length_beBytes]
  have hroom₁ : Present OPENNOP_OPTION 3 (reduced mss items) ∨
      (optionBytes (withoutNops (reduced mss items))).length + 3 ≤ 40 := by
    rw [reduced, present_overwriteFirst_of_ne (by decide), length_overwriteFirst hlen]
    exact hroom
  have hdata := h.segment.length
  have hdata₁ := h₁.segment.length
  have hhead := h₁.segment.headers_le
  unfold BUFSIZE at hfit
  obtain ⟨m₂, pad₂, hset₂, h₂⟩ := h₁.setTcpOption (by decide) (Or.inl rfl) 1 hroom₁ (by omega)
  have hone : beBytes (3 - 2) (1 : UInt64).toNat = [1] := by decide
  rw [hone] at h₂
  have hhead₂ := h₂.segment.headers_le
  have hlast := h₂.segment.data
  refine ⟨checksum (addTotLen (memcpy m₂ (tcpdata m₂) (synHeader localID queue).bytes)
    OPENNOP_HEADER), pad₂, slice m₂ (tcpdata m₂ + OPENNOP_HEADER) payload.length, ?_,
    ⟨?_, h₂.wellFormed⟩, length_slice _ _ _, ?_⟩
  · rw [announce, hget]
    dsimp only
    rw [UInt16.toUInt16_toUInt64, if_pos hgt, hset₁]
    dsimp only
    rw [hset₂]
    rfl
  · have hlay := overlay h₂.segment (synHeader localID queue).bytes
      (by rw [OpennopHeader.length_bytes, OPENNOP_HEADER]; omega)
    rw [OpennopHeader.length_bytes] at hlay
    exact hlay.checksum
  · have htake := overlay_take hlast (synHeader localID queue).bytes
    rw [OpennopHeader.length_bytes] at htake
    exact htake

/-- A segment that is announced once more does not become shorter. -/
theorem announce_again (h : Carries m n f sq items pad payload)
    (hmss : lookup MSS_OPTION items = some (beBytes 2 mss.toNat)) (hroom : RoomForTag items)
    (hfit : totLen m ≤ 2 * BUFSIZE) (localID : UInt32) (queue : UInt8) :
    ∃ m' sent items' pad' data, announce localID queue m = some (m', sent) ∧
      Carries m' n f sq items' pad' data ∧ payload.length ≤ data.length := by
  by_cases hgt : 68 < mss
  · obtain ⟨m', pad', rest, hann, hcar, hrest, -⟩ :=
      announce_carries h hmss hgt hroom hfit localID queue
    refine ⟨m', true, _, pad', _, hann, hcar, ?_⟩
    rw [List.length_append]
    omega
  · have hget : getTcpOption m MSS_OPTION = some mss.toUInt64 := by
      rw [h.getTcpOption (by decide), hmss, Option.elim_some, dataValue_word]
    refine ⟨m, false, items, pad, payload, ?_, h, Nat.le_refl _⟩
    rw [announce, hget]
    dsimp only
    rw [UInt16.toUInt16_toUInt64, if_neg hgt]

/-- **An announcement is acknowledged**: the option is cleared, and the last bytes go. -/
theorem acknowledge_carries (h : Carries m n f sq items pad (hdr ++ rest))
    (hhdr : hdr.length = OPENNOP_HEADER) (hpresent : Present OPENNOP_OPTION 3 items) :
    ∃ m', acknowledge m = some m' ∧
      Carries m' n f sq (setOption OPENNOP_OPTION 3 [0] items) pad
        ((hdr ++ rest).take rest.length) := by
  obtain ⟨m', hset, h'⟩ := h.setTcpOption_present (by decide) (Or.inl rfl) 0 hpresent
  have hzero : beBytes (3 - 2) (0 : UInt64).toNat = [0] := by decide
  rw [hzero, ← setOption_of_present hpresent] at h'
  refine ⟨checksum (addTotLen m' (-OPENNOP_HEADER)), ?_, ?_, h'.wellFormed⟩
  · rw [acknowledge, hset]
    rfl
  · have hseg := h'.segment
    rw [← List.take_append_drop rest.length (hdr ++ rest)] at hseg
    refine (hseg.truncate ?_).checksum
    rw [List.length_drop, List.length_append, hhdr]
    omega

end Edits

section Tags

variable {items : List TcpOption} {mss : UInt16}

theorem present_reduced : Present OPENNOP_OPTION 3 (reduced mss items) ↔
    Present OPENNOP_OPTION 3 items :=
  present_overwriteFirst_of_ne (by decide)

theorem lookup_reduced : lookup OPENNOP_OPTION (reduced mss items) = lookup OPENNOP_OPTION items :=
  lookup_overwriteFirst_of_ne (by decide)

/-- The second accelerator reads the tag of the first, -/
theorem lookup_tagged (h : TagReadable items) :
    lookup OPENNOP_OPTION (tagged mss items) = some [1] := by
  apply lookup_setOption
  rw [present_reduced, lookup_reduced]
  intro hpresent
  obtain ⟨b, hb⟩ := h hpresent
  exact ⟨[b], hb, rfl⟩

/-- or what was there before. -/
theorem lookup_tagged_hidden (mss : UInt16) (h : ¬ TagReadable items) :
    Present OPENNOP_OPTION 3 items ∧
      lookup OPENNOP_OPTION (tagged mss items) = lookup OPENNOP_OPTION items := by
  rw [TagReadable, Classical.not_imp] at h
  obtain ⟨hpresent, hhidden⟩ := h
  obtain ⟨data, hdata⟩ := lookup_of_present hpresent
  refine ⟨hpresent, ?_⟩
  have hlen : ¬ data.length + 2 = 3 := by
    intro hlen
    obtain ⟨b, rfl⟩ := List.length_eq_one_iff.mp (Nat.add_right_cancel hlen)
    exact hhidden ⟨b, hdata⟩
  rw [tagged, setOption_of_present (present_reduced.mpr hpresent),
    lookup_overwriteFirst (lookup_reduced.trans hdata), if_neg hlen, hdata]

end Tags

/-! ### The callback on a SYN segment -/

/-- The queue of the session of a SYN segment, which is the one with the fewest sessions when
the segment creates it. -/
def synQueue (t : SessionTable) (k : Sockets) : UInt8 :=
  ((getsession t k).map Session.queue).getD (leastLoaded t)

section Syn

variable {d : Daemon} {f : FetcherState} {p : Delivery} {remoteID : UInt32} {m' : Mem}

theorem fetcherCallback_syn {option : UInt64} (d : Daemon) (f : FetcherState)
    (hrun : p.running = true) (htcp : protocol p.originalpacket = IPPROTO_TCP) (hid : p.id ≠ 0)
    (hopt : getTcpOption p.originalpacket OPENNOP_OPTION = some option)
    (hgood : option = 0 ∨ announced p.originalpacket option = true)
    (hsyn : syn p.originalpacket = true) :
    fetcherCallback d f p =
      synSegment d { f with bytesin := f.bytesin + UInt64.ofNat (totLen p.originalpacket) } p
        (remoteId p.originalpacket option) := by
  rw [fetcherCallback]
  dsimp only
  rw [if_pos hrun, if_pos ⟨htcp, hid⟩, hopt]
  dsimp only
  rw [if_neg (not_refused hgood), if_pos hsyn]

/-- What is written to the session of a SYN segment leaves its queue alone. -/
theorem queue_openSession (t : SessionTable) (k : Sockets) (m : Mem) (now : UInt64) :
    (getsession (t.update k (openSession k m now)) k).map Session.queue =
      (getsession t k).map Session.queue := by
  have hinner := inner_openSession k m now
  rw [getsession_update _ _ hinner.sockets, Option.map_map]
  exact congrArg (fun g => (getsession t k).map g) (funext hinner.queue)

/-- The header names the queue of the session. -/
theorem synSegment_announced {sent : Bool}
    (h : announce d.localID (synQueue f.sessions (sockets p.originalpacket)) p.originalpacket =
      some (m', sent)) :
    ∃ o, synSegment d f p 0 = some o ∧ o.packet = m' ∧
      o.verdict = some (.NF_ACCEPT (some (wholePacket m'))) := by
  rw [synSegment]
  dsimp only
  rw [if_pos rfl, if_neg (fun hne => hne rfl), queue_openSession]
  unfold synQueue at h
  cases hs : getsession f.sessions (sockets p.originalpacket) with
  | some s =>
    rw [hs, Option.map_some, Option.getD_some] at h
    dsimp only
    rw [hs, Option.map_some, Option.getD_some, h]
    exact ⟨_, rfl, rfl, rfl⟩
  | none =>
    rw [hs, Option.map_none, Option.getD_none] at h
    dsimp only
    rw [getsession_insertsession hs, Option.map_some, Option.getD_some]
    have hqueue : (newSession (sockets p.originalpacket)
        ((none : Option UInt8).getD (leastLoaded f.sessions))).queue = leastLoaded f.sessions := rfl
    rw [hqueue, h]
    exact ⟨_, rfl, rfl, rfl⟩

theorem synSegment_acknowledged (hid : remoteID ≠ 0)
    (h : acknowledge p.originalpacket = some m') :
    ∃ o, synSegment d f p remoteID = some o ∧ o.packet = m' ∧
      o.verdict = some (.NF_ACCEPT (some (wholePacket m'))) := by
  rw [synSegment]
  dsimp only
  rw [if_neg hid, h]
  exact ⟨_, rfl, rfl, rfl⟩

end Syn

/-! ### Two accelerators -/

/-- A SYN segment that the fetcher tags: its options are well-formed, the segment size can be
reduced, and there is room for option 32, which says nothing yet. -/
structure Offered (p : Delivery) (n : Nat) (f : Flow) (sq : UInt32) (items : List TcpOption)
    (pad : Nat) (mss : UInt16) (payload : List UInt8) : Prop where
  running : p.running = true
  id : p.id ≠ 0
  carries : Carries p.originalpacket n f sq items pad payload
  fits : totLen p.originalpacket ≤ BUFSIZE
  tcp : protocol p.originalpacket = IPPROTO_TCP
  syn : syn p.originalpacket = true
  segmentSize : lookup MSS_OPTION items = some (beBytes 2 mss.toNat)
  large : 68 < mss
  untagged : getTcpOption p.originalpacket OPENNOP_OPTION = some 0
  room : RoomForTag items

/-- The packet in `m` is the segment as it was sent, with the segment size reduced and option
32 cleared. -/
structure Intact (m : Mem) (n : Nat) (f : Flow) (sq : UInt32) (items : List TcpOption)
    (mss : UInt16) (payload : List UInt8) : Prop where
  carries : ∃ items' pad, Carries m n f sq items' pad payload ∧
    others OPENNOP_OPTION 3 items' = others OPENNOP_OPTION 3 (reduced mss items)
  segmentSize : getTcpOption m MSS_OPTION = some (mss - 68).toUInt64
  cleared : getTcpOption m OPENNOP_OPTION = some 0

section Two

variable {p p' : Delivery} {m : Mem} {n pad : Nat} {f : Flow} {sq : UInt32}
  {items : List TcpOption} {mss : UInt16} {payload data : List UInt8} {oh : OpennopHeader}

/-- The data of a packet that is intact is that of the segment. -/
theorem Intact.payload_eq {found : List TcpOption} (h : Intact m n f sq items mss payload)
    (hcar : Carries m n f sq found pad data) : data = payload := by
  obtain ⟨items', pad', hcar', -⟩ := h.carries
  rw [← hcar.segment.payload, hcar'.segment.payload]

/-- The first accelerator. -/
theorem Offered.announced (h : Offered p n f sq items pad mss payload) (d : Daemon)
    (s : FetcherState) :
    ∃ o pad' rest, fetcherCallback d s p = some o ∧
      o.verdict = some (.NF_ACCEPT (some (wholePacket o.packet))) ∧
      Carries o.packet n f sq (tagged mss items) pad' ((synHeader d.localID
        (synQueue s.sessions (sockets p.originalpacket))).bytes ++ rest) ∧
      rest.length = payload.length ∧
      ((synHeader d.localID (synQueue s.sessions (sockets p.originalpacket))).bytes ++ rest).take
          payload.length =
        (synHeader d.localID (synQueue s.sessions (sockets p.originalpacket))).bytes.take
          payload.length ++ payload.drop OPENNOP_HEADER := by
  have hstep := fetcherCallback_syn d s h.running h.tcp h.id h.untagged (Or.inl rfl) h.syn
  have hlocal : remoteId p.originalpacket 0 = 0 := if_neg fun hne => hne rfl
  rw [hlocal] at hstep
  have hfit := h.fits
  obtain ⟨m', pad', rest, hann, hcar, hrest, htake⟩ := announce_carries h.carries h.segmentSize
    h.large h.room (by omega) d.localID (synQueue s.sessions (sockets p.originalpacket))
  obtain ⟨o, ho, rfl, hverdict⟩ := synSegment_announced (p := p)
    (f := ⟨s.sessions, s.packets, s.bytesin + UInt64.ofNat (totLen p.originalpacket)⟩) hann
  exact ⟨o, pad', rest, hstep.trans ho, hverdict, hcar, hrest, htake⟩

/-- The second accelerator, when it reads the tag of the first. -/
theorem fetcherCallback_tagged (d : Daemon) (s : FetcherState) {rest : List UInt8}
    (hcar : Carries p.originalpacket n f sq (tagged mss items) pad (oh.bytes ++ rest))
    (hrun : p.running = true) (hid : p.id ≠ 0) (htcp : f.protocol = IPPROTO_TCP)
    (hsyn : syn p.originalpacket = true) (htag : TagReadable items)
    (hpattern : oh.pattern = OPENNOP_PATTERN) (hremote : oh.opennopID ≠ 0) :
    ∃ o, fetcherCallback d s p = some o ∧
      o.verdict = some (.NF_ACCEPT (some (wholePacket o.packet))) ∧
      Carries o.packet n f sq (setOption OPENNOP_OPTION 3 [0] (tagged mss items)) pad
        ((oh.bytes ++ rest).take rest.length) := by
  have hget : getTcpOption p.originalpacket OPENNOP_OPTION = some 1 := by
    rw [hcar.getTcpOption (by decide), lookup_tagged htag, Option.elim_some, dataValue_byte]
    rfl
  have hoh : opennopHeader p.originalpacket = oh := by
    have hslice := (slice_split hcar.segment.data).1
    rw [oh.length_bytes] at hslice
    exact readHeader_of_slice hslice
  have hlen : ¬ incomingLen p.originalpacket < OPENNOP_HEADER := by
    rw [hcar.segment.incomingLen, List.length_append, oh.length_bytes]
    omega
  have hann : announced p.originalpacket 1 = true := by
    rw [announced, hoh, hpattern]
    simp [hlen]
  have hstep := fetcherCallback_syn d s hrun ((segment_protocol hcar.segment).trans htcp) hid hget
    (Or.inr hann) hsyn
  have hid' : remoteId p.originalpacket 1 = oh.opennopID := by
    rw [remoteId, if_pos (by decide), hoh]
  rw [hid'] at hstep
  have hpresent : Present OPENNOP_OPTION 3 (tagged mss items) := present_setOption rfl
  obtain ⟨m', hack, hdone⟩ := acknowledge_carries hcar oh.length_bytes hpresent
  obtain ⟨o, ho, rfl, hverdict⟩ := synSegment_acknowledged (d := d) (p := p)
    (f := ⟨s.sessions, s.packets, s.bytesin + UInt64.ofNat (totLen p.originalpacket)⟩) hremote hack
  exact ⟨o, hstep.trans ho, hverdict, hdone⟩

/-- The second accelerator, when another option hides the tag. -/
theorem fetcherCallback_hidden (d : Daemon) (s : FetcherState)
    (hcar : Carries p.originalpacket n f sq (tagged mss items) pad data)
    (hdata : data.length ≤ BUFSIZE + OPENNOP_HEADER)
    (hrun : p.running = true) (hid : p.id ≠ 0) (htcp : f.protocol = IPPROTO_TCP)
    (hsyn : syn p.originalpacket = true)
    (hget : getTcpOption p.originalpacket OPENNOP_OPTION = some 0)
    (hsize : lookup MSS_OPTION items = some (beBytes 2 mss.toNat)) :
    ∃ o items' pad' data', fetcherCallback d s p = some o ∧
      o.verdict = some (.NF_ACCEPT (some (wholePacket o.packet))) ∧
      Carries o.packet n f sq items' pad' data' ∧ data.length ≤ data'.length := by
  have hstep := fetcherCallback_syn d s hrun ((segment_protocol hcar.segment).trans htcp) hid hget
    (Or.inl rfl) hsyn
  have hlocal : remoteId p.originalpacket 0 = 0 := if_neg fun hne => hne rfl
  rw [hlocal] at hstep
  have hhead := hcar.segment.headers_le
  have hlen := hcar.segment.length
  have hfit : totLen p.originalpacket ≤ 2 * BUFSIZE := by
    simp only [BUFSIZE, OPENNOP_HEADER] at *
    omega
  obtain ⟨m', sent, items', pad', data', hann, hcar', hle⟩ := announce_again hcar
    (lookup_mss_tagged hsize) (Or.inl (present_setOption rfl)) hfit d.localID
    (synQueue s.sessions (sockets p.originalpacket))
  obtain ⟨o, ho, rfl, hverdict⟩ := synSegment_announced (p := p)
    (f := ⟨s.sessions, s.packets, s.bytesin + UInt64.ofNat (totLen p.originalpacket)⟩) hann
  exact ⟨o, items', pad', data', hstep.trans ho, hverdict, hcar', hle⟩

/-- What arrives when the tag is read and the data is that of the segment. -/
theorem intact_of_carries
    (hcar : Carries m n f sq (setOption OPENNOP_OPTION 3 [0] (tagged mss items)) pad payload)
    (hsize : lookup MSS_OPTION items = some (beBytes 2 mss.toNat)) (htag : TagReadable items) :
    Intact m n f sq items mss payload where
  carries := by
    refine ⟨_, pad, hcar, ?_⟩
    have hzero : ([0] : List UInt8).length + 2 = 3 := rfl
    have hone : ([1] : List UInt8).length + 2 = 3 := rfl
    rw [others_setOption hzero, tagged, others_setOption hone]
  segmentSize := by
    rw [hcar.getTcpOption (by decide), lookup_setOption_of_ne (by decide), lookup_mss_tagged hsize,
      Option.elim_some, dataValue_word]
  cleared := by
    have hread : lookup OPENNOP_OPTION (setOption OPENNOP_OPTION 3 [0] (tagged mss items)) =
        some [0] :=
      lookup_setOption fun _ => ⟨[1], lookup_tagged htag, rfl⟩
    rw [hcar.getTcpOption (by decide), hread, Option.elim_some, dataValue_byte]
    rfl

/-- What arrives is again a SYN segment. -/
theorem Offered.arrives {found : List TcpOption} (h : Offered p n f sq items pad mss payload)
    {pad' : Nat} (hcar : Carries m n f sq found pad' data) (hp' : Arrives m p') :
    Carries p'.originalpacket n f sq found pad' data ∧ f.protocol = IPPROTO_TCP ∧
      Net.syn p'.originalpacket = true := by
  have hcar' := hcar.of_slice hp'
  refine ⟨hcar', (segment_protocol h.carries.segment).symm.trans h.tcp, ?_⟩
  have hflags : flags p'.originalpacket = flags p.originalpacket :=
    congrArg Flow.flags (hcar'.segment.flow.trans h.carries.segment.flow.symm)
  have hsyn := h.syn
  unfold Net.syn at hsyn ⊢
  rw [hflags, hsyn]

/-- **When a SYN segment crosses two accelerators intact.** -/
theorem synSegment_crosses_iff (h : Offered p n f sq items pad mss payload) (d d' : Daemon)
    (s s' : FetcherState) :
    ∃ o, fetcherCallback d s p = some o ∧
      o.verdict = some (.NF_ACCEPT (some (wholePacket o.packet))) ∧
      ∀ p', Arrives o.packet p' → p'.running = true → p'.id ≠ 0 →
        ∃ o', fetcherCallback d' s' p' = some o' ∧
          o'.verdict = some (.NF_ACCEPT (some (wholePacket o'.packet))) ∧
          (Intact o'.packet n f sq items mss payload ↔
            TagReadable items ∧
              (payload <+: (synHeader d.localID
                  (synQueue s.sessions (sockets p.originalpacket))).bytes ∨
                (synHeader d.localID
                  (synQueue s.sessions (sockets p.originalpacket))).bytes <+: payload)) := by
  obtain ⟨o, pad', rest, ho, hverdict, hcar, hrest, htake⟩ := h.announced d s
  refine ⟨o, ho, hverdict, ?_⟩
  intro p' harrives hrun hid
  obtain ⟨hcar', htcp, hsyn⟩ := h.arrives hcar harrives
  by_cases htag : TagReadable items
  · obtain ⟨o', ho', hverdict', hdone⟩ := fetcherCallback_tagged d' s' hcar' hrun hid htcp hsyn
      htag rfl d.identified
    rw [hrest, htake] at hdone
    refine ⟨o', ho', hverdict', ?_⟩
    have hagree := overlay_eq_iff
      (synHeader d.localID (synQueue s.sessions (sockets p.originalpacket))).bytes payload
    rw [OpennopHeader.length_bytes] at hagree
    rw [← hagree]
    constructor
    · intro hintact
      exact ⟨htag, hintact.payload_eq hdone⟩
    · rintro ⟨-, heq⟩
      rw [heq] at hdone
      exact intact_of_carries hdone h.segmentSize htag
  · obtain ⟨-, hlook⟩ := lookup_tagged_hidden mss htag
    have hget : getTcpOption p'.originalpacket OPENNOP_OPTION = some 0 := by
      rw [hcar'.getTcpOption (by decide), hlook, ← h.carries.getTcpOption (by decide)]
      exact h.untagged
    have hlen := h.carries.segment.length
    have hfits := h.fits
    obtain ⟨o', items', pad'', data', ho', hverdict', hdone, hle⟩ := fetcherCallback_hidden d' s'
      hcar' (by rw [List.length_append, OpennopHeader.length_bytes]; omega) hrun hid htcp hsyn hget
      h.segmentSize
    refine ⟨o', ho', hverdict', iff_of_false ?_ fun hcond => htag hcond.1⟩
    intro hintact
    have hsame := congrArg List.length (hintact.payload_eq hdone)
    rw [List.length_append, OpennopHeader.length_bytes] at hle
    simp only [OPENNOP_HEADER] at hle
    omega

end Two

/-- A SYN segment of the first host with a segment size of 1460 bytes. -/
def synBytes (payload : List UInt8) : List UInt8 :=
  [0x45, 0] ++ (beBytes 2 (44 + payload.length) ++
    ([0, 0, 0, 0, 64, 6, 0, 0, 10, 0, 0, 1, 10, 0, 0, 2, 0x30, 0x39, 0x30, 0x39, 0, 0, 3, 232,
      0, 0, 0, 0, 0x60, 2, 0xff, 0xff, 0, 0, 0, 0, 2, 4, 5, 180] ++ payload))

/-- It is tagged, with a byte of data and without. -/
theorem offered_synBytes {payload : List UInt8} (h : payload = [] ∨ payload = [9]) :
    Offered (deliveryOf (synBytes payload)) 5 (flow (ofList (synBytes payload))) 1000
      [.option MSS_OPTION [5, 180]] 0 1460 payload where
  running := rfl
  id := show (1 : UInt32) ≠ 0 by decide
  carries :=
    { segment := by
        refine ⟨?_, ?_, rfl, ?_, ?_, ?_, ?_, ?_⟩ <;> rcases h with rfl | rfl <;> decide
      wellFormed := by
        intro x hx
        rw [List.mem_singleton.mp hx]
        exact ⟨by decide, by decide⟩ }
  fits := by rcases h with rfl | rfl <;> decide
  tcp := by rcases h with rfl | rfl <;> decide
  syn := by rcases h with rfl | rfl <;> decide
  segmentSize := by decide
  large := by decide
  untagged := by rcases h with rfl | rfl <;> decide
  room := Or.inr (by decide)

/-- A SYN segment without data. -/
theorem synSegment_crosses_empty :
    ∃ o o', fetcherCallback sharedBox (fetcherWith []) (deliveryOf (synBytes [])) = some o ∧
      fetcherCallback otherBox (fetcherWith []) ⟨1, o.packet, totLen o.packet, 0, true⟩ = some o' ∧
      Intact o'.packet 5 (flow (ofList (synBytes []))) 1000 [.option MSS_OPTION [5, 180]] 1460
        [] := by
  obtain ⟨o, ho, -, hcross⟩ := synSegment_crosses_iff (offered_synBytes (Or.inl rfl)) sharedBox
    otherBox (fetcherWith []) (fetcherWith [])
  obtain ⟨o', ho', -, hiff⟩ := hcross ⟨1, o.packet, totLen o.packet, 0, true⟩ rfl rfl
    (show (1 : UInt32) ≠ 0 by decide)
  refine ⟨o, o', ho, ho', hiff.mpr ⟨?_, Or.inl List.nil_prefix⟩⟩
  rintro ⟨x, hx, hmatch⟩
  rw [List.mem_singleton.mp hx] at hmatch
  cases hmatch

/-- **A byte of data is lost**: the first byte of the header arrives instead. -/
theorem synSegment_data_lost :
    ¬ ∀ (d d' : Daemon) (s s' : FetcherState) (p : Delivery) (n : Nat) (f : Flow) (sq : UInt32)
        (items : List TcpOption) (pad : Nat) (mss : UInt16) (payload : List UInt8),
      Offered p n f sq items pad mss payload →
        ∃ o, fetcherCallback d s p = some o ∧
          ∀ p', Arrives o.packet p' → p'.running = true → p'.id ≠ 0 →
            ∃ o', fetcherCallback d' s' p' = some o' ∧
              Intact o'.packet n f sq items mss payload := by
  intro hall
  have hoffered := offered_synBytes (show [9] = [] ∨ [9] = [9] from Or.inr rfl)
  obtain ⟨o, ho, hcross⟩ := hall sharedBox otherBox (fetcherWith []) (fetcherWith []) _ _ _ _ _ _
    _ _ hoffered
  obtain ⟨o₁, pad', rest, ho₁, -, hcar, hrest, htake⟩ :=
    hoffered.announced sharedBox (fetcherWith [])
  rw [ho] at ho₁
  cases ho₁
  obtain ⟨p', hp'⟩ : ∃ p' : Delivery, p' = ⟨1, o.packet, totLen o.packet, 0, true⟩ := ⟨_, rfl⟩
  have hsent : Arrives o.packet p' ∧ p'.running = true ∧ p'.id ≠ 0 := by
    rw [hp']
    exact ⟨rfl, rfl, show (1 : UInt32) ≠ 0 by decide⟩
  obtain ⟨harrives, hrun, hid⟩ := hsent
  obtain ⟨o', ho', hintact⟩ := hcross p' harrives hrun hid
  obtain ⟨hcar', htcp, hsyn⟩ := hoffered.arrives hcar harrives
  have htag : TagReadable [.option MSS_OPTION [5, 180]] := by
    rintro ⟨x, hx, hmatch⟩
    rw [List.mem_singleton.mp hx] at hmatch
    cases hmatch
  obtain ⟨o₂, ho₂, -, hdone⟩ := fetcherCallback_tagged otherBox (fetcherWith []) hcar' hrun hid htcp
    hsyn htag rfl sharedBox.identified
  rw [ho'] at ho₂
  cases ho₂
  rw [hrest, htake] at hdone
  have hlost : (0 : UInt8) = 9 := List.head_eq_of_cons_eq (hintact.payload_eq hdone)
  exact absurd hlost (by decide)

end Solowan.Fetcher
