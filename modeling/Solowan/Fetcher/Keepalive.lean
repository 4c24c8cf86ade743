/-
Keepalives (`sendkeepalive`, `opennopd/subsystems/sessioncleanup.c`) at the accelerator of the
other side.

A keepalive carries option 32 with the value 2. The fetcher drops such a packet, but only
where it has found its session: without one it is a segment of another accelerator like any
other, and a session is entered for it.

* `sendkeepalive_segment`: the packet that is built.
* `keepalive_adds_no_session_iff`: the packet leaves the sessions of the other accelerator as
  they are if and only if the session is one of them, or the packet is not looked at.
* `keepalive_revives_session`: it brings a dead session back.
-/

import Solowan.Fetcher.Tagged

namespace Solowan.Fetcher

open Solowan.Memory Solowan.Net Solowan.Sessions Solowan.Worker

/-! ### The packet -/

/-- The ends of a keepalive and its numbers: the arguments of `sendkeepalive`. -/
structure Keepalive where
  saddr : UInt32
  source : UInt16
  seq : UInt32
  daddr : UInt32
  dest : UInt16
  ackSeq : UInt32

namespace Keepalive

/-- The fields that are set in the zeroed buffer: two headers without options. Addresses and
ports are stored as they were received. -/
def headers (c : Keepalive) : List UInt8 :=
  [0x45, 0] ++ (beBytes 2 40 ++ ([0, 0, 0, 0, 64, 6, 0, 0] ++
    (leBytes 4 c.saddr.toNat ++ (leBytes 4 c.daddr.toNat ++
      (leBytes 2 c.source.toNat ++ (leBytes 2 c.dest.toNat ++
        (beBytes 4 (c.seq - 1).toNat ++ (beBytes 4 (c.ackSeq - 1).toNat ++
          [0x50, 0x10, 0, 0, 0, 0, 0, 0]))))))))

/-- What identifies the packet. -/
def flow (c : Keepalive) : Flow :=
  ⟨IPPROTO_TCP, c.saddr, c.daddr, c.source, c.dest, c.ackSeq - 1, 0x10⟩

/-- The sockets of the connection. -/
def sockets (c : Keepalive) : Sockets := sortSockets c.saddr c.source c.daddr c.dest

end Keepalive

/-- `sendkeepalive`: the packet that is passed to `sendto`. -/
def sendkeepalive (localID : UInt32) (c : Keepalive) : Option Mem :=
  (setTcpOption (ofList c.headers) OPENNOP_OPTION.toNat 3 2).map fun (result, m) =>
    checksum
      (if result = -1 then m
      else addTotLen (memcpy m (tcpdata m) (synHeader localID 0).bytes) OPENNOP_HEADER)

section Fields

variable {m : Mem} {pos : Nat}

/-- Fields that are read back. -/
theorem loadBE_field {v : UInt32} (h : slice m pos 4 = beBytes 4 v.toNat) :
    UInt32.ofNat (loadBE m pos 4) = v := by
  have hlt : v.toNat < 256 ^ 4 := v.toNat_lt
  rw [loadBE, h, beNat_beBytes, Nat.mod_eq_of_lt hlt, UInt32.ofNat_toNat]

theorem loadLE_address {v : UInt32} (h : slice m pos 4 = leBytes 4 v.toNat) :
    UInt32.ofNat (loadLE m pos 4) = v := by
  have hlt : v.toNat < 256 ^ 4 := v.toNat_lt
  rw [loadLE, h, leNat_leBytes, Nat.mod_eq_of_lt hlt, UInt32.ofNat_toNat]

theorem loadLE_port {v : UInt16} (h : slice m pos 2 = leBytes 2 v.toNat) :
    UInt16.ofNat (loadLE m pos 2) = v := by
  have hlt : v.toNat < 256 ^ 2 := v.toNat_lt
  rw [loadLE, h, leNat_leBytes, Nat.mod_eq_of_lt hlt, UInt16.ofNat_toNat]

end Fields

namespace Keepalive

theorem length_headers (c : Keepalive) : c.headers.length = 40 := by
  simp [headers]

/-- The field of `k` bytes at `pos`. -/
theorem slice_headers (c : Keepalive) {pos k : Nat} (h : pos + k ≤ 40) :
    slice (ofList c.headers) pos k = (c.headers.drop pos).take k :=
  slice_ofList (by rw [length_headers]; exact h)

theorem ihl_headers (c : Keepalive) : ihl (ofList c.headers) = 5 := by
  have hbyte : ofList c.headers 0 = 0x45 := rfl
  rw [ihl, hbyte]
  rfl

theorem tcph_headers (c : Keepalive) : tcph (ofList c.headers) = 20 := by
  rw [tcph, ihl_headers]

theorem doff_headers (c : Keepalive) : doff (ofList c.headers) = 5 := by
  have hbyte : ofList c.headers (20 + 12) = 0x50 := rfl
  rw [doff, tcph_headers, hbyte]
  rfl

theorem totLen_headers (c : Keepalive) : totLen (ofList c.headers) = 40 := by
  have hfield : slice (ofList c.headers) 2 2 = beBytes 2 40 := c.slice_headers (by decide)
  have hlt : 40 < 256 ^ 2 := by decide
  rw [totLen, loadBE, hfield, beNat_beBytes, Nat.mod_eq_of_lt hlt]

theorem flow_headers (c : Keepalive) : Net.flow (ofList c.headers) = c.flow := by
  have hsaddr : Net.saddr (ofList c.headers) = c.saddr :=
    loadLE_address (c.slice_headers (by decide))
  have hdaddr : Net.daddr (ofList c.headers) = c.daddr :=
    loadLE_address (c.slice_headers (by decide))
  have hsource : Net.source (ofList c.headers) = c.source := by
    rw [Net.source, tcph_headers]
    exact loadLE_port (c.slice_headers (by decide))
  have hdest : Net.dest (ofList c.headers) = c.dest := by
    rw [Net.dest, tcph_headers]
    exact loadLE_port (c.slice_headers (by decide))
  have hack : Net.ackSeq (ofList c.headers) = c.ackSeq - 1 := by
    rw [Net.ackSeq, tcph_headers]
    exact loadBE_field (c.slice_headers (by decide))
  have hprotocol : Net.protocol (ofList c.headers) = IPPROTO_TCP := rfl
  have hflags : Net.flags (ofList c.headers) = 0x10 := by
    rw [Net.flags, tcph_headers]
    rfl
  rw [Net.flow, hsaddr, hdaddr, hsource, hdest, hack, hprotocol, hflags]
  rfl

/-- The headers as they are set. -/
theorem segment (c : Keepalive) : Segment (ofList c.headers) 5 c.flow (c.seq - 1) [] [] where
  ihl := c.ihl_headers
  ihl_ge := Nat.le_refl 5
  flow := c.flow_headers
  seq := by
    rw [Net.seq, tcph_headers]
    exact loadBE_field (c.slice_headers (by decide))
  doff := by rw [c.doff_headers]; rfl
  totLen := by rw [c.totLen_headers, Net.tcpdata, c.tcph_headers, c.doff_headers]; rfl
  area := rfl
  data := rfl

end Keepalive

/-- The packet that is sent: option 32 with the value 2, and a header that names this box. -/
theorem sendkeepalive_segment (localID : UInt32) (c : Keepalive) :
    ∃ m pad, sendkeepalive localID c = some m ∧
      Segment m 5 c.flow (c.seq - 1) (shortOption OPENNOP_OPTION 2 ++ List.replicate pad 0)
        ((synHeader localID 0).bytes ++ []) := by
  have hbare : Segment (ofList c.headers) 5 c.flow (c.seq - 1)
      (optionBytes [] ++ List.replicate 0 0) [] := c.segment
  obtain ⟨m, addoff, pad, hset, hsmall, hseg, htot⟩ := hbare.insertOption (by simp) 2
    (show TCPOPT_NOP < OPENNOP_OPTION by decide) (by simp) (show 2 ≤ 3 by decide) (by decide)
    (by decide) (by rw [c.totLen_headers]; decide)
  have hlen := hseg.length
  rw [htot, c.totLen_headers, List.length_nil] at hlen
  refine ⟨checksum (addTotLen (memcpy m (tcpdata m) (synHeader localID 0).bytes) OPENNOP_HEADER),
    pad, ?_, ?_⟩
  · rw [sendkeepalive, hset, Option.map_some]
    rfl
  · rw [List.append_nil]
    refine (hseg.replace ?_ ?_).checksum
    · simp [OPENNOP_HEADER]
    · rw [OpennopHeader.length_bytes]
      simp only [OPENNOP_HEADER]
      omega

/-! ### At the other accelerator -/

/-- The packet in `m` is delivered, with any bytes behind it. -/
def Arrives (m : Mem) (p : Delivery) : Prop :=
  slice p.originalpacket 0 (totLen m) = wholePacket m

/-- No bucket has a session that it did not have. -/
def AddsNoSession (t t' : SessionTable) : Prop :=
  ∀ hash, List.Sublist ((t'.sessiontable hash).map Session.toSockets)
    ((t.sessiontable hash).map Session.toSockets)

theorem AddsNoSession.refl (t : SessionTable) : AddsNoSession t t := fun _ => List.Sublist.refl _

/-- Writing to a session adds none. -/
theorem AddsNoSession.update (t : SessionTable) (k : Sockets) {g : Session → Session}
    (hg : ∀ s, (g s).toSockets = s.toSockets) : AddsNoSession t (t.update k g) := by
  intro hash
  rw [sockets_update t k hg]

/-- A session that is found was there. -/
theorem AddsNoSession.getsession {t t' : SessionTable} (h : AddsNoSession t t') {k : Sockets}
    (hk : getsession t k = none) : Sessions.getsession t' k = none := by
  rw [Sessions.getsession, List.find?_eq_none] at hk ⊢
  intro s hs hsock
  have hmem := (h (bucket k)).subset (List.mem_map_of_mem hs)
  obtain ⟨s', hs', heq⟩ := List.mem_map.mp hmem
  apply hk s' hs'
  rw [heq]
  exact hsock

section Remote

variable {localID : UInt32} {remote : Daemon} {c : Keepalive} {f : FetcherState} {p : Delivery}
  {m : Mem}

/-- A keepalive that is looked at. -/
theorem keepalive_tagged (hid : localID ≠ 0) (hm : sendkeepalive localID c = some m)
    (hp : Arrives m p) (hrun : p.running = true) (hnf : p.id ≠ 0) :
    Tagged p 2 (synHeader localID 0) ∧ ack p.originalpacket = true ∧
      sockets p.originalpacket = c.sockets := by
  obtain ⟨m', pad, hm', hseg⟩ := sendkeepalive_segment localID c
  rw [hm] at hm'
  cases hm'
  have hseg' := hseg.of_slice hp
  have hflow := hseg'.flow
  have hflags : flags p.originalpacket = 0x10 := congrArg Flow.flags hflow
  have hsyn : syn p.originalpacket = false := by
    rw [syn, hflags]
    decide
  refine ⟨.of_segment hseg' (by decide) rfl hid hrun (segment_protocol hseg') hnf hsyn, ?_, ?_⟩
  · rw [Net.ack, hflags]
    decide
  · have h1 : saddr p.originalpacket = c.saddr := congrArg Flow.saddr hflow
    have h2 : source p.originalpacket = c.source := congrArg Flow.source hflow
    have h3 : daddr p.originalpacket = c.daddr := congrArg Flow.daddr hflow
    have h4 : dest p.originalpacket = c.dest := congrArg Flow.dest hflow
    rw [sockets, Keepalive.sockets, h1, h2, h3, h4]

/-- A keepalive for a session that is known is dropped. -/
theorem fetcherCallback_keepalive {oh : OpennopHeader} {s : Session} (h : Tagged p 2 oh)
    (hs : getsession f.sessions (sockets p.originalpacket) = some s) :
    ∃ o, fetcherCallback remote f p = some o ∧ o.verdict = some .NF_DROP ∧
      o.state.sessions = f.sessions.update (sockets p.originalpacket) fun s =>
        { s with lastactive := p.now, deadcounter := 0 } := by
  have hstep := fetcherCallback_segment (f := f) remote h.running h.tcp h.id h.option
    (Or.inr h.announced) h.syn
  rw [hs] at hstep
  dsimp only at hstep
  rw [knownSegment] at hstep
  dsimp only at hstep
  rw [if_pos (by decide)] at hstep
  exact ⟨_, hstep, rfl, rfl⟩

/-- A packet that is not looked at. -/
theorem fetcherCallback_ignored (h : p.running = false ∨ p.id = 0) :
    ∃ o, fetcherCallback remote f p = some o ∧ o.state.sessions = f.sessions := by
  rw [fetcherCallback]
  dsimp only
  rcases h with hrun | hid
  · rw [if_neg (by simp [hrun])]
    exact ⟨_, rfl, rfl⟩
  · split
    · rw [if_neg (fun h => h.2 hid)]
      exact ⟨_, rfl, rfl⟩
    · exact ⟨_, rfl, rfl⟩

end Remote

/-- **When a keepalive adds no session** to the table of the other accelerator. -/
theorem keepalive_adds_no_session_iff (d remote : Daemon) (c : Keepalive) :
    ∃ m, sendkeepalive d.localID c = some m ∧
      ∀ (f : FetcherState) (p : Delivery), Arrives m p →
        ((∃ o, fetcherCallback remote f p = some o ∧ AddsNoSession f.sessions o.state.sessions) ↔
          (p.running = false ∨ p.id = 0 ∨ getsession f.sessions c.sockets ≠ none)) := by
  obtain ⟨m, -, hm, -⟩ := sendkeepalive_segment d.localID c
  refine ⟨m, hm, ?_⟩
  intro f p hp
  constructor
  · rintro ⟨o, ho, hadds⟩
    by_contra hcon
    simp only [not_or, Bool.not_eq_false, not_not] at hcon
    obtain ⟨hrun, hid, hnone⟩ := hcon
    obtain ⟨htagged, hack, hsock⟩ := keepalive_tagged d.identified hm hp hrun hid
    rw [← hsock] at hnone
    obtain ⟨o', s, ho', -, hs, -⟩ :=
      fetcherCallback_entered (d := remote) htagged hack hnone
    rw [ho] at ho'
    cases ho'
    rw [hadds.getsession hnone] at hs
    cases hs
  · intro h
    by_cases hlook : p.running = false ∨ p.id = 0
    · obtain ⟨o, ho, hsame⟩ := fetcherCallback_ignored hlook
      exact ⟨o, ho, by rw [hsame]; exact .refl _⟩
    · obtain ⟨hrun, hid⟩ := not_or.mp hlook
      have hknown : getsession f.sessions c.sockets ≠ none := by
        rcases h with h | h | h
        · exact absurd h hrun
        · exact absurd h hid
        · exact h
      obtain ⟨s, hs⟩ := Option.ne_none_iff_exists'.mp hknown
      obtain ⟨htagged, -, hsock⟩ :=
        keepalive_tagged d.identified hm hp (by simpa using hrun) hid
      rw [← hsock] at hs
      obtain ⟨o, ho, -, hsess⟩ := fetcherCallback_keepalive htagged hs
      refine ⟨o, ho, ?_⟩
      rw [hsess]
      exact .update _ _ (by simp)

/-- A session between two hosts. -/
def idleSession : Keepalive := ⟨0x0100000a, 0x3930, 1000, 0x0200000a, 0x3930, 1⟩

/-- The accelerator of the other side. -/
def otherBox : Daemon := { sharedBox with localID := 88, identified := by decide }

/-- The fetcher of the other side, with the sessions of a list. -/
def fetcherWith (l : List Session) : FetcherState := ⟨tableOf l, 0, 0⟩

/-- A keepalive for a session that is alive on both sides. -/
theorem keepalive_of_known_session :
    ∃ m o, sendkeepalive sharedBox.localID idleSession = some m ∧
      fetcherCallback otherBox (fetcherWith [newSession idleSession.sockets 0])
        ⟨1, m, totLen m, 0, true⟩ = some o ∧
      AddsNoSession (tableOf [newSession idleSession.sockets 0]) o.state.sessions := by
  obtain ⟨m, hm, hiff⟩ := keepalive_adds_no_session_iff sharedBox otherBox idleSession
  obtain ⟨o, ho, hadds⟩ := (hiff (fetcherWith [newSession idleSession.sockets 0])
    ⟨1, m, totLen m, 0, true⟩ rfl).mpr (Or.inr (Or.inr (by decide)))
  exact ⟨m, o, hm, ho, hadds⟩

/-- **A keepalive brings a session back.** The other accelerator has none when the packet
comes in, and has one afterwards. -/
theorem keepalive_revives_session :
    ∃ m o s, sendkeepalive sharedBox.localID idleSession = some m ∧
      getsession (tableOf []) idleSession.sockets = none ∧
      fetcherCallback otherBox (fetcherWith []) ⟨1, m, totLen m, 0, true⟩ = some o ∧
      getsession o.state.sessions idleSession.sockets = some s ∧
      ¬ AddsNoSession (tableOf []) o.state.sessions := by
  obtain ⟨m, -, hm, -⟩ := sendkeepalive_segment sharedBox.localID idleSession
  obtain ⟨htagged, hack, hsock⟩ := keepalive_tagged (p := ⟨1, m, totLen m, 0, true⟩)
    sharedBox.identified hm rfl rfl (show (1 : UInt32) ≠ 0 by decide)
  obtain ⟨o, s, ho, -, hs, -⟩ :=
    fetcherCallback_entered (d := otherBox) (f := fetcherWith []) htagged hack rfl
  rw [hsock] at hs
  refine ⟨m, o, s, hm, rfl, ho, hs, ?_⟩
  intro hadds
  rw [hadds.getsession rfl] at hs
  cases hs

end Solowan.Fetcher
