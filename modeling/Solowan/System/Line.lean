/-
Two boxes at work, and the line from a worker of the one to a worker of the other.

The first box takes segments from its queues and sends them, the second receives them, queues them
and restores them later; in the meantime both do whatever else they have to do, and the first has
sent more. So the dictionary of the deoptimization thread lags behind the one that the next segment
is sent with, by what is on the line and in the queue.

* `LineStep.keeps`: what holds of the boxes and the line between them in every run.
* `line_transparent`: the segments leave the second box in the order in which the first has taken
  them, each as it was, and when nothing is under way the dictionaries have the same content.
* `line_goes_on`: the first box can always send, and the second can always restore what waits there.
-/

import Solowan.Control.Lagging
import Solowan.Fetcher.Keepalive
import Solowan.System.Box
import Solowan.Worker.Stream

namespace Solowan.System

open Relation Solowan.Memory Solowan.Dictionary Solowan.Net Solowan.Sessions Solowan.Worker
  Solowan.Fetcher Solowan.Control

/-! ### The boxes and what is between them -/

/-- A segment that has been sent: what it said before, the packet, and the switches at that time. -/
structure Sent where
  content : Content
  packet : Mem
  switches : Switches

/-- Two boxes. `sent` is what one worker of the first has sent to one worker of the second: some of
it is on the wire, some of it waits in the queue there, and `given` has become of the rest. -/
structure Line where
  near : Box
  far : Box
  sent : List Content
  wire : List Sent
  waiting : List Sent
  given : List (Option Mem)

/-- What the deoptimization thread lets through. -/
def outcome (o : Deoptimized) : Option Mem :=
  match o.verdict with
  | .NF_DROP => none
  | .NF_ACCEPT _ => some o.packet

/-- A step that leaves the queue and the deoptimization thread of a worker alone. -/
def Aside (d : Daemon) (worker : UInt8) (b : Box) : Event → Prop
  | .fetch p => ∀ o, fetcherCallback d b.fetcher p = some o → ∀ m, o.queued ≠ some (.deoptimize worker m)
  | .optimize _ _ => True
  | .deoptimize other _ => other ≠ worker
  | .cleanup _ _ => True

/-- What a thread of the box finds when it takes the packet `m`. -/
def Box.arrival (b : Box) (m : Mem) (sw : Switches) : Arrival := ⟨m, b.fetcher.sessions, b.shared, sw⟩

/-- One of the boxes makes a step. The worker `w` of the first takes a segment and sends it on as it
is, or with its header on the line to the worker `w'` of the second; there the segments arrive in
order and are delivered, while the switches are the same and the session says so. Whatever else the
two boxes do, the line is not concerned. -/
inductive LineStep (dA dB : Daemon) (w w' : UInt8) (l : Line) : Line → Prop
  | near {e : Event} {near : Box} (he : ∀ sw, e ≠ .optimize w sw)
      (hstep : step dA l.near e = some near) : LineStep dA dB w w' l { l with near := near }
  | pass {m : Mem} {rest : List Mem} {sw : Switches} {o : Optimized} {near : Box}
      (hqueue : l.near.optimization w = m :: rest)
      (ho : optimizationStep dA (l.near.optimizers w) (l.near.arrival m sw) = some o)
      (hplain : o.addedOpennopHeader = false)
      (hstep : step dA l.near (.optimize w sw) = some near) :
      LineStep dA dB w w' l { l with near := near }
  | send {m : Mem} {rest : List Mem} {sw : Switches} {s : Content} {o : Optimized} {near : Box}
      (hqueue : l.near.optimization w = m :: rest) (hs : Sendable dA (l.near.arrival m sw) s)
      (ho : optimizationStep dA (l.near.optimizers w) (l.near.arrival m sw) = some o)
      (hstep : step dA l.near (.optimize w sw) = some near) :
      LineStep dA dB w w' l
        { l with near := near, sent := l.sent ++ [s], wire := l.wire ++ [⟨s, o.packet, sw⟩] }
  | far {e : Event} {far : Box} (he : Aside dB w' l.far e)
      (hstep : step dB l.far e = some far) : LineStep dA dB w w' l { l with far := far }
  | arrive {p : Delivery} {x : Sent} {wire : List Sent} {s : Session} {far : Box}
      (hwire : l.wire = x :: wire) (hp : Arrives x.packet p) (hrun : p.running = true)
      (hid : p.id ≠ 0) (hret : totLen x.packet ≤ p.ret)
      (hs : getsession l.far.fetcher.sessions (sockets p.originalpacket) = some s)
      (hworker : s.queue = w') (hstep : step dB l.far (.fetch p) = some far) :
      LineStep dA dB w w' l { l with far := far, wire := wire, waiting := l.waiting ++ [x] }
  | deliver {x : Sent} {waiting : List Sent} {m : Mem} {rest : List Mem} {sw : Switches}
      {t : Deoptimizer} {o : Deoptimized} {far : Box}
      (hwaiting : l.waiting = x :: waiting) (hqueue : l.far.deoptimization w' = m :: rest)
      (ht : l.far.deoptimizers w' = some t)
      (hdedup : sw.deduplication = x.switches.deduplication)
      (hcomp : x.switches.compression = true → sw.compression = true)
      (hdest : ∃ s, getsession l.far.fetcher.sessions (sockets m) = some s ∧
        destinationAccelerator (sockets m) (saddr m) s = dB.localID)
      (ho : deoptimizationStep dB t (l.far.arrival m sw) = some o)
      (hstep : step dB l.far (.deoptimize w' sw) = some far) :
      LineStep dA dB w w' l
        { l with far := far, waiting := waiting, given := l.given ++ [outcome o] }

/-! ### What a step does to the threads -/

section Boxes

variable {d : Daemon} {b b' : Box} {worker : UInt8}

/-- The other steps leave an optimization thread alone. -/
theorem step_optimizer {e : Event} (he : ∀ sw, e ≠ .optimize worker sw)
    (h : step d b e = some b') : b'.optimizers worker = b.optimizers worker := by
  cases step_turn h with
  | @fetch p o ho =>
    cases o.queued with
    | none => rfl
    | some q => cases q <;> rfl
  | @optimize other sw => exact Function.update_of_ne (fun heq => he sw (by rw [heq])) _ _
  | deoptimize => rfl
  | cleanup => rfl

theorem step_optimized {m : Mem} {rest : List Mem} {sw : Switches} {o : Optimized}
    (hqueue : b.optimization worker = m :: rest)
    (ho : optimizationStep d (b.optimizers worker) (b.arrival m sw) = some o)
    (h : step d b (.optimize worker sw) = some b') : b'.optimizers worker = o.thread := by
  cases step_turn h with
  | optimize _ hqueue' ho' =>
    cases hqueue.symm.trans hqueue'
    cases ho.symm.trans ho'
    exact Function.update_self ..

/-- Steps aside leave the deoptimization thread and its queue alone. -/
theorem step_aside {e : Event} (he : Aside d worker b e) (h : step d b e = some b') :
    b'.deoptimizers worker = b.deoptimizers worker ∧
      b'.deoptimization worker = b.deoptimization worker := by
  cases step_turn h with
  | @fetch p o ho =>
    have hother := he o ho
    cases hq : o.queued with
    | none => exact ⟨rfl, rfl⟩
    | some q =>
      cases q with
      | optimize queue m => exact ⟨rfl, rfl⟩
      | deoptimize queue m =>
        refine ⟨rfl, Function.update_of_ne ?_ _ _⟩
        rintro rfl
        exact hother m hq
  | optimize => exact ⟨rfl, rfl⟩
  | deoptimize =>
    exact ⟨Function.update_of_ne (Ne.symm he) _ _, Function.update_of_ne (Ne.symm he) _ _⟩
  | cleanup => exact ⟨rfl, rfl⟩

theorem step_deoptimized {m : Mem} {rest : List Mem} {sw : Switches} {t : Deoptimizer}
    {o : Deoptimized} (hqueue : b.deoptimization worker = m :: rest)
    (ht : b.deoptimizers worker = some t)
    (ho : deoptimizationStep d t (b.arrival m sw) = some o)
    (h : step d b (.deoptimize worker sw) = some b') :
    b'.deoptimizers worker = (if o.ends then none else some o.thread) ∧
      b'.deoptimization worker = rest := by
  cases step_turn h with
  | deoptimize _ ht' hqueue' ho' =>
    cases hqueue.symm.trans hqueue'
    cases ht.symm.trans ht'
    cases ho.symm.trans ho'
    exact ⟨Function.update_self .., Function.update_self ..⟩

/-- A segment that leaves without a header has not been stored. -/
theorem optimizationStep_plain {t : Optimizer} {a : Arrival} {o : Optimized}
    (h : optimizationStep d t a = some o) (hplain : o.addedOpennopHeader = false) :
    o.thread.dedup.dedupProcessor = t.dedup.dedupProcessor := by
  unfold optimizationStep at h
  dsimp only at h
  split at h
  · split at h
    · cases h
    · split at h
      · cases h
      · split at h
        · split at h
          · split at h
            · cases h
            · split at h
              · cases h
                rfl
              · rw [tagPacket] at h
                dsimp only at h
                rw [Option.map_eq_some_iff] at h
                obtain ⟨e, -, rfl⟩ := h
                cases hplain
          · cases h
            rfl
        · cases h
          rfl
  · cases h
    rfl

/-- The thread goes on after a packet that it lets through. -/
theorem deoptimizationStep_goes_on {t : Deoptimizer} {a : Arrival} {o : Deoptimized}
    {data : Option (List UInt8)} (h : deoptimizationStep d t a = some o)
    (hverdict : o.verdict = .NF_ACCEPT data) : o.ends = false := by
  unfold deoptimizationStep at h
  dsimp only at h
  split at h
  · cases h
  · split at h
    · split at h
      · cases h
      · rw [deoptimizeStripped] at h
        dsimp only at h
        split at h
        · rw [Option.map_eq_some_iff] at h
          obtain ⟨r, -, rfl⟩ := h
          rfl
        · cases h
          rfl
    · cases h
      cases hverdict

end Boxes

/-! ### The invariant -/

/-- The two dictionaries represent one log, and there is nothing in it but what is allowed. -/
def Together (d : Daemon) (allowed : List UInt8 → Prop) (pd pd' : Deduplicator) : Prop :=
  ∃ log, (∀ p ∈ log, allowed p) ∧ Codec.Lockstep d.cfg d.H log pd pd'

/-- The optimization thread sends the segment, and its dictionary becomes `pd'`. -/
def Sends (d : Daemon) (pd : Deduplicator) (x : Sent) (pd' : Deduplicator) : Prop :=
  ∃ t a o, t.dedup.dedupProcessor = pd ∧ a.switches = x.switches ∧ Sendable d a x.content ∧
    optimizationStep d t a = some o ∧ o.packet = x.packet ∧ o.thread.dedup.dedupProcessor = pd'

/-- Data with the header of an accelerator in front. -/
structure Addressed (m : Mem) : Prop where
  header : ∃ n f sq rest oh data,
    Segment m n f sq (shortOption OPENNOP_OPTION 1 ++ rest) (OpennopHeader.bytes oh ++ data) ∧
      f.protocol = IPPROTO_TCP ∧ oh.pattern = OPENNOP_PATTERN ∧ oh.opennopID ≠ 0
  isData : isData m = true

/-- The packet lies in the buffer. -/
def Copied (x : Sent) (m : Mem) : Prop := slice m 0 (totLen x.packet) = wholePacket x.packet

/-- What holds of the boxes and the line between them. -/
structure LineInv (d : Daemon) (w w' : UInt8) (allowed : List UInt8 → Prop) (l : Line) : Prop where
  lag : ∃ t, l.far.deoptimizers w' = some t ∧
    Lag (Sends d) (Together d allowed) (l.near.optimizers w).dedup.dedupProcessor
      (l.waiting ++ l.wire) t.dedup.dedupProcessor
  own : Together d allowed (l.near.optimizers w).dedup.dedupProcessor
    (l.near.optimizers w).dedup.dedupProcessor
  queue : List.Forall₂ Copied l.waiting (l.far.deoptimization w')
  addressed : ∀ x ∈ l.waiting ++ l.wire, Addressed x.packet
  order : ∃ done, l.sent = done ++ (l.waiting ++ l.wire).map Sent.content ∧
    List.Forall₂ Delivered done l.given

section Invariant

variable {dA dB : Daemon} {w w' : UInt8} {allowed : List UInt8 → Prop} {l l' : Line}

/-- With dictionaries of their own, the threads are in step when these are. -/
theorem inStep_thread {d : Daemon} {log : Log} (hmode : d.cfg.shared_dictionary_mode = false)
    (xA xB : Dedup) : (linkOf xA xB).InStep d.cfg d.H log ↔
      Codec.Lockstep d.cfg d.H log xA.dedupProcessor xB.dedupProcessor := by
  unfold Codec.Link.InStep Codec.Link.dictionaries
  rw [if_neg (by rw [hmode]; exact Bool.false_ne_true)]
  rfl

/-- The arrays of the shared mode do not bound the packets of the thread mode. -/
theorem limit_thread {cfg : Config} (hmode : cfg.shared_dictionary_mode = false)
    (hshared : cfg.shared_dictionary_mode = true) : cfg.MAXPKTSIZE ≤ PKTSIZELIMIT := by
  rw [hmode] at hshared
  cases hshared

/-- **A segment that is sent** has its header, and the dictionary has taken in its data. -/
theorem sendable_sent {d : Daemon} {t : Optimizer} {a : Arrival} {o : Optimized} {s : Content}
    (hmode : d.cfg.shared_dictionary_mode = false) (hcfg : d.cfg.Valid)
    (hqlz : d.qlz.Lawful d.cfg.MAXPKTSIZE)
    (hown : Together d allowed t.dedup.dedupProcessor t.dedup.dedupProcessor)
    (hs : Sendable d a s) (hallowed : allowed s.data) (ho : optimizationStep d t a = some o) :
    Addressed o.packet ∧
      Together d allowed o.thread.dedup.dedupProcessor o.thread.dedup.dedupProcessor := by
  obtain ⟨log, hlog, hlock⟩ := hown
  have hin := (inStep_thread hmode { t.dedup with shared := a.shared }
    { t.dedup with shared := a.shared }).mpr hlock
  obtain ⟨o', oh, pad', middle, wire, dd, c, hstep, -, hseg, -, hoh, htr⟩ :=
    hs.sent hcfg (limit_thread hmode) hqlz hin
  rw [ho] at hstep
  cases hstep
  refine ⟨⟨⟨_, _, _, _, oh, _, hseg, hs.tcp, hoh.pattern, ?_⟩, ?_⟩, ?_⟩
  · rw [hoh.opennopID]
    exact d.identified
  · exact (segment_isData hs.taggable.segment hseg).trans hs.isData
  · cases hsw : a.switches.deduplication with
    | false =>
      rw [(htr.off hsw).2.2]
      exact ⟨log, hlog, hlock⟩
    | true =>
      -- A receiver that keeps pace.
      have hrem : ∃ x', Remembers d { t.dedup with shared := a.shared } x' s.data := by
        by_cases hnil : s.data = []
        · exact ⟨_, fun _ => rfl, fun hne => absurd hnil hne⟩
        · exact ⟨⟨(Codec.updateCaches d.cfg d.H t.dedup.dedupProcessor a.shared s.data).1,
            (Codec.updateCaches d.cfg d.H t.dedup.dedupProcessor a.shared s.data).2,
            t.dedup.dedup_buffer⟩, fun heq => absurd heq hnil, fun _ => ⟨rfl, rfl, rfl⟩⟩
      obtain ⟨x', hx'⟩ := hrem
      obtain ⟨log', hin', hlog'⟩ := inStep_logAfter hcfg hin hs.size (htr.on hsw) hx'
      have hlock' := (inStep_thread hmode _ _).mp hin'
      refine ⟨log', fun p hp => ?_, hlock'.comp, hlock'.comp, fun _ _ => .refl _⟩
      rcases hlog' p hp with hold | rfl
      · exact hlog p hold
      · exact hallowed

/-- **A segment that arrives** is queued for the deoptimization thread of its session. -/
theorem addressed_queued {d : Daemon} {f : FetcherState} {m : Mem} {p : Delivery} {s : Session}
    (h : Addressed m) (hp : Arrives m p) (hrun : p.running = true) (hid : p.id ≠ 0)
    (hs : getsession f.sessions (sockets p.originalpacket) = some s) :
    ∃ o, fetcherCallback d f p = some o ∧
      o.queued = some (.deoptimize s.queue (savePacket p.originalpacket p.ret)) ∧
      o.state.sessions = f.sessions.update (sockets p.originalpacket) fun s =>
        { s with lastactive := p.now, deadcounter := 0 } := by
  obtain ⟨n, g, sq, rest, oh, data, hseg, htcp, hpattern, hne⟩ := h.header
  have hseg' := hseg.of_slice hp
  obtain ⟨hget, hann, hread⟩ := announced_segment hseg' (by decide) hpattern
  have hdata : isData p.originalpacket = true := (segment_isData hseg hseg').trans h.isData
  have hsyn : syn p.originalpacket = false := by
    rw [isData, Bool.and_eq_true, Bool.and_eq_true] at hdata
    simpa using hdata.1.1
  have hstep := fetcherCallback_segment (f := f) d hrun ((segment_protocol hseg').trans htcp) hid hget
    (Or.inr hann) hsyn
  rw [hs] at hstep
  refine ⟨_, hstep, ?_⟩
  have hremote : remoteId p.originalpacket (UInt8.toUInt64 1) ≠ 0 := by
    rw [remoteId, if_pos (by decide), hread]
    exact hne
  dsimp only
  rw [knownSegment]
  dsimp only
  rw [if_neg (by decide), if_neg hremote]
  exact ⟨rfl, rfl⟩

theorem copied_savePacket {x : Sent} {p : Delivery} (hp : Arrives x.packet p)
    (hret : totLen x.packet ≤ p.ret) : Copied x (savePacket p.originalpacket p.ret) := by
  refine (slice_congr fun i hi => ?_).trans hp
  exact savePacket_apply (by omega)

/-- **A segment that is delivered** has been restored, and the dictionaries are in step where the
sender was when it sent it. -/
theorem sends_restored {x : Sent} {pd pd' : Deduplicator} {t : Deoptimizer} {a : Arrival}
    (hpeers : Peers dA dB) (hmode : dA.cfg.shared_dictionary_mode = false) (hcfg : dA.cfg.Valid)
    (hqlz : dA.qlz.Lawful dA.cfg.MAXPKTSIZE)
    (hinj : ∀ p, allowed p → ∀ q, allowed q → dA.H p = dA.H q → p = q)
    (hx : allowed x.content.data) (hrel : Together dA allowed pd t.dedup.dedupProcessor)
    (hsends : Sends dA pd x pd') (hcopy : Copied x a.packet)
    (hdedup : a.switches.deduplication = x.switches.deduplication)
    (hcomp : x.switches.compression = true → a.switches.compression = true)
    (hdest : ∃ s, getsession a.sessions (sockets a.packet) = some s ∧
      destinationAccelerator (sockets a.packet) (saddr a.packet) s = dB.localID) :
    ∃ o, deoptimizationStep dB t a = some o ∧ o.ends = false ∧ Delivered x.content (outcome o) ∧
      Together dA allowed pd' o.thread.dedup.dedupProcessor := by
  obtain ⟨tA, aA, oA, rfl, hsw, hs, hsent, hpacket, rfl⟩ := hsends
  obtain ⟨log, hlog, hlock⟩ := hrel
  have hin := (inStep_thread hmode { tA.dedup with shared := aA.shared }
    { t.dedup with shared := a.shared }).mpr hlock
  rw [Copied, ← hpacket] at hcopy
  rw [← hsw] at hdedup hcomp
  obtain ⟨o, log', hstep, hverdict, hdel, hin', hlog'⟩ :=
    hs.restored a hpeers hcfg (limit_thread hmode) hqlz hsent hin
    (fun p hp q hq => hinj p (hlog p hp) q (hlog q hq)) hcopy hdedup hcomp hdest
  refine ⟨o, hstep, deoptimizationStep_goes_on hstep hverdict, ?_, log', fun p hp => ?_,
    (inStep_thread hmode _ _).mp hin'⟩
  · rw [outcome, hverdict]
    exact hdel
  · rcases hlog' p hp with hold | rfl
    · exact hlog p hold
    · exact hx

/-- What has been sent stays sent. -/
theorem LineStep.sent_prefix (h : LineStep dA dB w w' l l') : l.sent <+: l'.sent := by
  cases h with
  | send => exact List.prefix_append ..
  | near => exact List.prefix_rfl
  | pass => exact List.prefix_rfl
  | far => exact List.prefix_rfl
  | arrive => exact List.prefix_rfl
  | deliver => exact List.prefix_rfl

/-- A segment is sent. -/
theorem LineInv.send (hinv : LineInv dA w w' allowed l) (hmode : dA.cfg.shared_dictionary_mode = false)
    (hcfg : dA.cfg.Valid) (hqlz : dA.qlz.Lawful dA.cfg.MAXPKTSIZE) {m : Mem} {sw : Switches}
    {s : Content} {o : Optimized} {near : Box} (hs : Sendable dA (l.near.arrival m sw) s)
    (hallowed : allowed s.data)
    (ho : optimizationStep dA (l.near.optimizers w) (l.near.arrival m sw) = some o)
    (hthread : near.optimizers w = o.thread) :
    LineInv dA w w' allowed
      { l with near := near, sent := l.sent ++ [s], wire := l.wire ++ [⟨s, o.packet, sw⟩] } := by
  obtain ⟨⟨t, ht, hlag⟩, hown, hqueue, haddressed, done, horder, hgiven⟩ := hinv
  obtain ⟨haddr, hown'⟩ := sendable_sent hmode hcfg hqlz hown hs hallowed ho
  refine ⟨⟨t, ht, ?_⟩, ?_, hqueue, fun x hx => ?_, done, ?_, hgiven⟩
  · rw [hthread, ← List.append_assoc]
    exact hlag.send ⟨l.near.optimizers w, l.near.arrival m sw, o, rfl, rfl, hs, ho, rfl, rfl⟩
  · rw [hthread]
    exact hown'
  · rw [← List.append_assoc] at hx
    rcases List.mem_append.mp hx with hold | hnew
    · exact haddressed x hold
    · rw [List.mem_singleton.mp hnew]
      exact haddr
  · simp only [horder, List.map_append, List.map_cons, List.map_nil, List.append_assoc]

/-- The oldest segment on the wire arrives. -/
theorem LineInv.arrive (hinv : LineInv dA w w' allowed l) {p : Delivery} {x : Sent}
    {wire : List Sent} {s : Session} {far : Box} (hwire : l.wire = x :: wire)
    (hp : Arrives x.packet p) (hrun : p.running = true) (hid : p.id ≠ 0)
    (hret : totLen x.packet ≤ p.ret)
    (hs : getsession l.far.fetcher.sessions (sockets p.originalpacket) = some s)
    (hworker : s.queue = w') (hstep : step dB l.far (.fetch p) = some far) :
    LineInv dA w w' allowed { l with far := far, wire := wire, waiting := l.waiting ++ [x] } := by
  obtain ⟨⟨t, ht, hlag⟩, hown, hqueue, haddressed, done, horder, hgiven⟩ := hinv
  have haddr := haddressed x (by rw [hwire]; simp)
  obtain ⟨o, ho, hqueued, -⟩ := addressed_queued (d := dB) haddr hp hrun hid hs
  have hfar : far = { l.far with fetcher := o.state }.enqueue o.queued :=
    Option.some.inj (hstep.symm.trans (Turn.fetch ho).step_eq)
  rw [hqueued, hworker] at hfar
  subst hfar
  have hline : l.waiting ++ l.wire = l.waiting ++ [x] ++ wire := by
    rw [hwire, List.append_assoc, List.singleton_append]
  refine ⟨⟨t, ht, ?_⟩, hown, ?_, fun y hy => ?_, done, ?_, hgiven⟩
  · rw [← hline]
    exact hlag
  · dsimp only [Box.enqueue]
    rw [Function.update_self]
    exact List.rel_append hqueue (.cons (copied_savePacket hp hret) .nil)
  · rw [← hline] at hy
    exact haddressed y hy
  · rw [← hline]
    exact horder

/-- The oldest segment in the queue is delivered. -/
theorem LineInv.deliver (hinv : LineInv dA w w' allowed l) (hpeers : Peers dA dB)
    (hmode : dA.cfg.shared_dictionary_mode = false) (hcfg : dA.cfg.Valid)
    (hqlz : dA.qlz.Lawful dA.cfg.MAXPKTSIZE)
    (hinj : ∀ p, allowed p → ∀ q, allowed q → dA.H p = dA.H q → p = q)
    (hallowed : ∀ s ∈ l.sent, allowed s.data) {x : Sent} {waiting : List Sent} {m : Mem}
    {rest : List Mem} {sw : Switches} {t : Deoptimizer} {o : Deoptimized} {far : Box}
    (hwaiting : l.waiting = x :: waiting) (hhead : l.far.deoptimization w' = m :: rest)
    (ht : l.far.deoptimizers w' = some t) (hdedup : sw.deduplication = x.switches.deduplication)
    (hcomp : x.switches.compression = true → sw.compression = true)
    (hdest : ∃ s, getsession l.far.fetcher.sessions (sockets m) = some s ∧
      destinationAccelerator (sockets m) (saddr m) s = dB.localID)
    (ho : deoptimizationStep dB t (l.far.arrival m sw) = some o)
    (hstep : step dB l.far (.deoptimize w' sw) = some far) :
    LineInv dA w w' allowed
      { l with far := far, waiting := waiting, given := l.given ++ [outcome o] } := by
  obtain ⟨⟨t', ht', hlag⟩, hown, hqueue, haddressed, done, horder, hgiven⟩ := hinv
  rw [ht] at ht'
  cases ht'
  obtain ⟨hthread, hrest⟩ := step_deoptimized hhead ht ho hstep
  rw [hwaiting, hhead] at hqueue
  obtain ⟨hcopy, hqueue'⟩ := List.forall₂_cons.mp hqueue
  rw [hwaiting, List.cons_append] at hlag
  have hsent : x.content ∈ l.sent := by
    rw [horder, hwaiting]
    simp
  obtain ⟨pd, ⟨hpd, hends, hdel⟩, hlag'⟩ := hlag.receive
    (fun pd => pd = o.thread.dedup.dedupProcessor ∧ o.ends = false ∧
      Delivered x.content (outcome o))
    fun s₀ s₁ hrel hx => by
      obtain ⟨o', ho', hends, hdel, hrel'⟩ := sends_restored (t := t) (a := l.far.arrival m sw)
        hpeers hmode hcfg hqlz hinj (hallowed _ hsent) hrel hx hcopy hdedup hcomp hdest
      rw [ho] at ho'
      cases ho'
      exact ⟨_, ⟨rfl, hends, hdel⟩, hrel'⟩
  subst hpd
  rw [hwaiting] at haddressed
  refine ⟨⟨o.thread, ?_, hlag'⟩, hown, ?_, fun y hy => haddressed y (List.mem_cons_of_mem x hy),
    done ++ [x.content], ?_, ?_⟩
  · dsimp only
    rw [hthread, if_neg (by rw [hends]; exact Bool.false_ne_true)]
  · dsimp only
    rw [hrest]
    exact hqueue'
  · dsimp only
    rw [horder, hwaiting, List.append_assoc]
    rfl
  · exact List.rel_append hgiven (.cons hdel .nil)

/-- The first box does something else. -/
theorem LineInv.near (hinv : LineInv dA w w' allowed l) {near : Box}
    (hsame : (near.optimizers w).dedup.dedupProcessor =
      (l.near.optimizers w).dedup.dedupProcessor) :
    LineInv dA w w' allowed { l with near := near } := by
  obtain ⟨⟨t, ht, hlag⟩, hown, hqueue, haddressed, horder⟩ := hinv
  refine ⟨⟨t, ht, ?_⟩, ?_, hqueue, haddressed, horder⟩
  · rw [hsame]
    exact hlag
  · rw [hsame]
    exact hown

/-- **A step of either box** keeps the invariant. -/
theorem LineStep.keeps (h : LineStep dA dB w w' l l') (hpeers : Peers dA dB)
    (hmode : dA.cfg.shared_dictionary_mode = false) (hcfg : dA.cfg.Valid)
    (hqlz : dA.qlz.Lawful dA.cfg.MAXPKTSIZE)
    (hinj : ∀ p, allowed p → ∀ q, allowed q → dA.H p = dA.H q → p = q)
    (hallowed : ∀ s ∈ l'.sent, allowed s.data) (hinv : LineInv dA w w' allowed l) :
    LineInv dA w w' allowed l' := by
  cases h with
  | near he hstep => exact hinv.near (by rw [step_optimizer he hstep])
  | pass hhead ho hplain hstep =>
    refine hinv.near ?_
    rw [step_optimized hhead ho hstep]
    exact optimizationStep_plain ho hplain
  | @send m rest sw s o near hhead hs ho hstep =>
    have hsent : allowed s.data := hallowed s (List.mem_append_right _ List.mem_cons_self)
    exact hinv.send hmode hcfg hqlz hs hsent ho (step_optimized hhead ho hstep)
  | far he hstep =>
    obtain ⟨⟨t, ht, hlag⟩, hown, hqueue, haddressed, horder⟩ := hinv
    obtain ⟨hthread, hwaits⟩ := step_aside he hstep
    refine ⟨⟨t, hthread.trans ht, hlag⟩, hown, ?_, haddressed, horder⟩
    rw [hwaits]
    exact hqueue
  | arrive hwire hp hrun hid hret hs hworker hstep =>
    exact hinv.arrive hwire hp hrun hid hret hs hworker hstep
  | deliver hwaiting hhead ht hdedup hcomp hdest ho hstep =>
    exact hinv.deliver hpeers hmode hcfg hqlz hinj hallowed hwaiting hhead ht hdedup hcomp hdest ho
      hstep

end Invariant

/-! ### Whole runs -/

/-- Nothing has been sent yet. -/
structure Line.Idle (l : Line) (w' : UInt8) : Prop where
  sent : l.sent = []
  wire : l.wire = []
  waiting : l.waiting = []
  given : l.given = []
  queue : l.far.deoptimization w' = []

section Runs

variable {dA dB : Daemon} {w w' : UInt8} {l₀ l : Line} {t₀ : Deoptimizer} {log : Log}

theorem line_start {allowed : List UInt8 → Prop} (hidle : l₀.Idle w')
    (ht : l₀.far.deoptimizers w' = some t₀) (hlog : ∀ p ∈ log, allowed p)
    (hlock : Codec.Lockstep dA.cfg dA.H log (l₀.near.optimizers w).dedup.dedupProcessor
      t₀.dedup.dedupProcessor) : LineInv dA w w' allowed l₀ := by
  obtain ⟨hsent, hwire, hwaiting, hgiven, hqueue⟩ := hidle
  refine ⟨⟨t₀, ht, ?_⟩, ⟨log, hlog, hlock.comp, hlock.comp, fun _ _ => .refl _⟩, ?_, ?_, [], ?_, ?_⟩
  · rw [hwaiting, hwire]
    exact .start ⟨log, hlog, hlock⟩
  · rw [hwaiting, hqueue]
    exact .nil
  · rw [hwaiting, hwire]
    exact fun x hx => absurd hx List.not_mem_nil
  · rw [hsent, hwaiting, hwire]
    rfl
  · rw [hgiven]
    exact .nil

/-- What holds after every run. -/
theorem line_run {allowed : List UInt8 → Prop} (hpeers : Peers dA dB)
    (hmode : dA.cfg.shared_dictionary_mode = false) (hcfg : dA.cfg.Valid)
    (hqlz : dA.qlz.Lawful dA.cfg.MAXPKTSIZE)
    (hinj : ∀ p, allowed p → ∀ q, allowed q → dA.H p = dA.H q → p = q)
    (hstart : LineInv dA w w' allowed l₀) (hrun : ReflTransGen (LineStep dA dB w w') l₀ l)
    (hallowed : ∀ s ∈ l.sent, allowed s.data) : LineInv dA w w' allowed l := by
  induction hrun with
  | refl => exact hstart
  | tail _ hstep ih =>
    refine hstep.keeps hpeers hmode hcfg hqlz hinj hallowed (ih fun s hs => ?_)
    exact hallowed s (hstep.sent_prefix.subset hs)

/-- The packets of a run: what the dictionaries had, and what has been sent. -/
def Passed (log : Log) (l : Line) (p : List UInt8) : Prop := p ∈ log ++ l.sent.map Content.data

theorem line_passed (hpeers : Peers dA dB) (hmode : dA.cfg.shared_dictionary_mode = false)
    (hcfg : dA.cfg.Valid) (hqlz : dA.qlz.Lawful dA.cfg.MAXPKTSIZE) (hidle : l₀.Idle w')
    (ht : l₀.far.deoptimizers w' = some t₀)
    (hlog : (l₀.near.optimizers w).dedup.dedupProcessor.Represents dA.cfg dA.H log)
    (hsame : Codec.SameContent dA.cfg (l₀.near.optimizers w).dedup.dedupProcessor
      t₀.dedup.dedupProcessor)
    (hrun : ReflTransGen (LineStep dA dB w w') l₀ l)
    (hinj : ∀ p, Passed log l p → ∀ q, Passed log l q → dA.H p = dA.H q → p = q) :
    LineInv dA w w' (Passed log l) l :=
  line_run hpeers hmode hcfg hqlz hinj
    (line_start hidle ht (fun _ hp => List.mem_append_left _ hp) (.of_sameContent hlog hsame)) hrun
    fun _ hs => List.mem_append_right _ (List.mem_map_of_mem hs)

end Runs

/-- **The line is transparent.** Two boxes with the real QuickLZ and with dictionaries of their own
for each worker begin with the same content in the dictionaries of two workers. Then, in whatever
order the boxes work: what the worker of the first has sent leaves the second in the order in which
it was taken, each segment as it was, up to those that are still on their way. When none is, the
dictionaries have the same content again. -/
theorem line_transparent {dA dB : Daemon} (hpeers : Peers dA dB)
    (hmode : dA.cfg.shared_dictionary_mode = false) (hcfg : dA.cfg.Valid) {fuel : Nat}
    (hqlz : dA.qlz = quickLz fuel dA.cfg.MAXPKTSIZE) (hfuel : dA.cfg.MAXPKTSIZE < fuel)
    {w w' : UInt8} {l₀ l : Line} (hidle : l₀.Idle w') {t₀ : Deoptimizer}
    (ht : l₀.far.deoptimizers w' = some t₀) {log : Log}
    (hlog : (l₀.near.optimizers w).dedup.dedupProcessor.Represents dA.cfg dA.H log)
    (hsame : Codec.SameContent dA.cfg (l₀.near.optimizers w).dedup.dedupProcessor
      t₀.dedup.dedupProcessor)
    (hrun : ReflTransGen (LineStep dA dB w w') l₀ l)
    (hinj : ∀ p, Passed log l p → ∀ q, Passed log l q → dA.H p = dA.H q → p = q) :
    (∃ done, l.sent = done ++ (l.waiting ++ l.wire).map Sent.content ∧
      List.Forall₂ Delivered done l.given) ∧
    (l.waiting = [] → l.wire = [] → ∃ t, l.far.deoptimizers w' = some t ∧
      Codec.SameContent dA.cfg (l.near.optimizers w).dedup.dedupProcessor
        t.dedup.dedupProcessor) := by
  have hmax := hcfg.size_le
  have hlaw := quickLz_lawful hfuel (by omega)
  rw [← hqlz] at hlaw
  have hinv := line_passed hpeers hmode hcfg hlaw hidle ht hlog hsame hrun hinj
  refine ⟨hinv.order, fun hwaiting hwire => ?_⟩
  obtain ⟨t, hthread, hlag⟩ := hinv.lag
  rw [hwaiting, hwire] at hlag
  obtain ⟨log', -, hlock⟩ := hlag.caughtUp
  exact ⟨t, hthread, hlock.sameContent⟩

/-! ### One segment -/

section Trip

variable {dA dB : Daemon} {w w' : UInt8} {allowed : List UInt8 → Prop} {l : Line}

theorem exists_send (hmode : dA.cfg.shared_dictionary_mode = false) (hcfg : dA.cfg.Valid)
    (hqlz : dA.qlz.Lawful dA.cfg.MAXPKTSIZE) (hinv : LineInv dA w w' allowed l)
    (hw : w < l.near.fetcher.sessions.numworkers) {m : Mem} {rest : List Mem} {sw : Switches}
    {s : Content} (hqueue : l.near.optimization w = m :: rest)
    (hs : Sendable dA (l.near.arrival m sw) s) :
    ∃ near x, LineStep dA dB w w' l
        { l with near := near, sent := l.sent ++ [s], wire := l.wire ++ [x] } ∧
      x.content = s ∧ x.switches = sw ∧ sockets x.packet = sockets m ∧ saddr x.packet = saddr m := by
  obtain ⟨log, -, hlock⟩ := hinv.own
  have hin := (inStep_thread hmode { (l.near.optimizers w).dedup with shared := l.near.shared }
    (l.near.optimizers w).dedup).mpr hlock
  obtain ⟨o, oh, pad', middle, wire, dd, c, ho, -, hseg, -⟩ :=
    hs.sent hcfg (limit_thread hmode) hqlz hin
  have hstep := (Turn.optimize hw hqueue ho).step_eq
  refine ⟨_, _, .send hqueue hs ho hstep, rfl, rfl, ?_, ?_⟩
  · exact segment_sockets hs.taggable.segment hseg
  · exact (segment_saddr hseg).trans (segment_saddr hs.taggable.segment).symm

theorem exists_arrive (hinv : LineInv dA w w' allowed l) {x : Sent} {wire : List Sent}
    (hwire : l.wire = x :: wire) {s : Session}
    (hs : getsession l.far.fetcher.sessions (sockets x.packet) = some s) (hworker : s.queue = w') :
    ∃ far, LineStep dA dB w w' l
        { l with far := far, wire := wire, waiting := l.waiting ++ [x] } ∧
      far.fetcher.sessions.numworkers = l.far.fetcher.sessions.numworkers ∧
      ∃ s', getsession far.fetcher.sessions (sockets x.packet) = some s' ∧
        ∀ y, destinationAccelerator (sockets x.packet) y s' =
          destinationAccelerator (sockets x.packet) y s := by
  have haddr := hinv.addressed x (by rw [hwire]; simp)
  obtain ⟨p, hp⟩ : ∃ p : Delivery, p = ⟨1, x.packet, totLen x.packet, 0, true⟩ := ⟨_, rfl⟩
  have hcome : p.originalpacket = x.packet ∧ Arrives x.packet p ∧ p.running = true ∧ p.id ≠ 0 ∧
      totLen x.packet ≤ p.ret := by
    rw [hp]
    exact ⟨rfl, rfl, rfl, show (1 : UInt32) ≠ 0 by decide, Nat.le_refl _⟩
  obtain ⟨hpacket, harrives, hrun, hid, hret⟩ := hcome
  rw [← hpacket] at hs
  obtain ⟨o, ho, hqueued, hsessions⟩ := addressed_queued (d := dB) haddr harrives hrun hid hs
  have hstep := (Turn.fetch (b := l.far) ho).step_eq
  have hfar : ({ l.far with fetcher := o.state }.enqueue o.queued).fetcher.sessions =
      l.far.fetcher.sessions.update (sockets p.originalpacket) fun s =>
        { s with lastactive := p.now, deadcounter := 0 } := by
    rw [hqueued]
    exact hsessions
  refine ⟨_, .arrive hwire harrives hrun hid hret hs hworker hstep, ?_, ?_⟩
  · rw [hfar]
    rfl
  · have hquiet : ∀ s : Session,
        ({ s with lastactive := p.now, deadcounter := 0 } : Session).toSockets = s.toSockets :=
      fun _ => rfl
    rw [hfar, ← hpacket, getsession_update _ _ hquiet, hs]
    exact ⟨_, rfl, fun _ => rfl⟩

theorem exists_deliver (hpeers : Peers dA dB) (hmode : dA.cfg.shared_dictionary_mode = false)
    (hcfg : dA.cfg.Valid) (hqlz : dA.qlz.Lawful dA.cfg.MAXPKTSIZE)
    (hinj : ∀ p, allowed p → ∀ q, allowed q → dA.H p = dA.H q → p = q)
    (hinv : LineInv dA w w' allowed l) (hallowed : ∀ s ∈ l.sent, allowed s.data)
    (hw' : w' < l.far.fetcher.sessions.numworkers) {x : Sent} {waiting : List Sent}
    (hwaiting : l.waiting = x :: waiting) {s : Session}
    (hs : getsession l.far.fetcher.sessions (sockets x.packet) = some s)
    (hdest : destinationAccelerator (sockets x.packet) (saddr x.packet) s = dB.localID) :
    ∃ far given, LineStep dA dB w w' l
        { l with far := far, waiting := waiting, given := l.given ++ [given] } ∧
      Delivered x.content given := by
  obtain ⟨t, ht, s₀, hrel, htrail⟩ := hinv.lag
  have hqueue := hinv.queue
  rw [hwaiting] at htrail hqueue
  obtain ⟨s₁, hx, -⟩ := htrail
  obtain ⟨m, rest, hcopy, -, hrest⟩ := List.forall₂_cons_left_iff.mp hqueue
  obtain ⟨n, g, sq, area, oh, data, hseg, -⟩ :=
    (hinv.addressed x (by rw [hwaiting]; simp)).header
  have hsegm := hseg.of_slice hcopy
  have hdest' : ∃ s, getsession l.far.fetcher.sessions (sockets m) = some s ∧
      destinationAccelerator (sockets m) (saddr m) s = dB.localID := by
    rw [segment_sockets hseg hsegm, (segment_saddr hsegm).trans (segment_saddr hseg).symm]
    exact ⟨s, hs, hdest⟩
  obtain ⟨done, horder, -⟩ := hinv.order
  have hsent : x.content ∈ l.sent := by
    rw [horder, hwaiting]
    simp
  obtain ⟨o, ho, hends, hdel, -⟩ := sends_restored hpeers hmode hcfg hqlz hinj (hallowed _ hsent)
    hrel hx (a := l.far.arrival m x.switches) hcopy rfl id hdest'
  have hstep := (Turn.deoptimize hw' ht hrest ho).step_eq
  exact ⟨_, outcome o, .deliver hwaiting hrest ht rfl id hdest' ho hstep, hdel⟩

end Trip

/-- A box with QuickLZ whose dictionaries are warm, in the session of `segmentOut`. -/
def warmBox (queued : List Mem) : Box where
  fetcher := ⟨tableOf [established segmentOut 88 0], 0, 0⟩
  optimizers := fun _ => .start warmDedup 0 0 0 noCounts
  deoptimizers := fun _ => some (.start warmDedup noCounts)
  optimization := fun _ => queued
  deoptimization := fun _ => []
  shared := warmDedup.shared

/-- Two such boxes; the segment waits in the first. -/
def warmLine : Line := ⟨warmBox [segmentOut], warmBox [], [], [], [], []⟩

theorem warmLine_idle : warmLine.Idle 0 := ⟨rfl, rfl, rfl, rfl, rfl⟩

theorem nearBox_identified : (77 : UInt32) ≠ 0 := by decide

theorem farBox_identified : (88 : UInt32) ≠ 0 := by decide

def nearBox : Daemon := quickLzBox 77 nearBox_identified

def farBox : Daemon := quickLzBox 88 farBox_identified

theorem warmLine_peers : Peers nearBox farBox := ⟨rfl, rfl, rfl⟩

/-- Sixty-four times the same byte. -/
def Sevens (p : List UInt8) : Prop := p = List.replicate 64 7

theorem warmLine_start : LineInv nearBox 0 0 Sevens warmLine :=
  line_start warmLine_idle rfl (fun _ hp => List.mem_singleton.mp hp) warmDedup_lockstep

theorem sevens_injective (p : List UInt8) (hp : Sevens p) (q : List UInt8) (hq : Sevens q)
    (_ : nearBox.H p = nearBox.H q) : p = q := hp.trans hq.symm

theorem nearBox_lawful : nearBox.qlz.Lawful nearBox.cfg.MAXPKTSIZE :=
  quickLz_lawful (by decide) (by decide)

/-- The segment is sent and arrives. -/
theorem warmLine_arrives (sw : Switches) (hon : sw.compression = true ∨ sw.deduplication = true ∨
    sw.packetPipeline = true) :
    ∃ near far x s, ReflTransGen (LineStep nearBox farBox 0 0) warmLine
        ⟨near, far, [contentOut], [], [x], []⟩ ∧
      x.content = contentOut ∧ x.switches = sw ∧ (0 : UInt8) < far.fetcher.sessions.numworkers ∧
      getsession far.fetcher.sessions (sockets x.packet) = some s ∧
      destinationAccelerator (sockets x.packet) (saddr x.packet) s = farBox.localID := by
  have hs : getsession (tableOf [established segmentOut 88 0]) (sockets segmentOut) =
      some (established segmentOut 88 0) := by decide
  have hdest : destinationAccelerator (sockets segmentOut) (saddr segmentOut)
      (established segmentOut 88 0) = 88 := by decide
  have hvalid : nearBox.cfg.Valid := Codec.smallBox_valid false
  have hsendable : Sendable nearBox (warmLine.near.arrival segmentOut sw) contentOut :=
    (passageOut_accelerable hon).sendable warmDedup.shared
  -- It is sent.
  obtain ⟨near, x, hstep₁, hcontent, hsw, hsockets, haddr⟩ := exists_send rfl hvalid nearBox_lawful
    warmLine_start (show (0 : UInt8) < 1 by decide) (show _ = segmentOut :: [] from rfl) hsendable
  have hinv₁ := hstep₁.keeps warmLine_peers rfl hvalid nearBox_lawful sevens_injective
    (fun s hs => by rw [List.mem_singleton.mp hs]; rfl) warmLine_start
  -- It arrives.
  rw [← hsockets] at hs hdest
  rw [← haddr] at hdest
  obtain ⟨far, hstep₂, hnum, s, hfound, hsame⟩ := exists_arrive hinv₁ rfl hs rfl
  exact ⟨near, far, x, s, (ReflTransGen.single hstep₁).tail hstep₂, hcontent, hsw,
    by rw [hnum]; exact (show (0 : UInt8) < 1 by decide), hfound, (hsame _).trans hdest⟩

/-- The segment is delivered, and the dictionaries have the same content. -/
theorem line_transparent_segment :
    ∃ l given t, ReflTransGen (LineStep nearBox farBox 0 0) warmLine l ∧ l.given = [given] ∧
      List.Forall₂ Delivered l.sent l.given ∧ l.far.deoptimizers 0 = some t ∧
      Codec.SameContent nearBox.cfg (l.near.optimizers 0).dedup.dedupProcessor
        t.dedup.dedupProcessor := by
  obtain ⟨near, far, x, s, hrun, hcontent, -, hnum, hs, hdest⟩ :=
    warmLine_arrives ⟨true, true, false⟩ (Or.inl rfl)
  have hvalid : nearBox.cfg.Valid := Codec.smallBox_valid false
  have hallowed : ∀ s ∈ [contentOut], Sevens s.data := fun s hs => by
    rw [List.mem_singleton.mp hs]
    rfl
  have hinv := line_run warmLine_peers rfl hvalid nearBox_lawful sevens_injective warmLine_start hrun
    hallowed
  obtain ⟨far', given, hstep, -⟩ := exists_deliver warmLine_peers rfl hvalid nearBox_lawful
    sevens_injective hinv hallowed hnum rfl hs hdest
  have hpassed : ∀ p, Passed [List.replicate 64 7] ⟨near, far', [contentOut], [], [], [given]⟩ p →
      Sevens p := by
    intro p hp
    simpa [Passed, contentOut, Sevens] using hp
  obtain ⟨⟨done, hsent, hall⟩, hquiet⟩ := line_transparent warmLine_peers rfl hvalid rfl
    (by decide) warmLine_idle (show warmLine.far.deoptimizers 0 = some _ from rfl)
    warmDedup_lockstep.comp warmDedup_lockstep.sameContent (hrun.tail hstep)
    fun p hp q hq => sevens_injective p (hpassed p hp) q (hpassed q hq)
  obtain ⟨t, ht, hcontent'⟩ := hquiet rfl rfl
  rw [List.append_nil, List.map_nil, List.append_nil] at hsent
  rw [← hsent] at hall
  exact ⟨_, given, t, hrun.tail hstep, rfl, hall, ht, hcontent'⟩

/-- **Neither side gets stuck.** In every state of such a run the first box can send the next
segment, whatever it is, and the second can restore the oldest that waits, whatever it finds then. -/
theorem line_goes_on {dA dB : Daemon} (hpeers : Peers dA dB)
    (hmode : dA.cfg.shared_dictionary_mode = false) (hcfg : dA.cfg.Valid) {fuel : Nat}
    (hqlz : dA.qlz = quickLz fuel dA.cfg.MAXPKTSIZE) (hfuel : dA.cfg.MAXPKTSIZE < fuel)
    {w w' : UInt8} {l₀ l : Line} (hidle : l₀.Idle w') {t₀ : Deoptimizer}
    (ht : l₀.far.deoptimizers w' = some t₀) {log : Log}
    (hlog : (l₀.near.optimizers w).dedup.dedupProcessor.Represents dA.cfg dA.H log)
    (hsame : Codec.SameContent dA.cfg (l₀.near.optimizers w).dedup.dedupProcessor
      t₀.dedup.dedupProcessor)
    (hrun : ReflTransGen (LineStep dA dB w w') l₀ l)
    (hinj : ∀ p, Passed log l p → ∀ q, Passed log l q → dA.H p = dA.H q → p = q) :
    (∀ a s, Sendable dA a s → ∃ o, optimizationStep dA (l.near.optimizers w) a = some o ∧
      o.verdict = .NF_ACCEPT (some (wholePacket o.packet)) ∧ Addressed o.packet) ∧
    (∀ x waiting, l.waiting = x :: waiting → ∃ t m rest, l.far.deoptimizers w' = some t ∧
      l.far.deoptimization w' = m :: rest ∧
      ∀ a, a.packet = m → a.switches.deduplication = x.switches.deduplication →
        (x.switches.compression = true → a.switches.compression = true) →
        (∃ s, getsession a.sessions (sockets m) = some s ∧
          destinationAccelerator (sockets m) (saddr m) s = dB.localID) →
        ∃ o, deoptimizationStep dB t a = some o ∧ o.ends = false ∧
          Delivered x.content (outcome o)) := by
  have hmax := hcfg.size_le
  have hlaw := quickLz_lawful hfuel (by omega)
  rw [← hqlz] at hlaw
  have hinv := line_passed hpeers hmode hcfg hlaw hidle ht hlog hsame hrun hinj
  constructor
  · intro a s hs
    obtain ⟨log', -, hlock⟩ := hinv.own
    have hin := (inStep_thread hmode { (l.near.optimizers w).dedup with shared := a.shared }
      (l.near.optimizers w).dedup).mpr hlock
    obtain ⟨o, oh, pad', middle, wire, dd, c, hstep, hverdict, hseg, -, hoh, -⟩ :=
      hs.sent hcfg (limit_thread hmode) hlaw hin
    refine ⟨o, hstep, hverdict, ⟨_, _, _, _, oh, _, hseg, hs.tcp, hoh.pattern, ?_⟩,
      (segment_isData hs.taggable.segment hseg).trans hs.isData⟩
    rw [hoh.opennopID]
    exact dA.identified
  · intro x waiting hwaiting
    obtain ⟨t, hthread, hlag⟩ := hinv.lag
    have hqueue := hinv.queue
    rw [hwaiting] at hlag hqueue
    obtain ⟨m, rest, hcopy, -, hrest⟩ := List.forall₂_cons_left_iff.mp hqueue
    refine ⟨t, m, rest, hthread, hrest, fun a ha hdedup hcomp hdest => ?_⟩
    subst ha
    obtain ⟨s₀, hrel, s₁, hx, -⟩ := hlag
    obtain ⟨done, horder, -⟩ := hinv.order
    have hsent : x.content ∈ l.sent := by
      rw [horder, hwaiting]
      simp
    obtain ⟨o, ho, hends, hdel, -⟩ := sends_restored hpeers hmode hcfg hlaw hinj
      (List.mem_append_right _ (List.mem_map_of_mem hsent)) hrel hx hcopy hdedup hcomp hdest
    exact ⟨o, ho, hends, hdel⟩

/-- Once the segment waits, it can be restored. -/
theorem line_goes_on_segment :
    ∃ l x t m rest, ReflTransGen (LineStep nearBox farBox 0 0) warmLine l ∧ l.waiting = [x] ∧
      l.far.deoptimizers 0 = some t ∧ l.far.deoptimization 0 = m :: rest ∧
      ∃ o, deoptimizationStep farBox t (l.far.arrival m ⟨true, true, false⟩) = some o ∧
        o.ends = false ∧ Delivered contentOut (outcome o) := by
  obtain ⟨near, far, x, s, hrun, hcontent, hsw, -, hs, hdest⟩ :=
    warmLine_arrives ⟨true, true, false⟩ (Or.inl rfl)
  have hvalid : nearBox.cfg.Valid := Codec.smallBox_valid false
  have hallowed : ∀ s ∈ [contentOut], Sevens s.data := fun s hs => by
    rw [List.mem_singleton.mp hs]
    rfl
  have hinv := line_run warmLine_peers rfl hvalid nearBox_lawful sevens_injective warmLine_start hrun
    hallowed
  have hpassed : ∀ p, Passed [List.replicate 64 7] ⟨near, far, [contentOut], [], [x], []⟩ p →
      Sevens p := by
    intro p hp
    simpa [Passed, contentOut, Sevens] using hp
  obtain ⟨-, hgoes⟩ := line_goes_on warmLine_peers rfl hvalid rfl (by decide) warmLine_idle
    (show warmLine.far.deoptimizers 0 = some _ from rfl) warmDedup_lockstep.comp
    warmDedup_lockstep.sameContent hrun
    fun p hp q hq => sevens_injective p (hpassed p hp) q (hpassed q hq)
  obtain ⟨t, m, rest, ht, hqueue, hrestores⟩ := hgoes x [] rfl
  have hcopied := hinv.queue
  rw [hqueue] at hcopied
  have hcopy := (List.forall₂_cons.mp hcopied).1
  obtain ⟨n, g, sq, area, oh, data, hseg, -⟩ :=
    (hinv.addressed x (by simp)).header
  have hsegm := hseg.of_slice hcopy
  have hsockets := segment_sockets hseg hsegm
  have haddr := (segment_saddr hsegm).trans (segment_saddr hseg).symm
  obtain ⟨o, ho, hends, hdel⟩ := hrestores (far.arrival m ⟨true, true, false⟩) rfl
    (by rw [hsw]; rfl) (fun _ => rfl) (by rw [hsockets, haddr]; exact ⟨s, hs, hdest⟩)
  rw [hcontent] at hdel
  exact ⟨_, x, t, m, rest, hrun, rfl, ht, hqueue, o, ho, hends, hdel⟩

end Solowan.System
