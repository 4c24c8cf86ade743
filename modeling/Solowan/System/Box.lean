/-
The box as a whole: the fetcher, the two threads of each worker with their queues, and the
cleanup of idle sessions (`opennopd/opennopd.c` starts them all).

The parties share the session table and the dictionaries. A step of the box is one packet in the
fetcher, one packet in a thread, or the cleanup of one session; the steps follow each other in
any order (`Runs`).

* `fetcherCallback_evolves`, `optimizationStep_evolves`, `deoptimizationStep_evolves`,
  `cleanup_evolves`: what each of them can do to the session table.
* `step_turn`: what a step of the box can be.
* `fetcherCallback_queue`: the queue that a packet is put into is that of a session.
-/

import Solowan.Fetcher.Dispatch
import Solowan.Sessions.Evolution

namespace Solowan.System

open Solowan.Memory Solowan.Dictionary Solowan.Net Solowan.Sessions Solowan.Worker Solowan.Fetcher

/-! ### The parties -/

/-- The state of the box. A deoptimization thread that has ended is `none`. -/
structure Box where
  fetcher : FetcherState
  optimizers : UInt8 → Optimizer
  deoptimizers : UInt8 → Option Deoptimizer
  optimization : UInt8 → List Mem
  deoptimization : UInt8 → List Mem
  shared : SharedDictionaries

/-- What happens next: a packet comes in, a thread of a worker takes a packet, or the cleanup
gets to a session. The switches are what the CLI has set by then. -/
inductive Event where
  | fetch (p : Delivery)
  | optimize (worker : UInt8) (sw : Switches)
  | deoptimize (worker : UInt8) (sw : Switches)
  | cleanup (now : UInt64) (k : Sockets)

/-- Put a packet into the queue of a worker. -/
def Box.enqueue (b : Box) : Option Queued → Box
  | none => b
  | some (.optimize queue packet) =>
    { b with optimization := Function.update b.optimization queue (b.optimization queue ++ [packet]) }
  | some (.deoptimize queue packet) =>
    { b with
      deoptimization := Function.update b.deoptimization queue (b.deoptimization queue ++ [packet]) }

/-- What `cleanuplist` does with one session: it is cleared when it has been idle for too long,
and otherwise counted when it has been idle for a minute. -/
def cleanup (t : SessionTable) (now : UInt64) (k : Sockets) : SessionTable :=
  match getsession t k with
  | none => t
  | some s =>
    if s.deadcounter > 2 then clearsession t k
    else if s.lastactive < now - 60 then
      t.update k fun s => { s with deadcounter := s.deadcounter + 1 }
    else t

/-- A packet comes in. -/
def fetchStep (d : Daemon) (b : Box) (p : Delivery) : Option Box :=
  (fetcherCallback d b.fetcher p).map fun o => { b with fetcher := o.state }.enqueue o.queued

/-- The optimization thread of a worker takes a packet; workers are numbered from 0. -/
def optimizeStep (d : Daemon) (b : Box) (worker : UInt8) (sw : Switches) : Option Box :=
  if worker < b.fetcher.sessions.numworkers then
    match b.optimization worker with
    | [] => none
    | m :: rest =>
      (optimizationStep d (b.optimizers worker) ⟨m, b.fetcher.sessions, b.shared, sw⟩).map fun o =>
        { b with
          fetcher := { b.fetcher with sessions := o.sessions }
          optimizers := Function.update b.optimizers worker o.thread
          optimization := Function.update b.optimization worker rest
          shared := o.thread.dedup.shared }
  else none

/-- The deoptimization thread of a worker takes a packet. -/
def deoptimizeStep (d : Daemon) (b : Box) (worker : UInt8) (sw : Switches) : Option Box :=
  if worker < b.fetcher.sessions.numworkers then
    match b.deoptimizers worker, b.deoptimization worker with
    | some t, m :: rest =>
      (deoptimizationStep d t ⟨m, b.fetcher.sessions, b.shared, sw⟩).map fun o =>
        { b with
          fetcher := { b.fetcher with sessions := o.sessions }
          deoptimizers := Function.update b.deoptimizers worker
            (if o.ends then none else some o.thread)
          deoptimization := Function.update b.deoptimization worker rest
          shared := o.thread.dedup.shared }
    | _, _ => none
  else none

/-- One step of the box. There is none when nothing is there to be done, or when a call does
not return. -/
def step (d : Daemon) (b : Box) : Event → Option Box
  | .fetch p => fetchStep d b p
  | .optimize worker sw => optimizeStep d b worker sw
  | .deoptimize worker sw => deoptimizeStep d b worker sw
  | .cleanup now k =>
    some { b with fetcher := { b.fetcher with sessions := cleanup b.fetcher.sessions now k } }

/-- A step of the box, by the party whose turn it is and what it does. -/
inductive Turn (d : Daemon) (b : Box) : Event → Box → Prop
  | fetch {p : Delivery} {o : Fetched} (ho : fetcherCallback d b.fetcher p = some o) :
      Turn d b (.fetch p) ({ b with fetcher := o.state }.enqueue o.queued)
  | optimize {worker : UInt8} {sw : Switches} {m : Mem} {rest : List Mem} {o : Optimized}
      (hworker : worker < b.fetcher.sessions.numworkers)
      (hqueue : b.optimization worker = m :: rest)
      (ho : optimizationStep d (b.optimizers worker) ⟨m, b.fetcher.sessions, b.shared, sw⟩ = some o) :
      Turn d b (.optimize worker sw)
        { b with
          fetcher := { b.fetcher with sessions := o.sessions }
          optimizers := Function.update b.optimizers worker o.thread
          optimization := Function.update b.optimization worker rest
          shared := o.thread.dedup.shared }
  | deoptimize {worker : UInt8} {sw : Switches} {t : Deoptimizer} {m : Mem} {rest : List Mem}
      {o : Deoptimized} (hworker : worker < b.fetcher.sessions.numworkers)
      (hthread : b.deoptimizers worker = some t) (hqueue : b.deoptimization worker = m :: rest)
      (ho : deoptimizationStep d t ⟨m, b.fetcher.sessions, b.shared, sw⟩ = some o) :
      Turn d b (.deoptimize worker sw)
        { b with
          fetcher := { b.fetcher with sessions := o.sessions }
          deoptimizers := Function.update b.deoptimizers worker
            (if o.ends then none else some o.thread)
          deoptimization := Function.update b.deoptimization worker rest
          shared := o.thread.dedup.shared }
  | cleanup {now : UInt64} {k : Sockets} :
      Turn d b (.cleanup now k)
        { b with fetcher := { b.fetcher with sessions := cleanup b.fetcher.sessions now k } }

/-- Every step is somebody's turn. -/
theorem step_turn {d : Daemon} {b b' : Box} {e : Event} (h : step d b e = some b') :
    Turn d b e b' := by
  cases e with
  | fetch p =>
    rw [step, fetchStep, Option.map_eq_some_iff] at h
    obtain ⟨o, ho, rfl⟩ := h
    exact .fetch ho
  | optimize worker sw =>
    rw [step, optimizeStep] at h
    split at h
    · rename_i hworker
      split at h
      · cases h
      · rename_i m rest hqueue
        rw [Option.map_eq_some_iff] at h
        obtain ⟨o, ho, rfl⟩ := h
        exact .optimize hworker hqueue ho
    · cases h
  | deoptimize worker sw =>
    rw [step, deoptimizeStep] at h
    split at h
    · rename_i hworker
      split at h
      · rename_i t m rest hthread hqueue
        rw [Option.map_eq_some_iff] at h
        obtain ⟨o, ho, rfl⟩ := h
        exact .deoptimize hworker hthread hqueue ho
      · cases h
    · cases h
  | cleanup now k =>
    cases h
    exact .cleanup

/-- Whose turn it is can make the step. -/
theorem Turn.step_eq {d : Daemon} {b b' : Box} {e : Event} (h : Turn d b e b') :
    step d b e = some b' := by
  cases h with
  | fetch ho => rw [step, fetchStep, ho, Option.map_some]
  | optimize hworker hqueue ho =>
    rw [step, optimizeStep, if_pos hworker, hqueue]
    dsimp only
    rw [ho, Option.map_some]
  | deoptimize hworker hthread hqueue ho =>
    rw [step, deoptimizeStep, if_pos hworker, hthread, hqueue]
    dsimp only
    rw [ho, Option.map_some]
  | cleanup => rfl

/-- A table without sessions. -/
def emptyTable (numworkers : UInt8) : SessionTable := ⟨fun _ => [], fun _ => 0, numworkers⟩

/-- Steps lead from `b` to another state, each of which meets `cond` in the state before it. -/
inductive Runs (d : Daemon) (cond : Box → Event → Prop) (b : Box) : Box → Prop
  | refl : Runs d cond b b
  | next {b' b'' : Box} {e : Event} (hrun : Runs d cond b b') (hcond : cond b' e)
      (hstep : step d b' e = some b'') : Runs d cond b b''

/-- What every step keeps holds after a run. -/
theorem Runs.invariant {d : Daemon} {cond : Box → Event → Prop} {b b' : Box} {I : Box → Prop}
    (h : Runs d cond b b') (hstart : I b)
    (hkeep : ∀ b e b', cond b e → step d b e = some b' → I b → I b') : I b' := by
  induction h with
  | refl => exact hstart
  | next _ hcond hstep ih => exact hkeep _ _ _ hcond hstep ih

/-- The box when its threads have been started and nothing has come in. -/
structure Initial (b : Box) : Prop where
  sessions : b.fetcher.sessions = emptyTable b.fetcher.sessions.numworkers
  optimization : ∀ worker, b.optimization worker = []
  deoptimization : ∀ worker, b.deoptimization worker = []

/-! ### What a step does to the sessions -/

/-- The packet comes from another accelerator and makes the fetcher enter a session: the two
branches that pass the queue of the header on. -/
structure EntersForPeer (t : SessionTable) (p : Delivery) : Prop where
  running : p.running = true
  tcp : protocol p.originalpacket = IPPROTO_TCP
  id : p.id ≠ 0
  announced : Fetcher.Announces p.originalpacket
  accelerator : (opennopHeader p.originalpacket).opennopID ≠ 0
  opens : syn p.originalpacket = true ∨ ack p.originalpacket = true
  unknown : getsession t (sockets p.originalpacket) = none

/-- The sessions that the fetcher enters for a packet. -/
def entered (t : SessionTable) (p : Delivery) (k : Sockets) (qnum : Option UInt8) : Prop :=
  k = sockets p.originalpacket ∧
    ∀ queue ∈ qnum, EntersForPeer t p ∧ queue = (opennopHeader p.originalpacket).queuenum

/-- The table when a SYN segment has its session. -/
def opened (t : SessionTable) (m : Mem) (remoteID : UInt32) : SessionTable :=
  match getsession t (sockets m) with
  | some _ => t
  | none =>
    insertsession t (sockets m) (if remoteID ≠ 0 then some (opennopHeader m).queuenum else none)

section Fetcher

variable {d : Daemon} {f : FetcherState} {p : Delivery} {o : Fetched}

/-- A SYN segment enters its session, if there is none, and writes to it. -/
theorem synSegment_evolves {remoteID : UInt32} (h : synSegment d f p remoteID = some o)
    (hpeer : remoteID ≠ 0 → getsession f.sessions (sockets p.originalpacket) = none →
      EntersForPeer f.sessions p) :
    Evolves (entered f.sessions p) f.sessions o.state.sessions := by
  rw [synSegment] at h
  dsimp only at h
  rw [Option.map_eq_some_iff] at h
  obtain ⟨⟨m', accelerator⟩, -, rfl⟩ := h
  have hopen : Evolves (entered f.sessions p) f.sessions
      (opened f.sessions p.originalpacket remoteID) := by
    rw [opened]
    cases hs : getsession f.sessions (sockets p.originalpacket) with
    | some s => exact .refl
    | none =>
      refine .single (.insert hs ⟨rfl, ?_⟩)
      intro queue hq
      split at hq
      · rename_i hid
        cases hq
        exact ⟨hpeer hid hs, rfl⟩
      · cases hq
  have hstate : ∀ state, Inner fun s : Session => { s with state := state } :=
    fun _ => ⟨fun _ => rfl, fun _ => rfl⟩
  have hwrite := hopen.update (sockets p.originalpacket)
    (inner_openSession (sockets p.originalpacket) p.originalpacket p.now)
  cases accelerator with
  | none => exact hwrite.update _ (hstate _)
  | some v => exact (hwrite.update _ (inner_saveacceleratorid ..)).update _ (hstate _)

/-- **The fetcher** enters at most the session of the packet. -/
theorem fetcherCallback_evolves (h : fetcherCallback d f p = some o) :
    Evolves (entered f.sessions p) f.sessions o.state.sessions := by
  unfold fetcherCallback at h
  dsimp only at h
  split at h
  · rename_i hrun
    split at h
    · rename_i htcp
      split at h
      · cases h
      · rename_i option hopt
        split at h
        · cases h
          exact .refl
        · rename_i hgood
          have hpeer : (syn p.originalpacket = true ∨ ack p.originalpacket = true) →
              remoteId p.originalpacket option ≠ 0 →
              getsession f.sessions (sockets p.originalpacket) = none → EntersForPeer f.sessions p := by
            intro hopens hid hs
            have hne : option ≠ 0 := by
              intro hzero
              rw [remoteId, if_neg (by simp [hzero])] at hid
              exact hid rfl
            rw [remoteId, if_pos hne] at hid
            refine ⟨hrun, htcp.1, htcp.2, ⟨option, hopt, ?_⟩, hid, hopens, hs⟩
            simpa [hne] using hgood
          split at h
          · rename_i hsyn
            have hev := synSegment_evolves h fun hid hs => hpeer (Or.inl hsyn) hid hs
            exact hev
          · split at h
            · rename_i s hs
              cases h
              have hactive : Inner fun s : Session =>
                  { s with lastactive := p.now, deadcounter := 0 } := ⟨fun _ => rfl, fun _ => rfl⟩
              rw [knownSegment]
              dsimp only
              split
              · exact .single (.update _ hactive)
              · exact .single (.update _ hactive)
            · rename_i hs
              cases h
              rw [unknownSegment]
              dsimp only
              split
              · rename_i hnew
                have hstate : Inner fun s : Session => { s with state := .TCP_ESTABLISHED } :=
                  ⟨fun _ => rfl, fun _ => rfl⟩
                have hinsert : Evolves (entered f.sessions p) f.sessions (insertsession f.sessions
                    (sockets p.originalpacket) (some (opennopHeader p.originalpacket).queuenum)) := by
                  refine .single (.insert hs ⟨rfl, ?_⟩)
                  rintro queue ⟨⟩
                  exact ⟨hpeer (Or.inr hnew.1) hnew.2 hs, rfl⟩
                exact hinsert.update _ ((hstate.comp (inner_saveacceleratorid ..)).comp
                  (inner_updateseqnumber ..))
              · exact .refl
    · cases h
      exact .refl
  · cases h
    exact .refl

/-- The worker whose queue a packet is put into. -/
def Queued.queue : Queued → UInt8
  | .optimize queue _ => queue
  | .deoptimize queue _ => queue

/-- A packet is put into the queue of its session, or of the session that it has entered. -/
theorem fetcherCallback_queue (h : fetcherCallback d f p = some o) {q : Queued}
    (hq : o.queued = some q) :
    (∃ s, getsession f.sessions (sockets p.originalpacket) = some s ∧ Queued.queue q = s.queue) ∨
      EntersForPeer f.sessions p ∧ Queued.queue q = (opennopHeader p.originalpacket).queuenum := by
  obtain ⟨option, -, hopt, hqueues, -⟩ := queues_of_queued h hq
  unfold queues at hqueues
  simp only [Bool.and_eq_true, Bool.or_eq_true, decide_eq_true_eq, Bool.not_eq_true'] at hqueues
  obtain ⟨⟨⟨⟨⟨hrun, htcp⟩, hid⟩, hgood⟩, hsyn⟩, hsession⟩ := hqueues
  rw [fetcherCallback_segment d hrun htcp hid hopt hgood hsyn] at h
  cases hs : getsession f.sessions (sockets p.originalpacket) with
  | some s =>
    rw [hs] at h
    cases h
    dsimp only at hq
    rw [knownSegment] at hq
    dsimp only at hq
    split at hq
    · cases hq
    · cases hq
      refine Or.inl ⟨s, rfl, ?_⟩
      split <;> rfl
  | none =>
    rw [hs] at h hsession
    simp only [Bool.and_eq_true, decide_eq_true_eq] at hsession
    cases h
    dsimp only at hq
    rw [unknownSegment] at hq
    dsimp only at hq
    rw [if_pos hsession] at hq
    cases hq
    have hne : option ≠ 0 := by
      intro hzero
      rw [remoteId, if_neg (by simp [hzero])] at hsession
      exact hsession.2 rfl
    have hacc := hsession.2
    rw [remoteId, if_pos hne] at hacc
    exact Or.inr ⟨⟨hrun, htcp, hid, ⟨option, hopt, hgood.resolve_left hne⟩, hacc,
      Or.inr hsession.1, hs⟩, rfl⟩

end Fetcher

section Threads

variable {d : Daemon} {a : Arrival} {allowed : Sockets → Option UInt8 → Prop}

/-- **The optimization thread** enters no session. -/
theorem optimizationStep_evolves {t : Optimizer} {o : Optimized}
    (h : optimizationStep d t a = some o) : Evolves allowed a.sessions o.sessions := by
  unfold optimizationStep at h
  dsimp only at h
  split at h
  · split at h
    · cases h
    · split at h
      · cases h
      · split at h
        · split at h
          · split at h
            · cases h
            · split at h
              · cases h
                exact (Evolves.update .refl _ (inner_saveacceleratorid ..)).endSegment ..
              · rw [tagPacket] at h
                dsimp only at h
                rw [Option.map_eq_some_iff] at h
                obtain ⟨e, -, rfl⟩ := h
                have hsave : Evolves allowed a.sessions (a.sessions.update (sockets a.packet)
                    (saveacceleratorid (sockets a.packet).largerIP d.localID (saddr a.packet))) :=
                  Evolves.update .refl _ (inner_saveacceleratorid ..)
                refine Evolves.endSegment ?_ ..
                split
                · exact hsave.update _ (inner_updateseqnumber ..)
                · exact hsave
          · cases h
            exact Evolves.endSegment .refl ..
        · cases h
          exact .refl
  · cases h
    exact .refl

theorem decompress_sessions (d : Daemon) (last : Bool) (r : Decoded) :
    (decompress d last r).2.sessions = r.sessions := by
  rw [decompress]
  dsimp only
  split <;> rfl

/-- The first of the two decoders writes to no session, whether it is called or not. -/
theorem decompress_if_sessions (d : Daemon) (asked last : Bool) (r : Decoded) :
    (if asked = true then decompress d last r else (0, r)).2.sessions = r.sessions := by
  split
  · exact decompress_sessions d last r
  · rfl

/-- What is done with the data of a segment. -/
theorem restore_evolves {sw : Switches} {k : Sockets} {compressPresent dedupPresent : Bool}
    {r r' : Decoded} (h : restore d sw k compressPresent dedupPresent r = some r') :
    Evolves allowed r.sessions r'.sessions := by
  rw [restore] at h
  split at h
  · have hsame := decompress_if_sessions d (sw.compression && compressPresent) (!dedupPresent) r
    generalize (if (sw.compression && compressPresent) = true then
      decompress d (!dedupPresent) r else (0, r)) = c at h hsame
    obtain ⟨redComp, r₁⟩ := c
    dsimp only at h hsame
    split at h
    · rw [deoptimize] at h
      dsimp only at h
      rw [Option.map_eq_some_iff] at h
      obtain ⟨⟨redDedup, m, x⟩, -, rfl⟩ := h
      rw [← hsame]
      have hwrite : Evolves allowed r₁.sessions (r₁.sessions.update k
          (updateseqnumber k.largerIP (saddr r₁.packet) (seq r₁.packet))) :=
        Evolves.update .refl _ (inner_updateseqnumber ..)
      dsimp only
      split
      · exact hwrite
      · exact hwrite
    · cases h
      rw [← hsame]
      exact .refl
  · split at h
    · cases h
      rw [decompress_sessions]
    · cases h
      exact .refl

theorem deoptimizeSegment_evolves {sw : Switches} {k : Sockets} {s : Session} {oh : OpennopHeader}
    {r r' : Decoded} (h : deoptimizeSegment d sw k s oh r = some r') :
    Evolves allowed r.sessions r'.sessions := by
  have hsave : Evolves allowed r.sessions (r.sessions.update k
      (saveacceleratorid k.largerIP oh.opennopID (saddr r.packet))) :=
    Evolves.update .refl _ (inner_saveacceleratorid ..)
  rw [deoptimizeSegment] at h
  dsimp only at h
  split at h
  · split at h
    · split at h
      · exact hsave.trans (restore_evolves h)
      · cases h
        exact hsave
    · split at h
      · cases h
        exact hsave
      · cases h
        exact hsave
  · cases h
    exact .refl

/-- **The deoptimization thread** enters no session. -/
theorem deoptimizationStep_evolves {t : Deoptimizer} {o : Deoptimized}
    (h : deoptimizationStep d t a = some o) : Evolves allowed a.sessions o.sessions := by
  unfold deoptimizationStep at h
  dsimp only at h
  split at h
  · cases h
  · split at h
    · split at h
      · cases h
      · rw [deoptimizeStripped] at h
        dsimp only at h
        split at h
        · rw [Option.map_eq_some_iff] at h
          obtain ⟨r, hr, rfl⟩ := h
          exact (deoptimizeSegment_evolves hr).endSegment ..
        · cases h
          exact .refl
    · cases h
      exact .refl

end Threads

/-- **The cleanup** enters no session. -/
theorem cleanup_evolves {allowed : Sockets → Option UInt8 → Prop} (t : SessionTable) (now : UInt64)
    (k : Sockets) : Evolves allowed t (cleanup t now k) := by
  unfold cleanup
  repeat' split
  · exact .refl
  · exact Evolves.clear .refl k
  · exact Evolves.update .refl k ⟨fun _ => rfl, fun _ => rfl⟩
  · exact .refl

end Solowan.System
