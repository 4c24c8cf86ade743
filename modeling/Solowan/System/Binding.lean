/-
Every session is bound to a worker that runs.

The queue of a session is chosen by `insertsession` or comes from the header of another
accelerator. What is chosen is always a worker. What comes from the other box is a byte that
nobody looks at.

* `sessions_bound`: in a run in which the other boxes name workers that this one has, every session
  has the queue of a worker, no other queue is used, and no other worker counts sessions.
* `foreign_queue_is_used`: one packet that names another is enough.
-/

import Solowan.Fetcher.Tagged
import Solowan.System.Box

namespace Solowan.System

open Solowan.Memory Solowan.Dictionary Solowan.Net Solowan.Sessions Solowan.Worker Solowan.Fetcher

/-- The box has `n` workers, and no session and no packet is with any other. -/
structure Box.BoundTo (b : Box) (n : UInt8) : Prop where
  numworkers : b.fetcher.sessions.numworkers = n
  sessions : b.fetcher.sessions.Bound
  optimization : ∀ worker, ¬ worker < n → b.optimization worker = []
  deoptimization : ∀ worker, ¬ worker < n → b.deoptimization worker = []

/-- A packet that enters a session with the queue of its header names a worker of this box. -/
def PeerNamesWorker (b : Box) : Event → Prop
  | .fetch p => EntersForPeer b.fetcher.sessions p →
      (opennopHeader p.originalpacket).queuenum < b.fetcher.sessions.numworkers
  | _ => True

section Bound

variable {d : Daemon} {b b' : Box} {n : UInt8} {allowed : Sockets → Option UInt8 → Prop}

/-- A change of the table that enters no session elsewhere. -/
theorem Box.BoundTo.evolve (h : b.BoundTo n) (hn : 0 < n) {t : SessionTable}
    (hev : Evolves allowed b.fetcher.sessions t)
    (hallowed : ∀ k qnum, allowed k qnum → ∀ queue ∈ qnum, queue < n) :
    t.numworkers = n ∧ t.Bound := by
  have hnum := h.numworkers
  obtain ⟨hbound, hsame⟩ := hev.bound (by rw [hnum]; exact hn)
    (by rw [hnum]; exact hallowed) h.sessions
  exact ⟨hsame.trans hnum, hbound⟩

/-- The queue of a worker changes. -/
theorem update_queue {queues : UInt8 → List Mem} {queue : UInt8} (hq : queue < n)
    (h : ∀ worker, ¬ worker < n → queues worker = []) (packets : List Mem) :
    ∀ worker, ¬ worker < n → Function.update queues queue packets worker = [] := by
  intro worker hw
  have hne : worker ≠ queue := by
    rintro rfl
    exact hw hq
  rw [Function.update_of_ne hne]
  exact h worker hw

theorem fetchStep_bound {p : Delivery} (h : fetchStep d b p = some b')
    (hcond : PeerNamesWorker b (.fetch p)) (hn : 0 < n) (hb : b.BoundTo n) : b'.BoundTo n := by
  rw [fetchStep, Option.map_eq_some_iff] at h
  obtain ⟨o, ho, rfl⟩ := h
  have hcond' : EntersForPeer b.fetcher.sessions p →
      (opennopHeader p.originalpacket).queuenum < n := by
    rw [← hb.numworkers]
    exact hcond
  obtain ⟨hnum, htable⟩ := hb.evolve hn (fetcherCallback_evolves ho) (by
    rintro k qnum ⟨-, hall⟩ queue hq
    obtain ⟨hpeer, rfl⟩ := hall queue hq
    exact hcond' hpeer)
  have hqueue : ∀ q, o.queued = some q → Queued.queue q < n := by
    intro q hq
    rcases fetcherCallback_queue ho hq with ⟨s, hs, hqs⟩ | ⟨hpeer, hqs⟩
    · rw [hqs, ← hb.numworkers]
      exact hb.sessions.queue _ s (getsession_mem hs)
    · rw [hqs]
      exact hcond' hpeer
  cases hq : o.queued with
  | none => exact ⟨hnum, htable, hb.optimization, hb.deoptimization⟩
  | some q =>
    have hlt := hqueue q hq
    cases q with
    | optimize queue packet =>
      exact ⟨hnum, htable, update_queue hlt hb.optimization _, hb.deoptimization⟩
    | deoptimize queue packet =>
      exact ⟨hnum, htable, hb.optimization, update_queue hlt hb.deoptimization _⟩

/-- A step of the box. -/
theorem step_bound {e : Event} (h : step d b e = some b') (hcond : PeerNamesWorker b e)
    (hn : 0 < n) (hb : b.BoundTo n) : b'.BoundTo n := by
  cases step_turn h with
  | fetch => exact fetchStep_bound h hcond hn hb
  | @optimize worker sw m rest o hw _ ho =>
    rw [hb.numworkers] at hw
    have hev : Evolves noInsert b.fetcher.sessions o.sessions := optimizationStep_evolves ho
    obtain ⟨hnum, htable⟩ := hb.evolve hn hev fun _ _ hall => hall.elim
    exact ⟨hnum, htable, update_queue hw hb.optimization _, hb.deoptimization⟩
  | @deoptimize worker sw t m rest o hw _ _ ho =>
    rw [hb.numworkers] at hw
    have hev : Evolves noInsert b.fetcher.sessions o.sessions := deoptimizationStep_evolves ho
    obtain ⟨hnum, htable⟩ := hb.evolve hn hev fun _ _ hall => hall.elim
    exact ⟨hnum, htable, hb.optimization, update_queue hw hb.deoptimization _⟩
  | @cleanup now k =>
    have hev : Evolves noInsert b.fetcher.sessions (cleanup b.fetcher.sessions now k) :=
      cleanup_evolves _ now k
    obtain ⟨hnum, htable⟩ := hb.evolve hn hev fun _ _ hall => hall.elim
    exact ⟨hnum, htable, hb.optimization, hb.deoptimization⟩

/-- **Every session is bound to a running worker**, in every state of every run in which the
other accelerators name workers of this box. -/
theorem sessions_bound (d : Daemon) {b₀ b : Box} (hstart : Initial b₀)
    (hn : 0 < b₀.fetcher.sessions.numworkers) (hrun : Runs d PeerNamesWorker b₀ b) :
    b.fetcher.sessions.numworkers = b₀.fetcher.sessions.numworkers ∧
      (∀ hash, ∀ s ∈ b.fetcher.sessions.sessiontable hash,
        s.queue < b₀.fetcher.sessions.numworkers) ∧
      ∀ worker, ¬ worker < b₀.fetcher.sessions.numworkers →
        b.optimization worker = [] ∧ b.deoptimization worker = [] ∧
          b.fetcher.sessions.sessions worker = 0 := by
  have hinit : b₀.BoundTo b₀.fetcher.sessions.numworkers := by
    refine ⟨rfl, ⟨?_, ?_⟩, fun worker _ => hstart.optimization worker,
      fun worker _ => hstart.deoptimization worker⟩
    · rw [hstart.sessions]
      intro hash s hs
      cases hs
    · rw [hstart.sessions]
      exact fun _ _ => rfl
  have hb := hrun.invariant (I := fun b => b.BoundTo b₀.fetcher.sessions.numworkers) hinit
    fun _ _ _ hcond hstep hb => step_bound hstep hcond hn hb
  refine ⟨hb.numworkers, ?_, fun worker hw => ⟨hb.optimization worker hw,
    hb.deoptimization worker hw, hb.sessions.counters worker (by rw [hb.numworkers]; exact hw)⟩⟩
  rw [← hb.numworkers]
  exact hb.sessions.queue

end Bound

/-! ### A worker that does not run -/

/-- The dictionaries of a thread that starts. -/
def newDedup : Dedup :=
  ⟨newDeduplicator Codec.zeroed, initDictionary Codec.zeroed Codec.zeroed, ofList []⟩

/-- A box with two workers. -/
def twoWorkers : Box where
  fetcher := ⟨emptyTable 2, 0, 0⟩
  optimizers := fun _ => .start newDedup 0 0 0 noCounts
  deoptimizers := fun _ => some (.start newDedup noCounts)
  optimization := fun _ => []
  deoptimization := fun _ => []
  shared := newDedup.shared

/-- Data from another accelerator, whose session is with worker `queue` there. -/
def peerSegment (queue : UInt8) : List UInt8 := taggedSegment 1 2 0x10 1000 (synHeader 88 queue) [9]

theorem peerSegment_tagged {queue : UInt8} (h : queue = 1 ∨ queue = 200) :
    Tagged (deliveryOf (peerSegment queue)) 1 (synHeader 88 queue) := by
  have hseg : Segment (ofList (peerSegment queue)) 5 (flow (ofList (peerSegment queue))) 1000
      (shortOption OPENNOP_OPTION 1 ++ [0]) ((synHeader 88 queue).bytes ++ [9]) := by
    rcases h with rfl | rfl
    · refine ⟨?_, ?_, rfl, ?_, ?_, ?_, ?_, ?_⟩ <;> decide
    · refine ⟨?_, ?_, rfl, ?_, ?_, ?_, ?_, ?_⟩ <;> decide
  have hid : (synHeader 88 queue).opennopID ≠ 0 := show (88 : UInt32) ≠ 0 by decide
  refine .of_segment hseg (by decide) rfl hid rfl ?_ (show (1 : UInt32) ≠ 0 by decide) ?_
  · rcases h with rfl | rfl <;> decide
  · rcases h with rfl | rfl <;> decide

/-- The fetcher enters a session for such a segment, with that worker. -/
theorem peerSegment_entered {queue : UInt8} (h : queue = 1 ∨ queue = 200) (d : Daemon) :
    ∃ b s, step d twoWorkers (.fetch (deliveryOf (peerSegment queue))) = some b ∧
      getsession b.fetcher.sessions (sockets (ofList (peerSegment queue))) = some s ∧
      s.queue = queue ∧ b.deoptimization queue ≠ [] := by
  have hack : ack (ofList (peerSegment queue)) = true := by
    rcases h with rfl | rfl <;> decide
  obtain ⟨o, s, ho, hq, hs, hqueue, -⟩ :=
    fetcherCallback_entered (d := d) (f := twoWorkers.fetcher) (peerSegment_tagged h) hack rfl
  refine ⟨{ twoWorkers with fetcher := o.state }.enqueue o.queued, s, ?_, ?_, hqueue, ?_⟩
  · rw [step, fetchStep, ho, Option.map_some]
  · rw [hq]
    exact hs
  · rw [hq, Box.enqueue]
    dsimp only
    rw [show (synHeader 88 queue).queuenum = queue from rfl, Function.update_self]
    exact List.append_ne_nil_of_right_ne_nil _ (List.cons_ne_nil _ _)

/-- **A byte of another box is the number of a worker.** With two workers, the session is with
worker 200, whose queue no thread ever reads. -/
theorem foreign_queue_is_used :
    Initial twoWorkers ∧ twoWorkers.fetcher.sessions.numworkers = 2 ∧
      ∃ b, step sharedBox twoWorkers (.fetch (deliveryOf (peerSegment 200))) = some b ∧
        (∃ hash, ∃ s ∈ b.fetcher.sessions.sessiontable hash, ¬ s.queue < 2) ∧
        b.deoptimization 200 ≠ [] := by
  obtain ⟨b, s, hstep, hs, hqueue, hne⟩ := peerSegment_entered (Or.inr rfl) sharedBox
  refine ⟨⟨rfl, fun _ => rfl, fun _ => rfl⟩, rfl, b, hstep, ⟨_, s, getsession_mem hs, ?_⟩, hne⟩
  rw [hqueue]
  decide

/-- A packet that names the second worker. -/
theorem sessions_bound_second :
    ∃ b, Runs sharedBox PeerNamesWorker twoWorkers b ∧ b.deoptimization 1 ≠ [] ∧
      ∀ hash, ∀ s ∈ b.fetcher.sessions.sessiontable hash, s.queue < 2 := by
  obtain ⟨b, s, hstep, -, -, hne⟩ := peerSegment_entered (Or.inl rfl) sharedBox
  have hnum : (opennopHeader (ofList (peerSegment 1))).queuenum = 1 := by decide
  have hcond : PeerNamesWorker twoWorkers (.fetch (deliveryOf (peerSegment 1))) := by
    intro _
    show (opennopHeader (ofList (peerSegment 1))).queuenum < 2
    rw [hnum]
    decide
  have hrun : Runs sharedBox PeerNamesWorker twoWorkers b := .next .refl hcond hstep
  have hinit : Initial twoWorkers := ⟨rfl, fun _ => rfl, fun _ => rfl⟩
  obtain ⟨-, hbound, -⟩ := sessions_bound sharedBox hinit (by decide) hrun
  exact ⟨b, hrun, hne, hbound⟩

end Solowan.System
