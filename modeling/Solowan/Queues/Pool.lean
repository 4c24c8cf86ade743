/-
The pool of packet buffers (`opennopd/subsystems/memorymanager.c`).

The memory manager allocates buffers into a queue of its own and moves them to the pool; who
needs a buffer takes it from the pool, or allocates one when the pool is empty, and puts it back
later. `allocatedpacketbuffers` counts what was allocated.

The queue of the memory manager is a local variable of which only the number of packets is
initialized. That is enough, because the first packet that is queued there sets the pointers
(`queuePacket_unset`).

* `PoolRun.conserved`: the counter is the number of buffers in the pool and with their users.
* `queues_and_pool`: the laws of the queues and of the pool together.
-/

import Solowan.Queues.PacketQueues

namespace Solowan.Queues

open Solowan.Memory

/-- The two queues of the memory manager. -/
inductive PoolQueue where
  | freepacketbuffers
  | packetbufferstaging
  deriving DecidableEq, Repr

structure Pool (P : Type) where
  mem : QueueMemory PoolQueue P
  allocatedpacketbuffers : UInt32

def initialfreepacketbuffers : Nat := 1000

def packetbufferstoallocate : Nat := 100

section Operations

variable {Q P : Type} [DecidableEq Q] [DecidableEq P]

/-- The links of a buffer are cleared: what is left of `memset` and `newpacket` here. -/
def clearLinks (m : QueueMemory Q P) (p : P) : QueueMemory Q P :=
  { m with next := Function.update m.next p none, prev := Function.update m.prev p none }

/-- `newpacket`, when `calloc` has returned the buffer `p`. -/
def newpacket (m : QueueMemory Q P) (p : P) : QueueMemory Q P := clearLinks m p

/-- `allocatefreepacketbuffers`, on the buffers that `calloc` returns. -/
def allocatefreepacketbuffers (m : QueueMemory Q P) (queue : Q) :
    List P → Option (QueueMemory Q P)
  | [] => some m
  | p :: answers =>
    (queuePacket (newpacket m p) queue (some p)).bind fun r =>
      allocatefreepacketbuffers r.1 queue answers

/-- One round of the memory manager, and what it does before the first one: allocate buffers,
move them to the pool, and count them. -/
def refill (pool : Pool P) (answers : List P) : Option (Pool P) :=
  (allocatefreepacketbuffers pool.mem .packetbufferstaging answers).bind fun m =>
    (moveQueuedPackets m .packetbufferstaging .freepacketbuffers).map fun (m, newpacketbuffers) =>
      ⟨m, pool.allocatedpacketbuffers + newpacketbuffers⟩

/-- `get_freepacket_buffer`; `answer` is what `calloc` returns if it is asked. -/
def getFreepacketBuffer (pool : Pool P) (answer : P) : Pool P × Option P :=
  if (pool.mem.queues .freepacketbuffers).qlen > 0 then
    let (m, thispacket) := dequeuePacket pool.mem .freepacketbuffers
    match thispacket with
    | none => ({ pool with mem := m }, none)
    | some p => ({ pool with mem := clearLinks m p }, some p)
  else
    (⟨clearLinks (newpacket pool.mem answer) answer, pool.allocatedpacketbuffers + 1⟩, some answer)

/-- `put_freepacket_buffer`. -/
def putFreepacketBuffer (pool : Pool P) (thispacket : Option P) : Option (Pool P × Int) :=
  (queuePacket pool.mem .freepacketbuffers thispacket).map fun (m, result) =>
    ({ pool with mem := m }, result)

end Operations

/-! ### Refilling -/

section Refill

variable {Q P : Type} [DecidableEq Q] [DecidableEq P] [Fintype P] {m : QueueMemory Q P}
  {l : Q → List P} {queue : Q}

omit [Fintype P] in
/-- The pointers of a queue without packets do not matter. -/
theorem queuePacket_unset (hqlen : (m.queues queue).qlen = 0) (p : P) :
    queuePacket m queue (some p) =
      queuePacket (m.setHead queue ListHead.empty) queue (some p) := by
  have hempty : ((m.setHead queue ListHead.empty).queues queue) = (ListHead.empty : ListHead P) :=
    Function.update_self ..
  have hzero : (ListHead.empty : ListHead P).qlen = 0 := rfl
  rw [queuePacket, queuePacket]
  dsimp only
  rw [if_pos hqlen, hempty, if_pos hzero, hqlen]
  simp only [QueueMemory.setHead, Function.update_idem, ListHead.empty]

/-- Fresh buffers are all queued. -/
theorem allocatefreepacketbuffers_lined (hmem : Fintype.card P < 2 ^ 32) (h : Lined m l)
    (queue : Q) {answers : List P} (hnodup : answers.Nodup) (hout : ∀ p ∈ answers, ∀ queue', p ∉ l queue') :
    ∃ m', allocatefreepacketbuffers m queue answers = some m' ∧
      Lined m' (Function.update l queue (l queue ++ answers)) := by
  induction answers generalizing m l with
  | nil =>
    refine ⟨m, rfl, ?_⟩
    rw [List.append_nil, Function.update_eq_self]
    exact h
  | cons p answers ih =>
    obtain ⟨hp, hnodup⟩ := List.nodup_cons.mp hnodup
    have hlined : Lined (newpacket m p) l := h.update_links (hout p List.mem_cons_self) none none
    obtain ⟨m', hqueue, hlined'⟩ := queuePacket_lined hmem hlined (hout p List.mem_cons_self)
      (Function.update_self ..) queue
    have hout' : ∀ p' ∈ answers, ∀ queue',
        p' ∉ Function.update l queue (l queue ++ [p]) queue' := by
      intro p' hp' queue' hin
      by_cases hq : queue' = queue
      · subst hq
        rw [Function.update_self, List.mem_append, List.mem_singleton] at hin
        rcases hin with hin | rfl
        · exact hout p' (List.mem_cons_of_mem p hp') queue' hin
        · exact hp hp'
      · rw [Function.update_of_ne hq] at hin
        exact hout p' (List.mem_cons_of_mem p hp') queue' hin
    obtain ⟨m'', hrest, hlined''⟩ := ih hlined' hnodup hout'
    refine ⟨m'', ?_, ?_⟩
    · rw [allocatefreepacketbuffers, hqueue, Option.bind_some, hrest]
    · rw [Function.update_self, Function.update_idem, List.append_assoc,
        List.singleton_append] at hlined''
      exact hlined''

omit [Fintype P] in
/-- The pointers of the queue they are put into do not matter either. -/
theorem allocatefreepacketbuffers_unset (hqlen : (m.queues queue).qlen = 0) {answers : List P}
    (hne : answers ≠ []) :
    allocatefreepacketbuffers m queue answers =
      allocatefreepacketbuffers (m.setHead queue ListHead.empty) queue answers := by
  cases answers with
  | nil => exact absurd rfl hne
  | cons p answers =>
    have hqlen' : ((newpacket m p).queues queue).qlen = 0 := hqlen
    rw [allocatefreepacketbuffers, allocatefreepacketbuffers, queuePacket_unset hqlen' p]
    rfl

end Refill

/-! ### Conservation -/

/-- The queues of the memory manager between two rounds. -/
def poolLists {P : Type} (buffers : List P) : PoolQueue → List P
  | .freepacketbuffers => buffers
  | .packetbufferstaging => []

/-- The pool consists of `buffers`, and `out` are handed out: no buffer is there twice, and the
counter counts them all. -/
structure Conserved {P : Type} (pool : Pool P) (buffers out : List P) : Prop where
  lined : Lined pool.mem (poolLists buffers)
  nodup : (buffers ++ out).Nodup
  count : pool.allocatedpacketbuffers.toNat = buffers.length + out.length

section Conservation

variable {P : Type} {pool pool' : Pool P} {buffers out : List P} {p : P}

/-- A packet is in the pool, or in no queue. -/
theorem notMem_poolLists (hp : p ∉ buffers) (queue : PoolQueue) : p ∉ poolLists buffers queue := by
  cases queue with
  | freepacketbuffers => exact hp
  | packetbufferstaging => exact List.not_mem_nil

variable [DecidableEq P] [Fintype P]

/-- **A refill** adds fresh buffers to the pool. -/
theorem refill_conserved (hmem : Fintype.card P < 2 ^ 32) (h : Conserved pool buffers out)
    {answers : List P} (hne : answers ≠ []) (hnodup : (buffers ++ answers ++ out).Nodup) :
    ∃ pool', refill pool answers = some pool' ∧ Conserved pool' (buffers ++ answers) out := by
  have hsplit := List.nodup_append.mp (List.nodup_append.mp hnodup).1
  have hout : ∀ p ∈ answers, ∀ queue', p ∉ poolLists buffers queue' := by
    intro p hp queue'
    refine notMem_poolLists (fun hin => ?_) queue'
    exact hsplit.2.2 p hin p hp rfl
  obtain ⟨m, halloc, hlined⟩ := allocatefreepacketbuffers_lined hmem h.lined .packetbufferstaging
    hsplit.2.1 hout
  have hstaged : Function.update (poolLists buffers) .packetbufferstaging
      (poolLists buffers .packetbufferstaging ++ answers) .packetbufferstaging = answers :=
    Function.update_self ..
  obtain ⟨m', n, hmove, hn, hlined'⟩ := moveQueuedPackets_lined hmem hlined
    (by rw [hstaged]; exact hne) .freepacketbuffers
  rw [hstaged] at hn
  refine ⟨⟨m', pool.allocatedpacketbuffers + n⟩, ?_, ?_, hnodup, ?_⟩
  · rw [refill, halloc, Option.bind_some, hmove, Option.map_some]
  · have hlists : moved (Function.update (poolLists buffers) .packetbufferstaging
        (poolLists buffers .packetbufferstaging ++ answers)) .packetbufferstaging
          .freepacketbuffers = poolLists (buffers ++ answers) := by
      funext queue
      cases queue with
      | freepacketbuffers => simp [moved, poolLists]
      | packetbufferstaging => simp [moved, poolLists]
    rw [hlists] at hlined'
    exact hlined'
  · have hlen := hnodup.length_le_card.trans_lt hmem
    rw [List.length_append, List.length_append] at hlen
    rw [UInt32.toNat_add, h.count, hn, List.length_append]
    omega

/-- **A buffer is taken**: the first of the pool, or a fresh one. -/
theorem getFreepacketBuffer_conserved (hmem : Fintype.card P < 2 ^ 32)
    (h : Conserved pool buffers out) {answer : P} (hfresh : answer ∉ buffers ++ out) :
    ∃ pool' p, getFreepacketBuffer pool answer = (pool', some p) ∧
      Conserved pool' buffers.tail (p :: out) := by
  have hsingly := h.lined.singly .freepacketbuffers
  rw [getFreepacketBuffer]
  cases buffers with
  | nil =>
    have hqlen := hsingly.qlen_eq_zero_iff.mpr rfl
    have hout : ∀ queue, answer ∉ poolLists ([] : List P) queue :=
      notMem_poolLists List.not_mem_nil
    have hnodup : (answer :: out).Nodup := List.nodup_cons.mpr ⟨hfresh, h.nodup⟩
    have hlen := hnodup.length_le_card.trans_lt hmem
    rw [if_neg (by simp [hqlen])]
    refine ⟨_, answer, rfl, ?_, hnodup, ?_⟩
    · exact (h.lined.update_links hout none none).update_links hout none none
    · dsimp only
      rw [UInt32.toNat_add, h.count, List.length_nil, Nat.zero_add, List.tail_nil, List.length_nil,
        Nat.zero_add, List.length_cons]
      exact Nat.mod_eq_of_lt hlen
  | cons p buffers =>
    have hqlen : (pool.mem.queues .freepacketbuffers).qlen > 0 := by
      rw [gt_iff_lt, UInt32.lt_iff_toNat_lt, hsingly.qlen]
      exact Nat.succ_pos _
    obtain ⟨hfirst, hlined⟩ := dequeuePacket_lined h.lined .freepacketbuffers
    have hlists : Function.update (poolLists (p :: buffers)) .freepacketbuffers
        (poolLists (p :: buffers) .freepacketbuffers).tail = poolLists buffers := by
      funext queue
      cases queue with
      | freepacketbuffers => rfl
      | packetbufferstaging => rfl
    rw [hlists] at hlined
    have hp := (List.nodup_cons.mp h.nodup).1
    rw [if_pos hqlen]
    dsimp only
    rw [hfirst]
    refine ⟨_, p, rfl, ?_, ?_, ?_⟩
    · refine hlined.update_links (notMem_poolLists fun hin => hp ?_) none none
      exact List.mem_append_left out hin
    · exact (List.perm_middle.nodup_iff).mpr h.nodup
    · have hcount := h.count
      simp only [List.length_cons, List.tail_cons] at hcount ⊢
      omega

/-- **A buffer is put back** behind the others. -/
theorem putFreepacketBuffer_conserved (hmem : Fintype.card P < 2 ^ 32)
    (h : Conserved pool buffers out) (hp : p ∈ out) (hnext : pool.mem.next p = none) :
    ∃ pool', putFreepacketBuffer pool (some p) = some (pool', 0) ∧
      Conserved pool' (buffers ++ [p]) (out.erase p) := by
  have hperm : (buffers ++ [p] ++ out.erase p).Perm (buffers ++ out) := by
    rw [List.append_assoc, List.singleton_append]
    exact (List.perm_cons_erase hp).symm.append_left buffers
  have hout : p ∉ buffers := fun hin => (List.disjoint_of_nodup_append h.nodup) hin hp
  obtain ⟨m, hqueue, hlined⟩ := queuePacket_lined hmem h.lined (notMem_poolLists hout) hnext
    .freepacketbuffers
  refine ⟨{ pool with mem := m }, ?_, ?_, hperm.nodup_iff.mpr h.nodup, ?_⟩
  · rw [putFreepacketBuffer, hqueue, Option.map_some]
  · have hlists : Function.update (poolLists buffers) .freepacketbuffers
        (poolLists buffers .freepacketbuffers ++ [p]) = poolLists (buffers ++ [p]) := by
      funext queue
      cases queue with
      | freepacketbuffers => rfl
      | packetbufferstaging => rfl
    rw [hlists] at hlined
    exact hlined
  · rw [← List.length_append, hperm.length_eq, List.length_append]
    exact h.count

end Conservation

/-! ### Runs of the memory manager -/

section Runs

variable {P : Type} [DecidableEq P]

/-- The buffer is neither in use nor in a queue. -/
def FreshBuffer (pool : Pool P) (out : List P) (p : P) : Prop :=
  p ∉ out ∧ ∀ queue, ¬ InQueue pool.mem queue p

/-- The states of the memory manager, with the buffers that are handed out. -/
inductive PoolRun : Pool P → List P → Prop
  /-- The pool is a global variable; of the other queue only `qlen` is set before the first
  buffers are allocated. -/
  | start {m : QueueMemory PoolQueue P} {pool : Pool P} {answers : List P}
      (hnext : (m.queues .freepacketbuffers).next = none)
      (hqlen : ∀ queue, (m.queues queue).qlen = 0) (hnodup : answers.Nodup)
      (hlen : answers.length = initialfreepacketbuffers)
      (hrefill : refill ⟨m, 0⟩ answers = some pool) : PoolRun pool []
  | refill {pool pool' : Pool P} {out answers : List P} (hrun : PoolRun pool out)
      (hnodup : answers.Nodup) (hfresh : ∀ p ∈ answers, FreshBuffer pool out p)
      (hlen : answers.length = packetbufferstoallocate)
      (hrefill : Queues.refill pool answers = some pool') : PoolRun pool' out
  | get {pool pool' : Pool P} {out : List P} {answer p : P} (hrun : PoolRun pool out)
      (hfresh : FreshBuffer pool out answer)
      (hget : getFreepacketBuffer pool answer = (pool', some p)) : PoolRun pool' (p :: out)
  | put {pool pool' : Pool P} {out : List P} {p : P} {result : Int} (hrun : PoolRun pool out)
      (hp : p ∈ out) (hnext : pool.mem.next p = none)
      (hput : putFreepacketBuffer pool (some p) = some (pool', result)) : PoolRun pool' (out.erase p)
  /-- Who has a buffer writes to it. -/
  | write {pool : Pool P} {out : List P} {p : P} (hrun : PoolRun pool out) (hp : p ∈ out)
      (v w : Option P) :
      PoolRun
        { pool with
          mem :=
            { pool.mem with
              next := Function.update pool.mem.next p v
              prev := Function.update pool.mem.prev p w } } out

variable {pool : Pool P} {buffers out : List P} {p : P}

omit [DecidableEq P] in
/-- A fresh buffer is none of those that are counted. -/
theorem Conserved.notMem (h : Conserved pool buffers out) (hp : FreshBuffer pool out p) :
    p ∉ buffers ++ out := by
  rw [List.mem_append, not_or]
  refine ⟨fun hin => hp.2 .freepacketbuffers ?_, hp.1⟩
  exact (h.lined.inQueue_iff .freepacketbuffers).mpr hin

omit [DecidableEq P] in
/-- There are no buffers before the first are allocated. -/
theorem conserved_start {m : QueueMemory PoolQueue P}
    (hnext : (m.queues .freepacketbuffers).next = none)
    (hqlen : ∀ queue, (m.queues queue).qlen = 0) :
    Conserved (⟨m.setHead .packetbufferstaging ListHead.empty, 0⟩ : Pool P) [] [] := by
  refine ⟨⟨?_, ?_, ?_⟩, List.nodup_nil, rfl⟩
  · intro queue
    cases queue with
    | freepacketbuffers =>
      exact ⟨hnext, fun hne => absurd rfl hne, congrArg UInt32.toNat (hqlen .freepacketbuffers)⟩
    | packetbufferstaging => exact ⟨rfl, fun hne => absurd rfl hne, rfl⟩
  · intro queue
    cases queue <;> exact List.nodup_nil
  · intro queue queue' p hp
    exact absurd hp (notMem_poolLists List.not_mem_nil queue)

/-- **Buffers are conserved** in every run. -/
theorem PoolRun.conserved [Fintype P] (hmem : Fintype.card P < 2 ^ 32) (h : PoolRun pool out) :
    ∃ buffers, Conserved pool buffers out := by
  induction h with
  | @start m pool answers hnext hqlen hnodup hlen hrefill =>
    have hne : answers ≠ [] := by
      rintro rfl
      cases hlen
    obtain ⟨pool', hrefill', h'⟩ := refill_conserved hmem (conserved_start hnext hqlen) hne
      (by simpa using hnodup)
    rw [Queues.refill, allocatefreepacketbuffers_unset (hqlen _) hne] at hrefill
    rw [Queues.refill, hrefill] at hrefill'
    cases hrefill'
    exact ⟨_, h'⟩
  | @refill pool pool' out answers _ hnodup hfresh hlen hrefill ih =>
    obtain ⟨buffers, h⟩ := ih
    have hne : answers ≠ [] := by
      rintro rfl
      cases hlen
    have hall : (buffers ++ answers ++ out).Nodup := by
      have hperm : (buffers ++ answers ++ out).Perm (answers ++ (buffers ++ out)) := by
        rw [← List.append_assoc]
        exact List.perm_append_comm.append_right out
      refine hperm.nodup_iff.mpr (hnodup.append h.nodup ?_)
      intro p hp
      exact h.notMem (hfresh p hp)
    obtain ⟨pool'', hrefill', h'⟩ := refill_conserved hmem h hne hall
    rw [hrefill] at hrefill'
    cases hrefill'
    exact ⟨_, h'⟩
  | @get pool pool' out answer p _ hfresh hget ih =>
    obtain ⟨buffers, h⟩ := ih
    obtain ⟨pool'', p', hget', h'⟩ := getFreepacketBuffer_conserved hmem h (h.notMem hfresh)
    rw [hget] at hget'
    cases hget'
    exact ⟨_, h'⟩
  | @put pool pool' out p result _ hp hnext hput ih =>
    obtain ⟨buffers, h⟩ := ih
    obtain ⟨pool'', hput', h'⟩ := putFreepacketBuffer_conserved hmem h hp hnext
    rw [hput] at hput'
    cases hput'
    exact ⟨_, h'⟩
  | @write pool out p _ hp v w ih =>
    obtain ⟨buffers, h⟩ := ih
    have hout : p ∉ buffers := fun hin => (List.disjoint_of_nodup_append h.nodup) hin hp
    exact ⟨buffers, h.lined.update_links (notMem_poolLists hout) v w, h.nodup, h.count⟩

/-- While not all buffers are handed out, one can be taken and none is allocated. -/
theorem PoolRun.can_get [Fintype P] (hmem : Fintype.card P < 2 ^ 32) (h : PoolRun pool out)
    (hleft : out.length < pool.allocatedpacketbuffers.toNat)
    (hroom : pool.allocatedpacketbuffers.toNat < Fintype.card P) :
    ∃ pool' p, PoolRun pool' (p :: out) ∧
      pool'.allocatedpacketbuffers = pool.allocatedpacketbuffers := by
  obtain ⟨buffers, hcon⟩ := h.conserved hmem
  have hcount := hcon.count
  obtain ⟨answer, hanswer⟩ : ∃ answer, answer ∉ buffers ++ out := by
    by_contra hall
    simp only [not_exists, not_not] at hall
    have hcard := Finset.card_le_card fun p (_ : p ∈ Finset.univ) => List.mem_toFinset.mpr (hall p)
    have hlen := (buffers ++ out).toFinset_card_le
    rw [Finset.card_univ] at hcard
    rw [List.length_append] at hlen
    omega
  rw [List.mem_append, not_or] at hanswer
  have hfresh : FreshBuffer pool out answer := by
    refine ⟨hanswer.2, fun queue hin => ?_⟩
    exact notMem_poolLists hanswer.1 queue ((hcon.lined.inQueue_iff queue).mp hin)
  have hqlen : (pool.mem.queues .freepacketbuffers).qlen > 0 := by
    rw [gt_iff_lt, UInt32.lt_iff_toNat_lt, (hcon.lined.singly .freepacketbuffers).qlen]
    show 0 < buffers.length
    omega
  obtain ⟨pool', p, hget, -⟩ := getFreepacketBuffer_conserved hmem hcon (hcon.notMem hfresh)
  refine ⟨pool', p, h.get hfresh hget, ?_⟩
  rw [getFreepacketBuffer, if_pos hqlen] at hget
  dsimp only at hget
  split at hget
  · cases (Prod.mk.inj hget).2
  · rw [← (Prod.mk.inj hget).1]

/-- A buffer that was handed out can be put back. -/
theorem PoolRun.can_put [Fintype P] (hmem : Fintype.card P < 2 ^ 32) (h : PoolRun pool out)
    (hp : p ∈ out) :
    ∃ pool', PoolRun pool' (out.erase p) ∧
      pool'.allocatedpacketbuffers = pool.allocatedpacketbuffers := by
  have hwritten := h.write hp none none
  obtain ⟨buffers, hcon⟩ := hwritten.conserved hmem
  obtain ⟨pool', hput, -⟩ := putFreepacketBuffer_conserved hmem hcon hp (Function.update_self ..)
  refine ⟨pool', hwritten.put hp (Function.update_self ..) hput, ?_⟩
  rw [putFreepacketBuffer, Option.map_eq_some_iff] at hput
  obtain ⟨r, -, hr⟩ := hput
  rw [← (Prod.mk.inj hr).1]

end Runs

/-! ### The laws -/

/-- The queues are FIFO: what has entered a queue is what has left it followed by its packets
`l`, the next to leave is the first of these, and the operations return. -/
structure Fifo {Q P : Type} [DecidableEq Q] [DecidableEq P] (m : QueueMemory Q P)
    (entered left l : Q → List P) : Prop where
  order : ∀ queue, entered queue = left queue ++ l queue
  linked : ∀ queue, Chain m.next (m.queues queue).next (l queue) none
  qlen : ∀ queue, (m.queues queue).qlen.toNat = (l queue).length
  nodup : ∀ queue, (l queue).Nodup
  apart : ∀ queue queue' p, p ∈ l queue → p ∈ l queue' → queue = queue'
  first : ∀ queue, (dequeuePacket m queue).2 = (l queue).head?
  queues : ∀ queue p, (∀ queue', ¬ InQueue m queue' p) → m.next p = none →
    ∃ m', queuePacket m queue (some p) = some (m', 0)
  moves : ∀ fromqueue toqueue, l fromqueue ≠ [] →
    ∃ m' qlen, moveQueuedPackets m fromqueue toqueue = some (m', qlen) ∧
      qlen.toNat = (l fromqueue).length

/-- The pool consists of `buffers`; with those handed out they are what was allocated, and the
operations return. -/
structure Balanced {P : Type} [DecidableEq P] (pool : Pool P) (buffers out : List P) : Prop where
  linked : Chain pool.mem.next (pool.mem.queues .freepacketbuffers).next buffers none
  qlen : (pool.mem.queues .freepacketbuffers).qlen.toNat = buffers.length
  count : pool.allocatedpacketbuffers.toNat = buffers.length + out.length
  nodup : (buffers ++ out).Nodup
  gets : ∀ answer, FreshBuffer pool out answer →
    ∃ pool' p, getFreepacketBuffer pool answer = (pool', some p)
  puts : ∀ p ∈ out, pool.mem.next p = none →
    ∃ pool', putFreepacketBuffer pool (some p) = some (pool', 0)

/-- **The queues are FIFO and the pool conserves its buffers**, in every run. There is no memory
for `2 ^ 32` packets. -/
theorem queues_and_pool (Q P : Type) [DecidableEq Q] [DecidableEq P] [Fintype P]
    (hmem : Fintype.card P < 2 ^ 32) :
    (∀ (m : QueueMemory Q P) entered left, Run m entered left → ∃ l, Fifo m entered left l) ∧
      ∀ (pool : Pool P) out, PoolRun pool out → ∃ buffers, Balanced pool buffers out := by
  constructor
  · intro m entered left hrun
    obtain ⟨l, h, horder⟩ := hrun.fifo hmem
    refine ⟨l, horder, fun queue => (h.singly queue).forward, fun queue => (h.singly queue).qlen,
      h.nodup, h.apart, fun queue => (dequeuePacket_lined h queue).1, ?_, ?_⟩
    · intro queue p hout hnext
      have hp : ∀ queue', p ∉ l queue' := fun queue' hp =>
        hout queue' ((h.inQueue_iff queue').mpr hp)
      obtain ⟨m', hqueue, -⟩ := queuePacket_lined hmem h hp hnext queue
      exact ⟨m', hqueue⟩
    · intro fromqueue toqueue hne
      obtain ⟨m', qlen, hmove, hqlen, -⟩ := moveQueuedPackets_lined hmem h hne toqueue
      exact ⟨m', qlen, hmove, hqlen⟩
  · intro pool out hrun
    obtain ⟨buffers, h⟩ := hrun.conserved hmem
    have hsingly := h.lined.singly .freepacketbuffers
    refine ⟨buffers, hsingly.forward, hsingly.qlen, h.count, h.nodup, ?_, ?_⟩
    · intro answer hfresh
      obtain ⟨pool', p, hget, -⟩ := getFreepacketBuffer_conserved hmem h (h.notMem hfresh)
      exact ⟨pool', p, hget⟩
    · intro p hp hnext
      obtain ⟨pool', hput, -⟩ := putFreepacketBuffer_conserved hmem h hp hnext
      exact ⟨pool', hput⟩

/-- Queues without packets, and packets without links. -/
def noPackets (Q P : Type) : QueueMemory Q P :=
  ⟨fun _ => none, fun _ => none, fun _ => ListHead.empty⟩

/-- Two packets enter a queue, the first is taken and the other moved behind a packet of a second
queue, from which that one is taken; and of the buffers of a full pool two are taken, one of which
is put back. -/
theorem queues_and_pool_used :
    (∃ m entered left l, Run (Q := Bool) (P := Fin 2000) m entered left ∧
      entered true = [7, 8] ∧ left true = [7, 8] ∧ entered false = [9, 8] ∧ left false = [9] ∧
      Fifo m entered left l) ∧
      ∃ (pool : Pool (Fin 2000)) (buffers : List (Fin 2000)) (p : Fin 2000), PoolRun pool [p] ∧
        Balanced pool buffers [p] ∧ pool.allocatedpacketbuffers.toNat = 1000 ∧
        buffers.length = 999 := by
  have hmem : Fintype.card (Fin 2000) < 2 ^ 32 := by
    rw [Fintype.card_fin]
    decide
  obtain ⟨hqueues, hpool⟩ := queues_and_pool Bool (Fin 2000) hmem
  constructor
  · have hstart : Run (noPackets Bool (Fin 2000)) (fun _ => []) fun _ => [] :=
      .start (fun _ => rfl) fun _ => rfl
    obtain ⟨m₁, hrun₁⟩ := hstart.can_queue hmem true (fun _ => List.not_mem_nil) (p := 7)
    obtain ⟨m₂, hrun₂⟩ := hrun₁.can_queue hmem true (by decide) (p := 8)
    obtain ⟨m₃, hrun₃⟩ := hrun₂.can_queue hmem false (by decide) (p := 9)
    obtain ⟨m₄, hrun₄⟩ := hrun₃.can_dequeue hmem true (show _ = [] ++ 7 :: [8] from rfl)
    obtain ⟨m₅, hrun₅⟩ := hrun₄.can_move hmem true false (List.cons_ne_nil 8 []) (by decide)
    obtain ⟨m₆, hrun₆⟩ := hrun₅.can_dequeue hmem false (show _ = [] ++ 9 :: [8] from rfl)
    obtain ⟨l, hfifo⟩ := hqueues _ _ _ hrun₆
    exact ⟨_, _, _, l, hrun₆, rfl, rfl, rfl, rfl, hfifo⟩
  · have hnodup : ((List.finRange 2000).take 1000).Nodup :=
      (List.nodup_finRange 2000).sublist (List.take_sublist ..)
    have hlen : ((List.finRange 2000).take 1000).length = initialfreepacketbuffers := by
      rw [List.length_take, List.length_finRange]
      rfl
    have hne : (List.finRange 2000).take 1000 ≠ [] := by
      intro hnil
      rw [hnil] at hlen
      cases hlen
    obtain ⟨pool, hrefill, hfull⟩ := refill_conserved hmem
      (conserved_start (m := noPackets PoolQueue (Fin 2000)) rfl fun _ => rfl) hne
        (by simpa using hnodup)
    rw [refill, ← allocatefreepacketbuffers_unset rfl hne] at hrefill
    have hcount : pool.allocatedpacketbuffers.toNat = 1000 := by
      rw [hfull.count, List.nil_append, hlen]
      rfl
    have hrun : PoolRun pool [] := .start rfl (fun _ => rfl) hnodup hlen hrefill
    obtain ⟨pool₁, p, hrun₁, hsame₁⟩ := hrun.can_get hmem (by rw [hcount]; decide)
      (by rw [hcount, Fintype.card_fin]; decide)
    obtain ⟨pool₂, p', hrun₂, hsame₂⟩ := hrun₁.can_get hmem
      (by rw [hsame₁, hcount, List.length_singleton]; decide)
      (by rw [hsame₁, hcount, Fintype.card_fin]; decide)
    obtain ⟨pool₃, hrun₃, hsame₃⟩ := hrun₂.can_put hmem List.mem_cons_self
    rw [List.erase_cons_head] at hrun₃
    obtain ⟨buffers, hbalanced⟩ := hpool pool₃ [p] hrun₃
    have hcount₃ : pool₃.allocatedpacketbuffers.toNat = 1000 := by
      rw [hsame₃, hsame₂, hsame₁, hcount]
    have hbuffers := hbalanced.count
    rw [hcount₃, List.length_singleton] at hbuffers
    exact ⟨pool₃, buffers, p, hrun₃, hbalanced, hcount₃, by omega⟩

end Solowan.Queues
