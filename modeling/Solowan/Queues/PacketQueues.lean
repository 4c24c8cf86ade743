/-
The packet queues (`opennopd/queuemanager.c`).

A queue is a head with its first and its last packet and the number of its packets; the packets
are linked both ways, but only `next` is followed. The operations ask in three ways whether a
queue is empty: by the number of packets, by its first packet, and by the first packet of the
queue that packets are moved to. A packet that leaves a queue is still what `prev` of the new
first packet points to, and what `prev` of the queue points to when it was the only one.

The pointers that count are those of `Lined`: the queues are singly linked lists with a last
node, and no packet is in two of them.

* `queuePacket_lined`, `dequeuePacket_lined`, `moveQueuedPackets_lined`: the operations do to
  the lists what they are for.
* `Run.fifo`: packets leave a queue in the order in which they have entered it.
-/

import Mathlib.Data.Fintype.Card
import Solowan.Memory.Chain

namespace Solowan.Queues

open Solowan.Memory

/-- The links of the packets, and the heads of the queues. -/
structure QueueMemory (Q P : Type) where
  next : P → Option P
  prev : P → Option P
  queues : Q → ListHead P

section Operations

variable {Q P : Type} [DecidableEq Q] [DecidableEq P]

/-- Change the head of a queue. -/
def QueueMemory.setHead (m : QueueMemory Q P) (queue : Q) (h : ListHead P) : QueueMemory Q P :=
  { m with queues := Function.update m.queues queue h }

/-- `queue_packet`. It would follow the null pointer in a queue that counts packets and has no
last one. -/
def queuePacket (m : QueueMemory Q P) (queue : Q) (thispacket : Option P) :
    Option (QueueMemory Q P × Int) :=
  match thispacket with
  | none => some (m, -1)
  | some p =>
    let h := m.queues queue
    if h.qlen = 0 then some (m.setHead queue ⟨some p, some p, h.qlen + 1⟩, 0)
    else
      match h.prev with
      | none => none
      | some last =>
        let m := { m with prev := Function.update m.prev p (some last) }
        let m := { m with next := Function.update m.next last (some p) }
        some (m.setHead queue { h with prev := some p, qlen := h.qlen + 1 }, 0)

/-- `dequeue_packet`, when it has not waited or has been woken up. -/
def dequeuePacket (m : QueueMemory Q P) (queue : Q) : QueueMemory Q P × Option P :=
  let h := m.queues queue
  match h.next with
  | none => (m, none)
  | some p =>
    let m := m.setHead queue { h with next := m.next p, qlen := h.qlen - 1 }
    ({ m with
        next := Function.update m.next p none
        prev := Function.update m.prev p none }, some p)

/-- `move_queued_packets`, with the number of packets. It would follow the null pointer when
there is nothing to move and the other queue is not empty. It is one step here, although the
source releases the lock of the first queue before it takes that of the second: in between the
packets are in neither queue, and only the thread that moves them can reach them. -/
def moveQueuedPackets (m : QueueMemory Q P) (fromqueue toqueue : Q) :
    Option (QueueMemory Q P × UInt32) :=
  let ⟨start, last, qlen⟩ := m.queues fromqueue
  let m := m.setHead fromqueue ⟨none, none, 0⟩
  let h := m.queues toqueue
  if h.next = none then some (m.setHead toqueue ⟨start, last, qlen⟩, qlen)
  else
    match start, h.prev with
    | some first, some end' =>
      let m := { m with prev := Function.update m.prev first (some end') }
      let m := { m with next := Function.update m.next end' start }
      some (m.setHead toqueue { h with prev := last, qlen := h.qlen + qlen }, qlen)
    | _, _ => none

end Operations

/-! ### The lists of the queues -/

/-- The queues are the lists `l`, which have no packet in common. -/
structure Lined {Q P : Type} (m : QueueMemory Q P) (l : Q → List P) : Prop where
  singly : ∀ queue, Singly m.next (m.queues queue) (l queue)
  nodup : ∀ queue, (l queue).Nodup
  apart : ∀ queue queue' p, p ∈ l queue → p ∈ l queue' → queue = queue'

section Lists

variable {Q P : Type} [DecidableEq Q] {m : QueueMemory Q P} {l : Q → List P} {p : P} {queue : Q}

/-- One queue is exchanged for another, of packets that are in no other queue. The links of the
others are not touched. -/
theorem Lined.replace (h : Lined m l) {next' prev' : P → Option P} {head : ListHead P}
    {packets : List P} (hnew : Singly next' head packets) (hnodup : packets.Nodup)
    (hold : ∀ queue', queue' ≠ queue → Singly next' (m.queues queue') (l queue'))
    (hapart : ∀ queue', queue' ≠ queue → ∀ p ∈ packets, p ∉ l queue') :
    Lined ⟨next', prev', Function.update m.queues queue head⟩ (Function.update l queue packets) := by
  constructor
  case singly =>
    intro queue'
    by_cases hq : queue' = queue
    · subst hq
      simpa using hnew
    · simpa [hq] using hold queue' hq
  case nodup =>
    intro queue'
    by_cases hq : queue' = queue
    · subst hq
      simpa using hnodup
    · simpa [hq] using h.nodup queue'
  case apart =>
    intro queue₁ queue₂ p h₁ h₂
    by_cases hq₁ : queue₁ = queue
    · by_cases hq₂ : queue₂ = queue
      · rw [hq₁, hq₂]
      · rw [hq₁, Function.update_self] at h₁
        rw [Function.update_of_ne hq₂] at h₂
        exact absurd h₂ (hapart queue₂ hq₂ p h₁)
    · rw [Function.update_of_ne hq₁] at h₁
      by_cases hq₂ : queue₂ = queue
      · rw [hq₂, Function.update_self] at h₂
        exact absurd h₁ (hapart queue₁ hq₁ p h₂)
      · rw [Function.update_of_ne hq₂] at h₂
        exact h.apart queue₁ queue₂ p h₁ h₂

variable [DecidableEq P]

omit [DecidableEq Q] in
/-- A store to the links of a packet that is in no queue. -/
theorem Lined.update_links (h : Lined m l) (hp : ∀ queue, p ∉ l queue) (v w : Option P) :
    Lined { m with next := Function.update m.next p v, prev := Function.update m.prev p w } l :=
  ⟨fun queue => (h.singly queue).update_next (hp queue) v, h.nodup, h.apart⟩

/-- **Dequeueing** takes the first packet. -/
theorem dequeuePacket_lined (h : Lined m l) (queue : Q) :
    (dequeuePacket m queue).2 = (l queue).head? ∧
      Lined (dequeuePacket m queue).1 (Function.update l queue (l queue).tail) := by
  have hsingly := h.singly queue
  have hhead := hsingly.forward.head
  rw [dequeuePacket]
  dsimp only
  cases hl : l queue with
  | nil =>
    have hsame : Function.update l queue [] = l := by rw [← hl, Function.update_eq_self]
    rw [hl] at hhead
    rw [hhead]
    refine ⟨rfl, ?_⟩
    rw [List.tail_nil, hsame]
    exact h
  | cons p rest =>
    rw [hl] at hhead hsingly
    rw [hhead]
    have hnodup := h.nodup queue
    rw [hl, List.nodup_cons] at hnodup
    have hp : ∀ queue', queue' ≠ queue → p ∉ l queue' := by
      intro queue' hq hp
      exact hq (h.apart queue' queue p hp (hl ▸ List.mem_cons_self))
    refine ⟨rfl, h.replace ?_ hnodup.2 ?_ ?_⟩
    · exact hsingly.tail.update_next hnodup.1 none
    · intro queue' hq
      exact (h.singly queue').update_next (hp queue' hq) none
    · intro queue' hq p' hp' hin
      exact hq (h.apart queue' queue p' hin (hl ▸ List.mem_cons_of_mem p hp'))

variable [Fintype P]

/-- **Queueing** appends. -/
theorem queuePacket_lined (hmem : Fintype.card P < 2 ^ 32) (h : Lined m l)
    (hp : ∀ queue, p ∉ l queue) (hnext : m.next p = none) (queue : Q) :
    ∃ m', queuePacket m queue (some p) = some (m', 0) ∧
      Lined m' (Function.update l queue (l queue ++ [p])) := by
  have hsingly := h.singly queue
  have hone : Singly m.next ⟨some p, some p, 1⟩ [p] := ⟨⟨rfl, hnext⟩, fun _ => rfl, rfl⟩
  have hnodup : (l queue ++ [p]).Nodup :=
    (h.nodup queue).append (List.nodup_singleton p) (by simpa using hp queue)
  have happend := hsingly.append hone (by simp) hnodup (hnodup.length_le_card.trans_lt hmem)
  have hapart : ∀ queue', queue' ≠ queue → ∀ p' ∈ l queue ++ [p], p' ∉ l queue' := by
    intro queue' hq p' hp' hin
    rcases List.mem_append.mp hp' with hold | hnew
    · exact hq (h.apart queue' queue p' hin hold)
    · rw [List.mem_singleton.mp hnew] at hin
      exact hp queue' hin
  rw [queuePacket]
  dsimp only
  by_cases hqlen : (m.queues queue).qlen = 0
  · have hnil := hsingly.qlen_eq_zero_iff.mp hqlen
    rw [if_pos hqlen]
    refine ⟨_, rfl, h.replace ?_ hnodup (fun queue' _ => h.singly queue') hapart⟩
    rw [hnil] at happend ⊢
    exact happend
  · have hne : l queue ≠ [] := fun hnil => hqlen (hsingly.qlen_eq_zero_iff.mpr hnil)
    obtain ⟨last, hlast⟩ : ∃ last, (l queue).getLast? = some last :=
      ⟨_, List.getLast?_eq_some_getLast hne⟩
    rw [if_neg hqlen, hsingly.last hne, hlast]
    rw [hlast, if_neg hne] at happend
    refine ⟨_, rfl, h.replace happend hnodup ?_ hapart⟩
    -- the last packet of this queue is in no other
    intro queue' hq
    refine (h.singly queue').update_next ?_ _
    intro hin
    exact hq (h.apart queue' queue last hin (List.mem_of_getLast? hlast))

/-- The lists when all packets of a queue are moved behind those of another. -/
def moved (l : Q → List P) (fromqueue toqueue : Q) : Q → List P :=
  let l' := Function.update l fromqueue []
  Function.update l' toqueue (l' toqueue ++ l fromqueue)

/-- **Moving** appends all packets of a queue, and leaves none behind. -/
theorem moveQueuedPackets_lined (hmem : Fintype.card P < 2 ^ 32) (h : Lined m l)
    {fromqueue : Q} (hfrom : l fromqueue ≠ []) (toqueue : Q) :
    ∃ m' qlen, moveQueuedPackets m fromqueue toqueue = some (m', qlen) ∧
      qlen.toNat = (l fromqueue).length ∧ Lined m' (moved l fromqueue toqueue) := by
  have hsingly := h.singly fromqueue
  have hcleared : Lined (m.setHead fromqueue ⟨none, none, 0⟩) (Function.update l fromqueue []) :=
    h.replace ⟨rfl, fun hne => absurd rfl hne, rfl⟩ List.nodup_nil (fun queue' _ => h.singly queue')
      fun _ _ _ hp => absurd hp List.not_mem_nil
  have hto := hcleared.singly toqueue
  -- what is moved is in no queue any more
  have hout : ∀ p ∈ l fromqueue, ∀ queue', p ∉ Function.update l fromqueue [] queue' := by
    intro p hp queue' hin
    by_cases hq : queue' = fromqueue
    · rw [hq, Function.update_self] at hin
      exact List.not_mem_nil hin
    · rw [Function.update_of_ne hq] at hin
      exact hq (h.apart queue' fromqueue p hin hp)
  have hnodup : (Function.update l fromqueue [] toqueue ++ l fromqueue).Nodup :=
    (hcleared.nodup toqueue).append (h.nodup fromqueue) fun p hin hp => hout p hp toqueue hin
  have happend := hto.append hsingly hfrom hnodup (hnodup.length_le_card.trans_lt hmem)
  have hapart : ∀ queue', queue' ≠ toqueue →
      ∀ p ∈ Function.update l fromqueue [] toqueue ++ l fromqueue,
        p ∉ Function.update l fromqueue [] queue' := by
    intro queue' hq p hp hin
    rcases List.mem_append.mp hp with hold | hnew
    · exact hq (hcleared.apart queue' toqueue p hin hold)
    · exact hout p hnew queue' hin
  rw [moveQueuedPackets]
  dsimp only
  by_cases hnone : ((m.setHead fromqueue ⟨none, none, 0⟩).queues toqueue).next = none
  · have hnil := hto.next_eq_none_iff.mp hnone
    have hqlen := hto.qlen_eq_zero_iff.mpr hnil
    rw [if_pos hnone]
    refine ⟨_, _, rfl, hsingly.qlen, hcleared.replace ?_ hnodup
      (fun queue' _ => hcleared.singly queue') hapart⟩
    rw [hqlen, hnil, UInt32.zero_add] at happend
    rw [hnil]
    exact happend
  · have hne : Function.update l fromqueue [] toqueue ≠ [] := fun hnil =>
      hnone (hto.next_eq_none_iff.mpr hnil)
    obtain ⟨last, hlast⟩ : ∃ last, (Function.update l fromqueue [] toqueue).getLast? = some last :=
      ⟨_, List.getLast?_eq_some_getLast hne⟩
    obtain ⟨first, hfirst⟩ : ∃ first, (m.queues fromqueue).next = some first := by
      refine Option.ne_none_iff_exists'.mp fun hnil => hfrom ?_
      exact hsingly.next_eq_none_iff.mp hnil
    rw [if_neg hnone, hfirst, hto.last hne, hlast]
    rw [hlast, if_neg hne, hfirst] at happend
    refine ⟨_, _, rfl, hsingly.qlen, hcleared.replace happend hnodup ?_ hapart⟩
    -- the last packet of the queue is in no other
    intro queue' hq
    refine (hcleared.singly queue').update_next ?_ _
    intro hin
    exact hq (hcleared.apart queue' toqueue last hin (List.mem_of_getLast? hlast))

end Lists

/-! ### Runs -/

/-- The packet `p` can be reached from the head of the queue. -/
def InQueue {Q P : Type} (m : QueueMemory Q P) (queue : Q) (p : P) : Prop :=
  ∃ l, Chain m.next (m.queues queue).next l none ∧ p ∈ l

section Runs

variable {Q P : Type} [DecidableEq Q] [DecidableEq P]

/-- The states that the operations lead to, in any order and on any queues, with the packets
that have entered and left each queue so far. -/
inductive Run : QueueMemory Q P → (Q → List P) → (Q → List P) → Prop
  | start {m : QueueMemory Q P} (hnext : ∀ queue, (m.queues queue).next = none)
      (hqlen : ∀ queue, (m.queues queue).qlen = 0) : Run m (fun _ => []) fun _ => []
  | queue {m m' : QueueMemory Q P} {entered left : Q → List P} {p : P} {queue : Q} {result : Int}
      (hrun : Run m entered left) (hout : ∀ queue', ¬ InQueue m queue' p)
      (hnext : m.next p = none) (hqueue : queuePacket m queue (some p) = some (m', result)) :
      Run m' (Function.update entered queue (entered queue ++ [p])) left
  | dequeue {m : QueueMemory Q P} {entered left : Q → List P} (hrun : Run m entered left)
      (queue : Q) :
      Run (dequeuePacket m queue).1 entered
        (Function.update left queue (left queue ++ (dequeuePacket m queue).2.toList))
  | move {m m' : QueueMemory Q P} {entered left : Q → List P} {fromqueue toqueue : Q}
      {packets : List P} {qlen : UInt32} (hrun : Run m entered left)
      (hfrom : (m.queues fromqueue).next ≠ none)
      (hpackets : Chain m.next (m.queues fromqueue).next packets none)
      (hmove : moveQueuedPackets m fromqueue toqueue = some (m', qlen)) :
      Run m' (Function.update entered toqueue (entered toqueue ++ packets))
        (Function.update left fromqueue (left fromqueue ++ packets))
  /-- Whoever has a packet that is in no queue writes to it. -/
  | write {m : QueueMemory Q P} {entered left : Q → List P} {p : P} (hrun : Run m entered left)
      (hout : ∀ queue', ¬ InQueue m queue' p) (v w : Option P) :
      Run { m with next := Function.update m.next p v, prev := Function.update m.prev p w }
        entered left

variable {m : QueueMemory Q P} {entered left l : Q → List P} {p : P}

omit [DecidableEq Q] [DecidableEq P] in
theorem Lined.inQueue_iff (h : Lined m l) (queue : Q) : InQueue m queue p ↔ p ∈ l queue := by
  constructor
  · rintro ⟨l', hchain, hp⟩
    rw [(h.singly queue).forward.unique hchain]
    exact hp
  · intro hp
    exact ⟨l queue, (h.singly queue).forward, hp⟩

/-- **First in, first out.** What has entered a queue is what has left it and behind that, in
the same order, what is still there. -/
theorem Run.fifo [Fintype P] (hmem : Fintype.card P < 2 ^ 32) (h : Run m entered left) :
    ∃ l, Lined m l ∧ ∀ queue, entered queue = left queue ++ l queue := by
  induction h with
  | start hnext hqlen =>
    refine ⟨fun _ => [], ⟨fun queue => ⟨hnext queue, ?_, ?_⟩, ?_, ?_⟩, fun _ => rfl⟩
    · exact fun hne => absurd rfl hne
    · rw [hqlen]
      rfl
    · exact fun _ => List.nodup_nil
    · exact fun _ _ _ hp => absurd hp List.not_mem_nil
  | @queue m m' entered left p queue result _ hout hnext hqueue ih =>
    obtain ⟨l, h, heq⟩ := ih
    have hp : ∀ queue', p ∉ l queue' := fun queue' hp => hout queue' ((h.inQueue_iff queue').mpr hp)
    obtain ⟨m'', hq, h'⟩ := queuePacket_lined hmem h hp hnext queue
    rw [hqueue] at hq
    cases hq
    refine ⟨_, h', fun queue' => ?_⟩
    by_cases hq : queue' = queue
    · subst hq
      rw [Function.update_self, Function.update_self, heq, List.append_assoc]
    · rw [Function.update_of_ne hq, Function.update_of_ne hq, heq]
  | @dequeue m entered left _ queue ih =>
    obtain ⟨l, h, heq⟩ := ih
    obtain ⟨hfirst, h'⟩ := dequeuePacket_lined h queue
    refine ⟨_, h', fun queue' => ?_⟩
    by_cases hq : queue' = queue
    · subst hq
      rw [Function.update_self, Function.update_self, heq, hfirst, List.append_assoc]
      cases l queue' with
      | nil => rfl
      | cons p rest => rfl
    · rw [Function.update_of_ne hq, Function.update_of_ne hq, heq]
  | @move m m' entered left fromqueue toqueue packets qlen _ hfrom hpackets hmove ih =>
    obtain ⟨l, h, heq⟩ := ih
    obtain rfl := (h.singly fromqueue).forward.unique hpackets
    have hne : l fromqueue ≠ [] := fun hnil =>
      hfrom ((h.singly fromqueue).next_eq_none_iff.mpr hnil)
    obtain ⟨m'', _, hm, -, h'⟩ := moveQueuedPackets_lined hmem h hne toqueue
    rw [hmove] at hm
    cases hm
    refine ⟨_, h', fun queue' => ?_⟩
    rw [moved]
    by_cases hto : queue' = toqueue
    · subst hto
      rw [Function.update_self, Function.update_self, heq]
      by_cases hf : queue' = fromqueue
      · subst hf
        rw [Function.update_self, Function.update_self, List.nil_append]
      · rw [Function.update_of_ne hf, Function.update_of_ne hf, List.append_assoc]
    · rw [Function.update_of_ne hto, Function.update_of_ne hto, heq]
      by_cases hf : queue' = fromqueue
      · subst hf
        rw [Function.update_self, Function.update_self, List.append_nil]
      · rw [Function.update_of_ne hf, Function.update_of_ne hf]
  | write _ hout v w ih =>
    obtain ⟨l, h, heq⟩ := ih
    exact ⟨l, h.update_links (fun queue' hp => hout queue' ((h.inQueue_iff queue').mpr hp)) v w, heq⟩

/-- A packet that has not entered any queue can be queued. -/
theorem Run.can_queue [Fintype P] (hmem : Fintype.card P < 2 ^ 32) (h : Run m entered left)
    (queue : Q) (hp : ∀ queue', p ∉ entered queue') :
    ∃ m', Run m' (Function.update entered queue (entered queue ++ [p])) left := by
  obtain ⟨l, hlined, heq⟩ := h.fifo hmem
  have hnotin : ∀ queue', p ∉ l queue' := by
    intro queue' hin
    refine hp queue' ?_
    rw [heq]
    exact List.mem_append_right _ hin
  have hcleared := hlined.update_links hnotin none none
  obtain ⟨m', hqueue, -⟩ := queuePacket_lined hmem hcleared hnotin (Function.update_self ..) queue
  refine ⟨m', (h.write ?_ none none).queue ?_ (Function.update_self ..) hqueue⟩
  · exact fun queue' hin => hnotin queue' ((hlined.inQueue_iff queue').mp hin)
  · exact fun queue' hin => hnotin queue' ((hcleared.inQueue_iff queue').mp hin)

/-- The first packet that has entered a queue and has not left it can be taken. -/
theorem Run.can_dequeue [Fintype P] (hmem : Fintype.card P < 2 ^ 32) (h : Run m entered left)
    (queue : Q) {rest : List P} (hfirst : entered queue = left queue ++ p :: rest) :
    ∃ m', Run m' entered (Function.update left queue (left queue ++ [p])) := by
  obtain ⟨l, hlined, heq⟩ := h.fifo hmem
  obtain ⟨htaken, -⟩ := dequeuePacket_lined hlined queue
  have hl : l queue = p :: rest := List.append_cancel_left ((heq queue).symm.trans hfirst)
  have hrun := h.dequeue queue
  rw [htaken, hl] at hrun
  exact ⟨_, hrun⟩

/-- All that is left of a queue can be moved. -/
theorem Run.can_move [Fintype P] (hmem : Fintype.card P < 2 ^ 32) (h : Run m entered left)
    (fromqueue toqueue : Q) {packets : List P} (hne : packets ≠ [])
    (hpackets : entered fromqueue = left fromqueue ++ packets) :
    ∃ m', Run m' (Function.update entered toqueue (entered toqueue ++ packets))
      (Function.update left fromqueue (left fromqueue ++ packets)) := by
  obtain ⟨l, hlined, heq⟩ := h.fifo hmem
  have hl : l fromqueue = packets :=
    List.append_cancel_left ((heq fromqueue).symm.trans hpackets)
  have hsingly := hlined.singly fromqueue
  rw [hl] at hsingly
  obtain ⟨m', qlen, hmove, -⟩ := moveQueuedPackets_lined hmem hlined (by rw [hl]; exact hne) toqueue
  exact ⟨m', h.move (fun hnone => hne (hsingly.next_eq_none_iff.mp hnone)) hsingly.forward hmove⟩

end Runs

end Solowan.Queues
