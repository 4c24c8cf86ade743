/-
Linked lists in memory.

A list is the path that a pointer starts through the links of the nodes (`Chain`). Links are a
function from nodes, `none` is the null pointer, and a store to a link is `Function.update`. A
doubly linked list is a path through `next`, and a path through `prev` over the reversed list
(`Linked`); a singly linked list has a path in one direction and knows its last node (`Singly`).

* `Chain.update_of_notMem`: a store to a node that is not on the path.
* `Chain.relink`: a store to the last node of the path.
* `Chain.unlink`, `Linked.unlink`: a node is taken out.
* `Linked.append`, `Singly.append`: nodes are put behind the last one.
* `searchFrom_chain`: a search along the links ends, with the first node that is looked for.
-/

import Mathlib.Algebra.Group.Nat.Defs
import Mathlib.Logic.Function.Basic
import Mathlib.Data.List.Nodup

namespace Solowan.Memory

section Chain

variable {P : Type}

/-- From the pointer `a` the links lead through the nodes of the list to the pointer `b`. -/
def Chain (next : P → Option P) : Option P → List P → Option P → Prop
  | a, [], b => a = b
  | a, x :: l, b => a = some x ∧ Chain next (next x) l b

variable {next : P → Option P} {a b c : Option P} {l l' : List P} {x p : P}

@[simp] theorem chain_nil : Chain next a [] b ↔ a = b := Iff.rfl

@[simp] theorem chain_cons :
    Chain next a (x :: l) b ↔ a = some x ∧ Chain next (next x) l b := Iff.rfl

theorem chain_append : Chain next a (l ++ l') c ↔ ∃ b, Chain next a l b ∧ Chain next b l' c := by
  induction l generalizing a with
  | nil => simp
  | cons x l ih => simp [ih, and_assoc]

theorem chain_concat : Chain next a (l ++ [x]) b ↔ Chain next a l (some x) ∧ next x = b := by
  rw [chain_append]
  constructor
  · rintro ⟨c, hl, rfl, hx⟩
    exact ⟨hl, hx⟩
  · rintro ⟨hl, hx⟩
    exact ⟨some x, hl, rfl, hx⟩

/-- A path to the null pointer starts at its first node. -/
theorem Chain.head (h : Chain next a l none) : a = l.head? := by
  cases l with
  | nil => exact h
  | cons x l => exact h.1

/-- The links decide the path. -/
theorem Chain.unique (h : Chain next a l none) (h' : Chain next a l' none) : l = l' := by
  induction l generalizing a l' with
  | nil =>
    cases l' with
    | nil => rfl
    | cons y l' =>
      have := h.symm.trans h'.1
      cases this
  | cons x l ih =>
    cases l' with
    | nil =>
      have := h.1.symm.trans h'
      cases this
    | cons y l' =>
      obtain ⟨rfl, h⟩ := h
      obtain ⟨hxy, h'⟩ := h'
      cases hxy
      rw [ih h h']

variable [DecidableEq P]

theorem Chain.update_of_notMem (h : Chain next a l b) (hp : p ∉ l) (v : Option P) :
    Chain (Function.update next p v) a l b := by
  induction l generalizing a with
  | nil => exact h
  | cons x l ih =>
    obtain ⟨hx, hl⟩ := h
    rw [List.mem_cons, not_or] at hp
    obtain ⟨hpx, hpl⟩ := hp
    refine ⟨hx, ?_⟩
    rw [Function.update_of_ne (Ne.symm hpx)]
    exact ih hl hpl

/-- The last node can be made to point anywhere. -/
theorem Chain.relink (h : Chain next a (l ++ [x]) b) (hx : x ∉ l) (c : Option P) :
    Chain (Function.update next x c) a (l ++ [x]) c := by
  obtain ⟨hl, -⟩ := chain_concat.mp h
  exact chain_concat.mpr ⟨hl.update_of_notMem hx c, Function.update_self ..⟩

/-- A node is taken out when the one in front of it gets its link. -/
theorem Chain.bypass (h : Chain next a (l ++ x :: p :: l') b) (hnodup : (l ++ x :: p :: l').Nodup) :
    Chain (Function.update next x (next p)) a (l ++ x :: l') b := by
  have hx : x ∉ l := by
    intro hx
    exact (List.disjoint_of_nodup_append hnodup) hx List.mem_cons_self
  have hx' : x ∉ l' := by
    intro hx
    have := (List.nodup_append.mp hnodup).2.1
    exact (List.nodup_cons.mp this).1 (List.mem_cons_of_mem p hx)
  obtain ⟨c, hl, rfl, hp, hl'⟩ := chain_append.mp h
  refine chain_append.mpr ⟨some x, hl.update_of_notMem hx _, rfl, ?_⟩
  rw [Function.update_self]
  exact hl'.update_of_notMem hx' _

/-- A store through a pointer that may be null, in which case there is none. -/
def storeAt (link : P → Option P) (at? v : Option P) : P → Option P :=
  match at? with
  | none => link
  | some x => Function.update link x v

/-- Take a node out: the node in front of it gets its link, or else the pointer the list starts
from does. -/
theorem Chain.unlink (h : Chain next a (l ++ p :: l') none) (hnodup : (l ++ p :: l').Nodup) :
    Chain (storeAt next l.getLast? (next p)) (if l.getLast? = none then next p else a) (l ++ l')
      none := by
  rcases l.eq_nil_or_concat with rfl | ⟨l, x, rfl⟩
  · exact h.2
  · rw [List.concat_eq_append, List.append_assoc, List.singleton_append] at h hnodup
    have hlast : (l.concat x).getLast? = some x := by simp
    rw [hlast, if_neg (Option.some_ne_none x), List.concat_eq_append, List.append_assoc,
      List.singleton_append]
    exact h.bypass hnodup

end Chain

/-! ### Lists with a head -/

section Head

variable {P : Type}

/-- The head of a list: its ends, and the number of its nodes. -/
structure ListHead (P : Type) where
  next : Option P
  prev : Option P
  qlen : UInt32

/-- A head without nodes. -/
def ListHead.empty : ListHead P := ⟨none, none, 0⟩

/-- A doubly linked list. -/
structure Linked (next prev : P → Option P) (h : ListHead P) (l : List P) : Prop where
  forward : Chain next h.next l none
  backward : Chain prev h.prev l.reverse none
  qlen : h.qlen.toNat = l.length

/-- A singly linked list. Its last node is known while it has one. -/
structure Singly (next : P → Option P) (h : ListHead P) (l : List P) : Prop where
  forward : Chain next h.next l none
  last : l ≠ [] → h.prev = l.getLast?
  qlen : h.qlen.toNat = l.length

variable {next prev : P → Option P} {h : ListHead P} {l : List P} {p x y : P}

/-- A counter that is not zero goes down by one. -/
theorem toNat_pred {n : UInt32} {k : Nat} (h : n.toNat = k + 1) : (n - 1).toNat = k := by
  have hone : (1 : UInt32) ≤ n := by
    rw [UInt32.le_iff_toNat_le, h]
    exact Nat.succ_le_of_lt (Nat.succ_pos k)
  rw [UInt32.toNat_sub_of_le _ _ hone, h]
  rfl

theorem Linked.last (hl : Linked next prev h l) : h.prev = l.getLast? := by
  rw [hl.backward.head, List.head?_reverse]

theorem Linked.qlen_eq_zero_iff (hl : Linked next prev h l) : h.qlen = 0 ↔ l = [] := by
  rw [← UInt32.toNat_inj, hl.qlen]
  exact List.length_eq_zero_iff

theorem Singly.qlen_eq_zero_iff (hl : Singly next h l) : h.qlen = 0 ↔ l = [] := by
  rw [← UInt32.toNat_inj, hl.qlen]
  exact List.length_eq_zero_iff

theorem Singly.next_eq_none_iff (hl : Singly next h l) : h.next = none ↔ l = [] := by
  rw [hl.forward.head, List.head?_eq_none_iff]

/-- The first node is taken off. -/
theorem Singly.tail (hl : Singly next h (p :: l)) :
    Singly next ⟨next p, h.prev, h.qlen - 1⟩ l := by
  refine ⟨hl.forward.2, ?_, toNat_pred hl.qlen⟩
  intro hne
  rw [hl.last (List.cons_ne_nil p l), List.getLast?_cons_of_ne_nil hne]

/-- The neighbours of a node. -/
theorem Linked.neighbours {before after : List P}
    (hl : Linked next prev h (before ++ p :: after)) :
    next p = after.head? ∧ prev p = before.getLast? := by
  obtain ⟨_, -, -, hnext⟩ := chain_append.mp hl.forward
  have hback := hl.backward
  rw [List.reverse_append, List.reverse_cons, List.append_assoc, List.singleton_append] at hback
  obtain ⟨_, -, -, hprev⟩ := chain_append.mp hback
  exact ⟨hnext.head, by rw [hprev.head, List.head?_reverse]⟩

variable [DecidableEq P]

/-- Stores to nodes that are not in the list. -/
theorem Linked.update_next (hl : Linked next prev h l) (hp : p ∉ l) (v : Option P) :
    Linked (Function.update next p v) prev h l :=
  ⟨hl.forward.update_of_notMem hp v, hl.backward, hl.qlen⟩

theorem Linked.update_prev (hl : Linked next prev h l) (hp : p ∉ l) (v : Option P) :
    Linked next (Function.update prev p v) h l :=
  ⟨hl.forward, hl.backward.update_of_notMem (by rwa [List.mem_reverse]) v, hl.qlen⟩

/-- The same for stores through a pointer that may be null. -/
theorem Linked.storeAt_next {at? : Option P} (hl : Linked next prev h l)
    (hat : ∀ x ∈ at?, x ∉ l) (v : Option P) : Linked (storeAt next at? v) prev h l := by
  cases at? with
  | none => exact hl
  | some x => exact hl.update_next (hat x rfl) v

theorem Linked.storeAt_prev {at? : Option P} (hl : Linked next prev h l)
    (hat : ∀ x ∈ at?, x ∉ l) (v : Option P) : Linked next (storeAt prev at? v) h l := by
  cases at? with
  | none => exact hl
  | some x => exact hl.update_prev (hat x rfl) v

/-- **A node is appended**, and becomes the last one. -/
theorem Linked.append (hl : Linked next prev h l) (hp : p ∉ l) (hnext : next p = none)
    (hroom : l.length + 1 < 2 ^ 32) (hnodup : l.Nodup) :
    Linked (storeAt next l.getLast? (some p)) (Function.update prev p l.getLast?)
      ⟨if l = [] then some p else h.next, some p, h.qlen + 1⟩ (l ++ [p]) := by
  have hqlen : (h.qlen + 1).toNat = (l ++ [p]).length := by
    rw [UInt32.toNat_add, hl.qlen, List.length_append, List.length_singleton]
    exact Nat.mod_eq_of_lt hroom
  have hback : Chain (Function.update prev p l.getLast?) (some p) (l ++ [p]).reverse none := by
    rw [List.reverse_append, List.reverse_singleton, List.singleton_append, chain_cons,
      Function.update_self, ← hl.last]
    exact ⟨rfl, hl.backward.update_of_notMem (by rwa [List.mem_reverse]) _⟩
  refine ⟨?_, hback, hqlen⟩
  rcases l.eq_nil_or_concat with rfl | ⟨l, x, rfl⟩
  · exact ⟨rfl, hnext⟩
  · rw [List.concat_eq_append] at hl hp hnodup
    have hlast : (l.concat x).getLast? = some x := by simp
    have hx : x ∉ l := fun hx => (List.disjoint_of_nodup_append hnodup) hx List.mem_cons_self
    have hne : p ≠ x := by
      rintro rfl
      exact hp (List.mem_append_right l List.mem_cons_self)
    rw [hlast, if_neg (by simp), List.concat_eq_append]
    refine chain_concat.mpr ⟨hl.forward.relink hx (some p), ?_⟩
    rw [storeAt, Function.update_of_ne hne]
    exact hnext

/-- **A node is taken out.** -/
theorem Linked.unlink {before after : List P} (hl : Linked next prev h (before ++ p :: after))
    (hnodup : (before ++ p :: after).Nodup) :
    Linked (storeAt next (prev p) (next p)) (storeAt prev (next p) (prev p))
      ⟨if prev p = none then next p else h.next, if next p = none then prev p else h.prev,
        h.qlen - 1⟩ (before ++ after) := by
  obtain ⟨hnext, hprev⟩ := hl.neighbours
  have hback := hl.backward
  have hnodup' := List.nodup_reverse.mpr hnodup
  rw [List.reverse_append, List.reverse_cons, List.append_assoc, List.singleton_append]
    at hback hnodup'
  have hforward := hl.forward.unlink hnodup
  have hbackward := hback.unlink hnodup'
  rw [List.getLast?_reverse, ← hnext, ← List.reverse_append] at hbackward
  rw [← hprev] at hforward
  refine ⟨hforward, hbackward, ?_⟩
  have hqlen := hl.qlen
  rw [List.length_append, List.length_cons, ← Nat.add_assoc] at hqlen
  rw [toNat_pred hqlen, List.length_append]

theorem Singly.update_next (hl : Singly next h l) (hp : p ∉ l) (v : Option P) :
    Singly (Function.update next p v) h l :=
  ⟨hl.forward.update_of_notMem hp v, hl.last, hl.qlen⟩

/-- **A list is appended** to a list with other nodes. -/
theorem Singly.append {h' : ListHead P} {l' : List P} (hl : Singly next h l)
    (hl' : Singly next h' l') (hne : l' ≠ []) (hnodup : (l ++ l').Nodup)
    (hroom : (l ++ l').length < 2 ^ 32) :
    Singly (storeAt next l.getLast? h'.next)
      ⟨if l = [] then h'.next else h.next, h'.prev, h.qlen + h'.qlen⟩ (l ++ l') := by
  have hqlen : (h.qlen + h'.qlen).toNat = (l ++ l').length := by
    rw [UInt32.toNat_add, hl.qlen, hl'.qlen, ← List.length_append]
    exact Nat.mod_eq_of_lt hroom
  have hprev : h'.prev = (l ++ l').getLast? := by
    rw [hl'.last hne, List.getLast?_append_of_ne_nil l hne]
  refine ⟨?_, fun _ => hprev, hqlen⟩
  rcases l.eq_nil_or_concat with rfl | ⟨l, x, rfl⟩
  · exact hl'.forward
  · rw [List.concat_eq_append] at hl hnodup
    have hlast : (l.concat x).getLast? = some x := by simp
    have hdisj := List.disjoint_of_nodup_append hnodup
    have hx : x ∉ l := fun hx =>
      (List.disjoint_of_nodup_append (List.nodup_append.mp hnodup).1) hx List.mem_cons_self
    have hx' : x ∉ l' := fun hx' => hdisj (List.mem_append_right l List.mem_cons_self) hx'
    rw [hlast, if_neg (by simp), List.concat_eq_append]
    exact chain_append.mpr ⟨_, hl.forward.relink hx h'.next, hl'.forward.update_of_notMem hx' _⟩

end Head

/-! ### Walking along the links -/

section Search

variable {P : Type} (next : P → Option P) (found : P → Bool)

/-- Follow the links up to the first node that is looked for. The walk has not ended when it
runs out of `fuel`. -/
def searchFrom : Nat → Option P → Option (Option P)
  | _, none => some none
  | 0, some _ => none
  | fuel + 1, some x => if found x then some (some x) else searchFrom fuel (next x)

/-- **A search ends** when it follows a path to the null pointer, and it finds what a search of
the list finds. -/
theorem searchFrom_chain {next : P → Option P} {a : Option P} {l : List P}
    (h : Chain next a l none) {fuel : Nat} (hfuel : l.length ≤ fuel) :
    searchFrom next found fuel a = some (l.find? found) := by
  induction l generalizing a fuel with
  | nil =>
    obtain rfl : a = none := h
    cases fuel <;> rfl
  | cons x l ih =>
    obtain ⟨rfl, h⟩ := h
    cases fuel with
    | zero => exact absurd hfuel (Nat.not_succ_le_zero _)
    | succ fuel =>
      rw [searchFrom, ih h (Nat.le_of_succ_le_succ hfuel)]
      cases hx : found x with
      | true => rw [if_pos rfl, List.find?_cons_of_pos hx]
      | false => rw [if_neg Bool.false_ne_true, List.find?_cons_of_neg (by simp [hx])]

/-- More fuel does not change what a search has found. -/
theorem searchFrom_add {next : P → Option P} {a : Option P} {fuel : Nat} {r : Option P}
    (h : searchFrom next found fuel a = some r) (more : Nat) :
    searchFrom next found (fuel + more) a = some r := by
  induction fuel generalizing a with
  | zero =>
    cases a with
    | none =>
      rw [searchFrom] at h
      rw [← h]
      cases more <;> rfl
    | some x => cases h
  | succ fuel ih =>
    cases a with
    | none =>
      rw [searchFrom] at h ⊢
      exact h
    | some x =>
      rw [Nat.add_right_comm, searchFrom]
      rw [searchFrom] at h
      split at h
      · rename_i hx
        rw [if_pos hx]
        exact h
      · rename_i hx
        rw [if_neg hx]
        exact ih h

end Search

end Solowan.Memory
