/-
The walks over the TCP options as loops (`opennopd/tcpoptions.c`).

The index of a walk has 8 bits and moves on by a length byte of the packet, and the end of
the area is a huge number when the data offset is below 5. Whether a walk ends is therefore
a property of the data offset and the option bytes: the lengths lead from option to option,
and a walk ends unless they lead back to an option it has passed (`walk_ends_iff`).

* `getTcpOption_eq_none_iff`: the bound on the rounds in `Net.TcpOptions` is no restriction,
  a look at an option that does not return is a loop that never ends. `compact_eq_some_iff`
  says the same of the removal of no-operations, whose inner loop always ends
  (`dropNops_returns`).
* `optionLoops_end`: the loops of both functions end if the option lengths, added up as far
  as the walk goes, never need more than the 8 bits of the index.
* `walk_not_ends_of_back`: a walk whose index wraps to an option it has passed never ends.
* `getLoop_ends_short`: below a data offset of 5 only an option that is found ends a walk.
-/

import Solowan.Control.Loop
import Solowan.Net.OptionArea

namespace Solowan.Net

open Relation Solowan.Memory Solowan.Control

/-! ### The loops -/

/-- One round of `for (i = 0; i < limit; i += optlen(opt, i))` with a body that leaves at an
index with `p`. -/
def walkRound (m : Mem) (opt limit : Nat) (p : Nat → Bool) (i : Nat) : Round Nat (Option Nat) :=
  if i < limit then
    if p i then .done (some i) else .next ((i + optlen m opt i) % 256)
  else .done none

/-- One round of `while (opt[i] == TCPOPT_NOP)`. -/
def nopRound (opt limit i : Nat) (m : Mem) : Round Mem Mem :=
  if m (opt + i) = TCPOPT_NOP then
    .next (memcpy (memmove m (opt + i) (opt + i + 1) (limit - i - 1)) (opt + limit - 1) [0])
  else .done m

/-- One round of the loop that removes the no-operations; its state is the index and the
memory. -/
def compactRound (opt limit : Nat) (s : Nat × Mem) : Round (Nat × Mem) (Mem × Nat) :=
  if s.1 < limit then
    let m := dropNops opt limit s.1 limit s.2
    if m (opt + s.1) = TCPOPT_EOL then .done (m, limit - s.1)
    else .next ((s.1 + optlen m opt s.1) % 256, m)
  else .done (s.2, 0)

/-- `__get_tcp_option` returns at index `i`. -/
def getStop (m : Mem) (tcpoptnum : UInt8) (i : Nat) : Bool :=
  m (opt m + i) == tcpoptnum && decide (i + (m (opt m + i + 1)).toNat ≤ doff m * 4)

/-- `__set_tcp_option` overwrites the option at index `i`. -/
def setStop (m : Mem) (tcpoptnum tcpoptlen i : Nat) : Bool :=
  decide ((m (opt m + i)).toNat = tcpoptnum) && decide (i + tcpoptlen ≤ doff m * 4) &&
    decide ((m (opt m + i + 1)).toNat = tcpoptlen)

/-- The walk of `__get_tcp_option`. -/
def getRound (m : Mem) (tcpoptnum : UInt8) : Nat → Round Nat (Option Nat) :=
  walkRound m (opt m) (optArea m) (getStop m tcpoptnum)

/-- The first walk of `__set_tcp_option`. -/
def setRound (m : Mem) (tcpoptnum tcpoptlen : Nat) : Nat → Round Nat (Option Nat) :=
  walkRound m (opt m) (optArea m) (setStop m tcpoptnum tcpoptlen)

section Loops

variable {m : Mem} {o limit : Nat} {p : Nat → Bool}

theorem walk_eq_loop (fuel i : Nat) :
    walk m o limit p fuel i = loop (walkRound m o limit p) fuel i := by
  induction fuel generalizing i with
  | zero => rfl
  | succ fuel ih =>
    rw [walk]
    by_cases hi : i < limit
    · by_cases hp : p i = true
      · rw [if_pos hi, if_pos hp, loop_done (by rw [walkRound, if_pos hi, if_pos hp])]
      · rw [if_pos hi, if_neg hp, loop_next (by rw [walkRound, if_pos hi, if_neg hp]), ih]
    · rw [if_neg hi, loop_done (by rw [walkRound, if_neg hi])]

theorem compact_eq_loop (fuel i : Nat) (m : Mem) :
    compact o limit fuel i m = loop (compactRound o limit) fuel (i, m) := by
  induction fuel generalizing i m with
  | zero => rfl
  | succ fuel ih =>
    rw [compact]
    by_cases hi : i < limit
    · by_cases hend : dropNops o limit i limit m (o + i) = TCPOPT_EOL
      · have hround : compactRound o limit (i, m) =
            .done (dropNops o limit i limit m, limit - i) := by
          simp only [compactRound, if_pos hi, if_pos hend]
        simp only [if_pos hi, if_pos hend, loop_done hround]
      · have hround : compactRound o limit (i, m) =
            .next ((i + optlen (dropNops o limit i limit m) o i) % 256,
              dropNops o limit i limit m) := by
          simp only [compactRound, if_pos hi, if_neg hend]
        simp only [if_pos hi, if_neg hend, loop_next hround, ih]
    · have hround : compactRound o limit (i, m) = .done (m, 0) := by
        simp only [compactRound, if_neg hi]
      simp only [if_neg hi, loop_done hround]

end Loops

/-! ### Walks -/

section Walks

variable {m : Mem} {o limit : Nat} {p : Nat → Bool}

/-- The index keeps its 8 bits. -/
theorem walkRound_lt {i j : Nat} (hi : i < 256)
    (h : ReflTransGen (Next (walkRound m o limit p)) i j) : j < 256 := by
  induction h with
  | refl => exact hi
  | @tail j k _ hnext _ =>
    unfold Next walkRound at hnext
    split at hnext
    · split at hnext
      · cases hnext
      · cases hnext
        exact Nat.mod_lt _ (by decide)
    · cases hnext

theorem walkRound_mem_range {j : Nat} (h : ReflTransGen (Next (walkRound m o limit p)) 0 j) :
    id j ∈ Finset.range 256 :=
  Finset.mem_range.mpr (walkRound_lt (by decide) h)

/-- **A walk ends** if and only if no index it comes to leads back to itself. -/
theorem walk_ends_iff (m : Mem) (o limit : Nat) (p : Nat → Bool) :
    (∃ r, Returns (walkRound m o limit p) 0 r) ↔ Acyclic (walkRound m o limit p) 0 :=
  returns_iff_acyclic (fun _ => walkRound_mem_range) fun _ _ _ _ h => h

/-- The rounds of `walk` are enough for a walk that ends. -/
theorem walk_eq_some_iff {r : Option Nat} :
    walk m o limit p WALK 0 = some r ↔ Returns (walkRound m o limit p) 0 r := by
  rw [walk_eq_loop]
  constructor
  · exact returns_of_loop
  · intro h
    refine h.loop_card (fun _ => walkRound_mem_range) (fun _ _ _ _ h => h) ?_
    rw [Finset.card_range]
    decide

theorem getTcpOption_eq_none_iff (num : UInt8) :
    getTcpOption m num = none ↔ ¬ ∃ r, Returns (getRound m num) 0 r := by
  have hmap : getTcpOption m num = none ↔
      walk m (opt m) (optArea m) (getStop m num) WALK 0 = none := Option.map_eq_none_iff
  rw [hmap, Option.eq_none_iff_forall_ne_some, not_exists]
  exact forall_congr' fun r => not_congr walk_eq_some_iff

end Walks

/-! ### The removal of no-operations -/

section Compact

variable {o i limit : Nat} {m : Mem}

/-- The no-operations in front of a block. -/
theorem exists_replicate_nop (bs : List UInt8) :
    ∃ k rest, bs = List.replicate k TCPOPT_NOP ++ rest ∧ rest.head? ≠ some TCPOPT_NOP := by
  induction bs with
  | nil => exact ⟨0, [], rfl, by simp⟩
  | cons b bs ih =>
    by_cases hb : b = TCPOPT_NOP
    · obtain ⟨k, rest, hbs, hrest⟩ := ih
      refine ⟨k + 1, rest, ?_, hrest⟩
      rw [hbs, hb, List.replicate_succ, List.cons_append]
    · exact ⟨0, b :: bs, rfl, by simpa using hb⟩

/-- The inner loop ends on every block, for a zero comes in for each byte that goes, and
`limit` rounds are enough for it. -/
theorem dropNops_returns (hi : i < limit) (m : Mem) :
    Returns (nopRound o limit i) m (dropNops o limit i limit m) := by
  have hrun : ∀ (k fuel : Nat) (m : Mem) (rest : List UInt8),
      slice m (o + i) (limit - i) = List.replicate k TCPOPT_NOP ++ rest →
      rest.head? ≠ some TCPOPT_NOP → k ≤ fuel →
      Returns (nopRound o limit i) m (dropNops o limit i fuel m) := by
    intro k
    induction k with
    | zero =>
      intro fuel m rest h hrest _
      have hstop := ne_nop_of_slice hi h hrest
      rw [dropNops_of_ne hstop]
      exact .done (by rw [nopRound, if_neg hstop])
    | succ k ih =>
      intro fuel m rest h hrest hfuel
      cases fuel with
      | zero => omega
      | succ fuel =>
        have h' : slice m (o + i) (limit - i) =
            TCPOPT_NOP :: (List.replicate k TCPOPT_NOP ++ rest) := h
        obtain ⟨hshift, -⟩ := shift_spec hi h'
        rw [List.append_assoc] at hshift
        rw [dropNops, if_pos (slice_first h')]
        exact .next (by rw [nopRound, if_pos (slice_first h')])
          (ih fuel _ _ hshift (head?_append_zero hrest) (by omega))
  obtain ⟨k, rest, hbs, hrest⟩ := exists_replicate_nop (slice m (o + i) (limit - i))
  have hk : k ≤ limit := by
    have := congrArg List.length hbs
    simp only [length_slice, List.length_append, List.length_replicate] at this
    omega
  exact hrun k limit m rest hbs hrest hk

/-- The bytes of the area that read as a no-operation. -/
def nops (o limit : Nat) (m : Mem) : Nat := (slice m o limit).count TCPOPT_NOP

/-- The inner loop changes nothing or leaves fewer bytes that read as a no-operation. -/
theorem dropNops_nops (hi : i < limit) (fuel : Nat) (m : Mem) :
    dropNops o limit i fuel m = m ∨ nops o limit (dropNops o limit i fuel m) < nops o limit m := by
  induction fuel generalizing m with
  | zero => exact Or.inl rfl
  | succ fuel ih =>
    rw [dropNops]
    split
    · rename_i hnop
      right
      obtain ⟨rest, hrest⟩ : ∃ rest, slice m (o + i) (limit - i) = TCPOPT_NOP :: rest := by
        obtain ⟨n, hn⟩ : ∃ n, limit - i = 1 + n := ⟨limit - i - 1, by omega⟩
        refine ⟨slice m (o + i + 1) n, ?_⟩
        rw [hn, slice_append, ← hnop]
        rfl
      obtain ⟨hshift, hframe⟩ := shift_spec hi hrest
      generalize memcpy (memmove m (o + i) (o + i + 1) (limit - i - 1)) (o + limit - 1) [0] =
        m' at *
      have hlimit : limit = i + (limit - i) := by omega
      have hless : nops o limit m' < nops o limit m := by
        have hfront : slice m' o i = slice m o i :=
          slice_congr fun j hj => hframe _ (Or.inl (by omega))
        unfold nops
        rw [hlimit, slice_append, slice_append, hfront, hshift, hrest, List.count_append,
          List.count_append, List.count_append, List.count_cons_self]
        have hzero : List.count TCPOPT_NOP [0] = 0 := by decide
        omega
      rcases ih m' with h | h
      · rw [h]
        exact hless
      · exact Nat.lt_trans h hless
    · exact Or.inl rfl

/-- Along a run the memory stays as it is, or fewer bytes read as a no-operation. -/
theorem compact_reach {s t : Nat × Mem}
    (h : ReflTransGen (Next (compactRound o limit)) s t) :
    t.2 = s.2 ∨ nops o limit t.2 < nops o limit s.2 := by
  induction h with
  | refl => exact Or.inl rfl
  | @tail t u _ hnext ih =>
    unfold Next compactRound at hnext
    split at hnext
    · rename_i hi
      dsimp only at hnext
      split at hnext
      · cases hnext
      · cases hnext
        rcases dropNops_nops hi limit t.2 with hsame | hless
        · rw [hsame]
          exact ih
        · right
          rcases ih with heq | hlt
          · rw [← heq]
            exact hless
          · exact Nat.lt_trans hless hlt
    · cases hnext

theorem compactRound_lt {s t : Nat × Mem} (hs : s.1 < 256)
    (h : ReflTransGen (Next (compactRound o limit)) s t) : t.1 < 256 := by
  induction h with
  | refl => exact hs
  | @tail t u _ hnext _ =>
    unfold Next compactRound at hnext
    split at hnext
    · dsimp only at hnext
      split at hnext
      · cases hnext
      · cases hnext
        exact Nat.mod_lt _ (by decide)
    · cases hnext

/-- What tells the states of a run apart. -/
def compactKey (o limit : Nat) (s : Nat × Mem) : Nat := s.1 + 256 * nops o limit s.2

theorem compactKey_mem {t : Nat × Mem}
    (h : ReflTransGen (Next (compactRound o limit)) (0, m) t) :
    compactKey o limit t ∈ Finset.range (256 * (limit + 1)) := by
  have hcount : nops o limit t.2 ≤ limit := by
    have := List.count_le_length (a := TCPOPT_NOP) (l := slice t.2 o limit)
    rwa [length_slice] at this
  have hindex : t.1 < 256 := compactRound_lt (Nat.succ_pos 255) h
  rw [Finset.mem_range, compactKey]
  omega

theorem compactKey_inj {t t' : Nat × Mem}
    (hreach : ReflTransGen (Next (compactRound o limit)) (0, m) t)
    (h : ReflTransGen (Next (compactRound o limit)) t t')
    (hkey : compactKey o limit t = compactKey o limit t') : t = t' := by
  have hlt : t.1 < 256 := compactRound_lt (Nat.succ_pos 255) hreach
  have hlt' : t'.1 < 256 := compactRound_lt hlt h
  unfold compactKey at hkey
  rcases compact_reach h with heq | hless
  · rw [heq] at hkey
    exact Prod.ext (by omega) heq.symm
  · omega

/-- The rounds of `compact` are enough for a removal that ends. -/
theorem compact_eq_some_iff (hlimit : limit < 256) {r : Mem × Nat} :
    compact o limit (WALK * WALK) 0 m = some r ↔ Returns (compactRound o limit) (0, m) r := by
  rw [compact_eq_loop]
  constructor
  · exact returns_of_loop
  · intro h
    refine h.loop_card (fun _ => compactKey_mem) (fun _ _ => compactKey_inj) ?_
    rw [Finset.card_range]
    exact Nat.mul_le_mul (by decide) (by simp only [WALK]; omega)

end Compact

/-! ### The loops of the two functions -/

/-- The walk of `__get_tcp_option` ends. -/
def GetEnds (m : Mem) (tcpoptnum : UInt8) : Prop := ∃ r, Returns (getRound m tcpoptnum) 0 r

/-- The loops of `__set_tcp_option` end: the walk to the option and, where it is not found,
the removal of the no-operations. -/
def SetEnds (m : Mem) (tcpoptnum tcpoptlen : Nat) : Prop :=
  doff m > 5 → (∃ r, Returns (setRound m tcpoptnum tcpoptlen) 0 r) ∧
    (Returns (setRound m tcpoptnum tcpoptlen) 0 none →
      ∃ r, Returns (compactRound (opt m) (optArea m)) (0, m) r)

/-- The length of the option at `i`, which does not have `p`, leads to the one at `j`. -/
def Leads (m : Mem) (p : Nat → Bool) (i j : Nat) : Prop :=
  i < optArea m ∧ p i = false ∧ j = (i + optlen m (opt m) i) % 256

/-- The option at `i`, which does not have `p`, ends where the one at `j` begins. -/
def Behind (m : Mem) (p : Nat → Bool) (i j : Nat) : Prop :=
  i < optArea m ∧ p i = false ∧ j = i + optlen m (opt m) i

/-- An option begins at index `i`, or the last one ends there: the lengths of the options in
front of it, of which none has `p`, add up to `i`. -/
def Begins (m : Mem) (p : Nat → Bool) (i : Nat) : Prop := ReflTransGen (Behind m p) 0 i

/-- No index at which an option begins, or the last one ends, needs more than 8 bits. -/
def Unwrapped (m : Mem) (p : Nat → Bool) : Prop := ∀ i, Begins m p i → i < 256

section Ends

variable {m : Mem} {p : Nat → Bool}

theorem next_walkRound (m : Mem) (p : Nat → Bool) :
    Next (walkRound m (opt m) (optArea m) p) = Leads m p := by
  funext i j
  apply propext
  unfold Next walkRound Leads
  by_cases hi : i < optArea m
  · cases hp : p i with
    | false =>
      rw [if_pos hi, if_neg (by decide)]
      constructor
      · intro h
        cases h
        exact ⟨hi, rfl, rfl⟩
      · rintro ⟨-, -, rfl⟩
        rfl
    | true =>
      rw [if_pos hi, if_pos rfl]
      exact ⟨fun h => (by cases h), fun h => (by cases h.2.1)⟩
  · rw [if_neg hi]
    exact ⟨fun h => (by cases h), fun h => absurd h.1 hi⟩

theorem optlen_pos (m : Mem) (o i : Nat) : 0 < optlen m o i := by
  unfold optlen
  split
  · exact Nat.one_pos
  · rename_i h
    rw [not_or] at h
    exact Nat.pos_of_ne_zero fun h0 => h.2 (UInt8.toNat_inj.mp h0)

theorem optlen_lt (m : Mem) (o i : Nat) : optlen m o i < 256 := by
  unfold optlen
  split
  · decide
  · exact UInt8.toNat_lt _

theorem Begins.behind {i : Nat} (h : Begins m p i) (hi : i < optArea m) (hp : p i = false) :
    Begins m p (i + optlen m (opt m) i) :=
  ReflTransGen.tail h ⟨hi, hp, rfl⟩

/-- Without a wrap the walk comes to the options one behind the other. -/
theorem leads_of_behind {i j : Nat} (h : ReflTransGen (Behind m p) i j) (hj : j < 256) :
    ReflTransGen (Leads m p) i j := by
  induction h with
  | refl => exact .refl
  | tail _ hstep ih =>
    obtain ⟨hi, hp, rfl⟩ := hstep
    exact (ih (by omega)).tail ⟨hi, hp, (Nat.mod_eq_of_lt hj).symm⟩

theorem le_of_behind {i j : Nat} (h : ReflTransGen (Behind m p) i j) : i ≤ j := by
  induction h with
  | refl => exact Nat.le_refl _
  | tail _ hstep ih =>
    obtain ⟨-, -, rfl⟩ := hstep
    omega

/-- What is left open is a wrap into the middle of an option: a walk whose index wraps to the
beginning of an option that it has passed never ends. -/
theorem walk_not_ends_of_back {i j : Nat} (hi : Begins m p i) (hj : Begins m p j)
    (hlt : i < 256) (harea : i < optArea m) (hp : p i = false)
    (hback : i + optlen m (opt m) i = j + 256) :
    ¬ ∃ r, Returns (walkRound m (opt m) (optArea m) p) 0 r := by
  rintro ⟨r, hr⟩
  have hless : j < i := by
    have := optlen_lt m (opt m) i
    omega
  have hunique : Relator.RightUnique (Behind m p) := by
    rintro a b c ⟨-, -, rfl⟩ ⟨-, -, rfl⟩
    rfl
  have hbetween : ReflTransGen (Behind m p) j i := by
    rcases ReflTransGen.total_of_right_unique hunique hi hj with h | h
    · have := le_of_behind h
      omega
    · exact h
  have hreach : ReflTransGen (Next (walkRound m (opt m) (optArea m) p)) 0 i := by
    rw [next_walkRound]
    exact leads_of_behind hi hlt
  refine (hr.reach hreach).not_cycle ?_
  rw [next_walkRound]
  exact TransGen.head' ⟨harea, hp, by omega⟩ (leads_of_behind hbetween hlt)

/-- **A walk ends** if no index needs more than 8 bits, for it then only grows. -/
theorem walk_ends_of_unwrapped (h : Unwrapped m p) :
    ∃ r, Returns (walkRound m (opt m) (optArea m) p) 0 r := by
  refine returns_of_measure (Begins m p) (fun i => 256 - i) .refl ?_
  intro i j hi hnext
  rw [next_walkRound] at hnext
  obtain ⟨harea, hp, hj⟩ := hnext
  have hbehind := hi.behind harea hp
  have hlt := h _ hbehind
  have hpos := optlen_pos m (opt m) i
  rw [Nat.mod_eq_of_lt hlt] at hj
  rw [hj]
  exact ⟨hbehind, by omega⟩

/-- A walk that returns nothing has come to no option with `p`. -/
theorem begins_of_returns_none {i : Nat} (hunwrapped : Unwrapped m p)
    (h : Returns (walkRound m (opt m) (optArea m) p) 0 none) (hi : Begins m p i)
    (harea : i < optArea m) : p i = false := by
  cases hp : p i with
  | false => rfl
  | true =>
    have hdone : walkRound m (opt m) (optArea m) p i = .done (some i) := by
      rw [walkRound, if_pos harea, if_pos hp]
    have hreach := leads_of_behind hi (hunwrapped i hi)
    rw [← next_walkRound] at hreach
    cases (h.reach hreach).eq_of_done hdone

/-! ### The removal of the no-operations -/

/-- The area from index `i` on is that of `m`, moved up by `k` bytes. -/
structure MovedUp (m m' : Mem) (i k : Nat) : Prop where
  moved : ∀ j, i ≤ j → j + k < optArea m → m' (opt m + j) = m (opt m + (j + k))
  zeros : ∀ j, i ≤ j → j < optArea m → optArea m ≤ j + k → m' (opt m + j) = 0
  behind : m' (opt m + optArea m) = m (opt m + optArea m)

variable {m' : Mem} {i k : Nat}

/-- A no-operation goes. -/
theorem MovedUp.shift (h : MovedUp m m' i k) (hi : i < optArea m) :
    MovedUp m (memcpy (memmove m' (opt m + i) (opt m + i + 1) (optArea m - i - 1))
      (opt m + optArea m - 1) [0]) i (k + 1) := by
  have hlast : memcpy (memmove m' (opt m + i) (opt m + i + 1) (optArea m - i - 1))
      (opt m + optArea m - 1) [0] (opt m + (optArea m - 1)) = 0 := by
    rw [show opt m + (optArea m - 1) = opt m + optArea m - 1 + 0 by omega,
      memcpy_apply_inside (by decide)]
    rfl
  have hup : ∀ j, i ≤ j → j + 1 < optArea m →
      memcpy (memmove m' (opt m + i) (opt m + i + 1) (optArea m - i - 1))
        (opt m + optArea m - 1) [0] (opt m + j) = m' (opt m + (j + 1)) := by
    intro j hj hlt
    rw [memcpy_apply_outside (by rw [List.length_singleton]; omega), memmove,
      show opt m + j = opt m + i + (j - i) by omega,
      memcpy_apply_inside (by rw [length_slice]; omega), getD_slice (by omega)]
    congr 1
    omega
  refine ⟨?_, ?_, ?_⟩
  · intro j hj hlt
    rw [hup j hj (by omega), h.moved (j + 1) (by omega) (by omega)]
    congr 2
    omega
  · intro j hj hlt hle
    by_cases hend : j + 1 < optArea m
    · rw [hup j hj hend]
      exact h.zeros (j + 1) (by omega) hend (by omega)
    · rw [show j = optArea m - 1 by omega]
      exact hlast
  · rw [memcpy_apply_outside (by rw [List.length_singleton]; omega),
      memmove_apply_outside (by omega)]
    exact h.behind

/-- The inner loop moves a later option up to the index. -/
theorem MovedUp.drop (hfound : ∀ i, Begins m p i → i < optArea m → p i = false)
    (h : MovedUp m m' i k) (hi : i < optArea m)
    (hbegins : i + k < optArea m → Begins m p (i + k)) :
    ∃ k', MovedUp m (dropNops (opt m) (optArea m) i (optArea m) m') i k' ∧
      (i + k' < optArea m → Begins m p (i + k')) := by
  have hreturns : Returns (nopRound (opt m) (optArea m) i) m'
      (dropNops (opt m) (optArea m) i (optArea m) m') := dropNops_returns hi m'
  generalize dropNops (opt m) (optArea m) i (optArea m) m' = m₂ at hreturns
  induction hreturns generalizing k with
  | @done m₁ m₂ hround =>
    rw [nopRound] at hround
    split at hround
    · cases hround
    · cases hround
      exact ⟨k, h, hbegins⟩
  | @next m₁ m₂ m₃ hround _ ih =>
    rw [nopRound] at hround
    split at hround
    · rename_i hnop
      cases hround
      -- The no-operation has length 1 in the packet, too.
      have hnext : i + (k + 1) < optArea m → Begins m p (i + (k + 1)) := by
        intro hlt
        have hold := hbegins (by omega)
        have hbyte : m (opt m + (i + k)) = TCPOPT_NOP := by
          rw [← h.moved i (Nat.le_refl i) (by omega)]
          exact hnop
        have hlen : optlen m (opt m) (i + k) = 1 := by
          rw [optlen, hbyte, if_pos (Or.inl (UInt8.le_refl _))]
        have hbehind := hold.behind (by omega) (hfound _ hold (by omega))
        rw [hlen] at hbehind
        exact hbehind
      exact ih (h.shift hi) hnext
    · cases hround

/-- The length of an option that has moved up, unless it begins in the last byte of the area. -/
theorem MovedUp.optlen_le (h : MovedUp m m' i k) (hi : i < optArea m)
    (hin : i + k < optArea m) :
    optlen m' (opt m) i = optlen m (opt m) (i + k) ∨
      optlen m' (opt m) i = 1 ∧ optArea m ≤ i + k + 1 := by
  have hkind : m' (opt m + i) = m (opt m + (i + k)) := h.moved i (Nat.le_refl i) hin
  by_cases hlast : i + k + 1 < optArea m
  · have hlen : m' (opt m + i + 1) = m (opt m + (i + k) + 1) := by
      have := h.moved (i + 1) (by omega) (by omega)
      rw [Nat.add_assoc, this]
      congr 1
      omega
    exact Or.inl (by rw [optlen, hkind, hlen, optlen])
  · by_cases hk : k = 0
    · have hlen : m' (opt m + i + 1) = m (opt m + (i + k) + 1) := by
        have hend : opt m + i + 1 = opt m + optArea m := by omega
        have hend' : opt m + (i + k) + 1 = opt m + optArea m := by omega
        rw [hend, hend', h.behind]
      exact Or.inl (by rw [optlen, hkind, hlen, optlen])
    · have hzero : m' (opt m + (i + 1)) = 0 := h.zeros (i + 1) (by omega) (by omega) (by omega)
      refine Or.inr ⟨?_, by omega⟩
      rw [optlen, Nat.add_assoc, if_pos (Or.inr hzero)]

/-- **The removal ends** if no index needs more than 8 bits, for it comes to the same options
as the walk, at indices that are no larger. -/
theorem compact_ends_of_unwrapped (hdoff : 5 ≤ doff m) (hunwrapped : Unwrapped m p)
    (hfound : ∀ i, Begins m p i → i < optArea m → p i = false) :
    ∃ r, Returns (compactRound (opt m) (optArea m)) (0, m) r := by
  have hlimit : optArea m < 256 := by
    have := doff_lt m
    rw [optArea_of_le hdoff]
    omega
  refine returns_of_measure (fun s => ∃ k, MovedUp m s.2 s.1 k ∧
      (s.1 + k < optArea m → Begins m p (s.1 + k))) (fun s => 256 - s.1)
    ⟨0, ⟨fun j _ _ => rfl, fun j _ hlt hle => absurd hlt (by omega), rfl⟩, fun _ => .refl⟩ ?_
  rintro ⟨i, m₁⟩ ⟨j, m₂⟩ ⟨k, hmoved, hbegins⟩ hnext
  unfold Next compactRound at hnext
  dsimp only at hnext hmoved hbegins ⊢
  by_cases hi : i < optArea m
  · obtain ⟨k', hmoved', hbegins'⟩ := hmoved.drop hfound hi hbegins
    rw [if_pos hi] at hnext
    split at hnext
    · cases hnext
    · rename_i heol
      cases hnext
      have hin : i + k' < optArea m := by
        by_contra hout
        exact heol (hmoved'.zeros i (Nat.le_refl i) hi (by omega))
      have hbehind := (hbegins' hin).behind hin (hfound _ (hbegins' hin) hin)
      have hlt := hunwrapped _ hbehind
      have hpos := optlen_pos (dropNops (opt m) (optArea m) i (optArea m) m₁) (opt m) i
      have hlen := hmoved'.optlen_le hi hin
      have hindex :
          i + optlen (dropNops (opt m) (optArea m) i (optArea m) m₁) (opt m) i < 256 := by
        rcases hlen with hlen | ⟨hlen, -⟩ <;> omega
      rw [Nat.mod_eq_of_lt hindex]
      refine ⟨⟨k', ⟨fun x hx => hmoved'.moved x (by omega), fun x hx => hmoved'.zeros x (by omega),
        hmoved'.behind⟩, ?_⟩, by omega⟩
      intro harea
      rcases hlen with hlen | ⟨hlen, hlast⟩
      · rw [hlen, show i + optlen m (opt m) (i + k') + k' = i + k' + optlen m (opt m) (i + k') by
          omega]
        exact hbehind
      · omega
  · rw [if_neg hi] at hnext
    cases hnext

/-- The options begin at the indices of a list that contains the end of each of them. -/
theorem unwrapped_of_list (starts : List Nat) (hfirst : 0 ∈ starts)
    (hbehind : ∀ i ∈ starts, i < optArea m → p i = false → i + optlen m (opt m) i ∈ starts)
    (hlt : ∀ i ∈ starts, i < 256) : Unwrapped m p := by
  intro i hi
  have hmem : i ∈ starts := by
    induction hi with
    | refl => exact hfirst
    | tail _ hstep ih =>
      obtain ⟨harea, hp, rfl⟩ := hstep
      exact hbehind _ ih harea hp
  exact hlt i hmem

/-! ### The loops of the two functions -/

/-- **The loops end** if the lengths of the options, added up as far as each walk goes, never
need more than the 8 bits of its index. -/
theorem optionLoops_end (n : UInt8) (tcpoptnum tcpoptlen : Nat)
    (hget : Unwrapped m (getStop m n))
    (hset : doff m > 5 → Unwrapped m (setStop m tcpoptnum tcpoptlen)) :
    GetEnds m n ∧ SetEnds m tcpoptnum tcpoptlen := by
  refine ⟨walk_ends_of_unwrapped hget, fun hdoff => ?_⟩
  refine ⟨walk_ends_of_unwrapped (hset hdoff), fun hnone => ?_⟩
  exact compact_ends_of_unwrapped (by omega) (hset hdoff) fun i =>
    begins_of_returns_none (hset hdoff) hnone

/-- A SYN segment with five options: the maximum segment size, selective acknowledgements,
timestamps, a no-operation and the window scale. -/
def synOptions : Mem := ofList ([0x45, 0, 0, 60, 0, 0, 0, 0, 64, 6, 0, 0, 10, 0, 0, 1, 10, 0, 0, 2] ++
  [0, 80, 0, 80, 0, 0, 0, 0, 0, 0, 0, 0, 0xa0, 2, 0, 0, 0, 0, 0, 0] ++
  [2, 4, 5, 180, 4, 2, 8, 10, 0, 0, 0, 1, 0, 0, 0, 0, 1, 3, 3, 7])

/-- Neither a look for option 32 nor an attempt to set it goes on for ever. -/
theorem synOptions_end : GetEnds synOptions 32 ∧ SetEnds synOptions 32 3 :=
  optionLoops_end 32 32 3
    (unwrapped_of_list [0, 4, 6, 16, 17, 20] (by decide) (by decide) (by decide))
    fun _ => unwrapped_of_list [0, 4, 6, 16, 17, 20] (by decide) (by decide) (by decide)

/-- A packet with one no-operation and an option of 255 bytes behind it. -/
def backwards : Mem := ofList ([0x45, 0, 0, 44, 0, 0, 0, 0, 64, 6, 0, 0, 10, 0, 0, 1, 10, 0, 0, 2] ++
  [0, 80, 0, 80, 0, 0, 0, 0, 0, 0, 0, 0, 0x60, 2, 0, 0, 0, 0, 0, 0] ++ [1, 30, 255, 0])

/-- Its options lead from the first index to the second and back. -/
theorem backwards_not_ends :
    ¬ ∀ (m : Mem) (n : UInt8) (tcpoptnum tcpoptlen : Nat),
      GetEnds m n ∧ SetEnds m tcpoptnum tcpoptlen := by
  intro h
  obtain ⟨r, hget⟩ := (h backwards 32 32 3).1
  have hfirst : Next (getRound backwards 32) 0 1 := by
    show getRound backwards 32 0 = .next 1
    decide
  have hsecond : Next (getRound backwards 32) 1 0 := by
    show getRound backwards 32 1 = .next 0
    decide
  exact hget.not_cycle ((TransGen.single hfirst).tail hsecond)

/-- Below a data offset of 5 the area has no end, and only an option that is found ends the
walk. -/
theorem getLoop_ends_short (hdoff : doff m < 5) (num : UInt8) :
    GetEnds m num ↔ ∃ i, ReflTransGen (Leads m (getStop m num)) 0 i ∧ getStop m num i = true := by
  have hlimit : 256 ≤ optArea m := by
    unfold optArea TCPHDR
    omega
  rw [← next_walkRound]
  constructor
  · rintro ⟨r, h⟩
    obtain ⟨i, hreach, hdone⟩ := h.exists_done
    have hi := walkRound_lt (by decide) hreach
    refine ⟨i, hreach, ?_⟩
    rw [getRound, walkRound, if_pos (by omega)] at hdone
    cases hp : getStop m num i with
    | true => rfl
    | false =>
      rw [hp, if_neg (by decide)] at hdone
      cases hdone
  · rintro ⟨i, hreach, hp⟩
    have hi := walkRound_lt (by decide) hreach
    refine ⟨some i, Returns.of_reach (.done ?_) hreach⟩
    rw [getRound, walkRound, if_pos (by omega), if_pos hp]

end Ends

end Solowan.Net
