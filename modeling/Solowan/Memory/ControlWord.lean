/-
Control words.

A stream of items, each with a flag. The items come in groups of 31; before the bytes of a
group stands a 32-bit word with their flags, the first in the lowest bit, and a bit above the
last flag. The writer leaves room for the word, shifts the flags in from above and patches the
word in when the group is complete; the reader shifts them out below until only the mark is
left.

* `Written.put`, `Written.turn`: what a writer has left behind after any sequence of items.
* `Written.finish`: the groups stand in memory once the last word is patched in.
* `Wrote.reads`: a reader gets the items the writer was given, in their order.
-/

import Mathlib.Tactic.Ring
import Solowan.Memory.Buffer

namespace Solowan.Memory

/-- What follows a flag. -/
structure Item where
  flag : Bool
  bytes : List UInt8
  deriving DecidableEq

/-- How many items share a control word. -/
def GROUP : Nat := 31

/-- The bytes of a group. -/
def payload (g : List Item) : List UInt8 := g.flatMap (·.bytes)

/-- The flags of a group as a number, the first in the lowest bit. -/
def flags : List Item → Nat
  | [] => 0
  | it :: g => it.flag.toNat + 2 * flags g

/-- The bytes of a sequence of groups, each behind its control word. -/
def block (gs : List (List Item)) : List UInt8 :=
  gs.flatMap fun g => leBytes 4 (2 ^ GROUP + flags g) ++ payload g

section Groups

variable {g : List Item} {gs : List (List Item)} {it : Item}

@[simp] theorem payload_nil : payload [] = [] := rfl

@[simp] theorem payload_cons : payload (it :: g) = it.bytes ++ payload g := rfl

theorem payload_snoc : payload (g ++ [it]) = payload g ++ it.bytes := by
  simp [payload]

theorem block_snoc :
    block (gs ++ [g]) = block gs ++ (leBytes 4 (2 ^ GROUP + flags g) ++ payload g) := by
  simp [block]

theorem flags_lt (g : List Item) : flags g < 2 ^ g.length := by
  induction g with
  | nil => simp [flags]
  | cons it g ih =>
    have hbit : it.flag.toNat ≤ 1 := Bool.toNat_le it.flag
    rw [flags, List.length_cons, Nat.pow_succ]
    omega

theorem flags_snoc : flags (g ++ [it]) = flags g + 2 ^ g.length * it.flag.toNat := by
  induction g with
  | nil => simp [flags]
  | cons it' g ih =>
    rw [List.cons_append, flags, ih, flags, List.length_cons, Nat.pow_succ']
    ring

theorem flags_lt_group (h : g.length ≤ GROUP) : flags g < 2 ^ GROUP :=
  Nat.lt_of_lt_of_le (flags_lt g) (Nat.pow_le_pow_right (by decide) h)

end Groups

/-! ### The writer -/

/-- The memory written to, where the word of the current group goes, where the next byte goes,
and the flags so far. -/
structure Writer where
  mem : Mem
  cwordPtr : Nat
  dst : Nat
  cword : Nat

/-- The word with its mark, as it is stored: `(cword_val >> 1) | (1U << 31)`. -/
def markedWord (cword : Nat) : Nat := (cword >>> 1) ||| (1 <<< 31)

/-- The flag shifted in: `cword_val >> 1`, or with the high bit set. -/
def shiftIn (cword : Nat) (flag : Bool) : Nat :=
  if flag then (cword >>> 1) ||| (1 <<< 31) else cword >>> 1

/-- Patch in the word of the current group and begin the next one behind it. -/
def Writer.turn (w : Writer) : Writer where
  mem := storeLE w.mem w.cwordPtr 4 (markedWord w.cword)
  cwordPtr := w.dst
  dst := w.dst + 4
  cword := 1 <<< 31

/-- A group that is complete is closed before the next item. -/
def Writer.next (w : Writer) : Writer := if w.cword &&& 1 = 1 then w.turn else w

/-- `while ((cword_val & 1) != 1) cword_val = cword_val >> 1`. The source's loop does not end
for 0, which a control word never is. -/
def shiftOut (cword : Nat) : Nat :=
  if h : cword % 2 = 1 ∨ cword = 0 then cword else shiftOut (cword / 2)
termination_by cword
decreasing_by omega

theorem shiftOut_mul_pow (k a : Nat) : shiftOut (2 ^ k * (1 + 2 * a)) = 1 + 2 * a := by
  induction k with
  | zero =>
    rw [shiftOut, dif_pos (Or.inl (by omega))]
    omega
  | succ k ih =>
    have hpos : 0 < 2 ^ k * (1 + 2 * a) := Nat.mul_pos (Nat.two_pow_pos k) (by omega)
    have htwice : 2 ^ (k + 1) * (1 + 2 * a) = 2 * (2 ^ k * (1 + 2 * a)) := by
      rw [Nat.pow_succ']
      ring
    rw [shiftOut, htwice, dif_neg (by omega), Nat.mul_div_cancel_left _ (by decide), ih]

/-- What a writer that began at `start` has left behind: the groups that are complete, and
those of the current group's items it was given so far. -/
structure Written (start : Nat) (w : Writer) (full : List (List Item)) (cur : List Item) : Prop where
  complete : ∀ g ∈ full, g.length = GROUP
  room : cur.length ≤ GROUP
  cwordPtr : w.cwordPtr = start + (block full).length
  dst : w.dst = w.cwordPtr + 4 + (payload cur).length
  cword : w.cword = 2 ^ (GROUP - cur.length) * (1 + 2 * flags cur)
  before : slice w.mem start (block full).length = block full
  behind : slice w.mem (w.cwordPtr + 4) (payload cur).length = payload cur

section Written

variable {start : Nat} {w : Writer} {full : List (List Item)} {cur : List Item}

/-- The mark goes above the flags. -/
theorem markedWord_eq {a : Nat} (h : a < 2 ^ GROUP) : markedWord (1 + 2 * a) = 2 ^ GROUP + a := by
  have hhalf : (1 + 2 * a) >>> 1 = a := by
    rw [Nat.shiftRight_eq_div_pow]
    omega
  have hor := Nat.two_pow_add_eq_or_of_lt h 1
  rw [Nat.mul_one] at hor
  rw [markedWord, hhalf, Nat.or_comm, Nat.one_shiftLeft]
  exact hor.symm

theorem shiftIn_eq {k a : Nat} (flag : Bool) (hk : k < GROUP) (ha : a < 2 ^ k) :
    shiftIn (2 ^ (GROUP - k) * (1 + 2 * a)) flag =
      2 ^ (GROUP - (k + 1)) * (1 + 2 * (a + 2 ^ k * flag.toNat)) := by
  have hexp : GROUP - k = (GROUP - (k + 1)) + 1 := by omega
  have hhalf : (2 ^ (GROUP - k) * (1 + 2 * a)) >>> 1 = 2 ^ (GROUP - (k + 1)) * (1 + 2 * a) := by
    have htwice : 2 ^ (GROUP - k) * (1 + 2 * a) = 2 * (2 ^ (GROUP - (k + 1)) * (1 + 2 * a)) := by
      rw [hexp, Nat.pow_succ']
      ring
    rw [Nat.shiftRight_eq_div_pow, htwice, Nat.pow_one, Nat.mul_div_cancel_left _ (by decide)]
  have htop : 2 ^ (GROUP - (k + 1)) * (2 * 2 ^ k) = 2 ^ GROUP := by
    rw [← Nat.pow_succ', ← Nat.pow_add]
    congr 1
    omega
  have hlt : 2 ^ (GROUP - (k + 1)) * (1 + 2 * a) < 2 ^ GROUP := by
    rw [← htop]
    exact Nat.mul_lt_mul_of_pos_left (by omega) (Nat.two_pow_pos _)
  cases flag with
  | false => simp [shiftIn, hhalf]
  | true =>
    have hor := Nat.two_pow_add_eq_or_of_lt hlt 1
    rw [Nat.mul_one] at hor
    rw [shiftIn, if_pos rfl, hhalf, Nat.or_comm, Nat.one_shiftLeft]
    refine hor.symm.trans ?_
    rw [← htop, Bool.toNat_true]
    ring

/-- The test `(cword_val & 1) == 1` tells whether the group is complete. -/
theorem Written.complete_iff (h : Written start w full cur) :
    w.cword &&& 1 = 1 ↔ cur.length = GROUP := by
  rw [Nat.and_one_is_mod, h.cword]
  constructor
  · intro hodd
    by_contra hlen
    have hroom := h.room
    have hexp : GROUP - cur.length = (GROUP - cur.length - 1) + 1 := by omega
    rw [hexp, Nat.pow_succ', Nat.mul_assoc, Nat.mul_mod_right] at hodd
    omega
  · intro hlen
    rw [hlen, Nat.sub_self, Nat.pow_zero, Nat.one_mul]
    omega

/-- The writer before its first item, after it has left room for the first word. -/
theorem written_nil (m : Mem) (start : Nat) : Written start ⟨m, start, start + 4, 1 <<< 31⟩ [] [] where
  complete := by simp
  room := by simp
  cwordPtr := by simp [block]
  dst := by simp
  cword := by simp [flags, GROUP]
  before := by simp [block]
  behind := by simp

/-- An item is added to a group with room. It does not matter what the memory holds from its
end on. -/
theorem Written.put (h : Written start w full cur) (hroom : cur.length < GROUP) (it : Item) {m : Mem}
    (hkeep : ∀ i, i < w.dst → m i = w.mem i) (hbytes : slice m w.dst it.bytes.length = it.bytes) :
    Written start ⟨m, w.cwordPtr, w.dst + it.bytes.length, shiftIn w.cword it.flag⟩ full
      (cur ++ [it]) := by
  have hptr := h.cwordPtr
  have hdst := h.dst
  refine ⟨h.complete, ?_, hptr, ?_, ?_, ?_, ?_⟩
  · rw [List.length_append, List.length_singleton]
    exact hroom
  · dsimp only
    rw [payload_snoc, List.length_append, hdst]
    omega
  · dsimp only
    rw [h.cword, shiftIn_eq it.flag hroom (flags_lt cur), flags_snoc, List.length_append,
      List.length_singleton]
  · refine (slice_congr fun i hi => hkeep _ ?_).trans h.before
    omega
  · dsimp only
    rw [payload_snoc, List.length_append, slice_append_at w.dst (by omega), hbytes]
    congr 1
    refine (slice_congr fun i hi => hkeep _ ?_).trans h.behind
    omega

/-- The groups as they stand once the word of the current one is patched in. -/
theorem Written.patched (h : Written start w full cur) :
    slice (storeLE w.mem w.cwordPtr 4 (2 ^ GROUP + flags cur)) start (block (full ++ [cur])).length =
      block (full ++ [cur]) := by
  have hptr := h.cwordPtr
  rw [block_snoc, List.length_append, slice_append_at w.cwordPtr hptr, List.length_append,
    length_leBytes, slice_append, storeLE]
  congr 1
  · rw [slice_memcpy_disjoint (by omega), h.before]
  · rw [slice_memcpy_self' (by simp), slice_memcpy_disjoint (by simp), h.behind]

/-- A complete group is closed and a new one begun. -/
theorem Written.turn (h : Written start w full cur) (hlen : cur.length = GROUP) :
    Written start w.turn (full ++ [cur]) [] := by
  have hword : markedWord w.cword = 2 ^ GROUP + flags cur := by
    rw [h.cword, hlen, Nat.sub_self, Nat.pow_zero, Nat.one_mul,
      markedWord_eq (flags_lt_group h.room)]
  refine ⟨?_, by simp, ?_, by simp [Writer.turn], by simp [Writer.turn, flags, GROUP], ?_, by simp⟩
  · intro g hg
    rw [List.mem_append, List.mem_singleton] at hg
    rcases hg with hg | rfl
    · exact h.complete g hg
    · exact hlen
  · have hptr := h.cwordPtr
    have hdst := h.dst
    simp only [Writer.turn, block_snoc, List.length_append, length_leBytes]
    omega
  · simp only [Writer.turn]
    rw [hword]
    exact h.patched

/-- The last group is closed, complete or not. -/
theorem Written.finish (h : Written start w full cur) :
    let m := storeLE w.mem w.cwordPtr 4 (markedWord (shiftOut w.cword))
    slice m start (w.dst - start) = block (full ++ [cur]) := by
  have hword : markedWord (shiftOut w.cword) = 2 ^ GROUP + flags cur := by
    rw [h.cword, shiftOut_mul_pow, markedWord_eq (flags_lt_group h.room)]
  have hlen : w.dst - start = (block (full ++ [cur])).length := by
    have hptr := h.cwordPtr
    have hdst := h.dst
    simp only [block_snoc, List.length_append, length_leBytes]
    omega
  dsimp only
  rw [hword, hlen]
  exact h.patched

/-- The writer was given these items. -/
def Wrote (start : Nat) (w : Writer) (its : List Item) : Prop :=
  ∃ full cur, Written start w full cur ∧ full.flatten ++ cur = its

variable {its : List Item}

theorem Written.next (h : Written start w full cur) :
    ∃ full' cur', Written start w.next full' cur' ∧ cur'.length < GROUP ∧
      full'.flatten ++ cur' = full.flatten ++ cur := by
  unfold Writer.next
  split
  · rename_i hodd
    refine ⟨full ++ [cur], [], h.turn (h.complete_iff.mp hodd), by decide, ?_⟩
    simp
  · rename_i hodd
    have hlen : cur.length ≠ GROUP := fun hlen => hodd (h.complete_iff.mpr hlen)
    exact ⟨full, cur, h, Nat.lt_of_le_of_ne h.room hlen, rfl⟩

/-- Every item takes its bytes, and every group its word. -/
theorem Wrote.length_le (h : Wrote start w its) (hne : ∀ it ∈ its, it.bytes ≠ []) :
    start + 4 + its.length ≤ w.dst := by
  have hpayload : ∀ g : List Item, (∀ it ∈ g, it.bytes ≠ []) → g.length ≤ (payload g).length := by
    intro g hg
    induction g with
    | nil => exact Nat.le_refl 0
    | cons it g ih =>
      have hpos := List.length_pos_iff.mpr (hg it List.mem_cons_self)
      have := ih fun it' hit' => hg it' (List.mem_cons_of_mem _ hit')
      rw [payload_cons, List.length_append, List.length_cons]
      omega
  have hblock : ∀ gs : List (List Item), (∀ g ∈ gs, ∀ it ∈ g, it.bytes ≠ []) →
      gs.flatten.length ≤ (block gs).length := by
    intro gs hgs
    induction gs with
    | nil => exact Nat.le_refl 0
    | cons g gs ih =>
      have := ih fun g' hg' => hgs g' (List.mem_cons_of_mem _ hg')
      have := hpayload g (hgs g List.mem_cons_self)
      rw [block, List.flatMap_cons, ← block, List.flatten_cons]
      simp only [List.length_append]
      omega
  obtain ⟨full, cur, hw, rfl⟩ := h
  have hfull := hblock full fun g hg it hit =>
    hne it (List.mem_append_left _ (List.mem_flatten.mpr ⟨g, hg, hit⟩))
  have hcur := hpayload cur fun it hit => hne it (List.mem_append_right _ hit)
  rw [hw.dst, hw.cwordPtr, List.length_append]
  omega

end Written

/-! ### The reader -/

/-- A reader at `src` whose word still has `left` flags below its mark, of value `fl`, gets
these items. Where there is no flag left it loads the next word. -/
inductive Reads (m : Mem) : Nat → Nat → Nat → List Item → Prop where
  | done {src left fl : Nat} : fl < 2 ^ left → Reads m src left fl []
  | refill {src fl : Nat} {its : List Item} : fl < 2 ^ GROUP → loadLE m src 4 = 2 ^ GROUP + fl →
      Reads m (src + 4) GROUP fl its → Reads m src 0 0 its
  | item {src left fl : Nat} {it : Item} {its : List Item} :
      slice m src it.bytes.length = it.bytes → Reads m (src + it.bytes.length) left fl its →
      Reads m src (left + 1) (it.flag.toNat + 2 * fl) (it :: its)

section Reads

variable {m : Mem} {src left fl : Nat} {it : Item} {its : List Item}

theorem Reads.flags_lt (h : Reads m src left fl its) : fl < 2 ^ left := by
  induction h with
  | done hlt => exact hlt
  | refill => decide
  | item _ _ ih =>
    have hbit := Bool.toNat_le (Item.flag ‹Item›)
    rw [Nat.pow_succ]
    omega

/-- What is left of a group is read, and then what follows the group. -/
theorem reads_group {g rest : List Item} (hm : slice m src (payload g).length = payload g)
    (hroom : g.length ≤ left)
    (hrest : g.length = left → Reads m (src + (payload g).length) 0 0 rest)
    (hlast : g.length < left → rest = []) : Reads m src left (flags g) (g ++ rest) := by
  induction g generalizing src left with
  | nil =>
    cases left with
    | zero => exact hrest rfl
    | succ left =>
      rw [hlast (by simp)]
      exact .done (Nat.two_pow_pos _)
  | cons it g ih =>
    obtain ⟨left', rfl⟩ : ∃ left', left = left' + 1 := ⟨left - 1, by simp at hroom; omega⟩
    simp only [List.length_cons, Nat.add_le_add_iff_right, Nat.add_right_cancel_iff,
      Nat.add_lt_add_iff_right, payload_cons, List.length_append] at hroom hrest hlast hm
    obtain ⟨hit, hg⟩ := slice_split hm
    refine .item hit (ih hg hroom (fun hlen => ?_) hlast)
    rw [Nat.add_assoc]
    exact hrest hlen

/-- From memory that holds the groups a reader that begins there gets the items. -/
theorem reads_block {full : List (List Item)} {cur : List Item}
    (hfull : ∀ g ∈ full, g.length = GROUP) (hcur : cur.length ≤ GROUP)
    (hm : slice m src (block (full ++ [cur])).length = block (full ++ [cur])) :
    Reads m src 0 0 (full.flatten ++ cur) := by
  have hword : ∀ {g : List Item} {src n : Nat} {bs : List UInt8}, g.length ≤ GROUP →
      slice m src n = leBytes 4 (2 ^ GROUP + flags g) ++ bs →
        loadLE m src 4 = 2 ^ GROUP + flags g := by
    intro g src n bs hg h
    have hhead := (slice_split h).1
    have hlt := flags_lt_group hg
    rw [length_leBytes] at hhead
    rw [loadLE, hhead, leNat_leBytes, Nat.mod_eq_of_lt]
    rw [GROUP] at hlt ⊢
    omega
  induction full generalizing src with
  | nil =>
    have hm' : slice m src (block [cur]).length = leBytes 4 (2 ^ GROUP + flags cur) ++ payload cur := by
      simpa [block] using hm
    have htail := (slice_split hm').2
    rw [length_leBytes] at htail
    refine .refill (flags_lt_group hcur) (hword hcur hm') ?_
    have h : Reads m (src + 4) GROUP (flags cur) (cur ++ []) :=
      reads_group htail hcur (fun _ => .done (by decide)) fun _ => rfl
    rwa [List.append_nil] at h
  | cons g full ih =>
    have hg : g.length = GROUP := hfull g List.mem_cons_self
    have hm' : slice m src (block (g :: full ++ [cur])).length =
        leBytes 4 (2 ^ GROUP + flags g) ++ (payload g ++ block (full ++ [cur])) := by
      simpa [block] using hm
    obtain ⟨-, htail⟩ := slice_split hm'
    rw [length_leBytes] at htail
    obtain ⟨hbytes, hmore⟩ := slice_split htail
    rw [List.flatten_cons, List.append_assoc]
    refine .refill (flags_lt_group (Nat.le_of_eq hg)) (hword (Nat.le_of_eq hg) hm') ?_
    refine reads_group hbytes (Nat.le_of_eq hg) (fun _ => ?_) fun hlt => by omega
    exact ih (fun g' hg' => hfull g' (List.mem_cons_of_mem _ hg')) hmore

/-- What a writer was given is read from any copy of what it has left behind. -/
theorem Wrote.reads {start : Nat} {w : Writer} (h : Wrote start w its)
    (hm : slice m src (w.dst - start) =
      slice (storeLE w.mem w.cwordPtr 4 (markedWord (shiftOut w.cword))) start (w.dst - start)) :
    Reads m src 0 0 its := by
  obtain ⟨full, cur, hw, rfl⟩ := h
  have hblock := hm.trans hw.finish
  have hlen := congrArg List.length hblock
  rw [length_slice] at hlen
  rw [hlen] at hblock
  exact reads_block hw.complete hw.room hblock

end Reads

end Solowan.Memory
