/-
Trace levels (`lib/debugd.c`, `lib/debugd.h`).

The level of each trace is a field of `debugword`: a table gives its mask, and the offset at
which a level is added. The row of `uncomp` has its mask at bit 10 and its offset at bit 12, so
that its level is added where its mask does not reach: it is never reported, never cleared, and
the next one is added on top of it.

* `reported_uncomp`: what is reported for `uncomp` is 0 whatever was set.
* `levels_independent_iff`: in a sequence of commands every trace has the level last set for it,
  and no other bit is set, if and only if `uncomp` is never enabled.
-/

import Mathlib.Data.List.Induction
import Solowan.Memory.BitFields
import Solowan.Memory.CString

namespace Solowan.Cli

open Solowan.Memory

/-! ### The table -/

def UPDATE_CACHE_MASK : BitVec 64 := 0x3
def LOCAL_UPDATE_CACHE_MASK : BitVec 64 := 0xC
def UPDATE_CACHE_RTX_MASK : BitVec 64 := 0x30
def DEDUP_MASK : BitVec 64 := 0xC0
def PUT_IN_CACHE_MASK : BitVec 64 := 0x300
def UNCOMP_MASK : BitVec 64 := 0xC00

structure TraceCommand where
  name : String
  mask : BitVec 64
  doc : String
  offset_bits : Nat
  deriving DecidableEq

/-- `trace_commands`, up to the row without a name. -/
def traceCommands : List TraceCommand :=
  [⟨"update_cache", UPDATE_CACHE_MASK, "UPDATE_CACHE_MASK", 0⟩,
    ⟨"local_update_cache", LOCAL_UPDATE_CACHE_MASK, "LOCAL_UPDATE_CACHE_MASK", 2⟩,
    ⟨"update_cache_rtx", UPDATE_CACHE_RTX_MASK, "UPDATE_CACHE_RTX_MASK", 4⟩,
    ⟨"dedup", DEDUP_MASK, "DEDUP_MASK", 6⟩,
    ⟨"put_in_cache", PUT_IN_CACHE_MASK, "PUT_IN_CACHE_MASK", 8⟩,
    ⟨"uncomp", UNCOMP_MASK, "UNCOMP_MASK", 12⟩]

def findTraceCommand (name : String) : Option TraceCommand :=
  traceCommands.find? fun t => t.name = name

/-! ### The commands -/

def CLI_ERROR : Int := -1
def CLI_SUCCESS : Int := 0
def CLI_ERR_CMD : Int := 3

/-- What is written back to the client. -/
inductive Feedback where
  /-- The dashed line. -/
  | rule
  | text (msg : String)
  /-- `Current debug mask ...`. -/
  | currentMask (debugword : BitVec 64)
  /-- `Traces mask changed to ...`. -/
  | maskChanged (debugword : BitVec 64)
  /-- `Traces '...' changed to ...`. -/
  | changed (name : String) (level : Int)
  /-- `Traces '...' disable`. -/
  | disabled (name : String)
  /-- `Mask not found: ...`. -/
  | notFound (name : String)
  /-- `[...]: ...`, an entry of a help text. -/
  | entry (number : Nat) (name : String)
  /-- A trace and its level. -/
  | level (doc : String) (value : BitVec 64)
  deriving DecidableEq

/-- What a handler leaves and returns. -/
structure Handled where
  debugword : BitVec 64
  result : Int
  feedback : List Feedback

/-- `(debugword & mask) >> offset_bits`. -/
def reported (debugword : BitVec 64) (t : TraceCommand) : BitVec 64 :=
  (debugword &&& t.mask) >>> t.offset_bits

def cliShowTracesMask (debugword : BitVec 64) : List Feedback :=
  [.rule, .currentMask debugword, .rule] ++
    traceCommands.map (fun t => .level t.doc (reported debugword t)) ++ [.rule]

def printTracesHelp (hasnumber : Bool) : List Feedback :=
  (if hasnumber then [.entry 1 "[Number(1..3)]"] else []) ++
    traceCommands.mapIdx (fun i t => .entry (if hasnumber then i + 2 else i + 1) t.name) ++
      [.rule]

/-- A string that is a number for `atoi`: it is not 0, or starts with a zero. -/
def isNumber (s : String) : Bool := !(atoi s == 0 && s.toList.head? != some '0')

def validateTracesLevel (level : String) : Int × List Feedback :=
  let argument := atoi level
  if isNumber level then
    if 0 < argument ∧ argument < 4 then (argument, [])
    else (CLI_ERROR, [.text "Level traces between 1 and 3\n", .rule])
  else (CLI_ERROR, [.text "Command needs a number.\n"])

/-- `cli_traces_enable`. `level` is not initialised: with `mask` and something that is no number
it is stored as it is. -/
def cliTracesEnable (level debugword : BitVec 64) : List String → Handled
  | [argument] =>
    if isNumber argument then
      let set := fun word => (⟨word, CLI_SUCCESS, .rule :: cliShowTracesMask word⟩ : Handled)
      if atoi argument = 1 then set 0x1555
      else if atoi argument = 2 then set 0x2aaa
      else if atoi argument = 3 then set 0xffff
      else ⟨debugword, CLI_SUCCESS, [.rule, .text "Level traces between 1 and 3\n", .rule]⟩
    else ⟨debugword, CLI_ERR_CMD, .rule :: printTracesHelp true⟩
  | [name, argument] =>
    if name = "mask" then
      let word := (sscanfHex argument).getD level
      ⟨word, CLI_SUCCESS, .rule :: .maskChanged word :: cliShowTracesMask word⟩
    else
      let (result, feedback) := validateTracesLevel argument
      if result = CLI_ERROR then ⟨debugword, CLI_ERROR, .rule :: feedback⟩
      else
        match findTraceCommand name with
        | some t =>
          let word := writeField debugword t.mask (BitVec.ofInt 64 result <<< t.offset_bits)
          ⟨word, 0, .rule :: .changed t.name result :: cliShowTracesMask word⟩
        | none => ⟨debugword, CLI_ERR_CMD, .rule :: .notFound name :: printTracesHelp false⟩
  | _ => ⟨debugword, CLI_ERR_CMD, .rule :: printTracesHelp true⟩

def cliTracesDisable (debugword : BitVec 64) : List String → Handled
  | [] => ⟨0, CLI_SUCCESS, .rule :: cliShowTracesMask 0⟩
  | [name] =>
    match findTraceCommand name with
    | some t =>
      let word := debugword &&& ~~~t.mask
      ⟨word, CLI_SUCCESS, .rule :: .disabled t.name :: cliShowTracesMask word⟩
    | none => ⟨debugword, CLI_ERR_CMD, .rule :: .notFound name :: printTracesHelp false⟩
  | _ => ⟨debugword, CLI_ERR_CMD, .rule :: printTracesHelp false⟩

/-! ### Sequences of commands -/

/-- The commands on one trace. -/
inductive TraceLine where
  | enable (name level : String)
  | disable (name : String)
  deriving DecidableEq

/-- The trace a command is about. -/
def TraceLine.trace : TraceLine → String
  | .enable name _ => name
  | .disable name => name

/-- The level a command sets. -/
def TraceLine.level : TraceLine → Int
  | .enable _ level => atoi level
  | .disable _ => 0

/-- A command as the help text describes it: on a trace of the table, at a level from 1 to 3. -/
def TraceLine.Proper (c : TraceLine) : Prop :=
  (∃ t ∈ traceCommands, t.name = c.trace) ∧
    match c with
    | .enable _ level => 1 ≤ atoi level ∧ atoi level ≤ 3
    | .disable _ => True

instance : (c : TraceLine) → Decidable c.Proper
  | .enable name level =>
    inferInstanceAs (Decidable ((∃ t ∈ traceCommands, t.name = name) ∧
      1 ≤ atoi level ∧ atoi level ≤ 3))
  | .disable name => inferInstanceAs (Decidable ((∃ t ∈ traceCommands, t.name = name) ∧ True))

/-- What a command makes of `debugword`. -/
def TraceLine.run (debugword : BitVec 64) : TraceLine → BitVec 64
  | .enable name level => (cliTracesEnable 0 debugword [name, level]).debugword
  | .disable name => (cliTracesDisable debugword [name]).debugword

/-- `debugword` after a sequence of commands. -/
def runLines (cs : List TraceLine) : BitVec 64 := cs.foldl TraceLine.run 0

/-- The level last set for a trace, 0 if there is none. -/
def lastLevel (cs : List TraceLine) (name : String) : Int :=
  cs.foldl (fun level c => if c.trace = name then c.level else level) 0

/-- Every trace is reported at the level last set for it, and all other bits are zero. -/
structure Independent (cs : List TraceLine) (debugword : BitVec 64) : Prop where
  reported : ∀ t ∈ traceCommands,
    reported debugword t = BitVec.ofInt 64 (lastLevel cs t.name)
  inside : ∀ i, debugword.getLsbD i = true →
    ∃ c ∈ cs, ∃ t ∈ traceCommands, t.name = c.trace ∧ t.mask.getLsbD i = true

/-! ### The rows of the table -/

section Rows

variable {t t' : TraceCommand} {word : BitVec 64}

theorem findTraceCommand_name (ht : t ∈ traceCommands) : findTraceCommand t.name = some t := by
  revert t
  decide

theorem name_ne_mask (ht : t ∈ traceCommands) : t.name ≠ "mask" := by
  revert t
  decide

theorem mask_disjoint (ht : t ∈ traceCommands) (ht' : t' ∈ traceCommands) (hne : t ≠ t') :
    t.mask &&& t'.mask = 0 := by
  have hrows : ∀ t ∈ traceCommands, ∀ t' ∈ traceCommands, t ≠ t' → t.mask &&& t'.mask = 0 := by
    decide
  exact hrows t ht t' ht' hne

theorem eq_of_name_eq (ht : t ∈ traceCommands) (ht' : t' ∈ traceCommands)
    (h : t.name = t'.name) : t = t' := by
  have := findTraceCommand_name ht
  rw [h, findTraceCommand_name ht'] at this
  exact (Option.some.inj this).symm

/-- A level lies under the mask of the row, and is read back. -/
def TraceCommand.Fits (t : TraceCommand) (level : Int) : Prop :=
  Under (BitVec.ofInt 64 level <<< t.offset_bits) t.mask ∧
    BitVec.ofInt 64 level <<< t.offset_bits >>> t.offset_bits = BitVec.ofInt 64 level

instance (t : TraceCommand) (level : Int) : Decidable (t.Fits level) :=
  inferInstanceAs (Decidable (_ ∧ _))

/-- Every row but one has room for its levels, -/
theorem fits_of_ne_uncomp (ht : t ∈ traceCommands) (hname : t.name ≠ "uncomp") {level : Int}
    (hlow : 0 ≤ level) (hhigh : level ≤ 3) : t.Fits level := by
  have hrows : ∀ t ∈ traceCommands, t.name ≠ "uncomp" →
      t.Fits 0 ∧ t.Fits 1 ∧ t.Fits 2 ∧ t.Fits 3 := by decide
  obtain ⟨h0, h1, h2, h3⟩ := hrows t ht hname
  obtain rfl | rfl | rfl | rfl : level = 0 ∨ level = 1 ∨ level = 2 ∨ level = 3 := by omega
  · exact h0
  · exact h1
  · exact h2
  · exact h3

theorem fits_zero (ht : t ∈ traceCommands) : t.Fits 0 := by
  revert t
  decide

/-- and that one is always reported as 0. -/
theorem reported_uncomp (ht : t ∈ traceCommands) (hname : t.name = "uncomp") :
    reported word t = 0 := by
  have hrows : ∀ t ∈ traceCommands, t.name = "uncomp" → t.mask >>> t.offset_bits = 0 := by decide
  rw [reported, BitVec.ushiftRight_and_distrib, hrows t ht hname]
  exact BitVec.and_zero

end Rows

/-! ### One command -/

section Step

variable {t : TraceCommand} {c : TraceLine} {cs : List TraceLine} {word : BitVec 64}

theorem TraceLine.Proper.level_le (h : c.Proper) : 0 ≤ c.level ∧ c.level ≤ 3 := by
  cases c with
  | enable name level =>
    have hrange : 1 ≤ atoi level ∧ atoi level ≤ 3 := h.2
    exact ⟨Int.le_trans (by decide) hrange.1, hrange.2⟩
  | disable name => exact ⟨Int.le_refl 0, Int.zero_le_ofNat 3⟩

/-- Enabling and disabling write the field of the trace. -/
theorem TraceLine.Proper.run (h : c.Proper) (ht : t ∈ traceCommands) (hname : t.name = c.trace) :
    c.run word = writeField word t.mask (BitVec.ofInt 64 c.level <<< t.offset_bits) := by
  cases c with
  | enable name level =>
    obtain rfl : t.name = name := hname
    have hrange : 1 ≤ atoi level ∧ atoi level ≤ 3 := h.2
    have hvalid : validateTracesLevel level = (atoi level, []) := by
      have hnumber : isNumber level = true := by
        have hne : atoi level ≠ 0 := by omega
        simp [isNumber, hne]
      rw [validateTracesLevel, if_pos hnumber, if_pos (by omega)]
    have herror : atoi level ≠ CLI_ERROR := by
      rw [CLI_ERROR]
      omega
    simp only [TraceLine.run, cliTracesEnable, if_neg (name_ne_mask ht), hvalid, if_neg herror,
      findTraceCommand_name ht]
    rfl
  | disable name =>
    obtain rfl : t.name = name := hname
    simp [TraceLine.run, cliTracesDisable, findTraceCommand_name ht, writeField,
      TraceLine.level]

theorem runLines_append (cs : List TraceLine) (c : TraceLine) :
    runLines (cs ++ [c]) = c.run (runLines cs) := by
  rw [runLines, List.foldl_append]
  rfl

theorem lastLevel_append (cs : List TraceLine) (c : TraceLine) (name : String) :
    lastLevel (cs ++ [c]) name = if c.trace = name then c.level else lastLevel cs name := by
  rw [lastLevel, List.foldl_append]
  rfl

/-- **A command whose level fits** sets its trace, and no other. -/
theorem Independent.step (h : Independent cs word) (hc : c.Proper) (ht : t ∈ traceCommands)
    (hname : t.name = c.trace) (hfits : t.Fits c.level) :
    Independent (cs ++ [c]) (c.run word) := by
  obtain ⟨hunder, hback⟩ := hfits
  rw [hc.run ht hname]
  constructor
  · intro t' ht'
    rw [lastLevel_append, Cli.reported]
    by_cases hsame : t = t'
    · subst hsame
      rw [writeField_and_self hunder, if_pos hname.symm]
      exact hback
    · have hother : c.trace ≠ t'.name := fun heq => hsame (eq_of_name_eq ht ht' (hname.trans heq))
      rw [writeField_and_of_disjoint hunder (mask_disjoint ht ht' hsame), if_neg hother]
      exact h.reported t' ht'
  · intro i hbit
    rcases getLsbD_writeField hunder hbit with hold | hnew
    · obtain ⟨c', hc', t', ht', hname', hmask⟩ := h.inside i hold
      exact ⟨c', List.mem_append_left _ hc', t', ht', hname', hmask⟩
    · exact ⟨c, List.mem_append_right _ (List.mem_singleton_self c), t, ht, hname, hnew⟩

theorem Independent.start : Independent [] 0 := by
  constructor
  · intro t ht
    have hzero : (0 : BitVec 64) &&& t.mask = 0 := BitVec.zero_and
    rw [Cli.reported, hzero]
    exact BitVec.zero_ushiftRight
  · intro i hbit
    simp at hbit

end Step

/-! ### Whole sequences -/

section Sequences

variable {cs : List TraceLine}

/-- Without `enable uncomp` the levels are independent. -/
theorem independent_runLines (hproper : ∀ c ∈ cs, c.Proper)
    (huncomp : ∀ level, TraceLine.enable "uncomp" level ∉ cs) : Independent cs (runLines cs) := by
  induction cs using List.reverseRecOn with
  | nil => exact .start
  | append_singleton cs c ih =>
    have hmem : c ∈ cs ++ [c] := List.mem_append_right _ (List.mem_singleton_self c)
    have hc := hproper c hmem
    obtain ⟨t, ht, hname⟩ := hc.1
    have hfits : t.Fits c.level := by
      by_cases hrow : t.name = "uncomp"
      · cases c with
        | enable name level =>
          obtain rfl : name = "uncomp" := hname.symm.trans hrow
          exact absurd hmem (huncomp level)
        | disable name => exact fits_zero ht
      · exact fits_of_ne_uncomp ht hrow hc.level_le.1 hc.level_le.2
    rw [runLines_append]
    refine Independent.step (ih ?_ ?_) hc ht hname hfits
    · exact fun c' hc' => hproper c' (List.mem_append_left _ hc')
    · exact fun level hlevel => huncomp level (List.mem_append_left _ hlevel)

/-- **When trace levels are independent.** After every command of a sequence the levels reported
are those last set, and no bit outside the fields that were used is set, if and only if `uncomp`
is not enabled. -/
theorem levels_independent_iff (hproper : ∀ c ∈ cs, c.Proper) :
    (∀ past, past <+: cs → Independent past (runLines past)) ↔
      ∀ level, TraceLine.enable "uncomp" level ∉ cs := by
  constructor
  · intro h level hmem
    obtain ⟨past, rest, rfl⟩ := List.append_of_mem hmem
    have hind := h (past ++ [.enable "uncomp" level]) ⟨rest, by simp⟩
    obtain ⟨⟨t, ht, hname⟩, hlow, hhigh⟩ := hproper _ hmem
    have hlast : lastLevel (past ++ [.enable "uncomp" level]) t.name = atoi level := by
      rw [lastLevel_append, if_pos hname.symm]
      rfl
    have hreport := hind.reported t ht
    rw [reported_uncomp ht hname, hlast] at hreport
    obtain h1 | h2 | h3 : atoi level = 1 ∨ atoi level = 2 ∨ atoi level = 3 := by omega
    · rw [h1] at hreport
      exact absurd hreport (by decide)
    · rw [h2] at hreport
      exact absurd hreport (by decide)
    · rw [h3] at hreport
      exact absurd hreport (by decide)
  · intro h past hbegin
    refine independent_runLines ?_ ?_
    · exact fun c hc => hproper c (hbegin.subset hc)
    · exact fun level hlevel => h level (hbegin.subset hlevel)

theorem levels_independent_dedup :
    Independent [.enable "dedup" "2", .disable "put_in_cache"]
      (runLines [.enable "dedup" "2", .disable "put_in_cache"]) :=
  (levels_independent_iff (show ∀ c ∈ [.enable "dedup" "2", .disable "put_in_cache"],
    TraceLine.Proper c by decide)).mpr (by simp) _ (List.prefix_refl _)

/-- The level of `uncomp` is set at bits 12 and 13, and stays there when it is disabled. -/
theorem uncomp_level_lost :
    TraceLine.Proper (.enable "uncomp" "2") ∧
      runLines [.enable "uncomp" "2"] = 0x2000 ∧
      runLines [.enable "uncomp" "2", .disable "uncomp"] = 0x2000 ∧
      ¬ Independent [.enable "uncomp" "2"] (runLines [.enable "uncomp" "2"]) := by
  refine ⟨by decide, by decide, by decide, ?_⟩
  intro h
  obtain ⟨t, ht, hname⟩ : ∃ t ∈ traceCommands, t.name = "uncomp" := by decide
  have hreport := h.reported t ht
  rw [reported_uncomp ht hname, hname] at hreport
  exact absurd hreport (by decide)

end Sequences

end Solowan.Cli
