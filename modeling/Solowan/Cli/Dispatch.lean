/-
Which handler a line of the CLI calls (`register_command` and `execute_commands`,
`opennopd/subsystems/clicommands.c`).

* `find_tree`: what is below a token in the tree is the tree of the commands that go on behind
  it, in the order in which they were registered.
* `executeCommands_dispatches`: a line calls the handler of the command it starts with, once and
  with the tokens that are left, and no other.
* `blank_and_help_not_called`: a command without tokens is not registered, and one with `help` in
  it, in any case, is not reached.
-/

import Mathlib.Data.List.Pairwise
import Solowan.Cli.Commands

namespace Solowan.Cli

open Solowan.Memory

/-! ### Commands as lists of tokens -/

/-- The tokens of a line. -/
def tokensOf (line : List Char) : List (List Char) := tokens isDelimiter (strdup line)

section Tree

variable {F : Type} {r : Registration F} {c : Command F} {f : Command F → Command F}
  {nodes : List (Command F)} {token t : List Char} {rest : List (List Char)}
  {es : List (List (List Char) × Registration F)}

/-- A registration on the tokens of its name. -/
def registerTokens (r : Registration F) :
    List (List Char) → List (Command F) → List (Command F)
  | [], nodes => nodes
  | token :: rest, nodes =>
    enterCommand token
      (fun c => if rest.isEmpty then r.assign c
        else { c with child := registerTokens r rest c.child }) nodes

/-- What a registration does with a command on its path, `rest` being the tokens behind it. -/
def enter (r : Registration F) (rest : List (List Char)) (c : Command F) : Command F :=
  if rest.isEmpty then r.assign c else { c with child := registerTokens r rest c.child }

/-- The loop cuts the tokens one after the other, and enters each below the one before. -/
theorem registerLoop_eq (r : Registration F) {fuel saved_token : Nat} {cp : List Char}
    (hrest : tokens isDelimiter (cString cp saved_token) = rest) (hfuel : rest.length < fuel)
    (token : List Char) (nodes : List (Command F)) :
    registerLoop r fuel token cp saved_token nodes = registerTokens r (token :: rest) nodes := by
  induction rest generalizing fuel cp saved_token token nodes with
  | nil =>
    cases fuel with
    | zero => exact absurd hfuel (Nat.not_lt_zero _)
    | succ fuel =>
      rcases strtokR_cases isDelimiter cp saved_token with ⟨-, hcut⟩ | ⟨next, cp', pos, -, htokens⟩
      · rw [registerLoop, hcut]
        rfl
      · rw [hrest] at htokens
        cases htokens
  | cons next rest ih =>
    cases fuel with
    | zero => exact absurd hfuel (Nat.not_lt_zero _)
    | succ fuel =>
      rcases strtokR_cases isDelimiter cp saved_token with ⟨hnone, -⟩ | ⟨next', cp', pos, hcut, htokens⟩
      · rw [hrest] at hnone
        cases hnone
      · rw [hrest] at htokens
        obtain ⟨rfl, hrest'⟩ := List.cons.inj htokens
        rw [registerLoop, hcut]
        dsimp only
        rw [registerTokens]
        congr 1
        funext c
        rw [ih hrest'.symm (Nat.lt_of_succ_lt_succ hfuel), List.isEmpty_cons, if_neg Bool.false_ne_true]

/-- `register_command` on the tokens. -/
theorem registerCommand_eq (head : List (Command F)) (r : Registration F) :
    registerCommand head r = registerTokens r (tokensOf r.command_name) head := by
  rw [registerCommand, tokensOf]
  have hcopy : cString (strdup r.command_name) 0 = strdup r.command_name :=
    cString_copy r.command_name 0
  rcases strtokR_cases isDelimiter (strdup r.command_name) 0 with
    ⟨hnone, hcut⟩ | ⟨token, cp, pos, hcut, htokens⟩
  · rw [hcopy] at hnone
    rw [hcut, hnone]
    rfl
  · rw [hcopy] at htokens
    rw [hcut, htokens]
    exact registerLoop_eq r rfl
      (Nat.lt_succ_of_le ((length_tokens_le _).trans (length_cString_le cp pos))) token head

/-! ### The tree of a list of commands -/

/-- The tree after some registrations, by the tokens of their names. -/
def tree (es : List (List (List Char) × Registration F)) (nodes : List (Command F)) :
    List (Command F) :=
  es.foldl (fun nodes e => registerTokens e.2 e.1 nodes) nodes

/-- A command that starts with the token `t`, without it. -/
def tailOf (t : List Char) :
    List (List Char) × Registration F → Option (List (List Char) × Registration F)
  | ([], _) => none
  | (token :: rest, r) => if token = t then some (rest, r) else none

/-- The commands that start with a token, without it. -/
def tails (t : List Char) (es : List (List (List Char) × Registration F)) :
    List (List (List Char) × Registration F) :=
  es.filterMap (tailOf t)

theorem tailOf_eq_some {e : List (List Char) × Registration F} :
    tailOf t e = some (rest, r) ↔ e = (t :: rest, r) := by
  obtain ⟨ts, r'⟩ := e
  cases ts with
  | nil => simp [tailOf]
  | cons token rest' => simp [tailOf, and_assoc]

theorem tails_cons : tails t ((token :: rest, r) :: es) =
    if token = t then (rest, r) :: tails t es else tails t es := by
  unfold tails
  rw [List.filterMap_cons, tailOf]
  by_cases htoken : token = t
  · simp [htoken]
  · simp [htoken]

theorem mem_tails : (rest, r) ∈ tails t es ↔ (t :: rest, r) ∈ es := by
  simp only [tails, List.mem_filterMap, tailOf_eq_some, exists_eq_right]

@[simp] theorem enter_command (r : Registration F) (rest : List (List Char)) (c : Command F) :
    (enter r rest c).command = c.command := by
  unfold enter
  split
  · rfl
  · rfl

/-- The command of a token, after another one was entered or changed. -/
theorem findCommand_enterCommand (hf : ∀ c, (f c).command = c.command) :
    (findCommand (enterCommand token f nodes) t).head? =
      if token = t then some (f ((findCommand nodes token).head?.getD (allocateCommand token)))
      else (findCommand nodes t).head? := by
  induction nodes with
  | nil =>
    by_cases htoken : token = t
    · simp [findCommand, enterCommand, allocateCommand, hf, htoken]
    · simp [findCommand, enterCommand, allocateCommand, hf, htoken]
  | cons c nodes ih =>
    rw [enterCommand]
    by_cases hc : c.command = token
    · rw [if_pos hc]
      by_cases htoken : token = t
      · simp [findCommand, hf, hc, htoken]
      · simp [findCommand, hf, hc, htoken]
    · rw [if_neg hc]
      by_cases hct : c.command = t
      · have hne : ¬ token = t := fun h => hc (hct.trans h.symm)
        simp [findCommand, hct, hne]
      · have hskip : ∀ l : List (Command F), findCommand (c :: l) t = findCommand l t := by
          intro l
          simp [findCommand, hct]
        have hskip' : findCommand (c :: nodes) token = findCommand nodes token := by
          simp [findCommand, hc]
        rw [hskip, hskip, hskip', ih]

/-- **What is below a token**: the commands that go on behind it, entered one after the other. -/
theorem find_tree (es : List (List (List Char) × Registration F)) (nodes : List (Command F))
    (t : List Char) :
    (findCommand (tree es nodes) t).head? =
      if (tails t es).isEmpty then (findCommand nodes t).head?
      else some ((tails t es).foldl (fun c e => enter e.2 e.1 c)
        ((findCommand nodes t).head?.getD (allocateCommand t))) := by
  induction es generalizing nodes with
  | nil => rfl
  | cons e es ih =>
    obtain ⟨ts, r⟩ := e
    rw [tree, List.foldl_cons, ← tree, ih]
    cases ts with
    | nil => rfl
    | cons token rest =>
      have hreg : registerTokens r (token :: rest) nodes =
          enterCommand token (enter r rest) nodes := rfl
      dsimp only
      rw [hreg, findCommand_enterCommand (enter_command r rest)]
      rw [tails_cons]
      by_cases htoken : token = t
      · subst htoken
        rw [if_pos rfl, if_pos rfl, Option.getD_some]
        cases tails token es with
        | nil => rfl
        | cons e' es' => rfl
      · rw [if_neg htoken, if_neg htoken]

/-- A list of commands without a blank one is entered below a command. -/
theorem foldl_enter (hne : ∀ e ∈ es, e.1 ≠ []) (c : Command F) :
    es.foldl (fun c e => enter e.2 e.1 c) c = { c with child := tree es c.child } := by
  induction es generalizing c with
  | nil =>
    cases c
    rfl
  | cons e es ih =>
    obtain ⟨hfirst, hne⟩ := List.forall_mem_cons.mp hne
    rw [List.foldl_cons, ih hne, enter, if_neg (by simp [hfirst]), tree, tree, List.foldl_cons]

/-- There is a command in the tree, if one has been entered. -/
theorem tree_ne_nil {e : List (List Char) × Registration F} (he : e ∈ es) (hne : e.1 ≠ []) :
    tree es nodes ≠ [] := by
  obtain ⟨token, rest, hts⟩ := List.exists_cons_of_ne_nil hne
  have htail : (rest, e.2) ∈ tails token es := mem_tails.mpr (by rw [← hts]; exact he)
  intro hnil
  have hfind := find_tree es nodes token
  rw [hnil, if_neg (by simpa using List.ne_nil_of_mem htail)] at hfind
  cases hfind

end Tree

/-! ### Cutting the parameters -/

section Parameters

variable {cp : List Char} {pos : Nat} {ts : List (List Char)}

/-- The first call finds the tokens that are left. -/
theorem strtokR_of_tokens (h : tokens isDelimiter (cString cp pos) = ts) :
    ∃ cp' pos', strtokR isDelimiter cp pos = (ts.head?, cp', pos') ∧
      (ts ≠ [] → tokens isDelimiter (cString cp' pos') = ts.tail) := by
  rcases strtokR_cases isDelimiter cp pos with ⟨hnone, hcut⟩ | ⟨token, cp', pos', hcut, htokens⟩
  · rw [← h, hnone]
    exact ⟨_, _, hcut, fun hne => absurd rfl hne⟩
  · rw [← h, htokens]
    exact ⟨_, _, hcut, fun _ => rfl⟩

/-- No token is the string of the delimiters. -/
theorem token_ne_delimiters {s token : List Char} (h : token ∈ tokens isDelimiter s) :
    token ≠ [] ∧ token ≠ delimiters := by
  obtain ⟨hne, hfree⟩ := mem_tokens h
  refine ⟨hne, ?_⟩
  rintro rfl
  exact absurd (hfree ' ' (by decide)) (by decide)

/-- The tokens are counted, the first of them being the one that was cut last. -/
theorem delimLoop_eq (htoken : ∀ token ∈ ts, token ≠ [] ∧ token ≠ delimiters)
    (hrest : ts ≠ [] → tokens isDelimiter (cString cp pos) = ts.tail) {fuel : Nat}
    (hfuel : ts.length ≤ fuel) (count : Int) :
    delimLoop fuel ts.head? cp pos count = some (count + ts.length) := by
  induction ts generalizing cp pos fuel count with
  | nil =>
    rw [List.head?_nil, List.length_nil, Int.natCast_zero, Int.add_zero]
    cases fuel <;> rfl
  | cons token ts ih =>
    cases fuel with
    | zero => exact absurd hfuel (Nat.not_succ_le_zero _)
    | succ fuel =>
      obtain ⟨⟨hne, hdelim⟩, htoken⟩ := List.forall_mem_cons.mp htoken
      obtain ⟨cp', pos', hcut, hrest'⟩ := strtokR_of_tokens (hrest (List.cons_ne_nil token ts))
      rw [List.tail_cons] at hcut hrest'
      rw [List.head?_cons, delimLoop, if_neg hne, hcut]
      dsimp only
      rw [if_pos hdelim, ih htoken hrest' (Nat.le_of_succ_le_succ hfuel), List.length_cons,
        Int.natCast_succ, Int.add_assoc, Int.add_comm 1]

theorem detectDelimCount_eq (h : tokens isDelimiter (cString cp pos) = ts) :
    detectDelimCount (cString cp pos) = some ((ts.length : Int) - 1) := by
  have hcopy := cString_copy cp pos
  have hcopied : tokens isDelimiter (cString (cString cp pos) 0) = ts := by
    rw [hcopy]
    exact h
  obtain ⟨cp', pos', hcut, hrest⟩ := strtokR_of_tokens hcopied
  have hlen : ts.length ≤ (cString cp pos).length + 1 := by
    rw [← h]
    exact (length_tokens_le _).trans (Nat.le_succ _)
  rw [detectDelimCount, hcut]
  dsimp only
  have htoken : ∀ token ∈ ts, token ≠ [] ∧ token ≠ delimiters := by
    rw [← h]
    exact fun token => token_ne_delimiters
  rw [delimLoop_eq htoken hrest hlen, Int.zero_add, Option.map_some]

/-- As many parameters as there are tokens, the first being the one that was cut last. -/
theorem parameterLoop_eq (hrest : ts ≠ [] → tokens isDelimiter (cString cp pos) = ts.tail) :
    ∃ cp', parameterLoop ts.length ts.head? cp pos = some (ts, cp') := by
  induction ts generalizing cp pos with
  | nil => exact ⟨cp, rfl⟩
  | cons token ts ih =>
    obtain ⟨cp', pos', hcut, hrest'⟩ := strtokR_of_tokens (hrest (List.cons_ne_nil token ts))
    obtain ⟨cp'', hloop⟩ := ih hrest'
    rw [List.tail_cons] at hcut
    refine ⟨cp'', ?_⟩
    rw [List.length_cons, List.head?_cons, parameterLoop, hcut]
    dsimp only
    rw [hloop, Option.map_some]

/-- **The parameters** are the tokens that are left, if the command has parameters. -/
theorem parametersOf_eq (h : tokens isDelimiter (cString cp pos) = ts) (hasparams : Bool) :
    ∃ parameters cp', parametersOf hasparams cp pos = some (parameters, cp') ∧
      parameters.getD [] = if hasparams then ts else [] := by
  unfold parametersOf
  cases hasparams with
  | false => exact ⟨none, cp, rfl, rfl⟩
  | true =>
    rw [if_pos rfl, if_pos rfl]
    by_cases hempty : (cString cp pos).length = 0
    · refine ⟨none, cp, if_pos hempty, ?_⟩
      rw [← h, List.eq_nil_of_length_eq_zero hempty]
      rfl
    · rw [if_neg hempty, detectDelimCount_eq h]
      obtain ⟨cp', pos', hcut, hrest⟩ := strtokR_of_tokens h
      obtain ⟨cp'', hloop⟩ := parameterLoop_eq hrest
      have hcount : ((ts.length : Int) - 1 + 1).toNat = ts.length := by omega
      refine ⟨some ts, cp'', ?_, rfl⟩
      dsimp only
      rw [hcut]
      dsimp only
      rw [hcount, hloop, Option.map_some]

end Parameters

/-! ### The way down the tree -/

/-- None of the commands is a prefix of another one or is blank, and none has a token that asks
for help. -/
structure Registrable {F : Type} (es : List (List (List Char) × Registration F)) : Prop where
  free : es.Pairwise fun a b => ¬ a.1 <+: b.1 ∧ ¬ b.1 <+: a.1
  nonblank : ∀ e ∈ es, e.1 ≠ []
  nohelp : ∀ e ∈ es, ∀ token ∈ e.1, isHelp token = false

/-- The calls that a line with the tokens `ts` is to make: that of the command it starts with, with
the tokens that are left, or none. -/
def Dispatches {F : Type} (es : List (List (List Char) × Registration F)) (ts : List (List Char))
    (calls : List (Call F)) : Prop :=
  (∀ e ∈ es, e.1 <+: ts → calls.map (fun call => (call.handler, call.given)) =
      [(e.2.handler_function, if e.2.hasparams then ts.drop e.1.length else [])]) ∧
    ((∀ e ∈ es, ¬ e.1 <+: ts) → calls = [])

section Descent

variable {F : Type} {es : List (List (List Char) × Registration F)} {t : List Char}
  {ts : List (List Char)} {calls : List (Call F)}

/-- What goes on behind a token: a command that ends there and nothing else, or commands as
before. -/
theorem Registrable.tails (h : Registrable es) (t : List Char) :
    (∃ r, tails t es = [([], r)]) ∨ Registrable (Cli.tails t es) := by
  have hfree : (Cli.tails t es).Pairwise fun a b => ¬ a.1 <+: b.1 ∧ ¬ b.1 <+: a.1 := by
    refine List.Pairwise.filterMap _ ?_ h.free
    rintro e e' hne ⟨rest, r⟩ he ⟨rest', r'⟩ he'
    rw [tailOf_eq_some.mp he, tailOf_eq_some.mp he', List.cons_prefix_cons,
      List.cons_prefix_cons] at hne
    simpa using hne
  by_cases hend : ∃ r, ([], r) ∈ Cli.tails t es
  · obtain ⟨r, hr⟩ := hend
    obtain ⟨before, after, hsplit⟩ := List.append_of_mem hr
    rw [hsplit] at hfree
    obtain ⟨-, hafter, hbefore⟩ := List.pairwise_append.mp hfree
    have hnone : before = [] := List.eq_nil_iff_forall_not_mem.mpr fun e he =>
      (hbefore e he _ List.mem_cons_self).2 List.nil_prefix
    have hnone' : after = [] := List.eq_nil_iff_forall_not_mem.mpr fun e he =>
      (List.rel_of_pairwise_cons hafter he).1 List.nil_prefix
    rw [hsplit, hnone, hnone']
    exact Or.inl ⟨r, rfl⟩
  · refine Or.inr ⟨hfree, ?_, ?_⟩
    · rintro ⟨rest, r⟩ he rfl
      exact hend ⟨r, he⟩
    · rintro ⟨rest, r⟩ he token htoken
      exact h.nohelp _ (mem_tails.mp he) token (List.mem_cons_of_mem t htoken)

/-- A line goes on below its first token as the rest of it does there. -/
theorem Dispatches.cons (h : Dispatches (Cli.tails t es) ts calls)
    (hne : ∀ e ∈ es, e.1 ≠ []) : Dispatches es (t :: ts) calls := by
  constructor
  · rintro ⟨name, r⟩ he hbegin
    obtain ⟨token, rest, hname⟩ := List.exists_cons_of_ne_nil (hne _ he)
    dsimp only at hname hbegin
    rw [hname, List.cons_prefix_cons] at hbegin
    obtain ⟨rfl, hbegin⟩ := hbegin
    rw [hname] at he
    have hcalls := h.1 (rest, r) (mem_tails.mpr he) hbegin
    rw [hname]
    exact hcalls
  · intro hnone
    refine h.2 ?_
    rintro ⟨rest, r⟩ he hbegin
    exact hnone _ (mem_tails.mp he) (List.cons_prefix_cons.mpr ⟨rfl, hbegin⟩)

/-- No command is called where none starts the line. -/
theorem dispatches_nothing (h : ∀ e ∈ es, ¬ e.1 <+: ts) : Dispatches es ts [] :=
  ⟨fun e he hbegin => absurd hbegin (h e he), fun _ => rfl⟩

/-- The list of a tree for a token that no command starts with. -/
theorem findCommand_tree_nil (h : tails t es = []) : findCommand (tree es []) t = [] := by
  have hfind := find_tree es [] t
  rw [h] at hfind
  exact List.head?_eq_none_iff.mp hfind

/-- The command of the tree for a token that some commands start with. -/
theorem findCommand_tree_cons {e : List (List Char) × Registration F} (he : e ∈ tails t es) :
    ∃ siblings, findCommand (tree es []) t =
      (tails t es).foldl (fun c e => enter e.2 e.1 c) (allocateCommand t) :: siblings := by
  have hfind := find_tree es [] t
  rw [if_neg (by simpa using List.ne_nil_of_mem he)] at hfind
  exact List.head?_eq_some_iff.mp hfind

variable {result : Call F → Int} {cp : List Char} {pos : Nat}

/-- Where a command ends, its handler is called, and no other one of the list. -/
theorem executeSiblings_end (result : Call F → Int)
    (hts : tokens isDelimiter (cString cp pos) = ts) (t : List Char)
    (r : Registration F) (siblings : List (Command F)) (shutdown : Int) :
    ∃ call cp', executeSiblings result t cp pos (r.assign (allocateCommand t) :: siblings)
        shutdown = some (result call, [call], cp') ∧
      call.handler = r.handler_function ∧ call.given = if r.hasparams then ts else [] := by
  obtain ⟨parameters, cp', hparameters, hgiven⟩ := parametersOf_eq hts r.hasparams
  have hcommand : (r.assign (allocateCommand t)).command = t := rfl
  refine ⟨⟨r.handler_function, parameters⟩, cp', ?_, rfl, hgiven⟩
  rw [executeSiblings, if_pos hcommand]
  dsimp only [Registration.assign]
  rw [hparameters, Option.map_some]

/-- **The loop over the tokens of a line** ends, and has called what the line is to call. -/
theorem executeLoop_dispatches (h : Registrable es) {fuel : Nat}
    (hts : tokens isDelimiter (cString cp pos) = ts) (hfuel : ts.length < fuel) (shutdown : Int)
    (t : List Char) :
    ∃ e, executeLoop result fuel shutdown (tree es []) (some t) cp pos = some e ∧
      Dispatches es (t :: ts) e.calls := by
  induction fuel generalizing es cp pos ts t with
  | zero => exact absurd hfuel (Nat.not_lt_zero _)
  | succ fuel ih =>
    rw [executeLoop]
    by_cases hhelp : isHelp t = true
    · rw [if_pos hhelp]
      refine ⟨_, rfl, dispatches_nothing ?_⟩
      intro e he hbegin
      obtain ⟨token, rest, hname⟩ := List.exists_cons_of_ne_nil (h.nonblank e he)
      rw [hname] at hbegin
      obtain ⟨rfl, -⟩ := List.cons_prefix_cons.mp hbegin
      have hno := h.nohelp e he token (by rw [hname]; exact List.mem_cons_self)
      rw [hhelp] at hno
      cases hno
    · rw [if_neg hhelp]
      cases htails : tails t es with
      | nil =>
        rw [findCommand_tree_nil htails]
        refine ⟨_, rfl, Dispatches.cons (t := t) (dispatches_nothing ?_) h.nonblank⟩
        intro e he
        rw [htails] at he
        exact absurd he List.not_mem_nil
      | cons e₀ es₀ =>
        have hmem : e₀ ∈ tails t es := htails ▸ List.mem_cons_self
        obtain ⟨siblings, hfind⟩ := findCommand_tree_cons hmem
        rw [hfind]
        rcases h.tails t with ⟨r, hend⟩ | hgo
        · -- the command ends here
          obtain ⟨call, cp', hsiblings, hhandler, hgiven⟩ :=
            executeSiblings_end result hts t r siblings shutdown
          have hone : (tails t es).foldl (fun c e => enter e.2 e.1 c) (allocateCommand t) =
              r.assign (allocateCommand t) := by
            rw [hend]
            rfl
          rw [hone]
          dsimp only
          rw [if_neg (by simp [Registration.assign, allocateCommand]), hsiblings]
          dsimp only
          rw [if_neg (by simp)]
          refine ⟨_, rfl, Dispatches.cons (t := t) ?_ h.nonblank⟩
          rw [hend]
          constructor
          · intro e he _
            rw [List.mem_singleton.mp he, List.map_singleton, hhandler, hgiven]
            rfl
          · intro hnone
            exact absurd List.nil_prefix (hnone _ (List.mem_singleton.mpr rfl))
        · -- other tokens follow
          rw [foldl_enter hgo.nonblank]
          dsimp only [allocateCommand]
          have hchild : tree (tails t es) [] ≠ [] := tree_ne_nil hmem (hgo.nonblank e₀ hmem)
          rw [if_pos (by simpa using hchild)]
          obtain ⟨cp', pos', hcut, hrest⟩ := strtokR_of_tokens hts
          rw [hcut]
          cases ts with
          | nil =>
            refine ⟨⟨shutdown, [], if shutdown = CLI_ERROR then some (tree (tails t es) []) else none⟩,
              by cases fuel <;> rfl, Dispatches.cons (t := t) (dispatches_nothing ?_) h.nonblank⟩
            intro e he hbegin
            exact hgo.nonblank e he (List.prefix_nil.mp hbegin)
          | cons next ts =>
            obtain ⟨e, hloop, hcalls⟩ := ih hgo (hrest (List.cons_ne_nil next ts))
              (Nat.lt_of_succ_lt_succ hfuel) next
            exact ⟨e, hloop, hcalls.cons h.nonblank⟩

end Descent

/-! ### Lines -/

section Lines

variable {F : Type} {rs : List (Registration F)}

/-- The commands with their tokens. -/
def named (rs : List (Registration F)) : List (List (List Char) × Registration F) :=
  rs.map fun r => (tokensOf r.command_name, r)

theorem foldl_registerCommand (rs : List (Registration F)) :
    rs.foldl registerCommand [] = tree (named rs) [] := by
  rw [tree, named, List.foldl_map]
  exact List.foldl_ext _ _ [] fun head r _ => registerCommand_eq head r

/-- No command is a prefix of another one. -/
def PrefixFree (rs : List (Registration F)) : Prop :=
  rs.Pairwise fun r r' => ¬ tokensOf r.command_name <+: tokensOf r'.command_name ∧
    ¬ tokensOf r'.command_name <+: tokensOf r.command_name

/-- Every line calls the handler of the registered command it starts with, once, and no other one,
and passes it the tokens that are left if the command has parameters; a line that starts with none
of them calls none. -/
def CallsRegistered (rs : List (Registration F)) : Prop :=
  ∀ (result : Call F → Int) (line : List Char),
    ∃ e, executeCommands result (rs.foldl registerCommand []) line = some e ∧
      (∀ r ∈ rs, tokensOf r.command_name <+: tokensOf line →
        e.calls.map (fun call => (call.handler, call.given)) =
          [(r.handler_function,
            if r.hasparams then (tokensOf line).drop (tokensOf r.command_name).length else [])]) ∧
      ((∀ r ∈ rs, ¬ tokensOf r.command_name <+: tokensOf line) → e.calls = [])

/-- **Dispatch.** Commands that have tokens, are no prefixes of each other and do not ask for help
are called as they are registered, in whatever order that was done. -/
theorem executeCommands_dispatches (hfree : PrefixFree rs)
    (hnonblank : ∀ r ∈ rs, tokensOf r.command_name ≠ [])
    (hnohelp : ∀ r ∈ rs, ∀ token ∈ tokensOf r.command_name, isHelp token = false) :
    CallsRegistered rs := by
  intro result line
  have hes : Registrable (named rs) := by
    refine ⟨List.pairwise_map.mpr hfree, ?_, ?_⟩
    · rintro _ he
      obtain ⟨r, hr, rfl⟩ := List.mem_map.mp he
      exact hnonblank r hr
    · rintro _ he
      obtain ⟨r, hr, rfl⟩ := List.mem_map.mp he
      exact hnohelp r hr
  have hexecute : ∃ e, executeCommands result (rs.foldl registerCommand []) line = some e ∧
      Dispatches (named rs) (tokensOf line) e.calls := by
    rw [foldl_registerCommand]
    cases rs with
    | nil => exact ⟨_, rfl, dispatches_nothing fun _ he => absurd he List.not_mem_nil⟩
    | cons r rs =>
      have hmem : (tokensOf r.command_name, r) ∈ named (r :: rs) := List.mem_cons_self
      have htree : tree (named (r :: rs)) [] ≠ [] := tree_ne_nil hmem (hes.nonblank _ hmem)
      have hcopy : cString (strdup line) 0 = strdup line := cString_copy line 0
      rw [executeCommands, if_neg (by simpa using htree), tokensOf]
      rcases strtokR_cases isDelimiter (strdup line) 0 with
        ⟨hnone, hcut⟩ | ⟨token, cp, pos, hcut, htokens⟩
      · rw [hcopy] at hnone
        rw [hcut, hnone]
        refine ⟨_, rfl, dispatches_nothing fun e he hbegin => ?_⟩
        exact hes.nonblank e he (List.prefix_nil.mp hbegin)
      · rw [hcopy] at htokens
        rw [hcut, htokens]
        exact executeLoop_dispatches hes rfl
          (Nat.lt_succ_of_le ((length_tokens_le _).trans (length_cString_le cp pos))) _ token
  obtain ⟨e, he, hcalls, hnone⟩ := hexecute
  refine ⟨e, he, ?_, ?_⟩
  · intro r hr
    exact hcalls _ (List.mem_map.mpr ⟨r, hr, rfl⟩)
  · intro hno
    refine hnone fun x hx => ?_
    obtain ⟨r, hr, rfl⟩ := List.mem_map.mp hx
    exact hno r hr

end Lines

/-- Three commands of the daemon, with numbers for handlers. -/
def someCommands : List (Registration Nat) :=
  [⟨"traces enable".toList, 1, true, false⟩, ⟨"show stats in_dedup".toList, 2, false, false⟩,
    ⟨"traces disable".toList, 3, true, false⟩]

theorem executeCommands_dispatches_some : CallsRegistered someCommands :=
  executeCommands_dispatches (by unfold PrefixFree; decide) (by decide) (by decide)

/-- A blank command is in front of every line, and is not registered; a command with `HELP` in it
is registered, and not reached. -/
theorem blank_and_help_not_called :
    (∃ rs : List (Registration Nat), PrefixFree rs ∧
      (∀ r ∈ rs, ∀ token ∈ tokensOf r.command_name, isHelp token = false) ∧
        ¬ CallsRegistered rs) ∧
    ∃ rs : List (Registration Nat), PrefixFree rs ∧ (∀ r ∈ rs, tokensOf r.command_name ≠ []) ∧
      (∀ r ∈ rs, ∀ token ∈ tokensOf r.command_name,
        token ≠ "help".toList ∧ token ≠ "?".toList) ∧ ¬ CallsRegistered rs := by
  have hnot : ∀ (r : Registration Nat) (line : List Char),
      tokensOf r.command_name <+: tokensOf line →
        (executeCommands (fun _ => CLI_SUCCESS) (registerCommand [] r) line).map
          (fun e => e.calls.length) = some 0 → ¬ CallsRegistered [r] := by
    intro r line hbegin hnone hcalls
    obtain ⟨e, he, hcall, -⟩ := hcalls (fun _ => CLI_SUCCESS) line
    have hlength : (e.calls.map fun call => (call.handler, call.given)).length = 0 := by
      rw [List.foldl_cons, List.foldl_nil] at he
      rw [he] at hnone
      rw [List.length_map]
      exact Option.some.inj hnone
    rw [hcall r List.mem_cons_self hbegin] at hlength
    cases hlength
  refine ⟨⟨[⟨[' '], 1, false, false⟩], by unfold PrefixFree; decide, by decide, ?_⟩,
    ⟨[⟨['H', 'E', 'L', 'P'], 1, false, false⟩], by unfold PrefixFree; decide, by decide, by decide,
      ?_⟩⟩
  · exact hnot _ ['q', 'u', 'i', 't'] (by decide) (by decide)
  · exact hnot _ ['H', 'E', 'L', 'P'] (by decide) (by decide)

end Solowan.Cli
