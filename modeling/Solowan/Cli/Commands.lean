/-
The commands of the CLI (`opennopd/subsystems/clicommands.c`).

The registered commands are a tree: a list of the first tokens, below each of them a list of the
tokens that follow it, and a handler where a command ends. A line of the client is cut token by
token on the way down the tree, and what is left of it is cut into parameters at the end: once on
a copy, to count them, and once in place.

What is shown to the client is given by the list whose commands are shown.
-/

import Mathlib.Data.List.Basic
import Solowan.Cli.Traces
import Solowan.Memory.Tokenizer

namespace Solowan.Cli

open Solowan.Memory

/-! ### The tree -/

def CLI_INV_CMD : Int := 2

/-- `delimiters`. -/
def delimiters : List Char := [' ']

def isDelimiter (c : Char) : Bool := delimiters.contains c

/-- `strdup`. -/
def strdup (s : List Char) : List Char := cString s 0

/-- `struct command`, with the list of its child. `hidden` is not initialised before a command
ends here. -/
structure Command (F : Type) where
  command : List Char
  command_handler : Option F
  child : List (Command F)
  hasparams : Bool
  hidden : Option Bool

section Register

variable {F : Type}

/-- `allocate_command`, with the token. -/
def allocateCommand (token : List Char) : Command F := ⟨token, none, [], false, none⟩

/-- `find_command`: the list from the command on, which is empty when there is none. -/
def findCommand (currentnode : List (Command F)) (command_name : List Char) : List (Command F) :=
  currentnode.dropWhile fun c => decide (c.command ≠ command_name)

/-- The arguments of `register_command`. -/
structure Registration (F : Type) where
  command_name : List Char
  handler_function : F
  hasparams : Bool
  hidden : Bool

/-- Find the command of a token in a list, or else append one, and change it. -/
def enterCommand (token : List Char) (f : Command F → Command F) :
    List (Command F) → List (Command F)
  | [] => [f (allocateCommand token)]
  | c :: nodes => if c.command = token then f c :: nodes else c :: enterCommand token f nodes

/-- The last token of a command. -/
def Registration.assign (r : Registration F) (c : Command F) : Command F :=
  { c with
    command_handler := some r.handler_function
    hasparams := r.hasparams
    hidden := some r.hidden }

/-- The loop of `register_command` over the tokens of the name. -/
def registerLoop (r : Registration F) :
    Nat → List Char → List Char → Nat → List (Command F) → List (Command F)
  | 0, _, _, _, currentnode => currentnode
  | fuel + 1, token, cp, saved_token, currentnode =>
    match strtokR isDelimiter cp saved_token with
    | (none, _, _) => enterCommand token r.assign currentnode
    | (some next, cp, saved_token) =>
      enterCommand token
        (fun c => { c with child := registerLoop r fuel next cp saved_token c.child }) currentnode

/-- `register_command`. A head that is not there yet is a list without commands. -/
def registerCommand (head : List (Command F)) (r : Registration F) : List (Command F) :=
  match strtokR isDelimiter (strdup r.command_name) 0 with
  | (none, _, _) => head
  | (some token, cp, saved_token) => registerLoop r (cp.length + 1) token cp saved_token head

end Register

/-! ### Parameters -/

/-- The loop of `detect_delim_count`. -/
def delimLoop : Nat → Option (List Char) → List Char → Nat → Int → Option Int
  | _, none, _, _, count => some count
  | 0, some _, _, _, _ => none
  | fuel + 1, some parser, itr_str, pos, count =>
    if parser = [] then some count
    else
      let (next, itr_str, pos) := strtokR isDelimiter itr_str pos
      delimLoop fuel next itr_str pos (if parser ≠ delimiters then count + 1 else count)

/-- `detect_delim_count`, the number of tokens less one. -/
def detectDelimCount (i_str : List Char) : Option Int :=
  let (parser, itr_str, pos) := strtokR isDelimiter i_str 0
  (delimLoop (i_str.length + 1) parser itr_str pos 0).map (· - 1)

/-- The loop that copies the tokens to `parameters`, as many as were counted. It would read
through a null pointer if there were fewer. -/
def parameterLoop : Nat → Option (List Char) → List Char → Nat →
    Option (List (List Char) × List Char)
  | 0, _, cp, _ => some ([], cp)
  | _ + 1, none, _, _ => none
  | n + 1, some token, cp, pos =>
    let (next, cp, pos) := strtokR isDelimiter cp pos
    (parameterLoop n next cp pos).map fun (parameters, cp) => (token :: parameters, cp)

/-- The parameters of a handler, the null pointer being `none`, and the line after they were cut
out of it. -/
def parametersOf (hasparams : Bool) (cp : List Char) (saved_token : Nat) :
    Option (Option (List (List Char)) × List Char) :=
  if hasparams then
    if (cString cp saved_token).length = 0 then some (none, cp)
    else
      match detectDelimCount (cString cp saved_token) with
      | none => none
      | some idx =>
        let (token, cp, pos) := strtokR isDelimiter cp saved_token
        (parameterLoop (idx + 1).toNat token cp pos).map fun (parameters, cp) =>
          (some parameters, cp)
  else some (none, cp)

/-! ### Executing a line -/

/-- A call of a handler. -/
structure Call (F : Type) where
  handler : F
  parameters : Option (List (List Char))

/-- The tokens a handler is given; there are none at the null pointer. -/
def Call.given {F : Type} (call : Call F) : List (List Char) := call.parameters.getD []

/-- What `execute_commands` returns, the handlers it has called, and the list whose help it has
shown. -/
structure Execution (F : Type) where
  shutdown : Int
  calls : List (Call F)
  help : Option (List (Command F))

/-- `help` in any case, or `?`. -/
def isHelp (token : List Char) : Bool :=
  token.map Char.toLower == "help".toList || token == "?".toList

section Execute

variable {F : Type} (result : Call F → Int)

/-- The commands of a list from the one that was found on: the first one with a handler is
called. -/
def executeSiblings (token cp : List Char) (saved_token : Nat) :
    List (Command F) → Int → Option (Int × List (Call F) × List Char)
  | [], shutdown => some (shutdown, [], cp)
  | currentcommand :: siblings, _ =>
    if currentcommand.command = token then
      match currentcommand.command_handler with
      | some handler =>
        (parametersOf currentcommand.hasparams cp saved_token).map fun (parameters, cp) =>
          (result ⟨handler, parameters⟩, [⟨handler, parameters⟩], cp)
      | none => executeSiblings token cp saved_token siblings CLI_ERR_CMD
    else executeSiblings token cp saved_token siblings CLI_ERR_CMD

/-- The loop over the tokens of a line. -/
def executeLoop : Nat → Int → List (Command F) → Option (List Char) → List Char → Nat →
    Option (Execution F)
  | _, shutdown, currentnode, none, _, _ =>
    some ⟨shutdown, [], if shutdown = CLI_ERROR then some currentnode else none⟩
  | 0, _, _, some _, _, _ => none
  | fuel + 1, shutdown, currentnode, some token, cp, saved_token =>
    if isHelp token then some ⟨shutdown, [], some currentnode⟩
    else
      match findCommand currentnode token with
      | [] => some ⟨CLI_INV_CMD, [], none⟩
      | currentcommand :: siblings =>
        if !currentcommand.child.isEmpty then
          let (token, cp, saved_token) := strtokR isDelimiter cp saved_token
          executeLoop fuel shutdown currentcommand.child token cp saved_token
        else
          match executeSiblings result token cp saved_token (currentcommand :: siblings)
              shutdown with
          | none => none
          | some (shutdown, calls, cp) =>
            let (token, cp, saved_token) := strtokR isDelimiter cp saved_token
            if calls.isEmpty then executeLoop fuel shutdown currentnode token cp saved_token
            else
              some ⟨shutdown, calls,
                if token = none ∧ shutdown = CLI_ERROR then some currentnode else none⟩

/-- `execute_commands`, `result` being what the handlers return. -/
def executeCommands (head : List (Command F)) (command_name : List Char) :
    Option (Execution F) :=
  if head.isEmpty then some ⟨CLI_INV_CMD, [], none⟩
  else
    match strtokR isDelimiter (strdup command_name) 0 with
    | (none, _, _) => some ⟨CLI_ERROR, [], none⟩
    | (some token, cp, saved_token) =>
      executeLoop result (cp.length + 1) CLI_ERROR head (some token) cp saved_token

end Execute

end Solowan.Cli
