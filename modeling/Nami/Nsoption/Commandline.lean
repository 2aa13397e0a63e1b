import Nami.Nsoption.Basic

/-!
# Options on the command line

`nsoption_commandline` of `utils/nsoption.c`. The arguments are C strings, `argc` is their number.
-/

namespace Nami.Nsoption

/-- What `nsoption_commandline` returns besides `NSERROR_OK`. -/
inductive CommandlineError where
  | badParameter
  deriving DecidableEq, Repr

/-- What the loop reads in one round. -/
inductive Argument where
  /-- The loop ends at the index. -/
  | stop (idx : Nat)
  /-- `arg` with `arglen`, the value, and the index to go on with. -/
  | option (arg : Bytes) (arglen : Nat) (val : Bytes) (idx : Nat)
  deriving DecidableEq, Repr

/-- The tests of an argument, which must be as long as the shortest option. -/
def isOption (arg : Bytes) : Bool :=
  !(arg.length < 2 + 5 || arg[0]? != some ('-' : UInt8) || arg[1]? != some ('-' : UInt8))

/-- The length of the name of an option is taken up to the `=`, or it is that of the whole argument. -/
def readArgument (argv : List Bytes) (idx : Nat) : Argument :=
  match argv[idx]? with
  | none => .stop idx
  | some arg =>
    if isOption arg then
      match (arg.drop 2).dropWhile fun c : UInt8 => c ≠ '=' with
      | [] =>
        match argv[idx + 1]? with
        | none => .stop (idx + 1)
        | some val => .option (arg.drop 2) arg.length val (idx + 2)
      | _ :: val => .option (arg.drop 2) ((arg.drop 2).takeWhile fun c : UInt8 => c ≠ '=').length val (idx + 1)
    else .stop idx

/-- The option that is set: the first for which `strncmp` finds no difference in so many bytes. -/
def findOption (arg : Bytes) (arglen : Nat) (opts : OptionTable) : Option Nat :=
  opts.findIdx? fun option => arg.take arglen == option.key.take arglen

/-- `strtooption` on the option of the index, if there is one. -/
def setFound (found : Option Nat) (val : Bytes) (opts : OptionTable) : OptionTable :=
  found.elim opts fun idx => modifyValue idx (strToOption val) opts

/-- What the loop leaves: the index, the table, and which options were set to what on the way. -/
structure CommandLoop where
  idx : Nat
  opts : OptionTable
  settings : List (Option Nat × Bytes)
  deriving DecidableEq, Repr

/-- The loop of `nsoption_commandline`; there are not more rounds than arguments. -/
def commandLoop (argv : List Bytes) : Nat → Nat → OptionTable → CommandLoop
  | 0, idx, opts => { idx, opts, settings := [] }
  | fuel + 1, idx, opts =>
    match readArgument argv idx with
    | .stop idx => { idx, opts, settings := [] }
    | .option arg arglen val idx =>
      let found := findOption arg arglen opts
      let loop := commandLoop argv fuel idx (setFound found val opts)
      { loop with settings := (found, val) :: loop.settings }

/-- `argv` after so many rounds of the loop that removes the processed options. -/
def moveArguments (idx : Nat) (argv : List Bytes) : Nat → List Bytes
  | 0 => argv
  | mv + 1 =>
    let moved := moveArguments idx argv mv
    moved.set (mv + 1) (moved.getD (mv + idx) [])

/-- `argv` without the processed options, up to the new `argc`. -/
def removeArguments (idx : Nat) (argv : List Bytes) : List Bytes :=
  (moveArguments idx argv (argv.length - idx)).take (argv.length - (idx - 1))

/-- `nsoption_commandline`, with the tables that it is given and the global one. -/
def commandline (argv : Option (List Bytes)) (opts nsoptions : Option OptionTable) (defs : OptionTable) :
    Except CommandlineError (List Bytes × OptionTable) :=
  match argv, opts <|> nsoptions with
  | some argv, some opts =>
    let loop := commandLoop argv argv.length 1 opts
    .ok (removeArguments loop.idx argv, validate loop.opts defs)
  | _, _ => .error .badParameter

end Nami.Nsoption
