import Availability.Analysis
import Availability.Listing
import Availability.Sample

/-! The command line: analyze a sample procedure and write it down with its facts.

    There are three flags, each with a value that follows as the next argument or after `=`. None
    may be given twice, and nothing else is accepted but a request for help. Arguments are read from
    left to right, and the first that is wrong or asks for help decides. `run` is the whole program
    as a function from arguments to what is printed and to the exit code: 0 for a listing or for
    help, 1 for an analysis that was given up, 2 for arguments that are not understood. -/

namespace Availability.CommandLine

open ThreeAddress

/-! ### Flags -/

/-- What can be set. -/
inductive Flag where
  | program
  | strategy
  | iterationLimit
  deriving DecidableEq

/-- How a flag is spelled. -/
def Flag.name : Flag → String
  | .program => "--program"
  | .strategy => "--strategy"
  | .iterationLimit => "--iteration-limit"

/-- The flag of this spelling. -/
def Flag.ofName? (name : String) : Option Flag :=
  [Flag.program, .strategy, .iterationLimit].find? fun flag => flag.name == name

/-- What is wrong with the arguments. -/
inductive UsageError where
  | unexpected (arg : String)
  | missingValue (flag : Flag)
  | repeated (flag : Flag)
  | invalidValue (flag : Flag) (value : String)
  deriving DecidableEq

/-- A usage error in one line. -/
def UsageError.message : UsageError → String
  | .unexpected arg => "error: unexpected argument '" ++ arg ++ "' found"
  | .missingValue flag => "error: a value is required for '" ++ flag.name ++ "'"
  | .repeated flag => "error: the argument '" ++ flag.name ++ "' cannot be used multiple times"
  | .invalidValue flag value =>
    "error: invalid value '" ++ value ++ "' for '" ++ flag.name ++ "'"

/-- Splits `--flag=value` at the first `=`; an argument without one has no value of its own. -/
def splitValue (arg : String) : String × Option String :=
  match arg.toList.span (· ≠ '=') with
  | (name, []) => (String.ofList name, none)
  | (name, _ :: value) => (String.ofList name, some (String.ofList value))

/-! ### Values -/

/-- A limit: decimal digits, possibly after a plus sign, for a number up to `maxCount`. -/
def readLimit? (s : String) : Option Nat :=
  let digits := match s.toList with
    | '+' :: cs => cs
    | cs => cs
  if digits ≠ [] ∧ digits.all Char.isDigit then
    let n := digits.foldl (fun n c => 10 * n + (c.toNat - '0'.toNat)) 0
    if n ≤ maxCount then some n else none
  else none

/-- A strategy by its name. -/
def readStrategy? : String → Option Strategy
  | "reference" => some .reference
  | "worklist" => some .worklist
  | _ => none

/-- A sample by its name. -/
def readSample? : String → Option Sample
  | "straight" => some .straight
  | "diamond" => some .diamond
  | "loop" => some .loop
  | _ => none

/-! ### Reading the arguments -/

/-- What has been set so far. -/
structure Settings where
  sample? : Option Sample := none
  strategy? : Option Strategy := none
  limit? : Option Nat := none

/-- A setting that is made by a flag: it may be made once, with a value that `read` understands. -/
def setOnce {α : Type} (flag : Flag) (read : String → Option α) (old? : Option α)
    (value : String) : Except UsageError (Option α) :=
  match old?, read value with
  | some _, _ => .error (.repeated flag)
  | none, none => .error (.invalidValue flag value)
  | none, some new => .ok (some new)

/-- Sets a flag. -/
def Settings.set (s : Settings) (flag : Flag) (value : String) : Except UsageError Settings :=
  match flag with
  | .program => return { s with sample? := ← setOnce flag readSample? s.sample? value }
  | .strategy => return { s with strategy? := ← setOnce flag readStrategy? s.strategy? value }
  | .iterationLimit => return { s with limit? := ← setOnce flag readLimit? s.limit? value }

/-- What was asked for. -/
structure Request where
  sample : Sample := .loop
  config : Config := {}

/-- What is asked for by these settings; what is not set is as usual. -/
def Settings.request (s : Settings) : Request :=
  let usual : Request := {}
  { sample := s.sample?.getD usual.sample
    config :=
      { strategy := s.strategy?.getD usual.config.strategy
        iterationLimit := s.limit?.getD usual.config.iterationLimit } }

/-- Whether an argument asks for help: `--help`, or `-h` with whatever stands right behind it. -/
def asksForHelp (arg : String) : Bool := arg == "--help" || arg.startsWith "-h"

/-- What the arguments ask for, and `none` if that is help. A value that is an argument of its own
    may not start with `-`. The arguments may end with `--`. -/
def parse (s : Settings) : List String → Except UsageError (Option Request)
  | [] => .ok (some s.request)
  | ["--"] => .ok (some s.request)
  | arg :: args =>
    if asksForHelp arg then .ok none
    else
      let (name, value?) := splitValue arg
      match Flag.ofName? name, value?, args with
      | none, _, _ => .error (.unexpected arg)
      | some flag, some value, args => do parse (← s.set flag value) args
      | some flag, none, [] => .error (.missingValue flag)
      | some flag, none, value :: args =>
        if value.toList.head? = some '-' then .error (.missingValue flag)
        else do parse (← s.set flag value) args

/-! ### Running -/

/-- What a run leaves behind. -/
structure Outcome where
  exitCode : UInt8
  stdout : String
  stderr : String

/-- The listing that was asked for. -/
def answer (request : Request) : Except Error String := do
  let graph ← Graph.ofBlocks request.sample.blocks
  let table ← analyze request.config graph
  return listing graph table

/-- How the program is called. -/
def usage : String :=
  "Usage: avail-expr " ++ " ".intercalate
    ([Flag.program, .strategy, .iterationLimit].map fun flag => "[" ++ flag.name ++ " VALUE]")

/-- The whole program. -/
def run (args : List String) : Outcome :=
  match parse {} args with
  | .error e => ⟨2, "", e.message ++ "\n"⟩
  | .ok none => ⟨0, usage ++ "\n", ""⟩
  | .ok (some request) =>
    match answer request with
    | .error e => ⟨1, "", "Error: " ++ e.record ++ "\n"⟩
    | .ok text => ⟨0, text, ""⟩

end Availability.CommandLine
