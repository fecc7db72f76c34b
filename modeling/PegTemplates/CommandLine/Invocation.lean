import PegTemplates.CommandLine.Arguments
import PegTemplates.Emission
import PegTemplates.Files.Path

/-!
# Invocations

What the program is asked to do. There are two commands: one writes template
files, the other shows registries. Both take input files or patterns for them;
the amount of logging can be given in front of the command or behind it, and the
latter counts.
-/

namespace PegTemplates.CommandLine

open Files

/-- A request to write one template file for each input. -/
structure FormatRequest where
  /-- Input files and patterns. -/
  inputs : List String
  /-- Directory of the output. -/
  directory : Path
  /-- Name of the output file, if it does not follow the input. -/
  name : Option String
  /-- Set when nothing is to be written. -/
  dryRun : Bool
  /-- Number of bindings per shape and tag that are looked at. -/
  maxAlternatives : Nat
  deriving DecidableEq, Repr, Inhabited

/-- A request to show the registries of the inputs. -/
structure DumpRequest where
  /-- Input files and patterns. -/
  inputs : List String
  /-- File to write to instead of the output. -/
  output : Option Path
  deriving DecidableEq, Repr, Inhabited

/-- What the program is asked for. -/
inductive Request where
  /-- Template files. -/
  | format (request : FormatRequest)
  /-- Registries. -/
  | dump (request : DumpRequest)
  deriving DecidableEq, Repr, Inhabited

/-- A command line that has been understood. -/
structure Invocation where
  /-- How much more than warnings is logged. -/
  verbosity : Nat
  /-- What is asked for. -/
  request : Request
  deriving DecidableEq, Repr, Inhabited

/-- Value of a text of decimal digits; a plus sign may stand in front. -/
def readDecimal (text : String) : Option Nat :=
  let digits := match text.toList with
    | '+' :: rest => rest
    | chars => chars
  if digits.isEmpty ∨ !digits.all Char.isDigit then none
  else some (digits.foldl (fun value c => 10 * value + (c.toNat - '0'.toNat)) 0)

/-- The bound on the number of bindings that a text gives. -/
def readLimit (text : String) : Option Nat := (readDecimal text).filter (· ≤ maxRate)

/-- The option for more logging. -/
def verboseOption : OptionSpec := ⟨"verbose", some 'v', .counted⟩

/-- The option for input files. -/
def inputOption : OptionSpec := ⟨"input", some 'i', .several⟩

/-- Whether a text can name a file. -/
def isPathValue (text : String) : Bool := !text.isEmpty

/-- The option for the directory of the output. -/
def directoryOption : OptionSpec := ⟨"out-dir", none, .single isPathValue⟩

/-- The option for the name of the output file. -/
def nameOption : OptionSpec := ⟨"name", none, .single fun _ => true⟩

/-- The option for writing nothing. -/
def dryRunOption : OptionSpec := ⟨"dry-run", none, .once⟩

/-- The option for the number of bindings that are looked at. -/
def limitOption : OptionSpec :=
  ⟨"max-alternatives", none, .single fun text => (readLimit text).isSome⟩

/-- The option for a file to write to instead of the output. -/
def outputOption : OptionSpec := ⟨"out", some 'o', .single isPathValue⟩

/-- Options of the command that writes templates. -/
def formatOptions : List OptionSpec :=
  [verboseOption, inputOption, directoryOption, nameOption, dryRunOption, limitOption]

/-- Options of the command that shows registries. -/
def dumpOptions : List OptionSpec := [verboseOption, inputOption, outputOption]

/-- What help is given on. -/
inductive Topic where
  /-- The program as a whole. -/
  | program
  /-- The command that writes templates. -/
  | format
  /-- The command that shows registries. -/
  | dump
  /-- The command that gives help. -/
  | help
  deriving DecidableEq, Repr, Inhabited

/-- Why there is nothing to carry out. -/
inductive Declined where
  /-- Help is called for. -/
  | help (topic : Topic)
  /-- The command line cannot be understood. -/
  | usage
  deriving DecidableEq, Repr, Inhabited

/-- What a stop amounts to among the arguments of the topic. -/
def Stop.declined (topic : Topic) : Stop → Declined
  | help => .help topic
  | usage => .usage

/-- The commands by their names. -/
def commands : List (String × Topic) := [("format", .format), ("dump", .dump), ("help", .help)]

/-- The request that options of the first command make. -/
def formatRequest (given : Given) : FormatRequest where
  inputs := given.values inputOption.name
  directory := (given.values directoryOption.name).head?.getD "."
  name := (given.values nameOption.name).head?
  dryRun := given.has dryRunOption.name
  maxAlternatives :=
    ((given.values limitOption.name).head?.bind readLimit).getD defaultMaxAlternatives

/-- The request that options of the second command make. -/
def dumpRequest (given : Given) : DumpRequest where
  inputs := given.values inputOption.name
  output := (given.values outputOption.name).head?

/-- Reads the arguments of a command that needs inputs. -/
def readRequest (topic : Topic) (options : List OptionSpec) (outer : Given)
    (request : Given → Request) (arguments : List String) : Except Declined Invocation := do
  let reading ← (readArguments options [] arguments none []).mapError (Stop.declined topic)
  let inner := reading.given
  if inner.has inputOption.name then
    .ok {
      verbosity :=
        (if inner.has verboseOption.name then inner else outer).count verboseOption.name
      request := request inner }
  else .error .usage

/-- Answers a call for help, which may name one command. -/
def readHelp : List String → Declined
  | [] => .help .program
  | [name] =>
    match commands.lookup name with
    | some topic => .help topic
    | none => .usage
  | _ => .usage

/-- Reads a command line. -/
def Invocation.read (arguments : List String) : Except Declined Invocation := do
  let reading ← (readArguments [verboseOption] (commands.map (·.1)) arguments none []).mapError
    (Stop.declined .program)
  match reading.command with
  | none => .error .usage
  | some (name, rest) =>
    match commands.lookup name with
    | some .format =>
      readRequest .format formatOptions reading.given (.format <| formatRequest ·) rest
    | some .dump => readRequest .dump dumpOptions reading.given (.dump <| dumpRequest ·) rest
    | some .help => .error (readHelp rest)
    | some .program | none => .error .usage

end PegTemplates.CommandLine
