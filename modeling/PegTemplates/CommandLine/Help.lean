import PegTemplates.CommandLine.Diagnostics
import PegTemplates.CommandLine.Invocation

/-!
# Help

The program and each of its commands have a page of help: what it does, how it is
called, and its commands, arguments and options. The entries of a section stand in
two columns. When the names are wide and some description does not fit beside them,
all descriptions of the section stand on lines of their own. Titles and everything
that is typed as it stands are emphasised on request.
-/

namespace PegTemplates.CommandLine

/-- What an entry describes. -/
inductive HelpName where
  /-- A command. -/
  | command (name : String)
  /-- An argument that is no option. -/
  | argument (values : String)
  /-- An option with what follows its name. -/
  | option (letter : Option Char) (name values : String)
  deriving DecidableEq, Repr, Inhabited

/-- An entry of a section. -/
structure HelpEntry where
  /-- What is described. -/
  name : HelpName
  /-- Description. -/
  text : String
  deriving DecidableEq, Repr, Inhabited

/-- A titled list of entries. -/
structure HelpSection where
  /-- Title. -/
  title : String
  /-- Entries in order. -/
  entries : List HelpEntry
  deriving DecidableEq, Repr, Inhabited

/-- A page of help. -/
structure HelpPage where
  /-- What the page is about. -/
  about : String
  /-- How it is called: parts typed as they stand, each with what follows it. -/
  usage : List (String × String)
  /-- Sections in order. -/
  sections : List HelpSection
  deriving DecidableEq, Repr, Inhabited

/-- That many blanks. -/
def blanks (count : Nat) : String := String.ofList (List.replicate count ' ')

/-- Number of characters in a line. -/
def lineWidth : Nat := 100

/-- A title. -/
def heading (color : Bool) (title : String) : String :=
  if color then "\x1b[1m\x1b[4m" ++ title ++ "\x1b[0m" else title

/-- A text that is typed as it stands. -/
def typed (color : Bool) (text : String) : String := painted color "1" text

namespace HelpName

/-- Number of characters, the letter of an option left out. -/
def width : HelpName → Nat
  | command name => name.length
  | argument values => values.length
  | option _ name values => 2 + name.length + values.length

/-- Text of a name. Blanks stand in place of a letter that an option lacks. -/
def text (color : Bool) : HelpName → String
  | command name => typed color name
  | argument values => values
  | option none name values => blanks 4 ++ typed color ("--" ++ name) ++ values
  | option (some letter) name values =>
    typed color ("-" ++ String.singleton letter) ++ ", " ++ typed color ("--" ++ name) ++ values

end HelpName

namespace HelpSection

/-- Width of the longest name. -/
def nameWidth (part : HelpSection) : Nat :=
  part.entries.foldl (fun width entry => max width entry.name.width) 0

/-- Width that names take, with what is kept free around them. -/
def takenWidth (part : HelpSection) : Nat := part.nameWidth + 12

/-- Whether names take more than two fifths of a line and some description is wider
than the rest. -/
def isCrowded (part : HelpSection) : Bool :=
  2 * lineWidth < 5 * part.takenWidth &&
    part.entries.any fun entry => lineWidth - part.takenWidth < entry.text.length

/-- Text of an entry. -/
def entryText (part : HelpSection) (color : Bool) (entry : HelpEntry) : String :=
  let between :=
    if part.isCrowded then "\n" ++ blanks 10
    else blanks (part.nameWidth - entry.name.width + 2)
  blanks 2 ++ entry.name.text color ++ between ++ entry.text ++ "\n"

/-- Text of a section. -/
def text (part : HelpSection) (color : Bool) : String :=
  heading color (part.title ++ ":") ++ "\n" ++ String.join (part.entries.map (part.entryText color))

end HelpSection

/-- Text of a page. -/
def HelpPage.text (page : HelpPage) (color : Bool) : String :=
  let usage := page.usage.map fun (word, after) => typed color word ++ after
  page.about ++ "\n\n" ++ heading color "Usage:" ++ " " ++ String.join usage ++ "\n" ++
    String.join (page.sections.map fun part => "\n" ++ part.text color)

/-- Name of the program. -/
def programName : String := "bx-format"

/-- Entry of an option, with what follows its name. -/
def OptionSpec.entry (option : OptionSpec) (values text : String) : HelpEntry :=
  ⟨.option option.letter option.name values, text⟩

/-- Entry of the call for help. -/
def helpEntry : HelpEntry := ⟨.option (some 'h') "help" "", "Print help"⟩

/-- Entry of the option for more logging. -/
def verboseEntry : HelpEntry :=
  verboseOption.entry "..." "more logging (-v info, -vv debug, -vvv trace)"

/-- Entry of the option for input files. -/
def inputEntry : HelpEntry :=
  inputOption.entry " <INPUT>..."
    "One or more grammar files. May be literal paths or quoted glob patterns"

namespace Topic

/-- What the program or command does. -/
def about : Topic → String
  | program => "synthesize format templates from tree-building PEG grammars (JSON documents)"
  | format => "write one `<name>.txt` template file per grammar"
  | dump => "print the JSON debug view of the capture registry"
  | help => "Print this message or the help of the given subcommand(s)"

/-- How the program or command is called. -/
def usage : Topic → List (String × String)
  | program => [(programName, " [OPTIONS] <COMMAND>")]
  | format => [(programName ++ " format", " [OPTIONS] "), ("--input", " <INPUT>...")]
  | dump => [(programName ++ " dump", " [OPTIONS] "), ("--input", " <INPUT>...")]
  | help => [(programName ++ " help", " [COMMAND]...")]

/-- Sections of the page. -/
def sections : Topic → List HelpSection
  | program => [
    ⟨"Commands", commands.map fun (name, topic) => ⟨.command name, topic.about⟩⟩,
    ⟨"Options", [verboseEntry, helpEntry]⟩]
  | format => [
    ⟨"Options", [inputEntry, verboseEntry,
      directoryOption.entry " <OUT_DIR>" "output directory [default: .]",
      nameOption.entry " <NAME>"
        "output file name without extension (defaults to the input file stem)",
      dryRunOption.entry "" "run the analysis but discard the output",
      limitOption.entry " <MAX_ALTERNATIVES>"
        s!"upper bound on blocks per (shape, tag) [default: {defaultMaxAlternatives}]",
      helpEntry]⟩]
  | dump => [
    ⟨"Options", [inputEntry, verboseEntry,
      outputOption.entry " <OUT>" "output .json file (stdout if omitted)", helpEntry]⟩]
  | help => [
    ⟨"Arguments", [⟨.argument "[COMMAND]...", "Print help for the subcommand(s)"⟩]⟩]

/-- The page of help. -/
def page (topic : Topic) : HelpPage := ⟨topic.about, topic.usage, topic.sections⟩

end Topic

end PegTemplates.CommandLine
