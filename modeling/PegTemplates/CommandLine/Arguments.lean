/-!
# Command-line arguments

A command line is read from left to right. An option is given by its name behind
two dashes or by its letter behind one; letters without values can share a dash.
Values follow as arguments of their own, or attached to the option, behind an
equals sign or directly behind a letter. Arguments that start with a dash are
never values. The first problem met ends the reading, as does a call for help.
-/

namespace PegTemplates.CommandLine

/-- How many values an option takes and how often it may be given. -/
inductive Arity where
  /-- No value; every mention counts. -/
  | counted
  /-- No value; mentioned at most once. -/
  | once
  /-- One value that passes the test; given at most once. -/
  | single (accepts : String → Bool)
  /-- At least one value; given any number of times. -/
  | several

/-- An option. -/
structure OptionSpec where
  /-- Name of the option. -/
  name : String
  /-- Letter of the option, if it has one. -/
  letter : Option Char
  /-- Values and repetitions. -/
  arity : Arity

/-- Why reading ends before the end of the command line. -/
inductive Stop where
  /-- Help is called for. -/
  | help
  /-- The command line cannot be understood. -/
  | usage
  deriving DecidableEq, Repr, Inhabited

/-- Options given so far with their values, in order. -/
abbrev Given := List (String × List String)

/-- An option that waits for values. -/
structure Pending where
  /-- The option. -/
  option : OptionSpec
  /-- Values so far. -/
  values : List String

/-- Whether that many mentions and those values are what the option takes. -/
def Arity.allows (mentioned : Bool) (values : List String) : Arity → Bool
  | .counted => values.isEmpty
  | .once => values.isEmpty && !mentioned
  | .single accepts =>
    match values with
    | [value] => accepts value && !mentioned
    | _ => false
  | .several => !values.isEmpty

/-- Adds an option with its values to those given. -/
def record (option : OptionSpec) (values : List String) (given : Given) : Except Stop Given :=
  if option.arity.allows (given.any (·.1 = option.name)) values then
    .ok (given ++ [(option.name, values)])
  else .error .usage

/-- Adds the option that waits for values, if there is one. -/
def settle (pending : Option Pending) (given : Given) : Except Stop Given :=
  match pending with
  | none => .ok given
  | some waiting => record waiting.option waiting.values given

/-- An option has been met. One that takes values and has none attached waits. -/
def meet (option : OptionSpec) (attached : Option String) (given : Given) :
    Except Stop (Option Pending × Given) :=
  match option.arity, attached with
  | .counted, none | .once, none => do return (none, ← record option [] given)
  | .counted, some _ | .once, some _ => .error .usage
  | _, some value => do return (none, ← record option [value] given)
  | _, none => .ok (some ⟨option, []⟩, given)

/-- Reads an option given by name. -/
def readName (options : List OptionSpec) (text : List Char) (given : Given) :
    Except Stop (Option Pending × Given) :=
  let name := String.ofList (text.takeWhile (· ≠ '='))
  let attached := match text.dropWhile (· ≠ '=') with
    | [] => none
    | _ :: value => some (String.ofList value)
  if name = "help" then
    if attached.isNone then .error .help else .error .usage
  else
    match options.find? (·.name = name) with
    | some option => meet option attached given
    | none => .error .usage

/-- What is attached to a letter: an equals sign in front of it is dropped. -/
def attachedTo : List Char → Option String
  | [] => none
  | c :: rest => some (String.ofList (if c = '=' then rest else c :: rest))

/-- Reads letters behind one dash. -/
def readLetters (options : List OptionSpec) : List Char → Given →
    Except Stop (Option Pending × Given)
  | [], given => .ok (none, given)
  | letter :: rest, given =>
    if letter = 'h' then .error .help
    else
      match options.find? (·.letter = some letter) with
      | none => .error .usage
      | some option =>
        match option.arity with
        | .counted | .once => do
          let (_, given) ← meet option none given
          readLetters options rest given
        | _ => meet option (attachedTo rest) given

/-- What has been read: the options given, and the command met with the arguments
behind it. -/
structure Reading where
  /-- Options given. -/
  given : Given
  /-- The command and its arguments. -/
  command : Option (String × List String)

/-- Whether the option still takes values. -/
def Pending.wantsMore (waiting : Pending) : Bool :=
  match waiting.option.arity with
  | .several => true
  | _ => waiting.values.isEmpty

/-- Reads a bare argument that is no value: it has to name a command. -/
def readCommand (commands : List String) (argument : String) (rest : List String)
    (given : Given) : Except Stop Reading :=
  if commands.contains argument then .ok ⟨given, some (argument, rest)⟩ else .error .usage

/-- Reads arguments up to the name of a command or to the end. -/
def readArguments (options : List OptionSpec) (commands : List String) :
    List String → Option Pending → Given → Except Stop Reading
  | [], pending, given => do return ⟨← settle pending given, none⟩
  | argument :: rest, pending, given =>
    match pending, argument.toList with
    | _, ['-', '-'] => do
      let given ← settle pending given
      if rest.isEmpty then return ⟨given, none⟩ else .error .usage
    | _, '-' :: '-' :: text => do
      let given ← settle pending given
      let (pending, given) ← readName options text given
      readArguments options commands rest pending given
    | _, '-' :: letter :: text => do
      let given ← settle pending given
      let (pending, given) ← readLetters options (letter :: text) given
      readArguments options commands rest pending given
    | some waiting, _ =>
      if waiting.wantsMore then
        readArguments options commands rest
          (some { waiting with values := waiting.values ++ [argument] }) given
      else do
        readCommand commands argument rest (← settle pending given)
    | none, _ => readCommand commands argument rest given

/-- All values given for an option, in order. -/
def Given.values (given : Given) (name : String) : List String :=
  (given.filter (·.1 = name)).flatMap (·.2)

/-- How often an option is given. -/
def Given.count (given : Given) (name : String) : Nat := given.countP (·.1 = name)

/-- Whether an option is given. -/
def Given.has (given : Given) (name : String) : Bool := given.any (·.1 = name)

end PegTemplates.CommandLine
