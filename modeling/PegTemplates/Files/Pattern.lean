/-!
# Name patterns

A pattern for names: `?` stands for any character, `*` for any text, a bracket
for one of a set of characters or, after `!`, for one outside of it, and every
other character for itself. The name `**` stands for any number of directories.
-/

namespace PegTemplates.Files

/-- Characters in a bracket. -/
inductive CharSet where
  /-- One character. -/
  | single (c : Char)
  /-- All characters from the first to the last. -/
  | range (first last : Char)
  deriving DecidableEq, Repr, Inhabited

/-- Whether a character is in the set. -/
def CharSet.contains (c : Char) : CharSet → Bool
  | .single other => c = other
  | .range first last => first ≤ c && c ≤ last

/-- One part of a pattern. -/
inductive Token where
  /-- A character that stands for itself. -/
  | char (c : Char)
  /-- Any one character. -/
  | anyChar
  /-- Any text. -/
  | anyText
  /-- Any number of directories. -/
  | anyDirectories
  /-- One character of a set. -/
  | within (sets : List CharSet)
  /-- One character outside of a set. -/
  | outside (sets : List CharSet)
  deriving DecidableEq, Repr, Inhabited

/-- What is wrong with a pattern. -/
inductive PatternFault where
  /-- Three or more stars in a row. -/
  | tooManyStars
  /-- Two stars that are not a name of their own. -/
  | partialDirectories
  /-- A bracket that does not end. -/
  | openBracket
  deriving DecidableEq, Repr, Inhabited

/-- A fault with the position of the character at which it was met. -/
structure PatternError where
  /-- Position in characters. -/
  position : Nat
  /-- What is wrong. -/
  fault : PatternFault
  deriving DecidableEq, Repr, Inhabited

/-- Wording of a pattern fault. -/
def PatternFault.message : PatternFault → String
  | tooManyStars => "wildcards are either regular `*` or recursive `**`"
  | partialDirectories => "recursive wildcards must form a single path component"
  | openBracket => "invalid range pattern"

/-- Wording of a pattern error. -/
def PatternError.message (error : PatternError) : String :=
  s!"Pattern syntax error near position {error.position}: {error.fault.message}"

/-- A pattern. -/
structure Pattern where
  /-- The text of the pattern. -/
  text : String
  /-- Its parts. -/
  tokens : List Token
  deriving DecidableEq, Repr, Inhabited

namespace Pattern

/-- The character sets between brackets: a character, a minus and a character are
a range. -/
def charSets : List Char → List CharSet
  | first :: '-' :: last :: rest => .range first last :: charSets rest
  | c :: rest => .single c :: charSets rest
  | [] => []

/-- Text before the first closing bracket that follows at least one character,
and what is behind that bracket. -/
def bracketed : List Char → Option (List Char × List Char)
  | [] => none
  | first :: rest =>
    match rest.dropWhile (· ≠ ']') with
    | [] => none
    | _ :: after => some (first :: rest.takeWhile (· ≠ ']'), after)

/-- Parts of a pattern from the given position. The character before it, if there
is one, decides whether two stars can be a name of their own. Every step takes at
least one character, so as many steps as characters are enough. -/
def scan : (steps : Nat) → (position : Nat) → (previous : Option Char) → List Char →
    Except PatternError (List Token)
  | 0, _, _, _ => .ok []
  | _ + 1, _, _, [] => .ok []
  | steps + 1, position, previous, c :: rest =>
    if c = '?' then do
      .ok (.anyChar :: (← scan steps (position + 1) (some c) rest))
    else if c = '*' then
      let stars := 1 + (rest.takeWhile (· = '*')).length
      let after := rest.dropWhile (· = '*')
      if 2 < stars then .error ⟨position + 2, .tooManyStars⟩
      else if stars = 1 then do
        .ok (.anyText :: (← scan steps (position + 1) (some c) rest))
      else if previous.isSome ∧ previous ≠ some '/' then
        .error ⟨position - 1, .partialDirectories⟩
      else
        match after with
        | [] => .ok [.anyDirectories]
        | next :: behind =>
          if next = '/' then do
            .ok (.anyDirectories :: (← scan steps (position + 3) (some next) behind))
          else .error ⟨position + 2, .partialDirectories⟩
    else if c = '[' then
      match rest with
      | '!' :: inside =>
        match bracketed inside with
        | some (chars, after) => do
          .ok (.outside (charSets chars) ::
            (← scan steps (position + chars.length + 3) (some ']') after))
        | none => .error ⟨position, .openBracket⟩
      | inside =>
        match bracketed inside with
        | some (chars, after) => do
          .ok (.within (charSets chars) ::
            (← scan steps (position + chars.length + 2) (some ']') after))
        | none => .error ⟨position, .openBracket⟩
    else do
      .ok (.char c :: (← scan steps (position + 1) (some c) rest))

/-- The pattern of a text. -/
def ofText (text : String) : Except PatternError Pattern := do
  .ok ⟨text, ← scan text.length 0 none text.toList⟩

/-- The text that a pattern stands for, if it is only one. -/
def isLiteral (pattern : Pattern) : Bool := pattern.tokens.all (· matches .char _)

/-- Whether a pattern stands for any number of directories. -/
def isRecursive (pattern : Pattern) : Bool := pattern.tokens.contains .anyDirectories

/-- Whether the first part of a pattern is a point. -/
def startsWithPoint (pattern : Pattern) : Bool := pattern.tokens.head? = some (.char '.')

/-- Whether one character is what a part stands for. -/
def tokenMatches (c : Char) : Token → Bool
  | .char other => c = other
  | .anyChar => true
  | .within sets => sets.any (·.contains c)
  | .outside sets => !sets.any (·.contains c)
  | .anyText | .anyDirectories => false

/-- For a text and each of its ends in turn, whether it is empty. -/
def emptyEnds : List Char → List Bool
  | [] => [true]
  | _ :: rest => false :: emptyEnds rest

/-- For each answer in turn, whether it or a later one is true. -/
def someLater : List Bool → List Bool
  | [] => []
  | answer :: rest =>
    let later := someLater rest
    (answer || later.headD false) :: later

/-- For a text and each of its ends in turn, whether it starts with a character that
the part stands for, and the answer for what is behind that character is true. -/
def afterChar (token : Token) : List Char → List Bool → List Bool
  | [], _ => [false]
  | c :: rest, answers =>
    (tokenMatches c token && answers.tail.headD false) :: afterChar token rest answers.tail

/-- For a text and each of its ends in turn, whether the parts stand for it. Each
part is compared with each character once, however many stars there are. -/
def endsMatch : List Token → List Char → List Bool
  | [], text => emptyEnds text
  | .anyText :: tokens, text => someLater (endsMatch tokens text)
  | .anyDirectories :: tokens, text => someLater (endsMatch tokens text)
  | token :: tokens, text => afterChar token text (endsMatch tokens text)

/-- Whether the parts stand for the text. -/
def tokensMatch (tokens : List Token) (text : List Char) : Bool :=
  (endsMatch tokens text).headD false

/-- Whether a pattern stands for a name. -/
def matchesName (pattern : Pattern) (name : String) : Bool :=
  tokensMatch pattern.tokens name.toList

end Pattern

end PegTemplates.Files
