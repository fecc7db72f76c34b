import PegTemplates.Event
import PegTemplates.Grammar

/-!
# Building element sequences

One depth-first walk per rule turns its expression into an element sequence
and registers every capture at the moment it closes. Branches, options,
repetitions and link bodies are walked in scopes of their own. Capture
delimiters open and close scopes as well, and have to balance inside the scope
they stand in. A left fold takes the element before it out of the nearest
scope that holds one and makes it the first child of the node it opens.

A builder goes on after a rule that could not be built: shapes whose captures
closed before the error stay registered, and sites are never handed out twice.
-/

namespace PegTemplates

/-- What a scope was opened for. -/
inductive ScopeKind where
  /-- The body of a rule. -/
  | root
  /-- A branch of a choice, or a link body. -/
  | branch
  /-- The body of an option. -/
  | optional
  /-- The body of a repetition. -/
  | repeated
  /-- A node opened by a capture delimiter. -/
  | capture
  /-- A node opened by a left fold. -/
  | foldCapture
  deriving DecidableEq, Repr, Inhabited

/-- Trace that a left fold leaves in the scope it happens in. -/
structure FoldMark where
  /-- The element that the fold took as its first child. -/
  head : Option Element
  deriving Repr, Inhabited

/-- One open scope. -/
structure Scope where
  /-- What the scope was opened for. -/
  kind : ScopeKind
  /-- Elements collected so far. -/
  elements : List Element
  /-- Mark of the latest left fold that happened directly in this scope. -/
  fold : Option FoldMark
  deriving Repr, Inhabited

/-- A scope that nothing has been collected in. -/
def Scope.opened (kind : ScopeKind) : Scope := ⟨kind, [], none⟩

/-- Takes the last element out of a scope. -/
def Scope.takeLast? (scope : Scope) : Option (Element × Scope) :=
  scope.elements.getLast?.map fun last =>
    (last, { scope with elements := scope.elements.dropLast })

/-- Takes the last element out of the first scope that holds one. -/
def takeNearest : List Scope → Option Element × List Scope
  | [] => (none, [])
  | scope :: rest =>
    match scope.takeLast? with
    | some (last, shortened) => (some last, shortened :: rest)
    | none => ((takeNearest rest).1, scope :: (takeNearest rest).2)

/-- What a builder keeps from one rule to the next. -/
structure Builder where
  /-- Shapes and rule bodies so far. -/
  registry : Registry
  /-- Index of the next reference site. -/
  nextSite : Nat
  /-- What was reported so far. -/
  events : List Event
  deriving Repr, Inhabited

/-- A builder that has seen no rule. -/
def Builder.fresh : Builder := ⟨.empty, 0, []⟩

/-- State of the walk through one rule: the builder and the stack of open
scopes, which is never empty. -/
structure Walk extends Builder where
  /-- The innermost open scope. -/
  current : Scope
  /-- The scopes around it, innermost first. -/
  enclosing : List Scope

namespace Walk

/-- Walk of a rule about to start. -/
def start (builder : Builder) : Walk := ⟨builder, .opened .root, []⟩

/-- Appends elements to the current scope. -/
def append (walk : Walk) (elements : List Element) : Walk :=
  { walk with current := { walk.current with elements := walk.current.elements ++ elements } }

/-- Opens a scope inside the current one. -/
def enter (walk : Walk) (scope : Scope) : Walk :=
  { walk with current := scope, enclosing := walk.current :: walk.enclosing }

/-- Hands out the next site. -/
def reference (walk : Walk) (name : String) : Walk :=
  { walk.append [.nonTerminal name ⟨walk.nextSite⟩] with nextSite := walk.nextSite + 1 }

/-- Takes the last element of the nearest scope that holds one, from the
current scope outward. -/
def takeHead (walk : Walk) : Option Element × Walk :=
  match walk.current.takeLast? with
  | some (last, shortened) => (some last, { walk with current := shortened })
  | none =>
    let (head, enclosing) := takeNearest walk.enclosing
    (head, { walk with enclosing := enclosing })

/-- Starts a left fold: the head becomes the body of a link that opens a new
node, and the current scope is marked. -/
def openFold (walk : Walk) (label : Option String) : Walk :=
  let (head, walk) := walk.takeHead
  let marked := { walk with current := { walk.current with fold := some ⟨head⟩ } }
  marked.enter { Scope.opened .foldCapture with elements := [.linked label head.toList] }

/-- In a repetition the first child of a folded node is the node of the round
before, or in the first round the head itself. -/
def tieFold (id : ShapeId) : List Element → List Element
  | .linked label inner :: rest => .linked label [.choice [[.captured id], inner]] :: rest
  | elements => elements

/-- Elements of a capture that closes with the given number inside the given
scope. -/
def closedElements (closing : Scope) (outer : Scope) (id : ShapeId) : List Element :=
  if closing.kind = .foldCapture ∧ outer.kind = .repeated ∧ outer.fold.isSome then
    tieFold id closing.elements
  else closing.elements

/-- Registers the current scope as a shape and returns to the scope around it,
where the shape is mentioned. -/
def closeInto (walk : Walk) (outer : Scope) (rest : List Scope) : Walk :=
  let id := walk.registry.size
  let elements := closedElements walk.current outer id
  { walk with
    registry := walk.registry.register elements none
    current := { outer with elements := outer.elements ++ [.captured id] }
    enclosing := rest }

end Walk

/-- Steps of a walk; the state is kept when a step fails. -/
abbrev WalkM := EStateM AnalysisError Walk

namespace Builder

/-- An option or repetition in which a fold happened holds either the folded
node or the head that the fold would have taken. -/
def foldedOrHead (folded : List Element) (mark : FoldMark) : Element :=
  .choice [folded, mark.head.toList]

/-- Closes the innermost capture. -/
def closeCapture (rule : String) : WalkM Unit := do
  let walk ← get
  match walk.current.kind, walk.enclosing with
  | .capture, outer :: rest | .foldCapture, outer :: rest => set (walk.closeInto outer rest)
  | .capture, [] | .foldCapture, [] | .root, _ => throw (.unbalancedCapture rule)
  | .branch, _ | .optional, _ | .repeated, _ => throw (.captureAcrossScope rule)

/-- Runs a step in a scope of its own and hands that scope back. A capture
still open at the end of the step is an error. -/
def isolated (rule : String) (kind : ScopeKind) (step : WalkM Unit) : WalkM Scope := do
  let outer ← get
  set (outer.enter (.opened kind))
  step
  let inner ← get
  match inner.enclosing with
  | current :: enclosing =>
    if enclosing.length = outer.enclosing.length then
      set { inner with current := current, enclosing := enclosing }
      return inner.current
    else throw (.captureAcrossScope rule)
  | [] => throw (.captureAcrossScope rule)

mutual

/-- Walks one expression of the rule. -/
def visit (rule : String) : Expr → WalkM Unit
  | .byte value => modify (·.append [.byte value])
  | .tag name => modify (·.append [.tag name])
  | .nonTerminal name => modify (·.reference name)
  | .sequence items => visitItems rule items
  | .choice branches => do
    let sequences ← visitBranches rule branches
    modify (·.append [.choice sequences])
  | .optional inner => do
    let scope ← isolated rule .optional (visit rule inner)
    modify (·.append [match scope.fold with
      | some mark => foldedOrHead scope.elements mark
      | none => .optional scope.elements])
  | .zeroOrMore inner => do
    let scope ← isolated rule .repeated (visit rule inner)
    modify (·.append [match scope.fold with
      | some mark => foldedOrHead scope.elements mark
      | none => .zeroOrMore scope.elements])
  | .oneOrMore inner => do
    let scope ← isolated rule .repeated (visit rule inner)
    modify (·.append (match scope.fold with
      | some _ => scope.elements
      | none => [.oneOrMore scope.elements]))
  | .link label inner => do
    let scope ← isolated rule .branch (visit rule inner)
    modify (·.append [.linked label scope.elements])
  | .beginCapture => modify (·.enter (.opened .capture))
  | .endCapture => closeCapture rule
  | .fold label => modify (·.openFold label)
  | .empty | .any | .byteSet _ | .followedBy _ | .notFollowedBy _ => pure ()

/-- Walks the items of a sequence, left to right in the same scope. -/
def visitItems (rule : String) : List Expr → WalkM Unit
  | [] => pure ()
  | item :: rest => do
    visit rule item
    visitItems rule rest

/-- Walks the branches of a choice, each in a scope of its own. -/
def visitBranches (rule : String) : List Expr → WalkM (List (List Element))
  | [] => pure []
  | branch :: rest => do
    let scope ← isolated rule .branch (visit rule branch)
    return scope.elements :: (← visitBranches rule rest)

end

/-- Adds an event. -/
def report (builder : Builder) (event : Event) : Builder :=
  { builder with events := builder.events ++ [event] }

/-- Walks one rule. Gives its top-level sequence, and the builder after it. -/
def buildRule (builder : Builder) (rule : Rule) :
    Except AnalysisError (List Element) × Builder :=
  match (visit rule.name rule.expr).run (.start builder) with
  | .error reason walk => (.error reason, walk.toBuilder)
  | .ok _ walk =>
    match walk.enclosing with
    | [] =>
      (.ok walk.current.elements,
        walk.toBuilder.report (.ruleBuilt rule.name walk.current.elements))
    | unclosed => (.error (.unclosedCapture rule.name unclosed.length), walk.toBuilder)

/-- Registers the sequence of a rule. -/
def enterRule (builder : Builder) (name : String) (elements : List Element) : Builder :=
  let warned := match builder.registry.body? name with
    | some _ => builder.report (.ruleRedefined name)
    | none => builder
  { warned with registry := builder.registry.registerRule name elements }

/-- Walks one rule and registers its sequence. -/
def addRule (builder : Builder) (rule : Rule) : Except AnalysisError Unit × Builder :=
  match builder.buildRule rule with
  | (.ok elements, after) => (.ok (), after.enterRule rule.name elements)
  | (.error reason, after) => (.error reason, after)

/-- Adds rules in order, up to the first that cannot be built. -/
def addRules (builder : Builder) : List Rule → Except AnalysisError Unit × Builder
  | [] => (.ok (), builder)
  | rule :: rest =>
    match builder.addRule rule with
    | (.ok _, after) => after.addRules rest
    | (.error reason, after) => (.error reason, after)

end Builder

/-- The registry of a grammar, or what is wrong with its first bad rule. -/
def Grammar.build (grammar : Grammar) : Except AnalysisError Registry :=
  match Builder.fresh.addRules grammar.rules with
  | (.ok _, builder) => .ok builder.registry
  | (.error reason, _) => .error reason

/-- What is reported while a grammar is built, whether or not that succeeds. -/
def Grammar.buildEvents (grammar : Grammar) : List Event :=
  (Builder.fresh.addRules grammar.rules).2.events

end PegTemplates
