import PegTemplates.Proofs.Building.Balance

/-!
# Visits as runs of single steps

Visiting an expression is a run of a list of steps that the expression alone
determines. A run keeps the scopes it has opened apart from the elements that
stood around it before: these it can only take, the last one first. A visit that
is accepted is shown to end where its run ends.
-/

namespace PegTemplates

/-- Appends elements to a scope. -/
def Scope.append (scope : Scope) (elements : List Element) : Scope :=
  { scope with elements := scope.elements ++ elements }

/-- One step of a visit. -/
inductive Step where
  /-- A literal byte is collected. -/
  | byte (value : UInt8)
  /-- A tag is collected. -/
  | tag (name : String)
  /-- A reference is collected at a site of its own. -/
  | reference (name : String)
  /-- A scope is opened. -/
  | enter (kind : ScopeKind)
  /-- A left fold takes its head and opens a node. -/
  | fold (label : Option String)
  /-- The current scope becomes a shape. -/
  | close
  /-- The current scope becomes the body of a wrapper. -/
  | wrap (wrapper : Wrapper)
  /-- The current scope becomes a branch. -/
  | setAside
  /-- The latest branches become a choice. -/
  | choose (count : Nat)

/-- What a run of steps has come to. -/
structure Assembly where
  /-- Number of shapes registered before the run. -/
  known : Nat
  /-- Shapes registered in the run. -/
  shapes : List Shape
  /-- Index of the next reference site. -/
  nextSite : Nat
  /-- Open scopes of the run, innermost first. -/
  scopes : List Scope
  /-- Elements around the scopes of the run, in the order in which folds take them. -/
  reserve : List Element
  /-- Branches whose choice is not yet complete, the latest first. -/
  aside : List (List Element)

namespace Assembly

/-- Number that the next shape will get. -/
def nextShape (assembly : Assembly) : Nat := assembly.known + assembly.shapes.length

/-- Appends elements to the current scope. -/
def append (elements : List Element) (assembly : Assembly) : Assembly :=
  { assembly with scopes := assembly.scopes.modifyHead (·.append elements) }

/-- Takes the last element of the nearest scope that holds one, or else the next
element around the run. -/
def takeHead (assembly : Assembly) : Option Element × Assembly :=
  match takeNearest assembly.scopes with
  | (some head, scopes) => (some head, { assembly with scopes := scopes })
  | (none, _) => (assembly.reserve.head?, { assembly with reserve := assembly.reserve.tail })

/-- A scope of the run that holds an element gives it as the head. -/
theorem takeHead_of_some {assembly : Assembly} {head : Element}
    (hhead : (takeNearest assembly.scopes).1 = some head) :
    assembly.takeHead =
      (some head, { assembly with scopes := (takeNearest assembly.scopes).2 }) := by
  unfold takeHead
  cases htake : takeNearest assembly.scopes with
  | mk first scopes =>
    rw [htake] at hhead
    obtain rfl : first = some head := hhead
    rfl

/-- With no element in its scopes the run takes one from around them. -/
theorem takeHead_of_none {assembly : Assembly} (hhead : (takeNearest assembly.scopes).1 = none) :
    assembly.takeHead =
      (assembly.reserve.head?, { assembly with reserve := assembly.reserve.tail }) := by
  unfold takeHead
  cases htake : takeNearest assembly.scopes with
  | mk first scopes =>
    rw [htake] at hhead
    obtain rfl : first = none := hhead
    rfl

/-- Opens the node of a left fold with that head and marks the scope around it. -/
def openFold (label : Option String) (head : Option Element) (assembly : Assembly) : Assembly :=
  { assembly with
    scopes := { Scope.opened .foldCapture with elements := [.linked label head.toList] } ::
      assembly.scopes.modifyHead fun scope => { scope with fold := some ⟨head⟩ } }

/-- Leaves the current scope for the one around it. -/
def pop (further : Scope → Assembly → Assembly) (assembly : Assembly) : Assembly :=
  match assembly.scopes with
  | inner :: outer :: rest => further inner { assembly with scopes := outer :: rest }
  | _ => assembly

/-- With two scopes open the current one is left for the other. -/
theorem pop_of_scopes {assembly : Assembly} {inner outer : Scope} {rest : List Scope}
    (hscopes : assembly.scopes = inner :: outer :: rest)
    (further : Scope → Assembly → Assembly) :
    assembly.pop further = further inner { assembly with scopes := outer :: rest } := by
  rw [pop, hscopes]

/-- Registers a scope as a shape and mentions it in the current one. -/
def register (closing : Scope) (assembly : Assembly) : Assembly :=
  let id := assembly.nextShape
  let elements := match assembly.scopes with
    | outer :: _ => Walk.closedElements closing outer id
    | [] => closing.elements
  { assembly.append [.captured id] with shapes := assembly.shapes ++ [⟨id, none, elements⟩] }

end Assembly

/-- What a step does. A step that closes a scope does nothing where no scope of
the run is around that one. -/
def Step.apply : Step → Assembly → Assembly
  | .byte value, assembly => assembly.append [.byte value]
  | .tag name, assembly => assembly.append [.tag name]
  | .reference name, assembly =>
    { assembly.append [.nonTerminal name ⟨assembly.nextSite⟩] with
      nextSite := assembly.nextSite + 1 }
  | .enter kind, assembly => { assembly with scopes := .opened kind :: assembly.scopes }
  | .fold label, assembly => assembly.takeHead.2.openFold label assembly.takeHead.1
  | .close, assembly => assembly.pop .register
  | .wrap wrapper, assembly => assembly.pop fun body => .append (wrapper.around body)
  | .setAside, assembly => assembly.pop fun body outer =>
    { outer with aside := body.elements :: outer.aside }
  | .choose count, assembly =>
    { assembly.append [.choice (assembly.aside.take count).reverse] with
      aside := assembly.aside.drop count }

namespace Assembly

/-- Applies steps, one after the other. -/
def run (steps : List Step) (assembly : Assembly) : Assembly :=
  steps.foldl (fun reached step => step.apply reached) assembly

end Assembly

/-- Steps of a wrapper around a body with these steps. -/
def Wrapper.steps (inner : List Step) (wrapper : Wrapper) : List Step :=
  .enter wrapper.kind :: (inner ++ [.wrap wrapper])

mutual

/-- Steps of visiting an expression. -/
def Expr.steps : Expr → List Step
  | .byte value => [.byte value]
  | .tag name => [.tag name]
  | .nonTerminal name => [.reference name]
  | .sequence items => Expr.stepsOfItems items
  | .choice branches => Expr.stepsOfBranches branches ++ [.choose branches.length]
  | .optional inner => Wrapper.optional.steps inner.steps
  | .zeroOrMore inner => Wrapper.zeroOrMore.steps inner.steps
  | .oneOrMore inner => Wrapper.oneOrMore.steps inner.steps
  | .link label inner => (Wrapper.link label).steps inner.steps
  | .beginCapture => [.enter .capture]
  | .fold label => [.fold label]
  | .endCapture => [.close]
  | .empty | .any | .byteSet _ | .followedBy _ | .notFollowedBy _ => []

/-- Steps of visiting the items of a sequence. -/
def Expr.stepsOfItems : List Expr → List Step
  | [] => []
  | item :: rest => item.steps ++ Expr.stepsOfItems rest

/-- Steps of visiting the branches of a choice. -/
def Expr.stepsOfBranches : List Expr → List Step
  | [] => []
  | branch :: rest => .enter .branch :: (branch.steps ++ .setAside :: Expr.stepsOfBranches rest)

end

/-- Elements of the scopes, in the order in which folds take them. -/
def held (scopes : List Scope) : List Element := scopes.flatMap (·.elements.reverse)

/-- Folds take what the scopes hold in that order, and open or close no scope. -/
theorem takeNearest_held (scopes : List Scope) :
    (takeNearest scopes).1 = (held scopes).head? ∧
      held (takeNearest scopes).2 = (held scopes).tail ∧
      (takeNearest scopes).2.length = scopes.length := by
  induction scopes with
  | nil => exact ⟨rfl, rfl, rfl⟩
  | cons scope rest ih =>
    obtain ⟨kind, elements, fold⟩ := scope
    rw [takeNearest]
    rcases List.eq_nil_or_concat elements with rfl | ⟨front, last, rfl⟩
    · obtain ⟨hhead, hrest, hlength⟩ := ih
      exact ⟨hhead, hrest, congrArg (· + 1) hlength⟩
    · simp [Scope.takeLast?, held]

/-- Of two stacks of scopes the first gives the head if it holds an element. -/
theorem takeNearest_append_of_some {inner : List Scope} {head : Element}
    (hhead : (takeNearest inner).1 = some head) (outer : List Scope) :
    takeNearest (inner ++ outer) = (some head, (takeNearest inner).2 ++ outer) := by
  induction inner with
  | nil => cases hhead
  | cons scope rest ih =>
    rw [takeNearest] at hhead ⊢
    rw [List.cons_append, takeNearest]
    cases htake : scope.takeLast? with
    | some taken =>
      rw [htake] at hhead
      obtain rfl : taken.1 = head := Option.some.inj hhead
      rfl
    | none =>
      rw [htake] at hhead
      dsimp only
      rw [ih hhead]
      rfl

/-- Of two stacks of scopes the second gives the head if the first holds nothing. -/
theorem takeNearest_append_of_none {inner : List Scope} (hhead : (takeNearest inner).1 = none)
    (outer : List Scope) :
    takeNearest (inner ++ outer) = ((takeNearest outer).1, inner ++ (takeNearest outer).2) := by
  induction inner with
  | nil => rfl
  | cons scope rest ih =>
    rw [takeNearest] at hhead
    rw [List.cons_append, takeNearest]
    cases htake : scope.takeLast? with
    | some taken => rw [htake] at hhead; cases hhead
    | none =>
      rw [htake] at hhead
      dsimp only
      rw [ih hhead]
      rfl

namespace Assembly

/-- The run has opened a scope that no delimiter closes. -/
def Grounded (assembly : Assembly) : Prop :=
  ∃ kind, (assembly.scopes.map (·.kind)).getLast? = some kind ∧ kind.isCapture = false

theorem kinds_append (elements : List Element) (assembly : Assembly) :
    (assembly.append elements).scopes.map (·.kind) = assembly.scopes.map (·.kind) := by
  unfold append
  cases assembly.scopes <;> rfl

theorem kinds_takeHead (assembly : Assembly) :
    assembly.takeHead.2.scopes.map (·.kind) = assembly.scopes.map (·.kind) := by
  cases hhead : (takeNearest assembly.scopes).1 with
  | none => rw [takeHead_of_none hhead]
  | some head =>
    rw [takeHead_of_some hhead]
    exact kinds_takeNearest assembly.scopes

theorem kinds_openFold (label : Option String) (head : Option Element) (assembly : Assembly) :
    (assembly.openFold label head).scopes.map (·.kind) =
      .foldCapture :: assembly.scopes.map (·.kind) := by
  unfold openFold
  cases assembly.scopes <;> rfl

/-- Leaving a scope keeps the outermost scope of the run. -/
theorem Grounded.pop {assembly : Assembly} (hgrounded : assembly.Grounded)
    {further : Scope → Assembly → Assembly}
    (hkinds : ∀ inner outer,
      (further inner outer).scopes.map (·.kind) = outer.scopes.map (·.kind)) :
    (assembly.pop further).Grounded := by
  unfold Assembly.pop
  split
  · rename_i inner outer rest hscopes
    unfold Grounded at hgrounded ⊢
    rw [hscopes, List.map_cons, List.map_cons, List.getLast?_cons_cons] at hgrounded
    rw [hkinds]
    exact hgrounded
  · exact hgrounded

/-- Opening a scope keeps the outermost scope of the run. -/
theorem Grounded.of_kinds_cons {assembly after : Assembly} (hgrounded : assembly.Grounded)
    (kind : ScopeKind)
    (hkinds : after.scopes.map (·.kind) = kind :: assembly.scopes.map (·.kind)) :
    after.Grounded := by
  obtain ⟨ground, hlast, hground⟩ := hgrounded
  refine ⟨ground, ?_, hground⟩
  rw [hkinds, List.getLast?_cons, hlast]
  rfl

/-- No step closes the outermost scope of a run. -/
theorem Grounded.apply {assembly : Assembly} (hgrounded : assembly.Grounded) (step : Step) :
    (step.apply assembly).Grounded := by
  have happend : ∀ elements, (assembly.append elements).Grounded := by
    intro elements
    unfold Grounded
    rw [kinds_append]
    exact hgrounded
  cases step with
  | byte value => exact happend [.byte value]
  | tag name => exact happend [.tag name]
  | reference name => exact happend _
  | choose count => exact happend _
  | enter kind => exact hgrounded.of_kinds_cons kind rfl
  | fold label =>
    apply hgrounded.of_kinds_cons .foldCapture
    rw [← kinds_takeHead assembly]
    exact kinds_openFold label _ _
  | close => exact hgrounded.pop fun _ outer => kinds_append _ outer
  | wrap wrapper => exact hgrounded.pop fun _ outer => kinds_append _ outer
  | setAside => exact hgrounded.pop fun _ _ => rfl

/-- No run closes its outermost scope. -/
theorem Grounded.run {assembly : Assembly} (hgrounded : assembly.Grounded) (steps : List Step) :
    (run steps assembly).Grounded := by
  induction steps generalizing assembly with
  | nil => exact hgrounded
  | cons step rest ih => exact ih (hgrounded.apply step)

/-- A run of two lists of steps is the run of the second behind that of the first. -/
theorem run_append (first next : List Step) (assembly : Assembly) :
    run (first ++ next) assembly = run next (run first assembly) :=
  List.foldl_append

/-- A run of the steps of a wrapper is a run of its body in a scope of its own. -/
theorem run_wrapper (inner : List Step) (wrapper : Wrapper) (assembly : Assembly) :
    run (wrapper.steps inner) assembly =
      (Step.wrap wrapper).apply (run inner ((Step.enter wrapper.kind).apply assembly)) :=
  run_append inner [.wrap wrapper] _

/-- A run of the steps of branches takes one branch after the other in a scope of its own. -/
theorem run_branches (branch : Expr) (rest : List Expr) (assembly : Assembly) :
    run (Expr.stepsOfBranches (branch :: rest)) assembly =
      run (Expr.stepsOfBranches rest)
        (Step.setAside.apply (run branch.steps ((Step.enter .branch).apply assembly))) :=
  run_append branch.steps (.setAside :: Expr.stepsOfBranches rest) _

end Assembly

/-- A walk that stands where a run has come to, the run having started with these
shapes registered, that many scopes around it and these branches set aside. -/
structure Walk.Mirrors (old : List Shape) (depth : Nat) (aside : List (List Element)) (walk : Walk)
    (assembly : Assembly) : Prop where
  /-- The shapes before the run are those it knows of. -/
  known : assembly.known = old.length
  /-- The walk has registered the shapes of the run behind them. -/
  shapes : walk.registry.shapes = old ++ assembly.shapes
  /-- Both hand out the same site next. -/
  nextSite : walk.nextSite = assembly.nextSite
  /-- Only the branches set aside before are left. -/
  aside : assembly.aside = aside
  /-- The scopes of the run are open, and those around it hold what it can take. -/
  scopes : ∃ around, walk.scopes = assembly.scopes ++ around ∧ around.length = depth ∧
    held around = assembly.reserve

namespace Walk.Mirrors

variable {old : List Shape} {depth : Nat} {aside : List (List Element)} {walk after : Walk}
  {assembly : Assembly}

/-- The next shape gets the same number. -/
theorem nextShape (hmirrors : walk.Mirrors old depth aside assembly) :
    walk.registry.size = assembly.nextShape := by
  rw [Registry.size, hmirrors.shapes, List.length_append, ← hmirrors.known, Assembly.nextShape]

/-- Elements are collected in the same scope. -/
theorem append (hmirrors : walk.Mirrors old depth aside assembly) (hopen : assembly.scopes ≠ [])
    (elements : List Element) :
    (walk.append elements).Mirrors old depth aside (assembly.append elements) := by
  obtain ⟨hknown, hshapes, hsite, haside, around, hscopes, hdepth, hheld⟩ := hmirrors
  refine ⟨hknown, hshapes, hsite, haside, around, ?_, hdepth, hheld⟩
  cases hinner : assembly.scopes with
  | nil => exact absurd hinner hopen
  | cons scope rest =>
    rw [hinner] at hscopes
    obtain ⟨hcurrent, henclosing⟩ := List.cons.inj hscopes
    simp only [Walk.scopes, Walk.append, Assembly.append, hinner, henclosing, hcurrent,
      List.modifyHead_cons, List.cons_append, Scope.append]
    rfl

/-- A reference is collected at the same site. -/
theorem reference (hmirrors : walk.Mirrors old depth aside assembly)
    (hopen : assembly.scopes ≠ []) (name : String) :
    (walk.reference name).Mirrors old depth aside ((Step.reference name).apply assembly) := by
  obtain ⟨hknown, hshapes, _, haside, hscopes⟩ :=
    hmirrors.append hopen [.nonTerminal name ⟨walk.nextSite⟩]
  have hsite := hmirrors.nextSite
  rw [hsite] at hscopes
  refine ⟨hknown, hshapes, congrArg (· + 1) hsite, haside, ?_⟩
  rw [Walk.reference, hsite]
  exact hscopes

/-- The branches set aside last become a choice. -/
theorem choose {sequences : List (List Element)}
    (hmirrors : walk.Mirrors old depth (sequences.reverse ++ aside) assembly)
    (hopen : assembly.scopes ≠ []) :
    (walk.append [.choice sequences]).Mirrors old depth aside
      ((Step.choose sequences.length).apply assembly) := by
  have hbranches : (assembly.aside.take sequences.length).reverse = sequences := by
    rw [hmirrors.aside, ← List.length_reverse, List.take_left, List.reverse_reverse]
  obtain ⟨hknown, hshapes, hsite, haside, hscopes⟩ := hmirrors.append hopen [.choice sequences]
  rw [Step.apply, hbranches]
  refine ⟨hknown, hshapes, hsite, ?_, hscopes⟩
  rw [hmirrors.aside, ← List.length_reverse]
  exact List.drop_left

/-- A scope is opened around nothing. -/
theorem enter (hmirrors : walk.Mirrors old depth aside assembly) (kind : ScopeKind) :
    (walk.enter (.opened kind)).Mirrors old depth aside ((Step.enter kind).apply assembly) := by
  obtain ⟨hknown, hshapes, hsite, haside, around, hscopes, hdepth, hheld⟩ := hmirrors
  exact ⟨hknown, hshapes, hsite, haside, around, congrArg _ hscopes, hdepth, hheld⟩

/-- Folds take the same head. -/
theorem takeHead (hmirrors : walk.Mirrors old depth aside assembly) :
    walk.takeHead.1 = assembly.takeHead.1 ∧
      walk.takeHead.2.Mirrors old depth aside assembly.takeHead.2 := by
  obtain ⟨hhead, hbuilder, hafter⟩ := walk.takeHead_eq
  obtain ⟨hknown, hshapes, hsite, haside, around, hscopes, hdepth, hheld⟩ := hmirrors
  have hregistry : walk.takeHead.2.registry = walk.registry := congrArg Builder.registry hbuilder
  have hnext : walk.takeHead.2.nextSite = walk.nextSite := congrArg Builder.nextSite hbuilder
  obtain ⟨hfirst, hrest, hlength⟩ := takeNearest_held around
  rw [← hregistry] at hshapes
  rw [← hnext] at hsite
  rw [hhead]
  cases hnearest : (takeNearest assembly.scopes).1 with
  | some head =>
    rw [hscopes, takeNearest_append_of_some hnearest] at hafter
    rw [hscopes, takeNearest_append_of_some hnearest, Assembly.takeHead_of_some hnearest]
    exact ⟨rfl, hknown, hshapes, hsite, haside, around, hafter, hdepth, hheld⟩
  | none =>
    rw [hscopes, takeNearest_append_of_none hnearest] at hafter
    rw [hscopes, takeNearest_append_of_none hnearest, Assembly.takeHead_of_none hnearest, ← hheld]
    refine ⟨hfirst, hknown, hshapes, hsite, haside, _, hafter, ?_, hrest⟩
    rw [hlength, hdepth]

/-- Folds open the same node. -/
theorem openFold (hmirrors : walk.Mirrors old depth aside assembly) (hopen : assembly.scopes ≠ [])
    (label : Option String) :
    (walk.openFold label).Mirrors old depth aside ((Step.fold label).apply assembly) := by
  obtain ⟨hhead, hknown, hshapes, hsite, haside, around, hscopes, hdepth, hheld⟩ :=
    hmirrors.takeHead
  refine ⟨hknown, hshapes, hsite, haside, around, ?_, hdepth, hheld⟩
  have hkinds := assembly.kinds_takeHead
  cases hinner : assembly.takeHead.2.scopes with
  | nil =>
    rw [hinner] at hkinds
    exact absurd (List.map_eq_nil_iff.mp hkinds.symm) hopen
  | cons scope rest =>
    rw [hinner] at hscopes
    obtain ⟨hcurrent, henclosing⟩ := List.cons.inj hscopes
    simp only [Step.apply, Assembly.openFold, hinner, List.modifyHead_cons, ← hhead, ← hcurrent,
      List.cons_append]
    exact congrArg (_ :: _ :: ·) henclosing

/-- The end of a capture that is accepted registers the same shape. -/
theorem closeCapture (hmirrors : walk.Mirrors old depth aside assembly)
    (hgrounded : assembly.Grounded) {rule : String}
    (hrun : (Builder.closeCapture rule).run walk = .ok () after) :
    after.Mirrors old depth aside (Step.close.apply assembly) := by
  have hshape := hmirrors.nextShape
  obtain ⟨hknown, hshapes, hsite, haside, around, hscopes, hdepth, hheld⟩ := hmirrors
  obtain ⟨hcapture, beyond, further, hstack, rfl⟩ := Builder.closeCapture_eq_ok.mp hrun
  obtain ⟨ground, hlast, hground⟩ := hgrounded
  cases hinner : assembly.scopes with
  | nil => rw [hinner] at hlast; cases hlast
  | cons closing rest =>
    rw [hinner, Walk.scopes, hstack] at hscopes
    rw [hinner] at hlast
    obtain ⟨hcurrent, henclosing⟩ := List.cons.inj hscopes
    cases rest with
    | nil =>
      -- the only scope of the run is not one that a delimiter closes
      rw [hcurrent] at hcapture
      obtain rfl : closing.kind = ground := Option.some.inj hlast
      rw [hground] at hcapture
      cases hcapture
    | cons outer rest =>
      obtain ⟨rfl, rfl⟩ := List.cons.inj henclosing
      rw [Step.apply, Assembly.pop_of_scopes hinner]
      refine ⟨hknown, ?_, hsite, haside, around, ?_, hdepth, hheld⟩
      · simp only [Walk.closeInto, Registry.register, Assembly.register, hshapes, hshape,
          hcurrent, List.append_assoc]
        rfl
      · simp only [Walk.closeInto, Walk.scopes, Assembly.register, Assembly.append, hshape]
        rfl

/-- A step in a scope of its own hands back the innermost scope of the run that it
mirrors, and leaves the walk where that run has come to without this scope. -/
theorem isolated (hmirrors : walk.Mirrors old depth aside assembly) {rule : String}
    {kind : ScopeKind} {step : WalkM Unit} {reached : Assembly} {scope : Scope}
    (hstep : ∀ inner, step.run (walk.enter (.opened kind)) = .ok () inner →
      inner.Mirrors old depth aside reached)
    (hrun : (Builder.isolated rule kind step).run walk = .ok scope after) :
    ∃ rest, reached.scopes = scope :: rest ∧ rest.length = assembly.scopes.length ∧
      after.Mirrors old depth aside { reached with scopes := rest } := by
  obtain ⟨hinner, hcount⟩ := Builder.isolated_eq_ok.mp hrun
  obtain ⟨hknown, hshapes, hsite, haside, around, hscopes, hdepth, hheld⟩ := hstep _ hinner
  obtain ⟨_, _, _, _, outside, hwalk, houtside, _⟩ := hmirrors
  have hsame : reached.scopes.length = assembly.scopes.length + 1 := by
    have hbefore := congrArg List.length hwalk
    have hafter := congrArg List.length hscopes
    simp only [Walk.scopes, Walk.enter, List.length_cons, List.length_append] at hbefore hafter
    omega
  cases hreached : reached.scopes with
  | nil => rw [hreached] at hsame; cases hsame
  | cons own rest =>
    rw [hreached] at hscopes hsame
    obtain ⟨rfl, hrest⟩ := List.cons.inj hscopes
    exact ⟨rest, rfl, Nat.succ.inj hsame, hknown, hshapes, hsite, haside, around, hrest, hdepth,
      hheld⟩

/-- The scope handed back is put into its wrapper. -/
theorem wrap {scope outer : Scope} {rest : List Scope}
    (hscopes : assembly.scopes = scope :: outer :: rest)
    (hmirrors : walk.Mirrors old depth aside { assembly with scopes := outer :: rest })
    (wrapper : Wrapper) :
    (walk.append (wrapper.around scope)).Mirrors old depth aside
      ((Step.wrap wrapper).apply assembly) := by
  rw [Step.apply, Assembly.pop_of_scopes hscopes]
  exact hmirrors.append (List.cons_ne_nil outer rest) (wrapper.around scope)

/-- The scope handed back is a branch. -/
theorem setAside {scope outer : Scope} {rest : List Scope}
    (hscopes : assembly.scopes = scope :: outer :: rest)
    (hmirrors : walk.Mirrors old depth aside { assembly with scopes := outer :: rest }) :
    walk.Mirrors old depth (scope.elements :: aside) (Step.setAside.apply assembly) := by
  rw [Step.apply, Assembly.pop_of_scopes hscopes]
  exact ⟨hmirrors.known, hmirrors.shapes, hmirrors.nextSite,
    congrArg (scope.elements :: ·) hmirrors.aside, hmirrors.scopes⟩

/-- A wrapper mirrors its steps if its body does. -/
theorem visit_wrapper (hmirrors : walk.Mirrors old depth aside assembly)
    (hopen : assembly.scopes ≠ []) {rule : String} (wrapper : Wrapper) {inner : Expr}
    (hinner : ∀ last, (Builder.visit rule inner).run (walk.enter (.opened wrapper.kind)) =
      .ok () last → last.Mirrors old depth aside
        (Assembly.run inner.steps ((Step.enter wrapper.kind).apply assembly)))
    (hrun : (Builder.visit rule (wrapper.expr inner)).run walk = .ok () after) :
    after.Mirrors old depth aside (Assembly.run (wrapper.steps inner.steps) assembly) := by
  obtain ⟨scope, last, hisolated, rfl⟩ := Builder.visit_wrapper_eq_ok.mp hrun
  obtain ⟨rest, hreached, hlength, hrest⟩ := hmirrors.isolated hinner hisolated
  rw [Assembly.run_wrapper]
  cases rest with
  | nil => exact absurd (List.eq_nil_of_length_eq_zero hlength.symm) hopen
  | cons outer rest =>
    exact hrest.wrap hreached wrapper

end Walk.Mirrors

/-- A run with a scope that no delimiter closes has an open scope. -/
theorem Assembly.Grounded.ne_nil {assembly : Assembly} (hgrounded : assembly.Grounded) :
    assembly.scopes ≠ [] := by
  rintro hnil
  obtain ⟨kind, hlast, _⟩ := hgrounded
  rw [hnil] at hlast
  cases hlast

namespace Builder

variable (rule : String) {old : List Shape} {depth : Nat}

mutual

/-- A visit that is accepted mirrors the run of its steps. -/
theorem visit_mirrors : ∀ (expr : Expr) {aside : List (List Element)} {walk after : Walk}
      {assembly : Assembly}, walk.Mirrors old depth aside assembly → assembly.Grounded →
      (visit rule expr).run walk = .ok () after →
      after.Mirrors old depth aside (Assembly.run expr.steps assembly)
  | .byte value, _, _, _, _, hmirrors, hgrounded, rfl => hmirrors.append hgrounded.ne_nil _
  | .tag name, _, _, _, _, hmirrors, hgrounded, rfl => hmirrors.append hgrounded.ne_nil _
  | .nonTerminal name, _, _, _, _, hmirrors, hgrounded, rfl =>
    hmirrors.reference hgrounded.ne_nil name
  | .sequence items, _, _, _, _, hmirrors, hgrounded, hrun =>
    visitItems_mirrors items hmirrors hgrounded hrun
  | .choice branches, _, _, _, _, hmirrors, hgrounded, hrun => by
    obtain ⟨sequences, last, hbranches, rfl⟩ := visit_choice_eq_ok.mp hrun
    obtain ⟨hlength, hlast⟩ := visitBranches_mirrors branches hmirrors hgrounded hbranches
    rw [Expr.steps, Assembly.run_append, ← hlength]
    exact hlast.choose (hgrounded.run (Expr.stepsOfBranches branches)).ne_nil
  | .optional inner, _, _, _, _, hmirrors, hgrounded, hrun =>
    hmirrors.visit_wrapper hgrounded.ne_nil .optional
      (fun _ => visit_mirrors inner (hmirrors.enter .optional) (hgrounded.apply (.enter .optional)))
      hrun
  | .zeroOrMore inner, _, _, _, _, hmirrors, hgrounded, hrun =>
    hmirrors.visit_wrapper hgrounded.ne_nil .zeroOrMore
      (fun _ => visit_mirrors inner (hmirrors.enter .repeated) (hgrounded.apply (.enter .repeated)))
      hrun
  | .oneOrMore inner, _, _, _, _, hmirrors, hgrounded, hrun =>
    hmirrors.visit_wrapper hgrounded.ne_nil .oneOrMore
      (fun _ => visit_mirrors inner (hmirrors.enter .repeated) (hgrounded.apply (.enter .repeated)))
      hrun
  | .link label inner, _, _, _, _, hmirrors, hgrounded, hrun =>
    hmirrors.visit_wrapper hgrounded.ne_nil (.link label)
      (fun _ => visit_mirrors inner (hmirrors.enter .branch) (hgrounded.apply (.enter .branch)))
      hrun
  | .beginCapture, _, _, _, _, hmirrors, _, rfl => hmirrors.enter .capture
  | .fold label, _, _, _, _, hmirrors, hgrounded, rfl => hmirrors.openFold hgrounded.ne_nil label
  | .endCapture, _, _, _, _, hmirrors, hgrounded, hrun => hmirrors.closeCapture hgrounded hrun
  | .empty, _, _, _, _, hmirrors, _, rfl | .any, _, _, _, _, hmirrors, _, rfl
  | .byteSet _, _, _, _, _, hmirrors, _, rfl | .followedBy _, _, _, _, _, hmirrors, _, rfl
  | .notFollowedBy _, _, _, _, _, hmirrors, _, rfl => hmirrors

/-- Items that are accepted mirror the run of their steps. -/
theorem visitItems_mirrors : ∀ (items : List Expr) {aside : List (List Element)}
      {walk after : Walk} {assembly : Assembly}, walk.Mirrors old depth aside assembly →
      assembly.Grounded → (visitItems rule items).run walk = .ok () after →
      after.Mirrors old depth aside (Assembly.run (Expr.stepsOfItems items) assembly)
  | [], _, _, _, _, hmirrors, _, rfl => hmirrors
  | item :: rest, _, _, _, _, hmirrors, hgrounded, hrun => by
    obtain ⟨last, hitem, hrest⟩ := visitItems_cons_eq_ok.mp hrun
    rw [Expr.stepsOfItems, Assembly.run_append]
    exact visitItems_mirrors rest (visit_mirrors item hmirrors hgrounded hitem)
      (hgrounded.run item.steps) hrest

/-- Branches that are accepted mirror the run of their steps, which sets them aside. -/
theorem visitBranches_mirrors : ∀ (branches : List Expr) {aside : List (List Element)}
      {walk after : Walk} {assembly : Assembly} {sequences : List (List Element)},
      walk.Mirrors old depth aside assembly → assembly.Grounded →
      (visitBranches rule branches).run walk = .ok sequences after →
      sequences.length = branches.length ∧ after.Mirrors old depth (sequences.reverse ++ aside)
        (Assembly.run (Expr.stepsOfBranches branches) assembly)
  | [], _, _, _, _, _, hmirrors, _, rfl => ⟨rfl, hmirrors⟩
  | branch :: rest, _, _, _, _, _, hmirrors, hgrounded, hrun => by
    obtain ⟨scope, last, sequences, hbranch, hrest, rfl⟩ := visitBranches_cons_eq_ok.mp hrun
    have hinner := hgrounded.apply (.enter .branch)
    obtain ⟨scopes, hreached, hcount, hlast⟩ := hmirrors.isolated
      (fun _ => visit_mirrors branch (hmirrors.enter .branch) hinner) hbranch
    cases scopes with
    | nil => exact absurd (List.eq_nil_of_length_eq_zero hcount.symm) hgrounded.ne_nil
    | cons outer scopes =>
      obtain ⟨hlength, hfinal⟩ := visitBranches_mirrors rest (hlast.setAside hreached)
        ((hinner.run branch.steps).apply .setAside) hrest
      refine ⟨congrArg (· + 1) hlength, ?_⟩
      rw [Assembly.run_branches, List.reverse_cons, List.append_assoc]
      exact hfinal

end

end Builder

/-- The run of a part that is visited beside all scopes of a walk. -/
def Walk.beside (walk : Walk) : Assembly :=
  ⟨walk.registry.size, [], walk.nextSite, [], held walk.scopes, []⟩

/-- A walk mirrors the run that is about to start beside it. -/
theorem Walk.mirrors_beside (walk : Walk) :
    walk.Mirrors walk.registry.shapes walk.scopes.length [] walk.beside :=
  ⟨rfl, (List.append_nil _).symm, rfl, rfl, walk.scopes, rfl, rfl, rfl⟩

/-- A run that is about to start beside a walk has a scope that no delimiter closes. -/
theorem Walk.grounded_beside {kind : ScopeKind} (hkind : kind.isCapture = false) (walk : Walk) :
    ((Step.enter kind).apply walk.beside).Grounded :=
  ⟨kind, rfl, hkind⟩

/-- Run of an expression in a scope of that kind beside all scopes of a walk. -/
def Expr.runBeside (kind : ScopeKind) (expr : Expr) (walk : Walk) : Assembly :=
  Assembly.run expr.steps ((Step.enter kind).apply walk.beside)

/-- A body that is accepted in a scope of its own leaves this scope alone behind. -/
theorem Builder.isolated_outcome {rule : String} {kind : ScopeKind} {expr : Expr}
    {walk after : Walk} {scope : Scope} (hkind : kind.isCapture = false)
    (hrun : (Builder.isolated rule kind (visit rule expr)).run walk = .ok scope after) :
    (expr.runBeside kind walk).scopes = [scope] ∧
      after.Mirrors walk.registry.shapes walk.scopes.length []
        { expr.runBeside kind walk with scopes := [] } := by
  obtain ⟨rest, hscopes, hlength, hafter⟩ := walk.mirrors_beside.isolated
    (fun _ => visit_mirrors rule expr (walk.mirrors_beside.enter kind) (walk.grounded_beside hkind))
    hrun
  obtain rfl := List.eq_nil_of_length_eq_zero hlength
  exact ⟨hscopes, hafter⟩

/-- A walk in a single scope holds the elements of that, the last one first. -/
theorem Walk.held_of_single {walk : Walk} (hsingle : walk.enclosing = []) :
    held walk.scopes = walk.current.elements.reverse := by
  rw [Walk.scopes, hsingle, held, List.flatMap_singleton]

/-- Beside a single scope such a body leaves the elements that its run has not taken. -/
theorem Builder.isolated_leaves {rule : String} {kind : ScopeKind} {expr : Expr}
    {walk after : Walk} {scope : Scope} (hkind : kind.isCapture = false)
    (hsingle : walk.enclosing = [])
    (hrun : (Builder.isolated rule kind (visit rule expr)).run walk = .ok scope after) :
    after.enclosing = [] ∧
      after.current.elements = (expr.runBeside kind walk).reserve.reverse := by
  obtain ⟨_, hafter⟩ := isolated_outcome hkind hrun
  obtain ⟨around, hscopes, hlength, hheld⟩ := hafter.scopes
  rw [List.nil_append] at hscopes
  subst hscopes
  have hnone : after.enclosing = [] := by
    rw [Walk.scopes, Walk.scopes, hsingle] at hlength
    rw [← List.length_eq_zero_iff]
    exact Nat.succ.inj hlength
  refine ⟨hnone, ?_⟩
  rw [Walk.held_of_single hnone] at hheld
  rw [← List.reverse_reverse after.current.elements, hheld]

end PegTemplates
