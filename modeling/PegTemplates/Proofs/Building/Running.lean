import PegTemplates.Builder

/-!
# Running the walk through a rule

What the walk through an expression comes to, written as equations on the walk
before it. The wrappers, which visit their body in a scope of its own and put
one part around what it collected, are one family. The kinds of the open scopes
are shown to change only where a scope is opened or closed.
-/

namespace PegTemplates

/-- An expression that visits its body in a scope of its own. -/
inductive Wrapper where
  /-- The body or nothing. -/
  | optional
  /-- Any number of rounds of the body. -/
  | zeroOrMore
  /-- At least one round of the body. -/
  | oneOrMore
  /-- A link around the body. -/
  | link (label : Option String)

namespace Wrapper

/-- Kind of the scope that the body is visited in. -/
def kind : Wrapper → ScopeKind
  | optional => .optional
  | zeroOrMore | oneOrMore => .repeated
  | link _ => .branch

/-- The expression with that body. -/
def expr (inner : Expr) : Wrapper → Expr
  | optional => .optional inner
  | zeroOrMore => .zeroOrMore inner
  | oneOrMore => .oneOrMore inner
  | link label => .link label inner

/-- What stands in the outer scope for the scope of the body. -/
def around (scope : Scope) : Wrapper → List Element
  | optional => [match scope.fold with
    | some mark => Builder.foldedOrHead scope.elements mark
    | none => .optional scope.elements]
  | zeroOrMore => [match scope.fold with
    | some mark => Builder.foldedOrHead scope.elements mark
    | none => .zeroOrMore scope.elements]
  | oneOrMore => match scope.fold with
    | some _ => scope.elements
    | none => [.oneOrMore scope.elements]
  | link label => [.linked label scope.elements]

end Wrapper

namespace ScopeKind

/-- Whether a scope is closed by a capture delimiter. -/
def isCapture : ScopeKind → Bool
  | capture | foldCapture => true
  | root | branch | optional | repeated => false

end ScopeKind

/-- The scope of a wrapper is not closed by a capture delimiter. -/
theorem Wrapper.isCapture_kind (wrapper : Wrapper) : wrapper.kind.isCapture = false := by
  cases wrapper <;> rfl

namespace Walk

/-- All open scopes, innermost first. -/
def scopes (walk : Walk) : List Scope := walk.current :: walk.enclosing

/-- What the open scopes were opened for, innermost first. -/
def kinds (walk : Walk) : List ScopeKind := walk.scopes.map (·.kind)

/-- Returns from the current scope to the one around it. -/
def leave (walk : Walk) (outer : Scope) (rest : List Scope) : Walk :=
  { walk with current := outer, enclosing := rest }

end Walk

/-- Taking the nearest element changes no kind. -/
theorem kinds_takeNearest (scopes : List Scope) :
    (takeNearest scopes).2.map (·.kind) = scopes.map (·.kind) := by
  induction scopes with
  | nil => rfl
  | cons scope rest ih =>
    rw [takeNearest]
    cases htake : scope.takeLast? with
    | none => simp [ih]
    | some taken =>
      obtain ⟨last, _, rfl⟩ := Option.map_eq_some_iff.mp htake
      rfl

namespace Walk

@[simp] theorem kinds_start (builder : Builder) : (start builder).kinds = [.root] := rfl

@[simp] theorem kinds_append (walk : Walk) (elements : List Element) :
    (walk.append elements).kinds = walk.kinds := rfl

@[simp] theorem kinds_reference (walk : Walk) (name : String) :
    (walk.reference name).kinds = walk.kinds := rfl

@[simp] theorem kinds_enter (walk : Walk) (scope : Scope) :
    (walk.enter scope).kinds = scope.kind :: walk.kinds := rfl

/-- The head of a fold is the last element of the nearest scope that holds one. -/
theorem takeHead_eq (walk : Walk) :
    walk.takeHead.1 = (takeNearest walk.scopes).1 ∧
      walk.takeHead.2.toBuilder = walk.toBuilder ∧
      walk.takeHead.2.scopes = (takeNearest walk.scopes).2 := by
  unfold takeHead scopes
  rw [takeNearest]
  cases walk.current.takeLast? <;> exact ⟨rfl, rfl, rfl⟩

/-- A fold opens one scope more. -/
@[simp] theorem kinds_openFold (walk : Walk) (label : Option String) :
    (walk.openFold label).kinds = .foldCapture :: walk.kinds := by
  have hscopes := (takeHead_eq walk).2.2
  have hkinds := kinds_takeNearest walk.scopes
  rw [← hscopes] at hkinds
  exact congrArg _ hkinds

/-- Closing a capture leaves the scopes around it. -/
theorem kinds_closeInto (walk : Walk) (outer : Scope) (rest : List Scope) :
    (walk.closeInto outer rest).kinds = outer.kind :: rest.map (·.kind) := rfl

end Walk

namespace Builder

/-- Goes on from the end of a run, unless the run has failed. -/
def goOn {α β : Type} (result : EStateM.Result AnalysisError Walk α)
    (further : α → Walk → EStateM.Result AnalysisError Walk β) :
    EStateM.Result AnalysisError Walk β :=
  match result with
  | .error reason last => .error reason last
  | .ok value last => further value last

/-- A run that ends well comes from one that did and went on from there. -/
theorem goOn_eq_ok {α β : Type} {result : EStateM.Result AnalysisError Walk α}
    {further : α → Walk → EStateM.Result AnalysisError Walk β} {value : β} {last : Walk} :
    goOn result further = .ok value last ↔
      ∃ first middle, result = .ok first middle ∧ further first middle = .ok value last := by
  cases result with
  | error reason walk => simp [goOn]
  | ok first middle =>
    constructor
    · intro hlast
      exact ⟨first, middle, rfl, hlast⟩
    · rintro ⟨_, _, hresult, hlast⟩
      cases hresult
      exact hlast

/-- Two steps run one after the other. -/
theorem run_bind {α β : Type} (step : WalkM α) (next : α → WalkM β) (walk : Walk) :
    (step >>= next).run walk = goOn (step.run walk) fun value last => (next value).run last := by
  rw [EStateM.run_bind]
  cases step.run walk <;> rfl

/-- What a body that has been visited hands back: its scope, if that is the current
one again, and the walk in the scopes around it. -/
def handBack (rule : String) (around : Walk) (inner : Walk) :
    EStateM.Result AnalysisError Walk Scope :=
  match inner.enclosing with
  | outer :: rest =>
    if rest.length = around.enclosing.length then .ok inner.current (inner.leave outer rest)
    else .error (.captureAcrossScope rule) inner
  | [] => .error (.captureAcrossScope rule) inner

/-- A step in a scope of its own runs to its end there and hands that scope back. -/
theorem run_isolated (rule : String) (kind : ScopeKind) (step : WalkM Unit) (walk : Walk) :
    (isolated rule kind step).run walk =
      goOn (step.run (walk.enter (.opened kind))) fun _ inner => handBack rule walk inner := by
  unfold isolated
  simp only [EStateM.run_bind, EStateM.run_get, EStateM.run_set]
  cases step.run (walk.enter (.opened kind)) with
  | error reason inner => rfl
  | ok _ inner =>
    dsimp only [goOn]
    unfold handBack
    cases inner.enclosing with
    | nil => rfl
    | cons outer rest =>
      dsimp only
      split <;> rfl

/-- A wrapper appends its part once the body has been visited in its own scope. -/
theorem run_visit_wrapper (rule : String) (wrapper : Wrapper) (inner : Expr) (walk : Walk) :
    (visit rule (wrapper.expr inner)).run walk =
      goOn ((isolated rule wrapper.kind (visit rule inner)).run walk) fun scope last =>
        .ok () (last.append (wrapper.around scope)) := by
  have hvisit : visit rule (wrapper.expr inner) =
      isolated rule wrapper.kind (visit rule inner) >>= fun scope =>
        modify (·.append (wrapper.around scope)) := by
    cases wrapper <;> rfl
  rw [hvisit, run_bind]
  rfl

/-- A choice appends its branches once they have been visited. -/
theorem run_visit_choice (rule : String) (branches : List Expr) (walk : Walk) :
    (visit rule (.choice branches)).run walk =
      goOn ((visitBranches rule branches).run walk) fun sequences last =>
        .ok () (last.append [.choice sequences]) := by
  rw [visit, run_bind]
  rfl

/-- The items of a sequence are visited one after the other. -/
theorem run_visitItems_cons (rule : String) (item : Expr) (rest : List Expr) (walk : Walk) :
    (visitItems rule (item :: rest)).run walk =
      goOn ((visit rule item).run walk) fun _ last => (visitItems rule rest).run last := by
  rw [visitItems, run_bind]

/-- Two lists of items are visited one after the other. -/
theorem run_visitItems_append (rule : String) (items rest : List Expr) (walk : Walk) :
    (visitItems rule (items ++ rest)).run walk =
      goOn ((visitItems rule items).run walk) fun _ last => (visitItems rule rest).run last := by
  induction items generalizing walk with
  | nil => rfl
  | cons item items ih =>
    rw [List.cons_append, run_visitItems_cons, run_visitItems_cons]
    cases (visit rule item).run walk with
    | error reason last => rfl
    | ok _ last => exact ih last

/-- The branches of a choice are visited one after the other, each in a scope of its own. -/
theorem run_visitBranches_cons (rule : String) (branch : Expr) (rest : List Expr) (walk : Walk) :
    (visitBranches rule (branch :: rest)).run walk =
      goOn ((isolated rule .branch (visit rule branch)).run walk) fun scope last =>
        goOn ((visitBranches rule rest).run last) fun sequences final =>
          .ok (scope.elements :: sequences) final := by
  rw [visitBranches, run_bind]
  congr 1
  funext scope last
  rw [run_bind]
  rfl

/-- A wrapper is accepted exactly if its body is in a scope of its own. -/
theorem visit_wrapper_eq_ok {rule : String} {wrapper : Wrapper} {inner : Expr}
    {walk after : Walk} :
    (visit rule (wrapper.expr inner)).run walk = .ok () after ↔
      ∃ scope last, (isolated rule wrapper.kind (visit rule inner)).run walk = .ok scope last ∧
        last.append (wrapper.around scope) = after := by
  rw [run_visit_wrapper, goOn_eq_ok]
  constructor
  · rintro ⟨scope, last, hisolated, hafter⟩
    cases hafter
    exact ⟨scope, last, hisolated, rfl⟩
  · rintro ⟨scope, last, hisolated, rfl⟩
    exact ⟨scope, last, hisolated, rfl⟩

/-- A choice is accepted exactly if its branches are. -/
theorem visit_choice_eq_ok {rule : String} {branches : List Expr} {walk after : Walk} :
    (visit rule (.choice branches)).run walk = .ok () after ↔
      ∃ sequences last, (visitBranches rule branches).run walk = .ok sequences last ∧
        last.append [.choice sequences] = after := by
  rw [run_visit_choice, goOn_eq_ok]
  constructor
  · rintro ⟨sequences, last, hbranches, hafter⟩
    cases hafter
    exact ⟨sequences, last, hbranches, rfl⟩
  · rintro ⟨sequences, last, hbranches, rfl⟩
    exact ⟨sequences, last, hbranches, rfl⟩

/-- Items are accepted exactly if the first one is and the others are behind it. -/
theorem visitItems_cons_eq_ok {rule : String} {item : Expr} {rest : List Expr}
    {walk after : Walk} :
    (visitItems rule (item :: rest)).run walk = .ok () after ↔
      ∃ last, (visit rule item).run walk = .ok () last ∧
        (visitItems rule rest).run last = .ok () after := by
  rw [run_visitItems_cons, goOn_eq_ok]
  exact ⟨fun ⟨(), last, hitem, hrest⟩ => ⟨last, hitem, hrest⟩,
    fun ⟨last, hitem, hrest⟩ => ⟨(), last, hitem, hrest⟩⟩

/-- Two lists of items are accepted exactly if the second one is behind the first. -/
theorem visitItems_append_eq_ok {rule : String} {items rest : List Expr} {walk after : Walk} :
    (visitItems rule (items ++ rest)).run walk = .ok () after ↔
      ∃ last, (visitItems rule items).run walk = .ok () last ∧
        (visitItems rule rest).run last = .ok () after := by
  rw [run_visitItems_append, goOn_eq_ok]
  exact ⟨fun ⟨(), last, hitems, hrest⟩ => ⟨last, hitems, hrest⟩,
    fun ⟨last, hitems, hrest⟩ => ⟨(), last, hitems, hrest⟩⟩

/-- Branches are accepted exactly if the first one is and the others are behind it. -/
theorem visitBranches_cons_eq_ok {rule : String} {branch : Expr} {rest : List Expr}
    {walk after : Walk} {sequences : List (List Element)} :
    (visitBranches rule (branch :: rest)).run walk = .ok sequences after ↔
      ∃ scope last others, (isolated rule .branch (visit rule branch)).run walk = .ok scope last ∧
        (visitBranches rule rest).run last = .ok others after ∧
        scope.elements :: others = sequences := by
  rw [run_visitBranches_cons, goOn_eq_ok]
  constructor
  · rintro ⟨scope, last, hbranch, hrest⟩
    rw [goOn_eq_ok] at hrest
    obtain ⟨others, final, hothers, hfinal⟩ := hrest
    cases hfinal
    exact ⟨scope, last, others, hbranch, hothers, rfl⟩
  · rintro ⟨scope, last, others, hbranch, hothers, rfl⟩
    exact ⟨scope, last, hbranch, goOn_eq_ok.mpr ⟨others, after, hothers, rfl⟩⟩

/-- Two lists of branches are visited one after the other. -/
theorem run_visitBranches_append (rule : String) (branches rest : List Expr) (walk : Walk) :
    (visitBranches rule (branches ++ rest)).run walk =
      goOn ((visitBranches rule branches).run walk) fun sequences last =>
        goOn ((visitBranches rule rest).run last) fun others final =>
          .ok (sequences ++ others) final := by
  induction branches generalizing walk with
  | nil =>
    change (visitBranches rule rest).run walk =
      goOn ((visitBranches rule rest).run walk) fun others final => .ok others final
    cases (visitBranches rule rest).run walk <;> rfl
  | cons branch branches ih =>
    rw [List.cons_append, run_visitBranches_cons, run_visitBranches_cons]
    cases (isolated rule .branch (visit rule branch)).run walk with
    | error reason last => rfl
    | ok scope last =>
      dsimp only [goOn]
      rw [ih last]
      cases (visitBranches rule branches).run last with
      | error reason final => rfl
      | ok sequences middle =>
        dsimp only [goOn]
        cases (visitBranches rule rest).run middle <;> rfl

/-- The end of a capture closes the current scope if a delimiter opened it. -/
theorem run_closeCapture (rule : String) (walk : Walk) :
    (closeCapture rule).run walk =
      if walk.current.kind.isCapture then
        match walk.enclosing with
        | outer :: rest => .ok () (walk.closeInto outer rest)
        | [] => .error (.unbalancedCapture rule) walk
      else if walk.current.kind = .root then .error (.unbalancedCapture rule) walk
      else .error (.captureAcrossScope rule) walk := by
  unfold closeCapture
  simp only [EStateM.run_bind, EStateM.run_get]
  cases walk.current.kind <;> cases walk.enclosing <;> rfl

/-- The end of a capture is accepted exactly if a delimiter opened the current scope, inside
another one. -/
theorem closeCapture_eq_ok {rule : String} {walk after : Walk} :
    (closeCapture rule).run walk = .ok () after ↔ walk.current.kind.isCapture = true ∧
      ∃ outer rest, walk.enclosing = outer :: rest ∧ walk.closeInto outer rest = after := by
  rw [run_closeCapture]
  constructor
  · intro hclose
    split at hclose
    · rename_i hcapture
      split at hclose
      · rename_i outer rest henclosing
        cases hclose
        exact ⟨hcapture, outer, rest, henclosing, rfl⟩
      · cases hclose
    · split at hclose <;> cases hclose
  · rintro ⟨hcapture, outer, rest, henclosing, rfl⟩
    rw [if_pos hcapture, henclosing]

/-- A scope is handed back exactly if it is the only one open besides those around. -/
theorem handBack_eq_ok {rule : String} {around inner after : Walk} {scope : Scope} :
    handBack rule around inner = .ok scope after ↔
      inner = after.enter scope ∧ after.enclosing.length = around.enclosing.length := by
  obtain ⟨inside, current, enclosing⟩ := inner
  constructor
  · intro hback
    unfold handBack at hback
    split at hback
    · rename_i outer rest henclosing
      split at hback
      · rename_i hcount
        cases hback
        exact ⟨congrArg (Walk.mk inside current) henclosing, hcount⟩
      · cases hback
    · cases hback
  · rintro ⟨hinner, hcount⟩
    cases hinner
    exact if_pos hcount

/-- A step in a scope of its own is accepted exactly if it ends inside the scope that it hands
back, with as many scopes around as before. -/
theorem isolated_eq_ok {rule : String} {kind : ScopeKind} {step : WalkM Unit} {walk after : Walk}
    {scope : Scope} :
    (isolated rule kind step).run walk = .ok scope after ↔
      step.run (walk.enter (.opened kind)) = .ok () (after.enter scope) ∧
        after.enclosing.length = walk.enclosing.length := by
  rw [run_isolated, goOn_eq_ok]
  constructor
  · rintro ⟨_, inner, hstep, hback⟩
    obtain ⟨rfl, hcount⟩ := handBack_eq_ok.mp hback
    exact ⟨hstep, hcount⟩
  · rintro ⟨hstep, hcount⟩
    exact ⟨(), _, hstep, handBack_eq_ok.mpr ⟨rfl, hcount⟩⟩

/-- A rule is built exactly if its visit ends well with the scope of the rule alone. -/
theorem buildRule_eq_ok {builder after : Builder} {rule : Rule} {elements : List Element} :
    builder.buildRule rule = (.ok elements, after) ↔
      ∃ walk, (visit rule.name rule.expr).run (.start builder) = .ok () walk ∧
        walk.enclosing = [] ∧ walk.current.elements = elements ∧
        walk.toBuilder.report (.ruleBuilt rule.name elements) = after := by
  unfold buildRule
  cases hrun : (visit rule.name rule.expr).run (.start builder) with
  | error reason walk => simp
  | ok _ walk =>
    dsimp only
    cases henclosing : walk.enclosing with
    | cons outer rest =>
      constructor
      · intro hbuild
        cases hbuild
      · rintro ⟨_, hwalk, hnone, _⟩
        cases hwalk
        rw [henclosing] at hnone
        cases hnone
    | nil =>
      constructor
      · intro hbuild
        cases hbuild
        exact ⟨walk, rfl, henclosing, rfl, rfl⟩
      · rintro ⟨_, hwalk, _, rfl, rfl⟩
        cases hwalk
        rfl

end Builder

end PegTemplates
