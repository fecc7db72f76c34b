import PegTemplates.Proofs.Building.Balance
import PegTemplates.Proofs.Building.Raising
import PegTemplates.Proofs.Building.Registration

/-!
# Failing rules

A rule that fails leaves behind the shapes of the nodes that have closed before its first
offence, and nothing else: they are shown to be as many as closings are read before that
offence. A builder that has been called for any rules, with whatever outcomes, goes on to build
every further rule as a fresh one does.
-/

namespace PegTemplates

mutual

/-- Number of nodes that close inside a letter, which only a part can have. -/
def Delimiter.closedInside (name : String) : Delimiter → Nat
  | .opens | .closes => 0
  | .part word => closedIn name 0 word

/-- Number of nodes that close in the rest of a word before its first offence, with that many of
its nodes open. -/
def closedIn (name : String) : Nat → List Delimiter → Nat
  | _, [] => 0
  | depth, letter :: rest =>
    match letter, depth with
    | .opens, _ => closedIn name (depth + 1) rest
    | .closes, 0 => 0
    | .closes, depth + 1 => closedIn name depth rest + 1
    | .part _, _ =>
      letter.closedInside name +
        if (letter.firstOffence name).isSome then 0 else closedIn name depth rest

end

section Words

variable (name : String) (depth : Nat) (rest : List Delimiter)

theorem closedIn_part_of_none {word : List Delimiter}
    (hnone : offenceIn name .part 0 word = none) :
    closedIn name depth (.part word :: rest) = closedIn name 0 word + closedIn name depth rest := by
  rw [closedIn]
  change _ + (if (offenceIn name .part 0 word).isSome then _ else _) = _
  rw [hnone]
  rfl

theorem closedIn_part_of_some {word : List Delimiter} {reason : AnalysisError}
    (hsome : offenceIn name .part 0 word = some reason) :
    closedIn name depth (.part word :: rest) = closedIn name 0 word := by
  rw [closedIn]
  change _ + (if (offenceIn name .part 0 word).isSome then _ else _) = _
  rw [hsome]
  rfl

end Words

/-- Captures open above a scope are counted by the scopes there are. -/
theorem Walk.Above.length_enclosing {base : ScopeKind} {outer : List ScopeKind} {depth : Nat}
    {walk : Walk} (habove : walk.Above base outer depth) :
    walk.enclosing.length = depth + outer.length := by
  obtain ⟨opened, hlength, _, hkinds⟩ := habove
  have hcount := congrArg List.length hkinds
  simp only [Walk.kinds, Walk.scopes, List.map_cons, List.length_cons, List.length_map,
    List.length_append] at hcount
  omega

/-- The current scope is that of a capture exactly if there are captures open. -/
theorem Walk.Above.isCapture_current {place : Place} {base : ScopeKind} {outer : List ScopeKind}
    {depth : Nat} {walk : Walk} (hfits : place.Fits base) (habove : walk.Above base outer depth) :
    walk.current.kind.isCapture = true ↔ depth ≠ 0 := by
  obtain ⟨opened, rfl, hopened, hkinds⟩ := habove
  cases opened with
  | nil =>
    have hcurrent : walk.current.kind = base := (List.cons.inj hkinds).1
    have hbase : base.isCapture = false := by
      cases place with
      | rule => rw [show base = .root from hfits]; rfl
      | part => rcases hfits with rfl | rfl | rfl <;> rfl
    simp [hcurrent, hbase]
  | cons kind opened =>
    have hcurrent : walk.current.kind = kind := (List.cons.inj hkinds).1
    simp [hcurrent, hopened kind List.mem_cons_self]

/-- Whether a visit registers as many shapes as nodes close in its word: all of the word, or if it
fails the word up to the first offence. -/
def RegistersWord (name : String) (base : ScopeKind) (outer : List ScopeKind) (depth : Nat)
    (word : List Delimiter) (walk : Walk) {α : Type} : EStateM.Result AnalysisError Walk α → Prop
  | .ok _ after => ∀ left, after.Above base outer left → ∀ rest,
    walk.registry.size + closedIn name depth (word ++ rest) =
      after.registry.size + closedIn name left rest
  | .error _ after => ∀ rest,
    walk.registry.size + closedIn name depth (word ++ rest) = after.registry.size

/-- Whether a visit of an isolated body registers as many shapes as nodes close in its word. -/
def RegistersPart (name : String) (word : List Delimiter) (walk : Walk) {α : Type} :
    EStateM.Result AnalysisError Walk α → Prop
  | .ok _ after | .error _ after =>
    walk.registry.size + closedIn name 0 word = after.registry.size

section Registering

variable {name : String} {place : Place} {base : ScopeKind} {outer : List ScopeKind} {depth : Nat}
  {walk after : Walk} {α β : Type}

/-- A step that neither opens nor closes a scope and registers nothing. -/
theorem registersWord_nil (habove : walk.Above base outer depth)
    (hkinds : after.kinds = walk.kinds) (hregistry : after.registry = walk.registry) (value : α) :
    RegistersWord name base outer depth [] walk (.ok value after) := by
  intro left hleft rest
  have hdepth := (habove.of_kinds_eq hkinds).length_enclosing
  have hsame : left = depth := by
    have hlength := hleft.length_enclosing
    omega
  rw [hsame, hregistry, List.nil_append]

/-- A step that opens a node and registers nothing. -/
theorem registersWord_opens (habove : walk.Above base outer depth) {kind : ScopeKind}
    (hkind : kind.isCapture = true) (hkinds : after.kinds = kind :: walk.kinds)
    (hregistry : after.registry = walk.registry) (value : α) :
    RegistersWord name base outer depth [.opens] walk (.ok value after) := by
  intro left hleft rest
  have hdepth := (habove.opens hkind hkinds).length_enclosing
  have hsame : left = depth + 1 := by
    have hlength := hleft.length_enclosing
    omega
  rw [hsame, hregistry]
  cases depth <;> rfl

/-- The end of a capture registers one shape, if there is a node to close. -/
theorem closeCapture_registersWord (hfits : place.Fits base)
    (habove : walk.Above base outer depth) :
    RegistersWord name base outer depth [.closes] walk
      ((Builder.closeCapture name).run walk) := by
  have hcapture := habove.isCapture_current hfits
  have hlength := habove.length_enclosing
  rw [Builder.run_closeCapture]
  cases depth with
  | zero =>
    rw [if_neg (fun hcurrent => hcapture.mp hcurrent rfl)]
    split <;> exact fun _ => rfl
  | succ depth =>
    rw [if_pos (hcapture.mpr (Nat.succ_ne_zero depth))]
    cases henclosing : walk.enclosing with
    | nil =>
      rw [henclosing, List.length_nil] at hlength
      omega
    | cons around rest =>
      intro left hleft more
      rw [henclosing, List.length_cons] at hlength
      have hsame : left = depth := by
        have hafter : rest.length = left + outer.length := hleft.length_enclosing
        omega
      have hsize : (walk.closeInto around rest).registry.size = walk.registry.size + 1 := by
        simp [Walk.closeInto, Registry.register, Registry.size]
      rw [hsame, hsize]
      change walk.registry.size + (closedIn name depth more + 1) = _
      omega

/-- An isolated body is one letter of the word around it. -/
theorem RegistersPart.registersWord {word : List Delimiter}
    {result : EStateM.Result AnalysisError Walk α}
    (hpart : RegistersPart name word walk result) (hreads : ReadsPart name walk.kinds word result)
    (habove : walk.Above base outer depth) :
    RegistersWord name base outer depth [.part word] walk result := by
  cases result with
  | error reason last =>
    intro rest
    rw [List.singleton_append, closedIn_part_of_some name depth rest hreads]
    exact hpart
  | ok value last =>
    obtain ⟨hkinds, hword⟩ := hreads
    intro left hleft rest
    have hsame : left = depth := by
      have hlast := (habove.of_kinds_eq hkinds).length_enclosing
      have hlength := hleft.length_enclosing
      omega
    have hsize : walk.registry.size + closedIn name 0 word = last.registry.size := hpart
    rw [List.singleton_append, closedIn_part_of_none name depth rest hword, hsame]
    omega

/-- One reading goes on where the one before it ends. -/
theorem RegistersWord.bind {first next : List Delimiter}
    {result : EStateM.Result AnalysisError Walk α}
    {further : α → Walk → EStateM.Result AnalysisError Walk β}
    (hreads : ReadsWord name place base outer depth first result)
    (hfirst : RegistersWord name base outer depth first walk result)
    (hnext : ∀ value last left, last.Above base outer left →
      RegistersWord name base outer left next last (further value last)) :
    RegistersWord name base outer depth (first ++ next) walk (Builder.goOn result further) := by
  cases result with
  | error reason last =>
    intro rest
    rw [List.append_assoc]
    exact hfirst (next ++ rest)
  | ok value last =>
    obtain ⟨left, habove, _⟩ := hreads
    have hbefore := hfirst left habove
    have hbehind := hnext value last left habove
    dsimp only [Builder.goOn]
    cases hfurther : further value last with
    | error reason final =>
      rw [hfurther] at hbehind
      intro rest
      rw [List.append_assoc, hbefore]
      exact hbehind rest
    | ok result final =>
      rw [hfurther] at hbehind
      intro last hlast rest
      rw [List.append_assoc, hbefore]
      exact hbehind last hlast rest

/-- A reading is not disturbed by a step behind it that reads nothing. -/
theorem RegistersWord.then {word : List Delimiter} {result : EStateM.Result AnalysisError Walk α}
    {further : α → Walk → EStateM.Result AnalysisError Walk β}
    (hreads : ReadsWord name place base outer depth word result)
    (hresult : RegistersWord name base outer depth word walk result)
    (hsilent : ∀ value last left, last.Above base outer left →
      RegistersWord name base outer left [] last (further value last)) :
    RegistersWord name base outer depth word walk (Builder.goOn result further) := by
  have hboth := hresult.bind hreads hsilent
  rwa [List.append_nil] at hboth

end Registering

namespace Builder

variable (name : String)

/-- Handing back a scope registers nothing. -/
theorem registersPart_handBack {word : List Delimiter} {walk inner : Walk} {around : Walk}
    (hsize : walk.registry.size + closedIn name 0 word = inner.registry.size) :
    RegistersPart name word walk (handBack name around inner) := by
  rw [handBack]
  split
  · split <;> exact hsize
  · exact hsize

/-- A body that registers what closes in its word does so in a scope of its own. -/
theorem isolated_registersPart (kind : ScopeKind) {step : WalkM Unit} {word : List Delimiter}
    {walk : Walk}
    (hreads : ReadsWord name .part kind walk.kinds 0 word
      (step.run (walk.enter (.opened kind))))
    (hstep : RegistersWord name kind walk.kinds 0 word (walk.enter (.opened kind))
      (step.run (walk.enter (.opened kind)))) :
    RegistersPart name word walk ((isolated name kind step).run walk) := by
  rw [run_isolated]
  cases hrun : step.run (walk.enter (.opened kind)) with
  | error reason inner =>
    rw [hrun] at hstep
    have hsize := hstep []
    rw [List.append_nil] at hsize
    exact hsize
  | ok _ inner =>
    rw [hrun] at hreads hstep
    obtain ⟨left, habove, _⟩ := hreads
    have hsize := hstep left habove []
    rw [List.append_nil] at hsize
    exact registersPart_handBack name hsize

/-- A wrapper registers what closes in its body. -/
theorem visit_wrapper_registersWord {base : ScopeKind} {outer : List ScopeKind}
    (wrapper : Wrapper) {inner : Expr} {depth : Nat} {walk : Walk}
    (habove : walk.Above base outer depth)
    (hinner : RegistersWord name wrapper.kind walk.kinds 0 inner.word
      (walk.enter (.opened wrapper.kind))
      ((visit name inner).run (walk.enter (.opened wrapper.kind)))) :
    RegistersWord name base outer depth [.part inner.word] walk
      ((visit name (wrapper.expr inner)).run walk) := by
  have hread := visit_readsWord name wrapper.fits_kind inner
    (Walk.Above.zero_iff.mpr (walk.kinds_enter (.opened wrapper.kind)))
  have hpart := isolated_readsPart name wrapper.kind hread
  have hword : ReadsWord name .part base outer depth [.part inner.word] _ :=
    hpart.readsWord habove
  rw [run_visit_wrapper]
  apply RegistersWord.then hword
    ((isolated_registersPart name wrapper.kind hread hinner).registersWord hpart habove)
  intro _ last _ hlast
  exact registersWord_nil hlast (last.kinds_append _) rfl ()

mutual

/-- Visiting an expression registers what closes in its word. -/
theorem visit_registersWord {place : Place} {base : ScopeKind} {outer : List ScopeKind}
    (hfits : place.Fits base) : ∀ (expr : Expr) {depth : Nat} {walk : Walk},
      walk.Above base outer depth →
      RegistersWord name base outer depth expr.word walk ((visit name expr).run walk)
  | .byte value, _, walk, habove =>
    registersWord_nil habove (walk.kinds_append [.byte value]) rfl ()
  | .tag tag, _, walk, habove => registersWord_nil habove (walk.kinds_append [.tag tag]) rfl ()
  | .nonTerminal target, _, walk, habove =>
    registersWord_nil habove (walk.kinds_reference target) rfl ()
  | .sequence items, _, _, habove => visitItems_registersWord hfits items habove
  | .choice branches, _, _, habove => by
    have hreads : ReadsWord name place base outer _ _ _ :=
      visitBranches_readsWord name branches habove
    rw [run_visit_choice]
    apply RegistersWord.then hreads (visitBranches_registersWord branches habove)
    intro _ last _ hlast
    exact registersWord_nil hlast (last.kinds_append _) rfl ()
  | .optional inner, _, _, habove => visit_wrapper_registersWord name .optional habove
    (visit_registersWord (Wrapper.fits_kind .optional) inner (Walk.Above.zero_iff.mpr rfl))
  | .zeroOrMore inner, _, _, habove => visit_wrapper_registersWord name .zeroOrMore habove
    (visit_registersWord (Wrapper.fits_kind .zeroOrMore) inner (Walk.Above.zero_iff.mpr rfl))
  | .oneOrMore inner, _, _, habove => visit_wrapper_registersWord name .oneOrMore habove
    (visit_registersWord (Wrapper.fits_kind .oneOrMore) inner (Walk.Above.zero_iff.mpr rfl))
  | .link label inner, _, _, habove => visit_wrapper_registersWord name (.link label) habove
    (visit_registersWord (Wrapper.fits_kind (.link label)) inner (Walk.Above.zero_iff.mpr rfl))
  | .beginCapture, _, walk, habove =>
    registersWord_opens habove rfl (walk.kinds_enter (.opened .capture)) rfl ()
  | .fold label, _, walk, habove =>
    registersWord_opens habove rfl (walk.kinds_openFold label) (walk.registry_openFold label) ()
  | .endCapture, _, _, habove => closeCapture_registersWord hfits habove
  | .empty, _, _, habove | .any, _, _, habove | .byteSet _, _, _, habove
  | .followedBy _, _, _, habove | .notFollowedBy _, _, _, habove =>
    registersWord_nil habove rfl rfl ()

/-- Visiting items registers what closes in their words. -/
theorem visitItems_registersWord {place : Place} {base : ScopeKind} {outer : List ScopeKind}
    (hfits : place.Fits base) : ∀ (items : List Expr) {depth : Nat} {walk : Walk},
      walk.Above base outer depth →
      RegistersWord name base outer depth (Expr.wordOfItems items) walk
        ((visitItems name items).run walk)
  | [], _, _, habove => registersWord_nil habove rfl rfl ()
  | item :: rest, _, _, habove => by
    rw [run_visitItems_cons, Expr.wordOfItems]
    exact RegistersWord.bind (visit_readsWord name hfits item habove)
      (visit_registersWord hfits item habove)
      fun _ _ _ hlast => visitItems_registersWord hfits rest hlast

/-- Visiting branches registers what closes in the word of each. -/
theorem visitBranches_registersWord {base : ScopeKind} {outer : List ScopeKind} :
    ∀ (branches : List Expr) {depth : Nat} {walk : Walk}, walk.Above base outer depth →
      RegistersWord name base outer depth (Expr.wordOfBranches branches) walk
        ((visitBranches name branches).run walk)
  | [], _, _, habove => registersWord_nil habove rfl rfl []
  | branch :: rest, _, walk, habove => by
    have hfits : Place.part.Fits .branch := Or.inl rfl
    have hread := visit_readsWord name hfits branch
      (Walk.Above.zero_iff.mpr (walk.kinds_enter (.opened .branch)))
    have hpart := isolated_readsPart name .branch hread
    have hword : ReadsWord name .part base outer _ [.part branch.word] _ :=
      hpart.readsWord habove
    have hregisters := isolated_registersPart name .branch hread
      (visit_registersWord hfits branch (Walk.Above.zero_iff.mpr rfl))
    rw [run_visitBranches_cons, Expr.wordOfBranches]
    apply RegistersWord.bind hword (hregisters.registersWord hpart habove)
    intro scope last _ hlast
    have hreads : ReadsWord name .part base outer _ _ _ :=
      visitBranches_readsWord name rest hlast
    apply RegistersWord.then hreads (visitBranches_registersWord rest hlast)
    intro sequences _ _ hend
    exact registersWord_nil hend rfl rfl (scope.elements :: sequences)

end

/-- Building a rule registers as many shapes as nodes close in it before its first offence. -/
theorem size_buildRule (builder : Builder) (rule : Rule) :
    (builder.buildRule rule).2.registry.size =
      builder.registry.size + closedIn rule.name 0 rule.expr.word := by
  have hfits : Place.rule.Fits .root := rfl
  have habove : (Walk.start builder).Above .root [] 0 :=
    Walk.Above.zero_iff.mpr (Walk.kinds_start builder)
  have hreads := visit_readsWord rule.name hfits rule.expr habove
  have hregisters := visit_registersWord rule.name hfits rule.expr habove
  unfold buildRule
  cases hrun : (visit rule.name rule.expr).run (.start builder) with
  | error reason last =>
    rw [hrun] at hregisters
    have hsize := hregisters []
    rw [List.append_nil] at hsize
    exact hsize.symm
  | ok _ last =>
    rw [hrun] at hreads hregisters
    obtain ⟨left, hleft, _⟩ := hreads
    have hsize := hregisters left hleft []
    rw [List.append_nil] at hsize
    dsimp only
    cases last.enclosing <;> exact hsize.symm

/-- A call on a builder. -/
inductive Call where
  /-- A rule is built. -/
  | buildRule (rule : Rule)
  /-- A rule is built and registered. -/
  | addRule (rule : Rule)

/-- The builder after a call, whatever the call has come to. -/
def called (builder : Builder) : Call → Builder
  | .buildRule rule => (builder.buildRule rule).2
  | .addRule rule => (builder.addRule rule).2

/-- A rule that fails when it is added has failed to be built. -/
theorem addRule_eq_error {builder : Builder} {rule : Rule} {reason : AnalysisError}
    (hfails : (builder.addRule rule).1 = .error reason) :
    (builder.buildRule rule).1 = .error reason ∧
      (builder.addRule rule).2 = (builder.buildRule rule).2 := by
  unfold addRule at hfails ⊢
  rcases hbuild : builder.buildRule rule with ⟨other | elements, after⟩
  · rw [hbuild] at hfails
    cases hfails
    exact ⟨rfl, rfl⟩
  · rw [hbuild] at hfails
    cases hfails

/-- A builder survives any calls, whatever they have come to. A further rule is built or refused as
by a fresh builder, with the numbers of captures raised by those of the shapes registered before
and the sites by those handed out before, in its elements and in the shapes registered for it. A
rule that fails when it is added leaves the rules as they are, and the shapes too: behind them
come only those of the nodes that have closed before its first offence. -/
theorem outcome_after_calls (calls : List Call) (rule : Rule) :
    let builder := calls.foldl called .fresh
    let raise : Renumbering :=
      ⟨fun id => builder.registry.size + id, fun site => builder.nextSite + site⟩
    ((builder.buildRule rule).1 =
        (Builder.fresh.buildRule rule).1.map (renumberSequence raise) ∧
      (builder.buildRule rule).2.registry.shapes = builder.registry.shapes ++
        (Builder.fresh.buildRule rule).2.registry.shapes.map (·.renumber raise) ∧
      (builder.buildRule rule).2.nextSite =
        builder.nextSite + (Builder.fresh.buildRule rule).2.nextSite) ∧
    ∀ reason, (builder.addRule rule).1 = .error reason →
      (builder.addRule rule).2.registry.rules = builder.registry.rules ∧
      ∃ closed, (builder.addRule rule).2.registry.shapes = builder.registry.shapes ++ closed ∧
        closed.length = closedIn rule.name 0 rule.expr.word := by
  intro builder raise
  obtain ⟨houtcome, hregistry, hsites⟩ := buildRule_behind builder rule
  refine ⟨⟨houtcome, congrArg Registry.shapes hregistry, hsites⟩, fun reason hfails => ?_⟩
  obtain ⟨_, hafter⟩ := addRule_eq_error hfails
  have hsize := size_buildRule builder rule
  rw [hafter, hregistry]
  refine ⟨rfl, _, rfl, ?_⟩
  rw [hregistry, Registry.size, List.length_append] at hsize
  exact Nat.add_left_cancel hsize

/-- Rules that have failed with a node left open, and behind a node that has closed, are followed
by a rule that fails behind a fold that is tied to itself. -/
theorem outcome_after_calls_of_stray_end :
    let calls : List Call := [
      .addRule ⟨"sum", .capture [.tag "Sum", .nonTerminal "sum"]⟩,
      .buildRule ⟨"open", .sequence [.beginCapture, .capture [.nonTerminal "sum"]]⟩,
      .addRule ⟨"sum", .optional (.sequence [.beginCapture, .nonTerminal "sum"])⟩]
    let rule : Rule := ⟨"list", .sequence [.nonTerminal "sum",
      .zeroOrMore (.leftFold (some "front") [.tag "List", .nonTerminal "sum"]), .endCapture]⟩
    let builder := calls.foldl called .fresh
    let raise : Renumbering := ⟨fun id => 2 + id, fun site => 3 + site⟩
    (builder.addRule rule).1 = .error (.unbalancedCapture "list") ∧
    (builder.addRule rule).2.registry.rules = builder.registry.rules ∧
    (∃ closed, (builder.addRule rule).2.registry.shapes = builder.registry.shapes ++ closed ∧
      closed.length = 1) ∧
    (builder.buildRule rule).2.registry.shapes = builder.registry.shapes ++
      (Builder.fresh.buildRule rule).2.registry.shapes.map (·.renumber raise) := by
  intro calls rule builder raise
  have hfails : (builder.addRule rule).1 = .error (.unbalancedCapture "list") := rfl
  obtain ⟨⟨_, hshapes, _⟩, hkept⟩ := outcome_after_calls calls rule
  exact ⟨hfails, (hkept _ hfails).1, (hkept _ hfails).2, hshapes⟩

end Builder

end PegTemplates
