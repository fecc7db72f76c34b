import PegTemplates.Proofs.Building.Renumbering

/-!
# Building behind other rules

A builder that has been used before hands out higher numbers, and nothing else is different:
every step of a walk that has started with a fresh builder is shown to be the same step behind
any other builder, with the numbers of captures and sites raised by those handed out before.
This holds of steps that fail as well, and of whatever the earlier rules have come to.
-/

namespace PegTemplates

/-- The numbers of what is built behind a builder, raised by those that it has handed out. -/
def Builder.raise (builder : Builder) : Renumbering :=
  ⟨fun id => builder.registry.size + id, fun site => builder.nextSite + site⟩

/-- The last element of a scope is the same one under new numbers. -/
theorem Scope.takeLast?_renumber (scope : Scope) (numbers : Renumbering) :
    (scope.renumber numbers).takeLast? =
      scope.takeLast?.map fun taken => (taken.1.renumber numbers, taken.2.renumber numbers) := by
  obtain ⟨kind, elements, fold⟩ := scope
  rcases List.eq_nil_or_concat elements with rfl | ⟨front, last, rfl⟩
  · rfl
  · simp [takeLast?, renumber, renumberSequence]

namespace Walk

/-- A walk that has started with a fresh builder, behind another builder. -/
def behind (walk : Walk) (builder : Builder) : Walk where
  registry :=
    ⟨builder.registry.shapes ++ walk.registry.shapes.map (·.renumber builder.raise),
      builder.registry.rules⟩
  nextSite := builder.nextSite + walk.nextSite
  events := builder.events
  current := walk.current.renumber builder.raise
  enclosing := walk.enclosing.map (·.renumber builder.raise)

variable (builder : Builder) (walk : Walk)

/-- A walk about to start is one about to start with a fresh builder, behind the builder. -/
theorem start_eq : start builder = (start .fresh).behind builder := by
  obtain ⟨⟨shapes, rules⟩, nextSite, events⟩ := builder
  simp [start, behind, Builder.fresh, Registry.empty, Scope.renumber, Scope.opened,
    renumberSequence]

/-- The next number behind a builder is raised by those that it has handed out. -/
theorem size_behind :
    (walk.behind builder).registry.size = builder.registry.size + walk.registry.size := by
  rw [Registry.size, behind, List.length_append, List.length_map]
  rfl

theorem behind_append (elements : List Element) : (walk.append elements).behind builder =
    (walk.behind builder).append (renumberSequence builder.raise elements) := by
  simp [behind, append, Scope.renumber]

theorem behind_enter (scope : Scope) : (walk.enter scope).behind builder =
    (walk.behind builder).enter (scope.renumber builder.raise) := rfl

theorem behind_reference (name : String) :
    (walk.reference name).behind builder = (walk.behind builder).reference name := by
  simp [behind, reference, append, Scope.renumber, renumberSequence, Element.renumber,
    Builder.raise, Nat.add_assoc]

/-- The head of a fold is the same element behind a builder. -/
theorem takeHead_behind : (walk.behind builder).takeHead =
    (walk.takeHead.1.map (·.renumber builder.raise), walk.takeHead.2.behind builder) := by
  have hlast : (walk.behind builder).current.takeLast? = _ :=
    walk.current.takeLast?_renumber builder.raise
  have hnearest : takeNearest (walk.behind builder).enclosing = _ :=
    takeNearest_renumber builder.raise walk.enclosing
  rw [takeHead, takeHead, hlast]
  cases walk.current.takeLast? with
  | none =>
    dsimp only [Option.map_none]
    rw [hnearest]
    rfl
  | some taken => rfl

theorem behind_openFold (label : Option String) :
    (walk.openFold label).behind builder = (walk.behind builder).openFold label := by
  rw [openFold, openFold, takeHead_behind]
  obtain ⟨head, taken⟩ := walk.takeHead
  cases head <;>
    simp [behind, enter, Scope.renumber, Scope.opened, renumberSequence, Element.renumber,
      FoldMark.renumber]

/-- A node that closes behind a builder becomes the same shape under the next number there. -/
theorem behind_closeInto (outer : Scope) (rest : List Scope) :
    (walk.closeInto outer rest).behind builder =
      (walk.behind builder).closeInto (outer.renumber builder.raise)
        (rest.map (·.renumber builder.raise)) := by
  have hclosed := closedElements_renumber builder.raise walk.current outer walk.registry.size
  have hsize : (walk.behind builder).registry.size = builder.raise.capture walk.registry.size :=
    size_behind builder walk
  have helements : closedElements (walk.behind builder).current (outer.renumber builder.raise)
      (builder.raise.capture walk.registry.size) =
      renumberSequence builder.raise (closedElements walk.current outer walk.registry.size) :=
    hclosed
  rw [closeInto, closeInto, hsize, helements, Registry.register, Registry.register, hsize]
  simp [behind, Shape.renumber, Scope.renumber, renumberSequence, Element.renumber]

end Walk

namespace Builder

variable {α β : Type}

/-- What a step has come to, behind a builder. -/
def raised (builder : Builder) (change : α → α) :
    EStateM.Result AnalysisError Walk α → EStateM.Result AnalysisError Walk α
  | .ok value walk => .ok (change value) (walk.behind builder)
  | .error reason walk => .error reason (walk.behind builder)

/-- Going on behind a builder is going on and then being behind it. -/
theorem goOn_raised {builder : Builder} {change : α → α} {changeNext : β → β}
    {further other : α → Walk → EStateM.Result AnalysisError Walk β}
    (hfurther : ∀ value walk, other (change value) (walk.behind builder) =
      builder.raised changeNext (further value walk))
    (result : EStateM.Result AnalysisError Walk α) :
    goOn (builder.raised change result) other =
      builder.raised changeNext (goOn result further) := by
  cases result with
  | error reason walk => rfl
  | ok value walk => exact hfurther value walk

variable (builder : Builder) (rule : String)

/-- A body hands back the same scope behind a builder. -/
theorem handBack_behind (around inner : Walk) :
    handBack rule (around.behind builder) (inner.behind builder) =
      builder.raised (·.renumber builder.raise) (handBack rule around inner) := by
  have hcount : (around.behind builder).enclosing.length = around.enclosing.length :=
    List.length_map _
  obtain ⟨inside, current, enclosing⟩ := inner
  rw [handBack, handBack, hcount]
  cases enclosing with
  | nil => rfl
  | cons outer rest =>
    simp only [Walk.behind, List.map_cons, List.length_map]
    by_cases hlength : rest.length = around.enclosing.length
    · rw [if_pos hlength, if_pos hlength]
      rfl
    · rw [if_neg hlength, if_neg hlength]
      rfl

/-- A step in a scope of its own is the same behind a builder if the step is. -/
theorem isolated_behind (kind : ScopeKind) {step : WalkM Unit} {walk : Walk}
    (hstep : step.run ((walk.enter (.opened kind)).behind builder) =
      builder.raised id (step.run (walk.enter (.opened kind)))) :
    (isolated rule kind step).run (walk.behind builder) =
      builder.raised (·.renumber builder.raise) ((isolated rule kind step).run walk) := by
  rw [run_isolated, run_isolated]
  change goOn (step.run ((walk.enter (.opened kind)).behind builder)) _ = _
  rw [hstep]
  refine goOn_raised (fun _ inner => ?_) _
  exact handBack_behind builder rule walk inner

/-- The end of a capture is the same behind a builder. -/
theorem closeCapture_behind (walk : Walk) : (closeCapture rule).run (walk.behind builder) =
    builder.raised id ((closeCapture rule).run walk) := by
  have hkind : (walk.behind builder).current.kind = walk.current.kind := rfl
  rw [run_closeCapture, run_closeCapture, hkind]
  split
  · cases henclosing : walk.enclosing with
    | nil =>
      simp only [Walk.behind, henclosing, List.map_nil]
      simp only [raised, Walk.behind, henclosing, List.map_nil]
    | cons outer rest =>
      have hbehind : (walk.behind builder).enclosing = outer.renumber builder.raise ::
          rest.map (·.renumber builder.raise) := by
        rw [Walk.behind, henclosing, List.map_cons]
      rw [hbehind]
      exact congrArg _ (walk.behind_closeInto builder outer rest).symm
  · split <;> rfl

/-- A wrapper stands for the same elements behind a builder if its body does. -/
theorem visit_wrapper_behind (wrapper : Wrapper) {inner : Expr} {walk : Walk}
    (hinner : (visit rule inner).run ((walk.enter (.opened wrapper.kind)).behind builder) =
      builder.raised id ((visit rule inner).run (walk.enter (.opened wrapper.kind)))) :
    (visit rule (wrapper.expr inner)).run (walk.behind builder) =
      builder.raised id ((visit rule (wrapper.expr inner)).run walk) := by
  rw [run_visit_wrapper, run_visit_wrapper, isolated_behind builder rule wrapper.kind hinner]
  refine goOn_raised (fun scope last => ?_) _
  rw [wrapper.around_renumber, ← Walk.behind_append]
  rfl

mutual

/-- The walk through an expression is the same behind a builder. -/
theorem visit_behind : ∀ (expr : Expr) (walk : Walk),
    (visit rule expr).run (walk.behind builder) =
      builder.raised id ((visit rule expr).run walk)
  | .byte value, walk => congrArg _ (walk.behind_append builder [.byte value]).symm
  | .tag name, walk => congrArg _ (walk.behind_append builder [.tag name]).symm
  | .nonTerminal name, walk => congrArg _ (walk.behind_reference builder name).symm
  | .sequence items, walk => visitItems_behind items walk
  | .choice branches, walk => by
    rw [run_visit_choice, run_visit_choice, visitBranches_behind branches walk]
    refine goOn_raised (fun sequences last => ?_) _
    have hchoice : [Element.choice (sequences.map (renumberSequence builder.raise))] =
        renumberSequence builder.raise [.choice sequences] := by
      rw [← Element.renumberBranches_eq]
      rfl
    rw [hchoice, ← Walk.behind_append]
    rfl
  | .optional inner, walk => visit_wrapper_behind builder rule .optional (visit_behind inner _)
  | .zeroOrMore inner, walk => visit_wrapper_behind builder rule .zeroOrMore (visit_behind inner _)
  | .oneOrMore inner, walk => visit_wrapper_behind builder rule .oneOrMore (visit_behind inner _)
  | .link label inner, walk =>
    visit_wrapper_behind builder rule (.link label) (visit_behind inner _)
  | .beginCapture, walk => congrArg _ (walk.behind_enter builder (.opened .capture)).symm
  | .endCapture, walk => closeCapture_behind builder rule walk
  | .fold label, walk => congrArg _ (walk.behind_openFold builder label).symm
  | .empty, _ | .any, _ | .byteSet _, _ | .followedBy _, _ | .notFollowedBy _, _ => rfl

/-- The walk through items is the same behind a builder. -/
theorem visitItems_behind : ∀ (items : List Expr) (walk : Walk),
    (visitItems rule items).run (walk.behind builder) =
      builder.raised id ((visitItems rule items).run walk)
  | [], _ => rfl
  | item :: rest, walk => by
    rw [run_visitItems_cons, run_visitItems_cons, visit_behind item walk]
    refine goOn_raised (fun _ last => ?_) _
    exact visitItems_behind rest last

/-- The walk through branches is the same behind a builder. -/
theorem visitBranches_behind : ∀ (branches : List Expr) (walk : Walk),
    (visitBranches rule branches).run (walk.behind builder) =
      builder.raised (·.map (renumberSequence builder.raise))
        ((visitBranches rule branches).run walk)
  | [], _ => rfl
  | branch :: rest, walk => by
    rw [run_visitBranches_cons, run_visitBranches_cons,
      isolated_behind builder rule .branch (visit_behind branch _)]
    refine goOn_raised (fun scope last => ?_) _
    rw [visitBranches_behind rest last]
    exact goOn_raised (fun _ _ => rfl) _

end

/-- What a rule is built into behind other rules: the same outcome, with the numbers raised by
those handed out before, and the same shapes behind those from before. -/
theorem buildRule_behind (rule : Rule) :
    (builder.buildRule rule).1 =
        (Builder.fresh.buildRule rule).1.map (renumberSequence builder.raise) ∧
      (builder.buildRule rule).2.registry =
        ⟨builder.registry.shapes ++
            (Builder.fresh.buildRule rule).2.registry.shapes.map (·.renumber builder.raise),
          builder.registry.rules⟩ ∧
      (builder.buildRule rule).2.nextSite =
        builder.nextSite + (Builder.fresh.buildRule rule).2.nextSite := by
  have hvisit := visit_behind builder rule.name rule.expr (.start .fresh)
  rw [← Walk.start_eq] at hvisit
  unfold buildRule
  rw [hvisit]
  cases (visit rule.name rule.expr).run (.start .fresh) with
  | error reason walk => exact ⟨rfl, rfl, rfl⟩
  | ok _ walk =>
    obtain ⟨inside, current, enclosing⟩ := walk
    cases enclosing with
    | nil => exact ⟨rfl, rfl, rfl⟩
    | cons outer rest =>
      refine ⟨?_, rfl, rfl⟩
      simp [raised, Walk.behind, Except.map]

end Builder

end PegTemplates
