import PegTemplates.Proofs.Building.Assembly

/-!
# Visiting a part in the scope of its rule

A part of a rule that is visited in the scope of the rule comes to what it comes to in
a scope of its own beside it: what it leaves of the elements before it, followed by
what it collects itself.
-/

namespace PegTemplates

/-- Whether a scope holds these elements, taken from its end on, and behind them all
that another scope holds. A fold closed in either of them is not one of a repetition. -/
structure Scope.Continues (root : Scope) (reserve : List Element) (own : Scope) : Prop where
  /-- The elements of the other scope stand behind the rest. -/
  elements : root.elements = reserve.reverse ++ own.elements
  /-- The scope is not the body of a repetition. -/
  root_kind : root.kind ≠ .repeated
  /-- Neither is the other scope. -/
  own_kind : own.kind ≠ .repeated

/-- Whether a run in the scope of a rule has come to what a run beside that scope has
come to, the two outermost scopes put into one. -/
structure Assembly.Merges (whole beside : Assembly) : Prop where
  /-- Both runs know of the same shapes. -/
  known : whole.known = beside.known
  /-- Both have registered the same shapes. -/
  shapes : whole.shapes = beside.shapes
  /-- Both hand out the same site next. -/
  nextSite : whole.nextSite = beside.nextSite
  /-- Both have set aside the same branches. -/
  aside : whole.aside = beside.aside
  /-- Nothing stands around the scope of the rule. -/
  reserve : whole.reserve = []
  /-- Only the outermost scopes differ. -/
  scopes : ∃ inner root own, whole.scopes = inner ++ [root] ∧ beside.scopes = inner ++ [own] ∧
    root.Continues beside.reserve own

/-- A single scope gives its last element as the head. -/
theorem takeNearest_singleton (scope : Scope) :
    takeNearest [scope] =
      (scope.elements.getLast?, [{ scope with elements := scope.elements.dropLast }]) := by
  obtain ⟨kind, elements, fold⟩ := scope
  rcases List.eq_nil_or_concat elements with rfl | ⟨front, last, rfl⟩
  · rfl
  · simp [takeNearest, Scope.takeLast?]

/-- A node in a scope that is no repetition is not tied to a round before. -/
theorem closedElements_of_ne_repeated {outer : Scope} (hkind : outer.kind ≠ .repeated)
    (closing : Scope) (id : ShapeId) : Walk.closedElements closing outer id = closing.elements :=
  if_neg fun htied => hkind htied.2.1

namespace Assembly.Merges

variable {whole beside : Assembly}

/-- The next shape gets the same number. -/
theorem nextShape_eq (hmerges : whole.Merges beside) : whole.nextShape = beside.nextShape := by
  rw [Assembly.nextShape, Assembly.nextShape, hmerges.known, hmerges.shapes]

/-- The same elements are collected. -/
theorem append (hmerges : whole.Merges beside) {elements others : List Element}
    (hsame : elements = others) : (whole.append elements).Merges (beside.append others) := by
  subst hsame
  obtain ⟨hknown, hshapes, hsite, haside, hreserve, inner, root, own, hwhole, hbeside, hroot⟩ :=
    hmerges
  refine ⟨hknown, hshapes, hsite, haside, hreserve, ?_⟩
  simp only [Assembly.append, hwhole, hbeside]
  cases inner with
  | nil =>
    refine ⟨[], root.append elements, own.append elements, rfl, rfl, ?_, hroot.root_kind,
      hroot.own_kind⟩
    simp [Scope.append, hroot.elements]
  | cons scope rest => exact ⟨scope.append elements :: rest, root, own, rfl, rfl, hroot⟩

/-- A left fold takes the same head. -/
theorem takeHead (hmerges : whole.Merges beside) :
    whole.takeHead.1 = beside.takeHead.1 ∧ whole.takeHead.2.Merges beside.takeHead.2 := by
  obtain ⟨hknown, hshapes, hsite, haside, hreserve, inner, root, own, hwhole, hbeside, hroot⟩ :=
    hmerges
  have helements := hroot.elements
  cases hinner : (takeNearest inner).1 with
  | some head =>
    have hfirst := takeNearest_append_of_some hinner [root]
    have hnext := takeNearest_append_of_some hinner [own]
    rw [← hwhole] at hfirst
    rw [← hbeside] at hnext
    rw [takeHead_of_some (congrArg Prod.fst hfirst), takeHead_of_some (congrArg Prod.fst hnext),
      hfirst, hnext]
    exact ⟨rfl, hknown, hshapes, hsite, haside, hreserve, _, root, own, rfl, rfl, hroot⟩
  | none =>
    have hfirst := takeNearest_append_of_none hinner [root]
    have hnext := takeNearest_append_of_none hinner [own]
    rw [← hwhole, takeNearest_singleton] at hfirst
    rw [← hbeside, takeNearest_singleton] at hnext
    rcases List.eq_nil_or_concat own.elements with hown | ⟨front, last, hown⟩
    · rw [hown, List.append_nil] at helements
      rw [hown] at hnext
      rw [takeHead_of_none (congrArg Prod.fst hnext)]
      cases hleft : beside.reserve with
      | nil =>
        rw [helements, hleft] at hfirst
        rw [takeHead_of_none (congrArg Prod.fst hfirst), hreserve]
        refine ⟨rfl, hknown, hshapes, hsite, haside, rfl, inner, root, own, hwhole, hbeside, ?_,
          hroot.root_kind, hroot.own_kind⟩
        rw [helements, hleft, hown]
        rfl
      | cons head rest =>
        rw [helements, hleft, List.reverse_cons, List.getLast?_concat, List.dropLast_concat]
          at hfirst
        rw [takeHead_of_some (congrArg Prod.fst hfirst), hfirst]
        refine ⟨rfl, hknown, hshapes, hsite, haside, hreserve, inner, _, own, rfl, hbeside, ?_,
          hroot.root_kind, hroot.own_kind⟩
        rw [hown, List.append_nil]
        rfl
    · rw [List.concat_eq_append] at hown
      rw [hown, ← List.append_assoc] at helements
      rw [hown, List.getLast?_concat, List.dropLast_concat] at hnext
      rw [helements, List.getLast?_concat, List.dropLast_concat] at hfirst
      rw [takeHead_of_some (congrArg Prod.fst hfirst), takeHead_of_some (congrArg Prod.fst hnext),
        hfirst, hnext]
      exact ⟨rfl, hknown, hshapes, hsite, haside, hreserve, inner, _, _, rfl, rfl, rfl,
        hroot.root_kind, hroot.own_kind⟩

/-- A left fold opens the same node. -/
theorem openFold (hmerges : whole.Merges beside) (label : Option String) (head : Option Element) :
    (whole.openFold label head).Merges (beside.openFold label head) := by
  obtain ⟨hknown, hshapes, hsite, haside, hreserve, inner, root, own, hwhole, hbeside, hroot⟩ :=
    hmerges
  refine ⟨hknown, hshapes, hsite, haside, hreserve, ?_⟩
  simp only [Assembly.openFold, hwhole, hbeside]
  cases inner with
  | nil =>
    exact ⟨[_], { root with fold := some ⟨head⟩ }, { own with fold := some ⟨head⟩ }, rfl, rfl,
      hroot.elements, hroot.root_kind, hroot.own_kind⟩
  | cons scope rest =>
    exact ⟨_ :: { scope with fold := some ⟨head⟩ } :: rest, root, own, rfl, rfl, hroot⟩

/-- Leaving a scope comes to the same if what follows does. -/
theorem pop (hmerges : whole.Merges beside) {further : Scope → Assembly → Assembly}
    (hfurther : ∀ scope stack other, stack.Merges other →
      (further scope stack).Merges (further scope other)) :
    (whole.pop further).Merges (beside.pop further) := by
  have hall := hmerges
  obtain ⟨hknown, hshapes, hsite, haside, hreserve, inner, root, own, hwhole, hbeside, hroot⟩ :=
    hmerges
  rcases inner with _ | ⟨first, _ | ⟨next, rest⟩⟩
  · simp only [Assembly.pop, hwhole, hbeside, List.nil_append]
    exact hall
  · rw [pop_of_scopes hwhole, pop_of_scopes hbeside]
    exact hfurther first _ _
      ⟨hknown, hshapes, hsite, haside, hreserve, [], root, own, rfl, rfl, hroot⟩
  · rw [pop_of_scopes hwhole, pop_of_scopes hbeside]
    exact hfurther first _ _
      ⟨hknown, hshapes, hsite, haside, hreserve, next :: rest, root, own, rfl, rfl, hroot⟩

/-- A scope that closes becomes the same shape. -/
theorem register (hmerges : whole.Merges beside) (closing : Scope) :
    (whole.register closing).Merges (beside.register closing) := by
  have hnumber := hmerges.nextShape_eq
  have hcaptured := hmerges.append (congrArg (fun id => [Element.captured id]) hnumber)
  obtain ⟨hknown, hshapes, hsite, haside, hreserve, inner, root, own, hwhole, hbeside, hroot⟩ :=
    hmerges
  refine ⟨hknown, ?_, hsite, haside, hreserve, hcaptured.scopes⟩
  unfold Assembly.register
  dsimp only
  rw [hshapes, hnumber, hwhole, hbeside]
  cases inner with
  | nil =>
    simp only [List.nil_append, closedElements_of_ne_repeated hroot.root_kind,
      closedElements_of_ne_repeated hroot.own_kind]
  | cons outer rest => rfl

/-- Every step comes to the same. -/
theorem apply (hmerges : whole.Merges beside) (step : Step) :
    (step.apply whole).Merges (step.apply beside) := by
  cases step with
  | byte value => exact hmerges.append rfl
  | tag name => exact hmerges.append rfl
  | reference name =>
    have hsite := hmerges.nextSite
    obtain ⟨hknown, hshapes, _, haside, hreserve, hscopes⟩ :=
      hmerges.append (congrArg (fun site => [Element.nonTerminal name ⟨site⟩]) hsite)
    exact ⟨hknown, hshapes, congrArg (· + 1) hsite, haside, hreserve, hscopes⟩
  | enter kind =>
    obtain ⟨hknown, hshapes, hsite, haside, hreserve, inner, root, own, hwhole, hbeside, hroot⟩ :=
      hmerges
    exact ⟨hknown, hshapes, hsite, haside, hreserve, .opened kind :: inner, root, own,
      congrArg _ hwhole, congrArg _ hbeside, hroot⟩
  | fold label =>
    obtain ⟨hhead, htaken⟩ := hmerges.takeHead
    rw [Step.apply, Step.apply, hhead]
    exact htaken.openFold label beside.takeHead.1
  | close => exact hmerges.pop fun closing _ _ hstack => hstack.register closing
  | wrap wrapper => exact hmerges.pop fun body _ _ hstack => hstack.append rfl
  | setAside =>
    rw [Step.apply, Step.apply]
    apply hmerges.pop
    intro body stack other hstack
    obtain ⟨hknown, hshapes, hsite, haside, hreserve, hscopes⟩ := hstack
    exact ⟨hknown, hshapes, hsite, congrArg (body.elements :: ·) haside, hreserve, hscopes⟩
  | choose count =>
    have haside := hmerges.aside
    obtain ⟨hknown, hshapes, hsite, _, hreserve, hscopes⟩ :=
      hmerges.append (congrArg (fun aside => [Element.choice (aside.take count).reverse]) haside)
    exact ⟨hknown, hshapes, hsite, congrArg (·.drop count) haside, hreserve, hscopes⟩

/-- Every run comes to the same. -/
theorem run (hmerges : whole.Merges beside) (steps : List Step) :
    (Assembly.run steps whole).Merges (Assembly.run steps beside) := by
  induction steps generalizing whole beside with
  | nil => exact hmerges
  | cons step rest ih => exact ih (hmerges.apply step)

end Assembly.Merges

/-- The run of a part that is visited in the scopes of a walk. -/
def Walk.whole (walk : Walk) : Assembly :=
  ⟨walk.registry.size, [], walk.nextSite, walk.scopes, [], []⟩

/-- A walk mirrors the run that is about to start in its scopes. -/
theorem Walk.mirrors_whole (walk : Walk) :
    walk.Mirrors walk.registry.shapes 0 [] walk.whole :=
  ⟨rfl, (List.append_nil _).symm, rfl, rfl, [], (List.append_nil _).symm, rfl, rfl⟩

/-- In the scope of a rule a run has a scope that no delimiter closes. -/
theorem Walk.grounded_whole {walk : Walk} (hkinds : walk.kinds = [.root]) :
    walk.whole.Grounded := by
  refine ⟨.root, ?_, rfl⟩
  change walk.kinds.getLast? = some .root
  rw [hkinds]
  rfl

/-- A part that is accepted in the scope of a rule, and leaves it as the only one, ends
with what a branch beside the scope would leave of it and what the branch would collect. -/
theorem Builder.visit_merges {rule : String} {expr : Expr} {walk after : Walk}
    (hkinds : walk.kinds = [.root]) (hsingle : after.enclosing = [])
    (hrun : (visit rule expr).run walk = .ok () after) :
    ∃ own, (expr.runBeside .branch walk).scopes = [own] ∧
      after.current.elements =
        (expr.runBeside .branch walk).reserve.reverse ++ own.elements ∧
      after.registry.shapes = walk.registry.shapes ++ (expr.runBeside .branch walk).shapes ∧
      (expr.runBeside .branch walk).aside = [] := by
  have hmirrors := visit_mirrors rule expr walk.mirrors_whole (Walk.grounded_whole hkinds) hrun
  have henclosing : walk.enclosing = [] := Walk.enclosing_of_kinds hkinds
  have hstart : walk.whole.Merges ((Step.enter .branch).apply walk.beside) := by
    refine ⟨rfl, rfl, rfl, rfl, rfl, [], walk.current, .opened .branch, ?_, rfl, ?_, ?_, ?_⟩
    · change walk.scopes = _
      rw [Walk.scopes, henclosing]
      rfl
    · change walk.current.elements = (held walk.scopes).reverse ++ []
      rw [Walk.held_of_single henclosing, List.reverse_reverse, List.append_nil]
    · have hroot : walk.current.kind = .root := (List.cons.inj hkinds).1
      rw [hroot]
      decide
    · decide
  obtain ⟨_, hshapes, _, haside, _, inner, root, own, hwhole, hbeside, hroot⟩ :=
    hstart.run expr.steps
  obtain ⟨around, hscopes, hdepth, _⟩ := hmirrors.scopes
  rw [List.length_eq_zero_iff.mp hdepth, List.append_nil, hwhole, Walk.scopes, hsingle] at hscopes
  obtain ⟨rfl, hcurrent⟩ | ⟨_, hnothing⟩ := List.append_eq_singleton_iff.mp hscopes.symm
  · obtain rfl : root = after.current := (List.cons.inj hcurrent).1
    refine ⟨own, hbeside, hroot.elements, ?_, haside.symm.trans hmirrors.aside⟩
    rw [hmirrors.shapes, hshapes]
    rfl
  · cases hnothing

end PegTemplates
