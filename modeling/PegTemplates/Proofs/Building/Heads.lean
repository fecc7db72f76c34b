import PegTemplates.Proofs.Building.Renumbering
import PegTemplates.Proofs.Building.Sketch

/-!
# What a run shows of the heads it took

No step loses an element: what a left fold takes stays in the node that it opens,
and what a scope holds stays in the part that is made of it. So two runs of the
same steps that come to the same, up to the numbers, have started from the same
contents and have taken the same heads from around them.
-/

namespace PegTemplates

/-- A sequence without the numbers in it. -/
def bare (elements : List Element) : List Element := renumberSequence .erase elements

@[simp] theorem length_bare (elements : List Element) : (bare elements).length = elements.length :=
  length_renumberSequence .erase elements

/-- Sequences that end in as many elements are the same in front of them. -/
theorem bare_append_inj {first next ending other : List Element}
    (hlength : ending.length = other.length)
    (hsame : bare (first ++ ending) = bare (next ++ other)) :
    bare first = bare next ∧ bare ending = bare other := by
  unfold bare at hsame ⊢
  rw [renumberSequence_append, renumberSequence_append] at hsame
  exact List.append_inj' hsame (by simpa using hlength)

/-- What the scopes hold, without numbers. -/
def contents (scopes : List Scope) : List (List Element) := scopes.map fun scope =>
  bare scope.elements

/-- Scopes that hold the same after as many elements have been collected held the same before. -/
theorem contents_append_inj {scopes others : List Scope} (hopen : scopes ≠ [])
    {elements added : List Element} (hlength : elements.length = added.length)
    (hsame : contents (scopes.modifyHead (·.append elements)) =
      contents (others.modifyHead (·.append added))) :
    contents scopes = contents others ∧ bare elements = bare added := by
  cases scopes with
  | nil => exact absurd rfl hopen
  | cons scope rest =>
    cases others with
    | nil => cases hsame
    | cons other remaining =>
      obtain ⟨hhead, hrest⟩ := List.cons.inj hsame
      obtain ⟨hfront, hadded⟩ := bare_append_inj hlength hhead
      exact ⟨congrArg₂ List.cons hfront hrest, hadded⟩

/-- Scopes that give the same head and hold the same behind it held the same before. -/
theorem contents_takeNearest_inj {scopes others : List Scope}
    (hsizes : scopes.map (·.elements.length) = others.map (·.elements.length))
    (hhead : (takeNearest scopes).1.map (·.renumber .erase) =
      (takeNearest others).1.map (·.renumber .erase))
    (hsame : contents (takeNearest scopes).2 = contents (takeNearest others).2) :
    contents scopes = contents others := by
  induction scopes generalizing others with
  | nil =>
    cases others with
    | nil => rfl
    | cons other remaining => cases hsizes
  | cons scope rest ih =>
    cases others with
    | nil => cases hsizes
    | cons other remaining =>
      obtain ⟨kind, elements, fold⟩ := scope
      obtain ⟨kind', elements', fold'⟩ := other
      obtain ⟨hsize, hcounts⟩ := List.cons.inj hsizes
      rcases List.eq_nil_or_concat elements with rfl | ⟨front, element, rfl⟩
      · obtain rfl := List.eq_nil_of_length_eq_zero hsize.symm
        exact congrArg ([] :: ·) (ih hcounts hhead (List.cons.inj hsame).2)
      · rcases List.eq_nil_or_concat elements' with rfl | ⟨front', element', rfl⟩
        · simp at hsize
        · simp only [List.concat_eq_append, takeNearest, Scope.takeLast?,
            List.getLast?_append, List.getLast?_singleton, Option.some_or, Option.map_some,
            List.dropLast_concat, Option.some.injEq] at hhead hsame
          obtain ⟨hfront, hrest⟩ := List.cons.inj hsame
          have hwhole : bare (front ++ [element]) = bare (front' ++ [element']) := by
            unfold bare
            rw [renumberSequence_append, renumberSequence_append]
            exact congrArg₂ (fun before last => before ++ [last]) hfront hhead
          rw [List.concat_eq_append, List.concat_eq_append]
          exact congrArg₂ List.cons hwhole hrest

/-- The first child of a folded node as it was before it was tied to the node of the
round before. -/
def untieFold : List Element → List Element
  | .linked label [.choice [_, inner]] :: rest => .linked label inner :: rest
  | elements => elements

/-- Tying a folded node to the round before loses nothing. -/
theorem untieFold_tieFold (id : ShapeId) (elements : List Element) :
    untieFold (Walk.tieFold id elements) = elements := by
  rcases elements with _ | ⟨_ | _, _⟩ <;> rfl

/-- The link that a left fold opens shows its head. -/
theorem bare_head_inj {label : Option String} {head other : Option Element}
    (hsame : bare [.linked label head.toList] = bare [.linked label other.toList]) :
    head.map (·.renumber .erase) = other.map (·.renumber .erase) := by
  have hlinked : renumberSequence .erase head.toList = renumberSequence .erase other.toList := by
    simpa [bare, renumberSequence, Element.renumber] using hsame
  cases head <;> cases other
  · rfl
  · cases hlinked
  · cases hlinked
  · exact congrArg some (List.cons.inj hlinked).1

/-- The mark of a fold changes nothing about what the scopes hold. -/
theorem contents_mark (head : Option Element) (scopes : List Scope) :
    contents (scopes.modifyHead fun scope => { scope with fold := some ⟨head⟩ }) =
      contents scopes := by
  cases scopes <;> rfl

/-- The sizes of scopes are those of their sketches. -/
theorem sizes_of_describes {reserve : List Element} {sketches : List ScopeSketch}
    {scopes : List Scope}
    (hscopes : List.Forall₂ (ScopeSketch.Describes reserve) sketches scopes) :
    scopes.map (·.elements.length) = sketches.map (·.size) := by
  induction hscopes with
  | nil => rfl
  | cons hscope _ ih => exact congrArg₂ List.cons hscope.size ih

section Bodies

variable {reserve around : List Element} {body : ScopeSketch} {scope other : Scope}

/-- Scopes of one sketch are marked alike. -/
theorem ScopeSketch.Describes.fold_isSome (hscope : body.Describes reserve scope)
    (hother : body.Describes around other) : scope.fold.isSome = other.fold.isSome := by
  obtain ⟨_, _, source⟩ := body
  obtain ⟨_, _, fold⟩ := scope
  obtain ⟨_, _, fold'⟩ := other
  have hfirst := hscope.fold
  have hnext := hother.fold
  cases hfirst <;> cases hnext <;> rfl

/-- What stands for two scopes of one sketch in a wrapper shows what they held. -/
theorem Wrapper.bare_around_inj (wrapper : Wrapper) (hscope : body.Describes reserve scope)
    (hother : body.Describes around other)
    (hsame : bare (wrapper.around scope) = bare (wrapper.around other)) :
    bare scope.elements = bare other.elements := by
  have hmarks := hscope.fold_isSome hother
  obtain ⟨kind, elements, fold⟩ := scope
  obtain ⟨kind', elements', fold'⟩ := other
  cases wrapper with
  | link label =>
    simpa [bare, Wrapper.around, renumberSequence, Element.renumber] using hsame
  | _ =>
    cases fold <;> cases fold' <;> try cases hmarks
    · simpa [bare, Wrapper.around, renumberSequence, Element.renumber] using hsame
    · simp only [bare, Wrapper.around, renumberSequence, Builder.foldedOrHead, Element.renumber,
        Element.renumberBranches_eq, List.map_cons, List.cons.injEq, Element.choice.injEq] at hsame
      first | exact hsame.1.1 | exact hsame

/-- The shapes of two scopes of one sketch show what they held. -/
theorem bare_closedElements_inj {outline : ScopeSketch} {outer surrounding : Scope}
    (hscope : body.Describes reserve scope) (hother : body.Describes around other)
    (houter : outline.Describes reserve outer) (hsurrounding : outline.Describes around surrounding)
    {id number : ShapeId}
    (hsame : bare (Walk.closedElements scope outer id) =
      bare (Walk.closedElements other surrounding number)) :
    bare scope.elements = bare other.elements := by
  have hmarks := houter.fold_isSome hsurrounding
  unfold Walk.closedElements at hsame
  rw [hscope.kind, hother.kind, houter.kind, hsurrounding.kind, hmarks] at hsame
  split at hsame
  · have htied : Walk.tieFold 0 (bare scope.elements) = Walk.tieFold 0 (bare other.elements) := by
      unfold bare at hsame ⊢
      rw [← tieFold_renumber, ← tieFold_renumber] at hsame
      exact hsame
    rw [← untieFold_tieFold 0 (bare scope.elements), htied, untieFold_tieFold]
  · exact hsame

end Bodies

/-- Whether two runs have come to the same, apart from the numbers, and take the same
heads from there on: those of rank `rank` and above, up to `last`. -/
structure Assembly.Agree (reserve around : List Element) (last rank : Nat)
    (assembly other : Assembly) : Prop where
  /-- The open scopes hold the same. -/
  scopes : contents assembly.scopes = contents other.scopes
  /-- The same shapes have been registered. -/
  shapes : assembly.shapes.map (fun shape => bare shape.elements) =
    other.shapes.map fun shape => bare shape.elements
  /-- The same branches are set aside. -/
  aside : assembly.aside.map bare = other.aside.map bare
  /-- The elements around the runs that are still to be taken are the same. -/
  heads : ∀ position, rank ≤ position → position < last →
    reserve[position]?.map (·.renumber .erase) = around[position]?.map (·.renumber .erase)

namespace Assembly.Agree

variable {reserve around : List Element} {last : Nat} {sketch : Sketch}
  {assembly other : Assembly}

/-- Runs that agree after they have collected as many elements agreed before, and
these elements are the same. -/
theorem of_append (hopen : assembly.scopes ≠ []) {rank : Nat} {elements added : List Element}
    (hlength : elements.length = added.length)
    (hagree : Agree reserve around last rank (assembly.append elements) (other.append added)) :
    Agree reserve around last rank assembly other ∧ bare elements = bare added := by
  obtain ⟨hscopes, hshapes, haside, hheads⟩ := hagree
  obtain ⟨hsame, hadded⟩ := contents_append_inj hopen hlength hscopes
  exact ⟨⟨hsame, hshapes, haside, hheads⟩, hadded⟩

/-- Runs that agree after they have left scopes of one sketch agreed before. -/
theorem of_pop (hdescribes : sketch.Describes reserve assembly)
    (hother : sketch.Describes around other) {outline : ScopeSketch → Sketch → Sketch}
    {further : Scope → Assembly → Assembly}
    (hfurther : ∀ body scope scope' outer stack stack', ScopeSketch.Describes reserve body scope →
      ScopeSketch.Describes around body scope' → Sketch.Describes reserve outer stack →
      Sketch.Describes around outer stack' → stack.scopes ≠ [] →
      Agree reserve around last (outline body outer).reached (further scope stack)
        (further scope' stack') →
      Agree reserve around last outer.reached stack stack' ∧
        bare scope.elements = bare scope'.elements)
    (hagree : Agree reserve around last (sketch.pop outline).reached (assembly.pop further)
      (other.pop further)) :
    Agree reserve around last sketch.reached assembly other := by
  obtain ⟨sketches, reached⟩ := sketch
  obtain ⟨known, shapes, nextSite, scopes, left, aside⟩ := assembly
  obtain ⟨known', shapes', nextSite', scopes', left', aside'⟩ := other
  obtain ⟨hscopes, hreserve⟩ := hdescribes
  obtain ⟨hothers, haround⟩ := hother
  cases hscopes with
  | nil => cases hothers; exact hagree
  | cons hbody hrest =>
    cases hothers with
    | cons hbody' hrest' =>
      cases hrest with
      | nil => cases hrest'; exact hagree
      | cons houter hrest =>
        cases hrest' with
        | cons houter' hrest' =>
          obtain ⟨⟨hsame, hshapes, haside, hheads⟩, hinner⟩ :=
            hfurther _ _ _ ⟨_, reached⟩ ⟨known, shapes, nextSite, _, left, aside⟩
              ⟨known', shapes', nextSite', _, left', aside'⟩ hbody hbody'
              ⟨.cons houter hrest, hreserve⟩ ⟨.cons houter' hrest', haround⟩
              (List.cons_ne_nil _ _) hagree
          exact ⟨congrArg₂ List.cons hinner hsame, hshapes, haside, hheads⟩

/-- Runs that agree after they have registered scopes of one sketch agreed before. -/
theorem of_register (hdescribes : sketch.Describes reserve assembly)
    (hother : sketch.Describes around other) (hopen : assembly.scopes ≠ []) {rank : Nat}
    {body : ScopeSketch} {closing scope : Scope} (hclosing : body.Describes reserve closing)
    (hscope : body.Describes around scope)
    (hagree : Agree reserve around last rank (assembly.register closing)
      (other.register scope)) :
    Agree reserve around last rank assembly other ∧
      bare closing.elements = bare scope.elements := by
  obtain ⟨hscopes, hshapes, haside, hheads⟩ := hagree
  have hlength : [Element.captured assembly.nextShape].length =
      [Element.captured other.nextShape].length := rfl
  obtain ⟨hsame, _⟩ := contents_append_inj hopen hlength hscopes
  unfold register at hshapes
  dsimp only at hshapes
  rw [List.map_append, List.map_append] at hshapes
  obtain ⟨hbefore, hshape⟩ := List.append_inj' hshapes rfl
  refine ⟨⟨hsame, hbefore, haside, hheads⟩, ?_⟩
  have hfirst := hdescribes.scopes
  have hnext := hother.scopes
  cases hsketches : sketch.scopes with
  | nil =>
    rw [hsketches] at hfirst
    exact absurd (List.forall₂_nil_left_iff.mp hfirst) hopen
  | cons outline rest =>
    rw [hsketches] at hfirst hnext
    obtain ⟨outer, scopes, houter, _, hstack⟩ := List.forall₂_cons_left_iff.mp hfirst
    obtain ⟨outer', scopes', houter', _, hstack'⟩ := List.forall₂_cons_left_iff.mp hnext
    rw [hstack, hstack'] at hshape
    exact bare_closedElements_inj hclosing hscope houter houter' (List.cons.inj hshape).1

/-- Runs that agree after they have opened the node of a left fold agreed before, and
so did the heads. -/
theorem of_openFold {rank : Nat} {label : Option String} {head head' : Option Element}
    (hagree : Agree reserve around last rank (assembly.openFold label head)
      (other.openFold label head')) :
    Agree reserve around last rank assembly other ∧
      head.map (·.renumber .erase) = head'.map (·.renumber .erase) := by
  obtain ⟨hscopes, hshapes, haside, hheads⟩ := hagree
  obtain ⟨hnode, hrest⟩ := List.cons.inj hscopes
  refine ⟨⟨?_, hshapes, haside, hheads⟩, bare_head_inj hnode⟩
  rw [← contents_mark head assembly.scopes, ← contents_mark head' other.scopes]
  exact hrest

/-- Runs that agree after they have taken the same head agreed before. -/
theorem of_takeHead (hdescribes : sketch.Describes reserve assembly)
    (hother : sketch.Describes around other)
    (hhead : assembly.takeHead.1.map (·.renumber .erase) =
      other.takeHead.1.map (·.renumber .erase))
    (hagree : Agree reserve around last sketch.takeHead.2.reached assembly.takeHead.2
      other.takeHead.2) :
    Agree reserve around last sketch.reached assembly other := by
  have hnearest := shorten_takeNearest hdescribes.scopes
  have hnearest' := shorten_takeNearest hother.scopes
  have hsource := hdescribes.takeHead.1
  have hsource' := hother.takeHead.1
  unfold Sketch.takeHead at hagree hsource hsource'
  cases hshort : Sketch.shorten sketch.scopes with
  | some shortened =>
    rw [hshort] at hnearest hnearest' hagree
    obtain ⟨first, hfirst, _⟩ := hnearest
    obtain ⟨next, hnext, _⟩ := hnearest'
    rw [takeHead_of_some hfirst, takeHead_of_some hnext] at hagree hhead
    obtain ⟨hscopes, hshapes, haside, hheads⟩ := hagree
    have hsizes := (sizes_of_describes hdescribes.scopes).trans
      (sizes_of_describes hother.scopes).symm
    rw [← hfirst, ← hnext] at hhead
    exact ⟨contents_takeNearest_inj hsizes hhead hscopes, hshapes, haside, hheads⟩
  | none =>
    rw [hshort] at hnearest hnearest' hagree hsource hsource'
    rw [takeHead_of_none hnearest, takeHead_of_none hnearest'] at hagree
    obtain ⟨hscopes, hshapes, haside, hheads⟩ := hagree
    refine ⟨hscopes, hshapes, haside, fun position hposition hlast => ?_⟩
    rcases Nat.eq_or_lt_of_le hposition with rfl | hlater
    · rw [hsource, hsource'] at hhead
      exact hhead
    · exact hheads position hlater hlast

/-- Runs that agree after a step agreed before it. -/
theorem of_apply (hdescribes : sketch.Describes reserve assembly)
    (hother : sketch.Describes around other) (hopen : assembly.scopes ≠ []) (step : Step)
    (hagree : Agree reserve around last (step.outline sketch).reached (step.apply assembly)
      (step.apply other)) :
    Agree reserve around last sketch.reached assembly other := by
  cases step with
  | byte value => exact (of_append hopen rfl hagree).1
  | tag name => exact (of_append hopen rfl hagree).1
  | reference name =>
    have hlength : [Element.nonTerminal name ⟨assembly.nextSite⟩].length =
        [Element.nonTerminal name ⟨other.nextSite⟩].length := rfl
    obtain ⟨hscopes, hshapes, haside, hheads⟩ := hagree
    exact (of_append hopen hlength ⟨hscopes, hshapes, haside, hheads⟩).1
  | enter kind =>
    obtain ⟨hscopes, hshapes, haside, hheads⟩ := hagree
    exact ⟨(List.cons.inj hscopes).2, hshapes, haside, hheads⟩
  | fold label =>
    obtain ⟨hafter, hhead⟩ := of_openFold hagree
    exact of_takeHead hdescribes hother hhead hafter
  | close =>
    refine of_pop hdescribes hother ?_ hagree
    intro body scope scope' outer stack stack' hbody hbody' houter houter' hstack hregister
    exact of_register houter houter' hstack hbody hbody' hregister
  | wrap wrapper =>
    refine of_pop hdescribes hother ?_ hagree
    intro body scope scope' outer stack stack' hbody hbody' _ _ hstack hwrapped
    have hlength : (wrapper.around scope).length = (wrapper.around scope').length := by
      rw [wrapper.length_around hbody, wrapper.length_around hbody']
    obtain ⟨hsame, haround⟩ := of_append hstack hlength hwrapped
    exact ⟨hsame, wrapper.bare_around_inj hbody hbody' haround⟩
  | setAside =>
    rw [Step.outline, Step.apply] at hagree
    refine of_pop hdescribes hother ?_ hagree
    intro body scope scope' outer stack stack' _ _ _ _ _ hset
    obtain ⟨hscopes, hshapes, haside, hheads⟩ := hset
    obtain ⟨hbranch, hrest⟩ := List.cons.inj haside
    exact ⟨⟨hscopes, hshapes, hrest, hheads⟩, hbranch⟩
  | choose count =>
    have hlength : [Element.choice (assembly.aside.take count).reverse].length =
        [Element.choice (other.aside.take count).reverse].length := rfl
    obtain ⟨hscopes, hshapes, haside, hheads⟩ := hagree
    obtain ⟨hsame, hchoice⟩ := contents_append_inj hopen hlength hscopes
    refine ⟨hsame, hshapes, ?_, hheads⟩
    have htaken : (assembly.aside.take count).map bare = (other.aside.take count).map bare := by
      have hbare : bare = renumberSequence .erase := rfl
      simpa [hbare, renumberSequence, Element.renumber] using hchoice
    have hdropped : (assembly.aside.drop count).map bare = (other.aside.drop count).map bare :=
      haside
    rw [← List.take_append_drop count assembly.aside, ← List.take_append_drop count other.aside,
      List.map_append, List.map_append, htaken, hdropped]

/-- Runs that agree after any steps agreed before them. -/
theorem of_run (hdescribes : sketch.Describes reserve assembly)
    (hother : sketch.Describes around other) (hgrounded : assembly.Grounded) (steps : List Step)
    (hagree : Agree reserve around last (Sketch.run steps sketch).reached
      (run steps assembly) (run steps other)) :
    Agree reserve around last sketch.reached assembly other := by
  induction steps generalizing sketch assembly other with
  | nil => exact hagree
  | cons step rest ih =>
    have hafter := ih (hdescribes.apply step) (hother.apply step) (hgrounded.apply step) hagree
    exact of_apply hdescribes hother hgrounded.ne_nil step hafter

end Assembly.Agree

/-- If an expression comes to the same beside two walks, apart from the numbers, it has
taken the same heads from them. -/
theorem Expr.heads_of_runBeside {kind : ScopeKind} (hkind : kind.isCapture = false) (expr : Expr)
    {walk other : Walk}
    (hscopes : contents (expr.runBeside kind walk).scopes =
      contents (expr.runBeside kind other).scopes)
    (hshapes : (expr.runBeside kind walk).shapes.map (fun shape => bare shape.elements) =
      (expr.runBeside kind other).shapes.map fun shape => bare shape.elements)
    (haside : (expr.runBeside kind walk).aside = (expr.runBeside kind other).aside)
    {position : Nat} (hposition : position < (expr.sketch kind).reached) :
    (held walk.scopes)[position]?.map (·.renumber .erase) =
      (held other.scopes)[position]?.map (·.renumber .erase) := by
  have hend : Assembly.Agree (held walk.scopes) (held other.scopes) (expr.sketch kind).reached
      (expr.sketch kind).reached (expr.runBeside kind walk) (expr.runBeside kind other) :=
    ⟨hscopes, hshapes, congrArg _ haside, fun _ hfrom hlast => absurd hlast (Nat.not_lt.mpr hfrom)⟩
  have hstart := Assembly.Agree.of_run (Sketch.describes_beside kind walk)
    (Sketch.describes_beside kind other) (walk.grounded_beside hkind) expr.steps hend
  exact hstart.heads position (Nat.zero_le _) hposition

end PegTemplates
