import PegTemplates.Proofs.Building.Assembly
import Mathlib.Logic.Function.Basic

/-!
# Renumbering of captures and reference sites

Shapes and sites are numbered in the order in which a walk meets them, so the same
part of a rule gets other numbers behind another part. A run of steps does the
same under any numbers: started from renumbered contents, it comes to the
renumbered contents.
-/

namespace PegTemplates

/-- New numbers for shapes and for reference sites. -/
structure Renumbering where
  /-- New number of a shape. -/
  capture : ShapeId → ShapeId
  /-- New index of a site. -/
  site : Nat → Nat

namespace Renumbering

/-- Every number stays. -/
def id : Renumbering := ⟨fun capture => capture, fun site => site⟩

/-- All numbers become the same. -/
def erase : Renumbering := ⟨fun _ => 0, fun _ => 0⟩

/-- One renumbering after the other. -/
def andThen (first next : Renumbering) : Renumbering :=
  ⟨fun capture => next.capture (first.capture capture), fun site => next.site (first.site site)⟩

/-- No two numbers become the same, and none is left over. -/
def Bijective (numbers : Renumbering) : Prop :=
  Function.Bijective numbers.capture ∧ Function.Bijective numbers.site

end Renumbering

mutual

/-- An element under new numbers. -/
def Element.renumber (numbers : Renumbering) : Element → Element
  | .nonTerminal name site => .nonTerminal name ⟨numbers.site site.index⟩
  | .captured id => .captured (numbers.capture id)
  | .byte value => .byte value
  | .tag name => .tag name
  | .linked label inner => .linked label (Element.renumberEach numbers inner)
  | .choice branches => .choice (Element.renumberBranches numbers branches)
  | .zeroOrMore body => .zeroOrMore (Element.renumberEach numbers body)
  | .oneOrMore body => .oneOrMore (Element.renumberEach numbers body)
  | .optional body => .optional (Element.renumberEach numbers body)

/-- The elements of a sequence under new numbers. -/
def Element.renumberEach (numbers : Renumbering) : List Element → List Element
  | [] => []
  | element :: rest => element.renumber numbers :: Element.renumberEach numbers rest

/-- The branches of a choice under new numbers. -/
def Element.renumberBranches (numbers : Renumbering) : List (List Element) → List (List Element)
  | [] => []
  | branch :: rest =>
    Element.renumberEach numbers branch :: Element.renumberBranches numbers rest

end

/-- An element sequence under new numbers. -/
def renumberSequence (numbers : Renumbering) (elements : List Element) : List Element :=
  elements.map (·.renumber numbers)

@[simp] theorem Element.renumberEach_eq (numbers : Renumbering) (elements : List Element) :
    Element.renumberEach numbers elements = renumberSequence numbers elements := by
  induction elements with
  | nil => rfl
  | cons element rest ih => rw [Element.renumberEach, ih]; rfl

@[simp] theorem Element.renumberBranches_eq (numbers : Renumbering)
    (branches : List (List Element)) :
    Element.renumberBranches numbers branches = branches.map (renumberSequence numbers) := by
  induction branches with
  | nil => rfl
  | cons branch rest ih => rw [Element.renumberBranches, ih, Element.renumberEach_eq]; rfl

@[simp] theorem length_renumberSequence (numbers : Renumbering) (elements : List Element) :
    (renumberSequence numbers elements).length = elements.length :=
  List.length_map _

@[simp] theorem renumberSequence_append (numbers : Renumbering) (first next : List Element) :
    renumberSequence numbers (first ++ next) =
      renumberSequence numbers first ++ renumberSequence numbers next :=
  List.map_append

mutual

/-- Keeping every number keeps the element. -/
theorem Element.renumber_id : ∀ element : Element, element.renumber .id = element
  | .nonTerminal _ _ | .captured _ | .byte _ | .tag _ => rfl
  | .linked label inner => congrArg (Element.linked label) (Element.renumberEach_id inner)
  | .choice branches => congrArg Element.choice (Element.renumberBranches_id branches)
  | .zeroOrMore body => congrArg Element.zeroOrMore (Element.renumberEach_id body)
  | .oneOrMore body => congrArg Element.oneOrMore (Element.renumberEach_id body)
  | .optional body => congrArg Element.optional (Element.renumberEach_id body)

/-- Keeping every number keeps the sequence. -/
theorem Element.renumberEach_id : ∀ elements : List Element,
    Element.renumberEach .id elements = elements
  | [] => rfl
  | element :: rest =>
    congrArg₂ List.cons (Element.renumber_id element) (Element.renumberEach_id rest)

/-- Keeping every number keeps the branches. -/
theorem Element.renumberBranches_id : ∀ branches : List (List Element),
    Element.renumberBranches .id branches = branches
  | [] => rfl
  | branch :: rest =>
    congrArg₂ List.cons (Element.renumberEach_id branch) (Element.renumberBranches_id rest)

end

section AndThen

variable (first next : Renumbering)

mutual

/-- Two renumberings of an element are one. -/
theorem Element.renumber_andThen : ∀ element : Element,
    (element.renumber first).renumber next = element.renumber (first.andThen next)
  | .nonTerminal _ _ | .captured _ | .byte _ | .tag _ => rfl
  | .linked label inner => congrArg (Element.linked label) (Element.renumberEach_andThen inner)
  | .choice branches => congrArg Element.choice (Element.renumberBranches_andThen branches)
  | .zeroOrMore body => congrArg Element.zeroOrMore (Element.renumberEach_andThen body)
  | .oneOrMore body => congrArg Element.oneOrMore (Element.renumberEach_andThen body)
  | .optional body => congrArg Element.optional (Element.renumberEach_andThen body)

/-- Two renumberings of a sequence are one. -/
theorem Element.renumberEach_andThen : ∀ elements : List Element,
    Element.renumberEach next (Element.renumberEach first elements) =
      Element.renumberEach (first.andThen next) elements
  | [] => rfl
  | element :: rest =>
    congrArg₂ List.cons (Element.renumber_andThen element) (Element.renumberEach_andThen rest)

/-- Two renumberings of branches are one. -/
theorem Element.renumberBranches_andThen : ∀ branches : List (List Element),
    Element.renumberBranches next (Element.renumberBranches first branches) =
      Element.renumberBranches (first.andThen next) branches
  | [] => rfl
  | branch :: rest =>
    congrArg₂ List.cons (Element.renumberEach_andThen branch)
      (Element.renumberBranches_andThen rest)

end

/-- Two renumberings of a sequence are one. -/
theorem renumberSequence_andThen (elements : List Element) :
    renumberSequence next (renumberSequence first elements) =
      renumberSequence (first.andThen next) elements := by
  simp only [← Element.renumberEach_eq, Element.renumberEach_andThen]

end AndThen

/-- Keeping every number keeps the sequence. -/
@[simp] theorem renumberSequence_id (elements : List Element) :
    renumberSequence .id elements = elements := by
  rw [← Element.renumberEach_eq, Element.renumberEach_id]

/-- Behind a renumbering all numbers can still be erased. -/
theorem renumberSequence_erase (numbers : Renumbering) (elements : List Element) :
    renumberSequence .erase (renumberSequence numbers elements) =
      renumberSequence .erase elements := by
  simp only [← Element.renumberEach_eq, Element.renumberEach_andThen]
  rfl

/-- A shape under new numbers. -/
def Shape.renumber (numbers : Renumbering) (shape : Shape) : Shape :=
  { shape with
    id := numbers.capture shape.id, elements := renumberSequence numbers shape.elements }

/-- Two renumberings of a shape are one. -/
theorem Shape.renumber_andThen (first next : Renumbering) (shape : Shape) :
    (shape.renumber first).renumber next = shape.renumber (first.andThen next) := by
  simp only [Shape.renumber, renumberSequence_andThen]
  rfl

/-- Whether a sequence becomes the other one under other numbers. -/
def Alike (first next : List Element) : Prop :=
  ∃ numbers : Renumbering, numbers.Bijective ∧ renumberSequence numbers first = next

/-- A sequence is like itself. -/
theorem Alike.refl (elements : List Element) : Alike elements elements :=
  ⟨.id, ⟨Function.bijective_id, Function.bijective_id⟩, renumberSequence_id elements⟩

/-- Sequences that are alike have as many elements. -/
theorem Alike.length_eq {first next : List Element} (halike : Alike first next) :
    first.length = next.length := by
  obtain ⟨numbers, _, rfl⟩ := halike
  exact (length_renumberSequence numbers first).symm

/-- What building a rule yields. -/
structure Yield where
  /-- The body of the rule. -/
  elements : List Element
  /-- The shapes registered on the way. -/
  shapes : List Shape

/-- A yield under new numbers. -/
def Yield.renumber (numbers : Renumbering) (yield : Yield) : Yield :=
  ⟨renumberSequence numbers yield.elements, yield.shapes.map (·.renumber numbers)⟩

/-- Whether a yield becomes the other one under other numbers. -/
def Yield.Alike (first next : Yield) : Prop :=
  ∃ numbers : Renumbering, numbers.Bijective ∧ first.renumber numbers = next

/-- The mark of a fold under new numbers. -/
def FoldMark.renumber (numbers : Renumbering) (mark : FoldMark) : FoldMark :=
  ⟨mark.head.map (·.renumber numbers)⟩

/-- A scope under new numbers. -/
def Scope.renumber (numbers : Renumbering) (scope : Scope) : Scope :=
  { scope with
    elements := renumberSequence numbers scope.elements
    fold := scope.fold.map (·.renumber numbers) }

/-- The head of a fold is the same element under new numbers. -/
theorem takeNearest_renumber (numbers : Renumbering) (scopes : List Scope) :
    takeNearest (scopes.map (·.renumber numbers)) =
      ((takeNearest scopes).1.map (·.renumber numbers),
        (takeNearest scopes).2.map (·.renumber numbers)) := by
  induction scopes with
  | nil => rfl
  | cons scope rest ih =>
    obtain ⟨kind, elements, fold⟩ := scope
    rw [List.map_cons, takeNearest, takeNearest, ih]
    rcases List.eq_nil_or_concat elements with rfl | ⟨front, last, rfl⟩
    · rfl
    · simp [Scope.renumber, Scope.takeLast?, renumberSequence]

/-- A wrapper stands for the same elements under new numbers. -/
theorem Wrapper.around_renumber (numbers : Renumbering) (scope : Scope) (wrapper : Wrapper) :
    wrapper.around (scope.renumber numbers) =
      renumberSequence numbers (wrapper.around scope) := by
  obtain ⟨kind, elements, fold⟩ := scope
  cases wrapper with
  | link label => simp [Wrapper.around, Scope.renumber, renumberSequence, Element.renumber]
  | _ =>
    cases fold with
    | none => simp [Wrapper.around, Scope.renumber, renumberSequence, Element.renumber]
    | some mark =>
      obtain ⟨head⟩ := mark
      cases head <;>
        simp [Wrapper.around, Scope.renumber, renumberSequence, Element.renumber,
          FoldMark.renumber, Builder.foldedOrHead]

/-- A folded node is tied to the same number under new numbers. -/
theorem tieFold_renumber (numbers : Renumbering) (id : ShapeId) (elements : List Element) :
    Walk.tieFold (numbers.capture id) (renumberSequence numbers elements) =
      renumberSequence numbers (Walk.tieFold id elements) := by
  rcases elements with _ | ⟨_ | _, _⟩ <;>
    simp [Walk.tieFold, renumberSequence, Element.renumber]

/-- A shape holds the same elements under new numbers. -/
theorem closedElements_renumber (numbers : Renumbering) (closing outer : Scope) (id : ShapeId) :
    Walk.closedElements (closing.renumber numbers) (outer.renumber numbers) (numbers.capture id) =
      renumberSequence numbers (Walk.closedElements closing outer id) := by
  unfold Walk.closedElements
  simp only [Scope.renumber, Option.isSome_map]
  split
  · exact tieFold_renumber numbers id closing.elements
  · rfl

namespace Assembly

/-- Every shape is counted. -/
theorem nextShape_register (closing : Scope) (assembly : Assembly) :
    (assembly.register closing).nextShape = assembly.nextShape + 1 := by
  change assembly.known + (assembly.shapes ++ [_]).length = _
  rw [List.length_append, nextShape, Nat.add_assoc]
  rfl

/-- No step takes back a shape or a site. -/
theorem numbers_le_apply (step : Step) (assembly : Assembly) :
    assembly.nextShape ≤ (step.apply assembly).nextShape ∧
      assembly.nextSite ≤ (step.apply assembly).nextSite := by
  have hpop : ∀ further : Scope → Assembly → Assembly,
      (∀ scope outer, outer.nextShape ≤ (further scope outer).nextShape ∧
        outer.nextSite ≤ (further scope outer).nextSite) →
      assembly.nextShape ≤ (assembly.pop further).nextShape ∧
        assembly.nextSite ≤ (assembly.pop further).nextSite := by
    intro further hfurther
    unfold pop
    split
    · rename_i inner outer rest _
      exact hfurther inner { assembly with scopes := outer :: rest }
    · exact ⟨Nat.le_refl _, Nat.le_refl _⟩
  cases step with
  | close =>
    apply hpop
    intro scope outer
    refine ⟨?_, Nat.le_refl _⟩
    rw [nextShape_register]
    exact Nat.le_succ _
  | wrap wrapper => exact hpop _ fun _ _ => ⟨Nat.le_refl _, Nat.le_refl _⟩
  | setAside =>
    rw [Step.apply]
    exact hpop _ fun _ _ => ⟨Nat.le_refl _, Nat.le_refl _⟩
  | reference name => exact ⟨Nat.le_refl _, Nat.le_succ _⟩
  | fold label =>
    have htake : assembly.takeHead.2.nextShape = assembly.nextShape ∧
        assembly.takeHead.2.nextSite = assembly.nextSite := by
      unfold takeHead
      split <;> exact ⟨rfl, rfl⟩
    exact ⟨Nat.le_of_eq htake.1.symm, Nat.le_of_eq htake.2.symm⟩
  | _ => exact ⟨Nat.le_refl _, Nat.le_refl _⟩

/-- No run takes back a shape or a site. -/
theorem numbers_le_run (steps : List Step) (assembly : Assembly) :
    assembly.nextShape ≤ (run steps assembly).nextShape ∧
      assembly.nextSite ≤ (run steps assembly).nextSite := by
  induction steps generalizing assembly with
  | nil => exact ⟨Nat.le_refl _, Nat.le_refl _⟩
  | cons step rest ih =>
    have hstep := numbers_le_apply step assembly
    have hrest := ih (step.apply assembly)
    exact ⟨Nat.le_trans hstep.1 hrest.1, Nat.le_trans hstep.2 hrest.2⟩

end Assembly

/-- Whether the numbers that one run hands out on its way from `start` to `last`
become those that a run from `other` hands out, in the same order. -/
structure Renumbering.Carries (numbers : Renumbering) (start other last : Assembly) : Prop where
  /-- The shapes of the run become the next ones behind `other`. -/
  capture : ∀ id, start.nextShape ≤ id → id < last.nextShape →
    numbers.capture id + start.nextShape = id + other.nextShape
  /-- The sites of the run become the next ones behind `other`. -/
  site : ∀ site, start.nextSite ≤ site → site < last.nextSite →
    numbers.site site + start.nextSite = site + other.nextSite

/-- Whether a run that started at `other` has come to what a run that started at
`start` has come to, under new numbers. -/
structure Assembly.Renumbered (numbers : Renumbering) (start other assembly renumbered : Assembly) :
    Prop where
  /-- Both runs have registered as many shapes. -/
  nextShape : renumbered.nextShape + start.nextShape = assembly.nextShape + other.nextShape
  /-- Both runs have met as many references. -/
  nextSite : renumbered.nextSite + start.nextSite = assembly.nextSite + other.nextSite
  /-- The run has come from its start. -/
  start_le : start.nextShape ≤ assembly.nextShape ∧ start.nextSite ≤ assembly.nextSite
  /-- The open scopes are the same ones. -/
  scopes : renumbered.scopes = assembly.scopes.map (·.renumber numbers)
  /-- The shapes are the same ones. -/
  shapes : renumbered.shapes = assembly.shapes.map (·.renumber numbers)
  /-- The elements around the run are the same ones. -/
  reserve : renumbered.reserve = renumberSequence numbers assembly.reserve
  /-- The branches set aside are the same ones. -/
  aside : renumbered.aside = assembly.aside.map (renumberSequence numbers)

namespace Assembly.Renumbered

variable {numbers : Renumbering} {start other assembly renumbered : Assembly}

/-- The same elements are collected. -/
theorem append (hsame : Renumbered numbers start other assembly renumbered)
    (elements : List Element) :
    Renumbered numbers start other (assembly.append elements)
      (renumbered.append (renumberSequence numbers elements)) := by
  obtain ⟨hshape, hsite, hstart, hscopes, hshapes, hreserve, haside⟩ := hsame
  refine ⟨hshape, hsite, hstart, ?_, hshapes, hreserve, haside⟩
  unfold Assembly.append
  rw [hscopes]
  cases assembly.scopes with
  | nil => rfl
  | cons scope rest => simp [Scope.append, Scope.renumber]

/-- A left fold takes the same head. -/
theorem takeHead (hsame : Renumbered numbers start other assembly renumbered) :
    renumbered.takeHead.1 = assembly.takeHead.1.map (·.renumber numbers) ∧
      Renumbered numbers start other assembly.takeHead.2 renumbered.takeHead.2 := by
  obtain ⟨hshape, hsite, hstart, hscopes, hshapes, hreserve, haside⟩ := hsame
  have htaken := takeNearest_renumber numbers assembly.scopes
  rw [← hscopes] at htaken
  unfold Assembly.takeHead
  rw [htaken]
  cases takeNearest assembly.scopes with
  | mk head scopes =>
    cases head with
    | some head => exact ⟨rfl, hshape, hsite, hstart, rfl, hshapes, hreserve, haside⟩
    | none =>
      refine ⟨?_, hshape, hsite, hstart, hscopes, hshapes, ?_, haside⟩
      · change renumbered.reserve.head? = assembly.reserve.head?.map (·.renumber numbers)
        rw [hreserve, renumberSequence, List.head?_map]
      · change renumbered.reserve.tail = renumberSequence numbers assembly.reserve.tail
        rw [hreserve]
        exact List.map_tail.symm

/-- A left fold opens the same node. -/
theorem openFold (hsame : Renumbered numbers start other assembly renumbered)
    (label : Option String) (head : Option Element) :
    Renumbered numbers start other (assembly.openFold label head)
      (renumbered.openFold label (head.map (·.renumber numbers))) := by
  obtain ⟨hshape, hsite, hstart, hscopes, hshapes, hreserve, haside⟩ := hsame
  refine ⟨hshape, hsite, hstart, ?_, hshapes, hreserve, haside⟩
  have hnode : renumberSequence numbers [.linked label head.toList] =
      [.linked label (head.map (·.renumber numbers)).toList] := by
    cases head <;> simp [renumberSequence, Element.renumber]
  unfold Assembly.openFold
  rw [hscopes, ← hnode]
  cases assembly.scopes <;> rfl

/-- Leaving a scope comes to the same if what follows does. -/
theorem pop (hsame : Renumbered numbers start other assembly renumbered)
    {further : Scope → Assembly → Assembly}
    (hfurther : ∀ inner outer rest, assembly.scopes = inner :: outer :: rest →
      ∀ stack, Renumbered numbers start other { assembly with scopes := outer :: rest } stack →
        Renumbered numbers start other (further inner { assembly with scopes := outer :: rest })
          (further (inner.renumber numbers) stack)) :
    Renumbered numbers start other (assembly.pop further) (renumbered.pop further) := by
  have hall := hsame
  obtain ⟨hshape, hsite, hstart, hscopes, hshapes, hreserve, haside⟩ := hsame
  rcases hinner : assembly.scopes with _ | ⟨inner, _ | ⟨outer, rest⟩⟩
  · rw [hinner] at hscopes
    simp only [Assembly.pop, hinner, hscopes, List.map_nil]
    exact hall
  · rw [hinner] at hscopes
    simp only [Assembly.pop, hinner, hscopes, List.map_cons, List.map_nil]
    exact hall
  · rw [hinner, List.map_cons, List.map_cons] at hscopes
    rw [pop_of_scopes hinner, pop_of_scopes hscopes]
    exact hfurther inner outer rest hinner _
      ⟨hshape, hsite, hstart, rfl, hshapes, hreserve, haside⟩

/-- A scope that closes becomes the same shape, if its number becomes the next one. -/
theorem register (hsame : Renumbered numbers start other assembly renumbered) (closing : Scope)
    (hnumber : numbers.capture assembly.nextShape = renumbered.nextShape) :
    Renumbered numbers start other (assembly.register closing)
      (renumbered.register (closing.renumber numbers)) := by
  have hcaptured := hsame.append [.captured assembly.nextShape]
  have helement : renumberSequence numbers [.captured assembly.nextShape] =
      [.captured renumbered.nextShape] := by
    rw [← hnumber]
    rfl
  rw [helement] at hcaptured
  obtain ⟨hshape, hsite, hstart, hscopes, hshapes, hreserve, haside⟩ := hsame
  refine ⟨?_, hsite, ?_, hcaptured.scopes, ?_, hreserve, haside⟩
  · rw [nextShape_register, nextShape_register, Nat.succ_add, Nat.succ_add, hshape]
  · rw [nextShape_register]
    exact ⟨Nat.le_succ_of_le hstart.1, hstart.2⟩
  · unfold Assembly.register
    dsimp only
    rw [hshapes, List.map_append, ← hnumber, hscopes]
    cases assembly.scopes with
    | nil => rfl
    | cons outer rest =>
      have hclosed := closedElements_renumber numbers closing outer assembly.nextShape
      exact congrArg (fun elements => assembly.shapes.map (·.renumber numbers) ++
        [(⟨numbers.capture assembly.nextShape, none, elements⟩ : Shape)]) hclosed

/-- A reference is the same, if its site becomes the next one. -/
theorem reference (hsame : Renumbered numbers start other assembly renumbered) (name : String)
    (hnumber : numbers.site assembly.nextSite = renumbered.nextSite) :
    Renumbered numbers start other ((Step.reference name).apply assembly)
      ((Step.reference name).apply renumbered) := by
  have hadvance := hsame.nextSite
  have hreference := hsame.append [.nonTerminal name ⟨assembly.nextSite⟩]
  have helement : renumberSequence numbers [.nonTerminal name ⟨assembly.nextSite⟩] =
      [.nonTerminal name ⟨renumbered.nextSite⟩] := by
    rw [← hnumber]
    rfl
  rw [helement] at hreference
  obtain ⟨hshape, hsite, hstart, hscopes, hshapes, hreserve, haside⟩ := hreference
  refine ⟨hshape, ?_, ⟨hstart.1, Nat.le_succ_of_le hstart.2⟩, hscopes, hshapes, hreserve, haside⟩
  change renumbered.nextSite + 1 + _ = assembly.nextSite + 1 + _
  omega

/-- A choice is made of the same branches. -/
theorem choose (hsame : Renumbered numbers start other assembly renumbered) (count : Nat) :
    Renumbered numbers start other ((Step.choose count).apply assembly)
      ((Step.choose count).apply renumbered) := by
  have hleft := hsame.aside
  have hbranches : renumberSequence numbers [.choice (assembly.aside.take count).reverse] =
      [.choice (renumbered.aside.take count).reverse] := by
    rw [hleft, ← List.map_take, ← List.map_reverse, ← Element.renumberBranches_eq]
    rfl
  have hchoice := hsame.append [.choice (assembly.aside.take count).reverse]
  rw [hbranches] at hchoice
  obtain ⟨hshape, hsite, hstart, hscopes, hshapes, hreserve, haside⟩ := hchoice
  refine ⟨hshape, hsite, hstart, hscopes, hshapes, hreserve, ?_⟩
  change renumbered.aside.drop count = (assembly.aside.drop count).map _
  rw [hleft, List.map_drop]

/-- One step comes to the same if the numbers that it hands out are carried over. -/
theorem apply (hsame : Renumbered numbers start other assembly renumbered) (step : Step)
    (hcarries : numbers.Carries start other (step.apply assembly)) :
    Renumbered numbers start other (step.apply assembly) (step.apply renumbered) := by
  cases step with
  | byte value => exact hsame.append [.byte value]
  | tag name => exact hsame.append [.tag name]
  | reference name =>
    have hcarried := hcarries.site assembly.nextSite hsame.start_le.2 (Nat.lt_succ_self _)
    have hsite := hsame.nextSite
    exact hsame.reference name (by omega)
  | enter kind =>
    obtain ⟨hshape, hsite, hstart, hscopes, hshapes, hreserve, haside⟩ := hsame
    exact ⟨hshape, hsite, hstart, congrArg (Scope.opened kind :: ·) hscopes, hshapes, hreserve,
      haside⟩
  | fold label =>
    obtain ⟨hhead, htaken⟩ := hsame.takeHead
    have hfold := htaken.openFold label assembly.takeHead.1
    rw [← hhead] at hfold
    exact hfold
  | close =>
    refine hsame.pop fun inner outer rest hscopes stack hstack => hstack.register inner ?_
    have hlast : assembly.nextShape < (Step.close.apply assembly).nextShape := by
      rw [Step.apply, pop_of_scopes hscopes, nextShape_register]
      exact Nat.lt_succ_self _
    have hcarried := hcarries.capture assembly.nextShape hsame.start_le.1 hlast
    exact Nat.add_right_cancel (hcarried.trans hstack.nextShape.symm)
  | wrap wrapper =>
    apply hsame.pop
    intro inner outer rest _ stack hstack
    rw [wrapper.around_renumber]
    exact hstack.append (wrapper.around inner)
  | setAside =>
    rw [Step.apply, Step.apply]
    apply hsame.pop
    intro inner outer rest _ stack hstack
    obtain ⟨hshape, hsite, hstart, hscopes, hshapes, hreserve, haside⟩ := hstack
    exact ⟨hshape, hsite, hstart, hscopes, hshapes, hreserve, congrArg (_ :: ·) haside⟩
  | choose count => exact hsame.choose count

/-- A run comes to the same if the numbers that it hands out are carried over. -/
theorem run (hsame : Renumbered numbers start other assembly renumbered) (steps : List Step)
    (hcarries : numbers.Carries start other (Assembly.run steps assembly)) :
    Renumbered numbers start other (Assembly.run steps assembly)
      (Assembly.run steps renumbered) := by
  induction steps generalizing assembly renumbered with
  | nil => exact hsame
  | cons step rest ih =>
    obtain ⟨hshape, hsite⟩ := numbers_le_run rest (step.apply assembly)
    refine ih (hsame.apply step ?_) hcarries
    exact ⟨fun id hid hlast => hcarries.capture id hid (Nat.lt_of_lt_of_le hlast hshape),
      fun site hfrom hlast => hcarries.site site hfrom (Nat.lt_of_lt_of_le hlast hsite)⟩

end Assembly.Renumbered

end PegTemplates
