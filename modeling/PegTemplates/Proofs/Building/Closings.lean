import PegTemplates.Proofs.Building.Conserving

/-!
# Nodes that close

Every shape of a run is a node that closes in it. Along a run it is noted for each open
scope whether the link that a fold has put first still stands there, for a later fold may
take it. So each node is known by its scope, the scope around it and that link, and its
shape is a matter of these and of its number alone.
-/

namespace PegTemplates

/-- A node at the moment it closes. -/
structure Closing where
  /-- The scope of the node. -/
  scope : Scope
  /-- The scope around it. -/
  outer : Scope
  /-- The link that its own fold has put first, unless a later fold has taken it. -/
  lead : Option Element

namespace Closing

/-- The shape that a node becomes under its number. -/
def shape (closing : Closing) (id : ShapeId) : Shape :=
  ⟨id, none, Walk.closedElements closing.scope closing.outer id⟩

/-- The shapes of nodes that close one after the other, numbered from `first` on. -/
def shapes (first : ShapeId) (closings : List Closing) : List Shape :=
  (closings.zipIdx first).map fun numbered => numbered.1.shape numbered.2

@[simp] theorem length_shapes (first : ShapeId) (closings : List Closing) :
    (shapes first closings).length = closings.length := by
  rw [shapes, List.length_map, List.length_zipIdx]

theorem shapes_append (first : ShapeId) (closings later : List Closing) :
    shapes first (closings ++ later) =
      shapes first closings ++ shapes (first + closings.length) later := by
  rw [shapes, List.zipIdx_append, List.map_append, shapes, shapes]

/-- The shape at a position is the one of the node at that position. -/
theorem getElem?_shapes (first : ShapeId) (closings : List Closing) (position : Nat) :
    (shapes first closings)[position]? =
      closings[position]?.map fun closing => closing.shape (first + position) := by
  rw [shapes, List.getElem?_map, List.getElem?_zipIdx, Option.map_map]
  rfl

end Closing

/-- The link at the start of a scope is gone once the scope is emptied. -/
def Scope.keepLead (scope : Scope) (lead : Option Element) : Option Element :=
  if scope.elements.isEmpty then none else lead

/-- The links that folds have put first in the open scopes, innermost first. -/
abbrev Leads := List (Option Element)

namespace Step

/-- What a step does to the links that stand first. -/
def leads (assembly : Assembly) (leads : Leads) : Step → Leads
  | .enter _ => none :: leads
  | .fold label => some (.linked label assembly.takeHead.1.toList) ::
      List.zipWith Scope.keepLead assembly.takeHead.2.scopes leads
  | .close | .wrap _ | .setAside =>
    match assembly.scopes with
    | _ :: _ :: _ => leads.tail
    | _ => leads
  | .byte _ | .tag _ | .reference _ | .choose _ => leads

/-- The node that closes in a step. -/
def closing? (assembly : Assembly) (leads : Leads) : Step → Option Closing
  | .close =>
    match assembly.scopes with
    | inner :: outer :: _ => some ⟨inner, outer, leads.head?.join⟩
    | _ => none
  | _ => none

end Step

namespace Assembly

/-- The nodes that close in a run, in that order. -/
def closings (assembly : Assembly) (leads : Leads) : List Step → List Closing
  | [] => []
  | step :: rest => (step.closing? assembly leads).toList ++
      closings (step.apply assembly) (step.leads assembly leads) rest

/-- Leaving a scope keeps the shapes if what is done with the scope keeps them. -/
theorem shapes_pop {assembly : Assembly} {further : Scope → Assembly → Assembly}
    (hfurther : ∀ inner outer rest,
      (further inner { assembly with scopes := outer :: rest }).known = assembly.known ∧
        (further inner { assembly with scopes := outer :: rest }).shapes = assembly.shapes) :
    (assembly.pop further).known = assembly.known ∧
      (assembly.pop further).shapes = assembly.shapes := by
  rcases assembly.pop_eq further with hnone | ⟨inner, outer, rest, _, hpop⟩
  · rw [hnone]
    exact ⟨rfl, rfl⟩
  · rw [hpop]
    exact hfurther inner outer rest

/-- The only shape that a step registers is the node that closes in it. -/
theorem shapes_apply (assembly : Assembly) (leads : Leads) (step : Step) :
    (step.apply assembly).known = assembly.known ∧
      (step.apply assembly).shapes = assembly.shapes ++
        Closing.shapes assembly.nextShape (step.closing? assembly leads).toList := by
  have hkept : ∀ after : Assembly, after.known = assembly.known ∧ after.shapes = assembly.shapes →
      after.known = assembly.known ∧ after.shapes = assembly.shapes ++
        Closing.shapes assembly.nextShape (none : Option Closing).toList := by
    rintro after ⟨hknown, hshapes⟩
    refine ⟨hknown, ?_⟩
    rw [hshapes]
    exact (List.append_nil _).symm
  cases step with
  | fold label =>
    apply hkept
    change assembly.takeHead.2.known = _ ∧ assembly.takeHead.2.shapes = _
    unfold takeHead
    split <;> exact ⟨rfl, rfl⟩
  | close =>
    rcases hscopes : assembly.scopes with _ | ⟨inner, _ | ⟨outer, rest⟩⟩
    · rw [Step.apply, Step.closing?, pop, hscopes]
      exact hkept assembly ⟨rfl, rfl⟩
    · rw [Step.apply, Step.closing?, pop, hscopes]
      exact hkept assembly ⟨rfl, rfl⟩
    · rw [Step.apply, Step.closing?, pop_of_scopes hscopes, hscopes]
      exact ⟨rfl, rfl⟩
  | wrap _ | setAside => exact hkept _ (shapes_pop fun _ _ _ => ⟨rfl, rfl⟩)
  | _ => exact hkept _ ⟨rfl, rfl⟩

/-- A step counts the node that closes in it. -/
theorem nextShape_apply (assembly : Assembly) (leads : Leads) (step : Step) :
    (step.apply assembly).nextShape =
      assembly.nextShape + (step.closing? assembly leads).toList.length := by
  obtain ⟨hknown, hshapes⟩ := shapes_apply assembly leads step
  rw [nextShape, hknown, hshapes, List.length_append, Closing.length_shapes, nextShape,
    Nat.add_assoc]

/-- The shapes of a run are the nodes that close in it. -/
theorem shapes_run (assembly : Assembly) (leads : Leads) (steps : List Step) :
    (run steps assembly).shapes = assembly.shapes ++
      Closing.shapes assembly.nextShape (assembly.closings leads steps) := by
  induction steps generalizing assembly leads with
  | nil => exact (List.append_nil _).symm
  | cons step rest ih =>
    change (run rest (step.apply assembly)).shapes = _
    rw [ih (step.apply assembly) (step.leads assembly leads), (shapes_apply assembly leads step).2,
      nextShape_apply assembly leads step, closings, Closing.shapes_append, List.append_assoc]

end Assembly

/-- Whether the link that is noted for a scope is the one that a fold has put first in it. -/
def Scope.LedBy (scope : Scope) (lead : Option Element) : Prop :=
  ∀ link, lead = some link → scope.kind = .foldCapture ∧
    (∃ label inner, link = .linked label inner) ∧ scope.elements.head? = some link

/-- Whether a scope has become the other one by losing elements from its end. -/
def Scope.Shortens (before after : Scope) : Prop :=
  after.kind = before.kind ∧ after.elements <+: before.elements

/-- No link is noted for a scope that has just been opened. -/
theorem Scope.ledBy_none (scope : Scope) : scope.LedBy none := fun _ hlink => nomatch hlink

/-- A link at the start of a scope stays there when more is collected. -/
theorem Scope.LedBy.append {scope : Scope} {lead : Option Element} (hled : scope.LedBy lead)
    (elements : List Element) : (scope.append elements).LedBy lead := by
  intro link hlink
  obtain ⟨hkind, hlinked, hfirst⟩ := hled link hlink
  refine ⟨hkind, hlinked, ?_⟩
  change (scope.elements ++ elements).head? = some link
  rw [List.head?_append, hfirst]
  rfl

/-- A link at the start of a scope stays there until the scope is emptied. -/
theorem Scope.LedBy.keep {before after : Scope} {lead : Option Element} (hled : before.LedBy lead)
    (hshort : before.Shortens after) : after.LedBy (after.keepLead lead) := by
  intro link hlink
  unfold keepLead at hlink
  split at hlink
  · cases hlink
  · rename_i hsome
    obtain ⟨hkind, hlinked, hfirst⟩ := hled link hlink
    obtain ⟨hsame, more, hmore⟩ := hshort
    refine ⟨hsame.trans hkind, hlinked, ?_⟩
    cases helements : after.elements with
    | nil => exact absurd (List.isEmpty_iff.mpr helements) hsome
    | cons element rest =>
      rw [helements] at hmore
      rw [← hmore] at hfirst
      exact hfirst

/-- A fold shortens at most one scope. -/
theorem shortens_takeNearest (scopes : List Scope) :
    List.Forall₂ Scope.Shortens scopes (takeNearest scopes).2 := by
  have hsame : ∀ scopes : List Scope, List.Forall₂ Scope.Shortens scopes scopes := fun scopes =>
    List.forall₂_same.mpr fun _ _ => ⟨rfl, List.prefix_rfl⟩
  induction scopes with
  | nil => exact .nil
  | cons scope rest ih =>
    rw [takeNearest]
    cases htake : scope.takeLast? with
    | none => exact .cons ⟨rfl, List.prefix_rfl⟩ ih
    | some taken =>
      obtain ⟨last, _, rfl⟩ := Option.map_eq_some_iff.mp htake
      exact .cons ⟨rfl, List.dropLast_prefix _⟩ (hsame rest)

/-- Whether the links noted for the open scopes are those that folds have put first. -/
def Assembly.Led (assembly : Assembly) (leads : Leads) : Prop :=
  List.Forall₂ Scope.LedBy assembly.scopes leads

namespace Assembly.Led

variable {assembly : Assembly} {leads : Leads}

/-- Collecting elements. -/
theorem append (hled : assembly.Led leads) (elements : List Element) :
    (assembly.append elements).Led leads := by
  unfold Led Assembly.append at *
  dsimp only
  generalize assembly.scopes = scopes at hled ⊢
  cases hled with
  | nil => exact .nil
  | cons hfirst hrest => exact .cons (hfirst.append elements) hrest

/-- A left fold. -/
theorem fold (hled : assembly.Led leads) (label : Option String) :
    ((Step.fold label).apply assembly).Led ((Step.fold label).leads assembly leads) := by
  have hshort : List.Forall₂ Scope.Shortens assembly.scopes assembly.takeHead.2.scopes := by
    cases hnearest : (takeNearest assembly.scopes).1 with
    | some head =>
      rw [takeHead_of_some hnearest]
      exact shortens_takeNearest assembly.scopes
    | none =>
      rw [takeHead_of_none hnearest]
      exact List.forall₂_same.mpr fun _ _ => ⟨rfl, List.prefix_rfl⟩
  have hkept : ∀ {before after : List Scope} {leads : Leads},
      List.Forall₂ Scope.LedBy before leads → List.Forall₂ Scope.Shortens before after →
        List.Forall₂ Scope.LedBy after (List.zipWith Scope.keepLead after leads) := by
    intro before after leads hbefore
    induction hbefore generalizing after with
    | nil => rintro ⟨⟩; exact .nil
    | cons hfirst _ ih =>
      rintro (_ | ⟨hshort, hrest⟩)
      exact .cons (hfirst.keep hshort) (ih hrest)
  refine .cons ?_ ?_
  · rintro link hlink
    obtain rfl := Option.some.inj hlink
    exact ⟨rfl, ⟨label, _, rfl⟩, rfl⟩
  · have htaken := hkept hled hshort
    change List.Forall₂ _ (assembly.takeHead.2.scopes.modifyHead _) _
    cases hscopes : assembly.takeHead.2.scopes with
    | nil => exact .nil
    | cons scope rest =>
      rw [hscopes] at htaken
      cases hleads : leads with
      | nil => rw [hleads] at htaken; cases htaken
      | cons lead others =>
        rw [hleads] at htaken
        cases htaken with
        | cons hfirst hrest => exact .cons hfirst hrest

/-- Leaving a scope. -/
theorem pop (hled : assembly.Led leads) {further : Scope → Assembly → Assembly}
    (hfurther : ∀ scope outer leads, Led outer leads → Led (further scope outer) leads) :
    (assembly.pop further).Led
      (match assembly.scopes with
        | _ :: _ :: _ => leads.tail
        | _ => leads) := by
  rcases hscopes : assembly.scopes with _ | ⟨inner, _ | ⟨outer, rest⟩⟩
  · rw [Assembly.pop, hscopes]
    exact hled
  · rw [Assembly.pop, hscopes]
    exact hled
  · rw [pop_of_scopes hscopes]
    apply hfurther
    unfold Led at hled
    rw [hscopes] at hled
    cases hled with
    | cons _ hrest => exact hrest

/-- Every step keeps note of the links that stand first. -/
theorem apply (hled : assembly.Led leads) (step : Step) :
    (step.apply assembly).Led (step.leads assembly leads) := by
  cases step with
  | byte value => exact hled.append _
  | tag name => exact hled.append _
  | reference name => exact hled.append _
  | choose count => exact hled.append _
  | enter kind => exact .cons (Scope.ledBy_none _) hled
  | fold label => exact hled.fold label
  | close => exact hled.pop fun _ _ _ houter => houter.append _
  | wrap wrapper => exact hled.pop fun _ _ _ houter => houter.append _
  | setAside => exact hled.pop fun _ _ _ houter => houter

end Assembly.Led

namespace Closing

/-- Whether a node is tied to the round before: it has been opened by a fold, closes directly
in a repetition in which a fold has happened, and begins with a link. -/
def Tied (closing : Closing) : Prop :=
  closing.scope.kind = .foldCapture ∧ closing.outer.kind = .repeated ∧
    closing.outer.fold.isSome ∧
    ∃ label inner rest, closing.scope.elements = .linked label inner :: rest

/-- Whether a node that closes under this number is what a run comes to: the link noted for it
stands first, and it captures only shapes with smaller numbers. -/
structure Sound (closing : Closing) (id : ShapeId) : Prop where
  /-- The link noted for the node stands first. -/
  lead : closing.scope.LedBy closing.lead
  /-- Only shapes from before are captured. -/
  captures : ∀ other ∈ capturesOf closing.scope.elements, other < id

/-- A node that is not tied is registered as it is. -/
theorem elements_of_not_tied {closing : Closing} (hloose : ¬ closing.Tied) (id : ShapeId) :
    (closing.shape id).elements = closing.scope.elements := by
  unfold shape Walk.closedElements
  dsimp only
  split
  · rename_i hfold
    unfold Walk.tieFold
    split
    · rename_i label inner rest helements
      exact absurd ⟨hfold.1, hfold.2.1, hfold.2.2, label, inner, rest, helements⟩ hloose
    · rfl
  · rfl

/-- A node that is tied begins with a link to itself or to what it began with. -/
theorem elements_of_tied {closing : Closing} (htied : closing.Tied) (id : ShapeId) :
    ∃ label inner rest, closing.scope.elements = .linked label inner :: rest ∧
      (closing.shape id).elements = .linked label [.choice [[.captured id], inner]] :: rest := by
  obtain ⟨hkind, houter, hfold, label, inner, rest, helements⟩ := htied
  refine ⟨label, inner, rest, helements, ?_⟩
  unfold shape Walk.closedElements
  dsimp only
  rw [if_pos ⟨hkind, houter, hfold⟩, helements]
  rfl

/-- A node that is tied captures itself besides what it captured when it closed. -/
theorem mem_capturesOf_shape {closing : Closing} {id other : ShapeId} :
    other ∈ capturesOf (closing.shape id).elements ↔
      other ∈ capturesOf closing.scope.elements ∨ (closing.Tied ∧ other = id) := by
  by_cases htied : closing.Tied
  · obtain ⟨label, inner, rest, hbefore, hafter⟩ := elements_of_tied htied id
    rw [hbefore, hafter, mem_capturesOf, mem_capturesOf]
    simp [handlesOf, Element.handles, handlesOfBranches, htied, or_comm]
  · rw [elements_of_not_tied htied, or_iff_left fun hself => htied hself.1]

section Sound

variable {closing : Closing} {id : ShapeId} (hsound : closing.Sound id)

include hsound

/-- No shape captures a later one. -/
theorem Sound.captures_le {other : ShapeId}
    (hother : other ∈ capturesOf (closing.shape id).elements) : other ≤ id := by
  rcases mem_capturesOf_shape.mp hother with hbefore | ⟨_, rfl⟩
  · exact Nat.le_of_lt (hsound.captures other hbefore)
  · exact Nat.le_refl _

/-- A shape captures itself if it is tied to the round before. -/
theorem Sound.self_iff : id ∈ capturesOf (closing.shape id).elements ↔ closing.Tied := by
  rw [mem_capturesOf_shape]
  constructor
  · rintro (hbefore | ⟨htied, _⟩)
    · exact absurd (hsound.captures id hbefore) (Nat.lt_irrefl id)
    · exact htied
  · exact fun htied => Or.inr ⟨htied, rfl⟩

/-- Behind its first element a shape captures only shapes from before. -/
theorem Sound.captures_tail_lt {other : ShapeId}
    (hother : other ∈ capturesOf (closing.shape id).elements.tail) : other < id := by
  have htail : (closing.shape id).elements.tail = closing.scope.elements.tail := by
    by_cases htied : closing.Tied
    · obtain ⟨label, inner, rest, hbefore, hafter⟩ := elements_of_tied htied id
      rw [hbefore, hafter]
      rfl
    · rw [elements_of_not_tied htied]
  rw [htail] at hother
  apply hsound.captures
  cases helements : closing.scope.elements with
  | nil => rw [helements] at hother; cases hother
  | cons element rest =>
    rw [helements] at hother
    have hsplit := capturesOf_append [element] rest
    rw [List.singleton_append] at hsplit
    rw [hsplit]
    exact List.mem_append_right _ hother

end Sound

end Closing

/-- Whether a run holds only captures of shapes that are registered, also in the marks of
folds. -/
structure Assembly.Registered (assembly : Assembly) : Prop where
  /-- What is marked is held as well. -/
  marks : assembly.marks ⊆ assembly.holdings
  /-- Only registered shapes are captured. -/
  captures : ∀ id, .captured id ∈ assembly.holdings → id < assembly.nextShape

namespace Assembly

variable {assembly : Assembly}

/-- A step captures the shape that it registers. -/
theorem Registered.apply (hregistered : assembly.Registered) (hgrounded : assembly.Grounded)
    (step : Step) : (step.apply assembly).Registered := by
  have hstep := conserves_apply hgrounded.ne_nil step
  refine ⟨hstep.marks_subset hregistered.marks, ?_⟩
  · intro id hid
    rcases Multiset.mem_add.mp ((hstep.mem_holdings hregistered.marks _).mp hid) with
      hheld | hhanded
    · exact Nat.lt_of_lt_of_le (hregistered.captures id hheld) hstep.nextShape_le
    · rcases Multiset.mem_add.mp hhanded with hreference | hcapture
      · exact absurd hreference (captured_not_mem_referencesFrom id _ _)
      · exact (mem_capturesBetween.mp hcapture).2

/-- A node that closes is what the run has come to. -/
theorem sound_of_closing? (hregistered : assembly.Registered) {leads : Leads}
    (hled : assembly.Led leads) {step : Step} {closing : Closing}
    (hclosing : step.closing? assembly leads = some closing) :
    closing.Sound assembly.nextShape := by
  unfold Step.closing? at hclosing
  split at hclosing
  · split at hclosing
    · rename_i inner outer rest hscopes
      obtain rfl := Option.some.inj hclosing
      constructor
      · unfold Led at hled
        rw [hscopes] at hled
        cases hled with
        | cons hfirst _ => exact hfirst
      · intro id hid
        apply hregistered.captures
        rw [holdings_leave hscopes, Multiset.mem_add]
        exact Or.inr (mem_capturesOf.mp hid)
    · cases hclosing
  · cases hclosing

/-- The nodes that close in a run are what the run comes to. -/
theorem sound_closings (hregistered : assembly.Registered) (hgrounded : assembly.Grounded)
    {leads : Leads} (hled : assembly.Led leads) (steps : List Step) {position : Nat}
    {closing : Closing} (hclosing : (assembly.closings leads steps)[position]? = some closing) :
    closing.Sound (assembly.nextShape + position) := by
  induction steps generalizing assembly leads position with
  | nil => cases hclosing
  | cons step rest ih =>
    have hrest : ∀ {position : Nat},
        ((step.apply assembly).closings (step.leads assembly leads) rest)[position]? =
          some closing → closing.Sound ((step.apply assembly).nextShape + position) :=
      fun hposition => ih (hregistered.apply hgrounded step) (hgrounded.apply step)
        (hled.apply step) hposition
    have hcount := nextShape_apply assembly leads step
    rw [closings] at hclosing
    cases hfirst : step.closing? assembly leads with
    | none =>
      rw [hfirst] at hclosing hcount
      change _ = assembly.nextShape at hcount
      rw [← hcount]
      exact hrest hclosing
    | some first =>
      rw [hfirst] at hclosing hcount
      cases position with
      | zero =>
        obtain rfl := Option.some.inj hclosing
        exact sound_of_closing? hregistered hled hfirst
      | succ position =>
        have hnext : assembly.nextShape + (position + 1) =
            (step.apply assembly).nextShape + position := by
          change _ = assembly.nextShape + 1 at hcount
          omega
        rw [hnext]
        exact hrest hclosing

end Assembly

end PegTemplates
