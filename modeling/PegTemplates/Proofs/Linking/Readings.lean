import PegTemplates.Proofs.Linking.Words
import PegTemplates.Registry

/-!
# Readings of a link body

A link body is read as a word of bytes and captures: a branch of every choice is taken, the
body of its rule stands in place of every reference, and tags, links, options and repetitions
are passed over. Readings can be restricted to branches that a rule allows. The full expansion
of a link body goes through all branches; if it comes to an end, there is a reading.
-/

namespace PegTemplates

/-- Whether nothing is read in an element of a link body, whatever it holds. -/
def Element.isPassedOver : Element → Bool
  | .tag _ | .linked _ _ | .optional _ | .zeroOrMore _ | .oneOrMore _ => true
  | .nonTerminal _ _ | .captured _ | .byte _ | .choice _ => false

namespace Registry

mutual

/-- The full expansion of an element of a link body, with the sites that it meets in order. -/
inductive LinkExpandsElement (registry : Registry) : Element → List Site → Prop where
  /-- A byte meets no site. -/
  | byte {value : UInt8} : LinkExpandsElement registry (.byte value) []
  /-- A capture meets no site. -/
  | captured {id : ShapeId} : LinkExpandsElement registry (.captured id) []
  /-- What is passed over is not expanded. -/
  | passedOver {element : Element} : element.isPassedOver = true →
    LinkExpandsElement registry element []
  /-- A reference meets its own site and what the body of its rule meets. -/
  | nonTerminal {name : String} {site : Site} {body : RuleBody} {sites : List Site} :
    registry.body? name = some body → LinkExpands registry body.elements sites →
    LinkExpandsElement registry (.nonTerminal name site) (site :: sites)
  /-- A choice meets what its branches meet. -/
  | choice {branches : List (List Element)} {sites : List Site} :
    LinkExpandsBranches registry branches sites →
    LinkExpandsElement registry (.choice branches) sites

/-- The full expansion of a link body, with the sites that it meets in order. It is a finite
one, and every rule that it comes to is defined. -/
inductive LinkExpands (registry : Registry) : List Element → List Site → Prop where
  /-- Where nothing stands no site is met. -/
  | nil : LinkExpands registry [] []
  /-- The elements are expanded one after the other. -/
  | cons {element : Element} {rest : List Element} {first sites : List Site} :
    LinkExpandsElement registry element first → LinkExpands registry rest sites →
    LinkExpands registry (element :: rest) (first ++ sites)

/-- The full expansion of the branches of a choice, with the sites that it meets in order. -/
inductive LinkExpandsBranches (registry : Registry) : List (List Element) → List Site → Prop where
  /-- Without branches no site is met. -/
  | nil : LinkExpandsBranches registry [] []
  /-- The branches are expanded one after the other. -/
  | cons {branch : List Element} {rest : List (List Element)} {first sites : List Site} :
    LinkExpands registry branch first → LinkExpandsBranches registry rest sites →
    LinkExpandsBranches registry (branch :: rest) (first ++ sites)

end

/-- Which branches of a choice may be taken. -/
abbrev BranchRule := List (List Element) → List Element → Prop

mutual

/-- The readings of an element of a link body. -/
inductive LinkReadsElement (registry : Registry) (allowed : BranchRule) :
    Element → List LinkAtom → Prop where
  /-- A byte stands for itself. -/
  | byte {value : UInt8} : LinkReadsElement registry allowed (.byte value) [.byte value]
  /-- A capture stands for itself. -/
  | captured {id : ShapeId} : LinkReadsElement registry allowed (.captured id) [.captured id]
  /-- Nothing is read in what is passed over. -/
  | passedOver {element : Element} : element.isPassedOver = true →
    LinkReadsElement registry allowed element []
  /-- A reference reads as the body of its rule. -/
  | nonTerminal {name : String} {site : Site} {body : RuleBody} {word : List LinkAtom} :
    registry.body? name = some body → LinkReads registry allowed body.elements word →
    LinkReadsElement registry allowed (.nonTerminal name site) word
  /-- A choice reads as one of its branches. -/
  | choice {branches : List (List Element)} {branch : List Element} {word : List LinkAtom} :
    branch ∈ branches → allowed branches branch → LinkReads registry allowed branch word →
    LinkReadsElement registry allowed (.choice branches) word
  /-- Nothing is read in a choice without branches. -/
  | noBranch : LinkReadsElement registry allowed (.choice []) []

/-- The readings of a link body. -/
inductive LinkReads (registry : Registry) (allowed : BranchRule) :
    List Element → List LinkAtom → Prop where
  /-- Where nothing stands nothing is read. -/
  | nil : LinkReads registry allowed [] []
  /-- The elements are read one after the other. -/
  | cons {element : Element} {rest : List Element} {first word : List LinkAtom} :
    LinkReadsElement registry allowed element first → LinkReads registry allowed rest word →
    LinkReads registry allowed (element :: rest) (first ++ word)

end

/-- Any branch may be taken. -/
def anyBranch : BranchRule := fun _ _ => True

/-- Whether nothing can be read in a sequence. -/
def Silent (registry : Registry) (elements : List Element) : Prop :=
  ∀ word, registry.LinkReads anyBranch elements word → word = []

/-- A branch in which nothing can be read may be taken only if all branches are such. -/
def speakingBranch (registry : Registry) : BranchRule := fun branches branch =>
  registry.Silent branch → ∀ other ∈ branches, registry.Silent other

variable {registry : Registry} {allowed : BranchRule} {first next : List Element}
  {element : Element} {word : List LinkAtom}

/-- A link body of two parts reads as the one and then the other. -/
theorem LinkReads.append_iff : registry.LinkReads allowed (first ++ next) word ↔
    ∃ before behind, registry.LinkReads allowed first before ∧
      registry.LinkReads allowed next behind ∧ word = before ++ behind := by
  induction first generalizing word with
  | nil =>
    constructor
    · exact fun hreads => ⟨[], word, .nil, hreads, rfl⟩
    · rintro ⟨before, behind, hbefore, hbehind, rfl⟩
      cases hbefore
      exact hbehind
  | cons element rest ih =>
    constructor
    · rintro (_ | ⟨helement, hrest⟩)
      obtain ⟨before, behind, hbefore, hbehind, rfl⟩ := ih.mp hrest
      exact ⟨_, behind, .cons helement hbefore, hbehind, (List.append_assoc ..).symm⟩
    · rintro ⟨before, behind, hbefore, hbehind, rfl⟩
      cases hbefore with
      | cons helement hrest =>
        rw [List.append_assoc]
        exact .cons helement (ih.mpr ⟨_, behind, hrest, hbehind, rfl⟩)

/-- A link body of one element reads as that element. -/
theorem LinkReads.singleton_iff : registry.LinkReads allowed [element] word ↔
    registry.LinkReadsElement allowed element word := by
  constructor
  · rintro (_ | ⟨helement, hrest⟩)
    cases hrest
    rwa [List.append_nil]
  · intro helement
    have hreads := LinkReads.cons helement .nil
    rwa [List.append_nil] at hreads

mutual

/-- A reading of an element under a rule is one under any other that allows as much. -/
theorem LinkReadsElement.mono {other : BranchRule} {element : Element} {word : List LinkAtom}
    (hallowed : ∀ branches branch, allowed branches branch → other branches branch) :
    registry.LinkReadsElement allowed element word →
      registry.LinkReadsElement other element word
  | .byte => .byte
  | .captured => .captured
  | .passedOver hpassed => .passedOver hpassed
  | .nonTerminal hbody hreads => .nonTerminal hbody (hreads.mono hallowed)
  | .choice hbranch hmay hreads => .choice hbranch (hallowed _ _ hmay) (hreads.mono hallowed)
  | .noBranch => .noBranch

/-- A reading under a rule is one under any other that allows as much. -/
theorem LinkReads.mono {other : BranchRule} {elements : List Element} {word : List LinkAtom}
    (hallowed : ∀ branches branch, allowed branches branch → other branches branch) :
    registry.LinkReads allowed elements word → registry.LinkReads other elements word
  | .nil => .nil
  | .cons helement hrest => .cons (helement.mono hallowed) (hrest.mono hallowed)

end

/-- Every reading is one where any branch may be taken. -/
theorem LinkReads.any {elements : List Element}
    (hreads : registry.LinkReads allowed elements word) :
    registry.LinkReads anyBranch elements word :=
  hreads.mono fun _ _ _ => trivial

/-- Nothing can be read in two parts exactly if nothing can be read in either, if both have
readings. -/
theorem silent_append_iff (hfirst : ∃ word, registry.LinkReads anyBranch first word)
    (hnext : ∃ word, registry.LinkReads anyBranch next word) :
    registry.Silent (first ++ next) ↔ registry.Silent first ∧ registry.Silent next := by
  constructor
  · intro hsilent
    obtain ⟨before, hbefore⟩ := hfirst
    obtain ⟨behind, hbehind⟩ := hnext
    constructor
    · intro word hreads
      have hboth := hsilent _ (LinkReads.append_iff.mpr ⟨word, behind, hreads, hbehind, rfl⟩)
      exact (List.append_eq_nil_iff.mp hboth).1
    · intro word hreads
      have hboth := hsilent _ (LinkReads.append_iff.mpr ⟨before, word, hbefore, hreads, rfl⟩)
      exact (List.append_eq_nil_iff.mp hboth).2
  · rintro ⟨hfirstSilent, hnextSilent⟩ word hreads
    obtain ⟨before, behind, hbefore, hbehind, rfl⟩ := LinkReads.append_iff.mp hreads
    rw [hfirstSilent before hbefore, hnextSilent behind hbehind, List.append_nil]

/-- Nothing can be read in a choice exactly if nothing can be read in any branch. -/
theorem silent_choice_iff {branches : List (List Element)} :
    registry.Silent [.choice branches] ↔ ∀ branch ∈ branches, registry.Silent branch := by
  constructor
  · exact fun hsilent branch hbranch word hreads =>
      hsilent word (LinkReads.singleton_iff.mpr (.choice hbranch trivial hreads))
  · intro hsilent word hreads
    cases LinkReads.singleton_iff.mp hreads with
    | choice hbranch _ hword => exact hsilent _ hbranch word hword
    | noBranch => rfl
    | passedOver hpassed => cases hpassed

/-- Nothing can be read at a reference exactly if nothing can be read in the body of its rule. -/
theorem silent_nonTerminal_iff {name : String} {site : Site} {body : RuleBody}
    (hbody : registry.body? name = some body) :
    registry.Silent [.nonTerminal name site] ↔ registry.Silent body.elements := by
  constructor
  · exact fun hsilent word hreads =>
      hsilent word (LinkReads.singleton_iff.mpr (.nonTerminal hbody hreads))
  · intro hsilent word hreads
    cases LinkReads.singleton_iff.mp hreads with
    | nonTerminal hother hword =>
      obtain rfl := Option.some.inj (hbody.symm.trans hother)
      exact hsilent word hword
    | passedOver hpassed => cases hpassed

end Registry

end PegTemplates
