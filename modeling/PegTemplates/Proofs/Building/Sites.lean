import PegTemplates.Proofs.Building.Running
import PegTemplates.Proofs.Following.Tour

/-!
# Sites of a built grammar

A site is handed out for one reference, but folds move elements about, and around a
fold an element can stand twice. The names of the references are kept in a list, each
at the position of its site. Every reference that a builder holds, wherever folds have
put it, is shown to carry the name that stands at its site in that list. So in the
registry of a grammar the site of a reference determines the rule that it refers to, and
no other rules are referred to than in the grammar.
-/

namespace PegTemplates

mutual

/-- Names of the references in an expression, in the order in which they are visited. What only
steers parsing is not visited. -/
def Expr.references : Expr → List String
  | .nonTerminal name => [name]
  | .sequence items => referencesOfAll items
  | .choice branches => referencesOfAll branches
  | .optional inner | .zeroOrMore inner | .oneOrMore inner | .link _ inner => inner.references
  | .empty | .byte _ | .beginCapture | .endCapture | .tag _ | .fold _ | .any | .byteSet _
  | .followedBy _ | .notFollowedBy _ => []

/-- Names of the references in several expressions, one after the other. -/
def Expr.referencesOfAll : List Expr → List String
  | [] => []
  | expr :: rest => expr.references ++ referencesOfAll rest

end

/-- Names of the references in all rules of a grammar. -/
def Grammar.references (grammar : Grammar) : List String :=
  grammar.rules.flatMap (·.expr.references)

/-- Whether every reference in a sequence carries the name that was given at its site. -/
def NamedBy (names : List String) (elements : List Element) : Prop :=
  ∀ reference ∈ mentionsOf true elements, names[reference.site.index]? = some reference.name

namespace NamedBy

variable {names later : List String} {elements others : List Element}

/-- A sequence without references. -/
theorem of_none (hnone : mentionsOf true elements = []) : NamedBy names elements := by
  intro reference hreference
  rw [hnone] at hreference
  cases hreference

/-- Only the references count. -/
theorem congr (hsame : mentionsOf true elements = mentionsOf true others)
    (hnamed : NamedBy names elements) : NamedBy names others := by
  intro reference hreference
  rw [← hsame] at hreference
  exact hnamed reference hreference

/-- A sequence of two parts is named if both parts are. -/
theorem append_iff :
    NamedBy names (elements ++ others) ↔ NamedBy names elements ∧ NamedBy names others := by
  rw [NamedBy, mentionsOf_append, List.forall_mem_append]
  rfl

/-- Names may be given at further sites. -/
theorem mono (hlater : names <+: later) (hnamed : NamedBy names elements) :
    NamedBy later elements := by
  obtain ⟨more, rfl⟩ := hlater
  intro reference hreference
  have hname := hnamed reference hreference
  rw [List.getElem?_append_left (List.getElem?_eq_some_iff.mp hname).1]
  exact hname

/-- The body of an element is named if the element is. -/
theorem singleton {element : Element} {body : List Element}
    (hbody : element.mentions true = mentionsOf true body) (hnamed : NamedBy names body) :
    NamedBy names [element] := by
  refine hnamed.congr ?_
  rw [mentionsOf, mentionsOf, List.append_nil, hbody]

/-- A choice is named if its branches are. -/
theorem choice {branches : List (List Element)}
    (hnamed : ∀ branch ∈ branches, NamedBy names branch) : NamedBy names [.choice branches] := by
  refine singleton (mentionsOfBranches_eq true branches) ?_
  induction branches with
  | nil => exact of_none rfl
  | cons branch rest ih =>
    rw [List.flatten_cons, append_iff]
    exact ⟨hnamed branch List.mem_cons_self,
      ih fun other hother => hnamed other (List.mem_cons_of_mem _ hother)⟩

end NamedBy

/-- Whether every reference in a scope carries the name that was given at its site. -/
structure Scope.Named (names : List String) (scope : Scope) : Prop where
  /-- References among the elements. -/
  elements : NamedBy names scope.elements
  /-- References in the head that the latest fold took. -/
  fold : ∀ mark, scope.fold = some mark → NamedBy names mark.head.toList

/-- Whether every reference in a registry carries the name that was given at its site. -/
structure Registry.Named (names : List String) (registry : Registry) : Prop where
  /-- References in shapes. -/
  shapes : ∀ shape ∈ registry.shapes, NamedBy names shape.elements
  /-- References in the bodies of rules. -/
  rules : ∀ body ∈ registry.rules, NamedBy names body.elements

/-- Whether a builder has given these names at the sites before the next one, and holds
no other references. -/
structure Builder.Named (names : List String) (builder : Builder) : Prop where
  /-- References in the registry. -/
  registry : builder.registry.Named names
  /-- The next site is the first one without a name. -/
  nextSite : builder.nextSite = names.length

/-- Whether a walk has given these names at the sites before the next one, and holds no
other references. -/
structure Walk.Named (names : List String) (walk : Walk) : Prop where
  /-- References in what is kept from rule to rule. -/
  builder : walk.toBuilder.Named names
  /-- References in the open scopes. -/
  scopes : ∀ scope ∈ walk.scopes, scope.Named names

section Growing

variable {names later : List String}

theorem Scope.Named.mono (hlater : names <+: later) {scope : Scope} (hnamed : scope.Named names) :
    scope.Named later :=
  ⟨hnamed.elements.mono hlater, fun mark hmark => (hnamed.fold mark hmark).mono hlater⟩

theorem Registry.Named.mono (hlater : names <+: later) {registry : Registry}
    (hnamed : registry.Named names) : registry.Named later :=
  ⟨fun shape hshape => (hnamed.shapes shape hshape).mono hlater,
    fun body hbody => (hnamed.rules body hbody).mono hlater⟩

end Growing

/-- In a scope that has just been opened no reference stands. -/
theorem Scope.named_opened (names : List String) (kind : ScopeKind) :
    (opened kind).Named names :=
  ⟨.of_none rfl, fun _ hmark => nomatch hmark⟩

/-- Collecting elements keeps a scope named. -/
theorem Scope.Named.collect {names : List String} {scope : Scope} (hnamed : scope.Named names)
    {elements : List Element} (helements : NamedBy names elements) :
    Scope.Named names { scope with elements := scope.elements ++ elements } :=
  ⟨NamedBy.append_iff.mpr ⟨hnamed.elements, helements⟩, hnamed.fold⟩

/-- A registry with one more shape. -/
theorem Registry.Named.register {names : List String} {registry : Registry}
    (hnamed : registry.Named names) {elements : List Element} (helements : NamedBy names elements)
    (name : Option String) : (registry.register elements name).Named names := by
  refine ⟨fun shape hshape => ?_, hnamed.rules⟩
  rcases List.mem_append.mp hshape with hold | hnew
  · exact hnamed.shapes shape hold
  · obtain rfl := List.mem_singleton.mp hnew
    exact helements

/-- The element that a fold takes and what it leaves were there before. -/
theorem named_takeNearest {names : List String} {scopes : List Scope}
    (hnamed : ∀ scope ∈ scopes, scope.Named names) :
    NamedBy names (takeNearest scopes).1.toList ∧
      ∀ scope ∈ (takeNearest scopes).2, scope.Named names := by
  induction scopes with
  | nil => exact ⟨.of_none rfl, hnamed⟩
  | cons scope rest ih =>
    obtain ⟨hscope, hrest⟩ := List.forall_mem_cons.mp hnamed
    rw [takeNearest]
    rcases List.eq_nil_or_concat scope.elements with hnone | ⟨front, last, hsome⟩
    · have hleft : scope.takeLast? = none := by simp [Scope.takeLast?, hnone]
      rw [hleft]
      exact ⟨(ih hrest).1, List.forall_mem_cons.mpr ⟨hscope, (ih hrest).2⟩⟩
    · have htaken : scope.takeLast? = some (last, { scope with elements := front }) := by
        simp [Scope.takeLast?, hsome]
      have helements := hscope.elements
      rw [hsome, List.concat_eq_append, NamedBy.append_iff] at helements
      rw [htaken]
      exact ⟨helements.2, List.forall_mem_cons.mpr ⟨⟨helements.1, hscope.fold⟩, hrest⟩⟩

/-- Tying a folded node to the round before moves no reference. -/
theorem Walk.mentionsOf_closedElements (closing outer : Scope) (id : ShapeId) :
    mentionsOf true (closedElements closing outer id) = mentionsOf true closing.elements := by
  unfold closedElements
  split
  · unfold tieFold
    split
    · rename_i helements
      rw [helements]
      simp [mentionsOf, Element.mentions, mentionsOfBranches]
    · rfl
  · rfl

/-- What a wrapper puts in the place of its scope stood there before. -/
theorem Wrapper.named_around {names : List String} {scope : Scope} (hnamed : scope.Named names)
    (wrapper : Wrapper) : NamedBy names (wrapper.around scope) := by
  obtain ⟨kind, elements, fold⟩ := scope
  obtain ⟨helements, hfold⟩ := hnamed
  cases fold with
  | none => cases wrapper <;> exact .singleton rfl helements
  | some mark =>
    have hfolded : NamedBy names [Builder.foldedOrHead elements mark] := by
      refine .choice fun branch hbranch => ?_
      rcases List.mem_pair.mp hbranch with rfl | rfl
      · exact helements
      · exact hfold mark rfl
    cases wrapper with
    | optional => exact hfolded
    | zeroOrMore => exact hfolded
    | oneOrMore => exact helements
    | link label => exact .singleton rfl helements

namespace Walk.Named

variable {names : List String} {walk after : Walk}

/-- Collecting elements. -/
theorem append (hnamed : walk.Named names) {elements : List Element}
    (helements : NamedBy names elements) : (walk.append elements).Named names := by
  obtain ⟨hcurrent, henclosing⟩ := List.forall_mem_cons.mp hnamed.scopes
  exact ⟨⟨hnamed.builder.registry, hnamed.builder.nextSite⟩,
    List.forall_mem_cons.mpr ⟨hcurrent.collect helements, henclosing⟩⟩

/-- Opening a scope. -/
theorem enter (hnamed : walk.Named names) {scope : Scope} (hscope : scope.Named names) :
    (walk.enter scope).Named names :=
  ⟨⟨hnamed.builder.registry, hnamed.builder.nextSite⟩,
    List.forall_mem_cons.mpr ⟨hscope, hnamed.scopes⟩⟩

/-- Handing out a site gives it the name of the reference. -/
theorem reference (hnamed : walk.Named names) (name : String) :
    (walk.reference name).Named (names ++ [name]) := by
  have hlater := List.prefix_append names [name]
  obtain ⟨hcurrent, henclosing⟩ := List.forall_mem_cons.mp hnamed.scopes
  have hsite := hnamed.builder.nextSite
  have hreference : NamedBy (names ++ [name]) [.nonTerminal name ⟨walk.nextSite⟩] := by
    intro reference hreference
    obtain rfl := List.mem_singleton.mp hreference
    change (names ++ [name])[walk.nextSite]? = some name
    rw [hsite, List.getElem?_concat_length]
  refine ⟨⟨hnamed.builder.registry.mono hlater, ?_⟩, ?_⟩
  · change walk.nextSite + 1 = (names ++ [name]).length
    rw [List.length_append, hsite]
    rfl
  · exact List.forall_mem_cons.mpr ⟨(hcurrent.mono hlater).collect hreference,
      fun scope hscope => (henclosing scope hscope).mono hlater⟩

/-- Opening the node of a left fold. -/
theorem openFold (hnamed : walk.Named names) (label : Option String) :
    (walk.openFold label).Named names := by
  obtain ⟨hhead, hrest⟩ := named_takeNearest hnamed.scopes
  obtain ⟨hfirst, hbuilder, hscopes⟩ := walk.takeHead_eq
  rw [← hfirst] at hhead
  rw [← hscopes] at hrest
  obtain ⟨hcurrent, henclosing⟩ := List.forall_mem_cons.mp hrest
  have hkept := hnamed.builder
  rw [← hbuilder] at hkept
  have hmarked : ∀ mark, some (FoldMark.mk walk.takeHead.1) = some mark →
      NamedBy names mark.head.toList := by
    rintro mark hmark
    obtain rfl := Option.some.inj hmark
    exact hhead
  exact ⟨⟨hkept.registry, hkept.nextSite⟩, List.forall_mem_cons.mpr
    ⟨⟨.singleton rfl hhead, fun _ hmark => nomatch hmark⟩,
      List.forall_mem_cons.mpr ⟨⟨hcurrent.elements, hmarked⟩, henclosing⟩⟩⟩

/-- Registering the current scope as a shape. -/
theorem closeInto (hnamed : walk.Named names) {outer : Scope} {rest : List Scope}
    (henclosing : walk.enclosing = outer :: rest) : (walk.closeInto outer rest).Named names := by
  obtain ⟨hcurrent, haround⟩ := List.forall_mem_cons.mp hnamed.scopes
  rw [henclosing] at haround
  obtain ⟨houter, hrest⟩ := List.forall_mem_cons.mp haround
  have hclosed := hcurrent.elements.congr
    (mentionsOf_closedElements walk.current outer walk.registry.size).symm
  exact ⟨⟨hnamed.builder.registry.register hclosed none, hnamed.builder.nextSite⟩,
    List.forall_mem_cons.mpr ⟨houter.collect (.of_none rfl), hrest⟩⟩

/-- The end of a capture that is accepted. -/
theorem closeCapture (hnamed : walk.Named names) {rule : String}
    (hrun : (Builder.closeCapture rule).run walk = .ok () after) : after.Named names := by
  obtain ⟨_, _, _, henclosing, rfl⟩ := Builder.closeCapture_eq_ok.mp hrun
  exact hnamed.closeInto henclosing

/-- A step in a scope of its own hands back a scope that is named as what is left is. -/
theorem isolated (hnamed : walk.Named names) {rule : String} {kind : ScopeKind}
    {step : WalkM Unit} {scope : Scope} {later : List String}
    (hstep : ∀ {walk inner : Walk}, walk.Named names → step.run walk = .ok () inner →
      inner.Named later)
    (hrun : (Builder.isolated rule kind step).run walk = .ok scope after) :
    scope.Named later ∧ after.Named later := by
  have hlast := hstep (hnamed.enter (Scope.named_opened names kind))
    (Builder.isolated_eq_ok.mp hrun).1
  obtain ⟨hcurrent, haround⟩ := List.forall_mem_cons.mp hlast.scopes
  exact ⟨hcurrent, ⟨hlast.builder.registry, hlast.builder.nextSite⟩, haround⟩

/-- A wrapper around a body that is accepted. -/
theorem visit_wrapper (hnamed : walk.Named names) {rule : String} (wrapper : Wrapper)
    {inner : Expr} {later : List String}
    (hinner : ∀ {walk after : Walk}, walk.Named names →
      (Builder.visit rule inner).run walk = .ok () after → after.Named later)
    (hrun : (Builder.visit rule (wrapper.expr inner)).run walk = .ok () after) :
    after.Named later := by
  obtain ⟨scope, last, hisolated, rfl⟩ := Builder.visit_wrapper_eq_ok.mp hrun
  obtain ⟨hscope, hleft⟩ := hnamed.isolated hinner hisolated
  exact hleft.append (wrapper.named_around hscope)

end Walk.Named

namespace Builder

variable (rule : String)

mutual

/-- A visit that is accepted gives the names of its references at the next sites. -/
theorem visit_named : ∀ (expr : Expr) {names : List String} {walk after : Walk},
      walk.Named names → (visit rule expr).run walk = .ok () after →
      after.Named (names ++ expr.references)
  | .nonTerminal name, _, _, _, hnamed, rfl => hnamed.reference name
  | .sequence items, _, _, _, hnamed, hrun => visitItems_named items hnamed hrun
  | .choice branches, _, _, _, hnamed, hrun => by
    obtain ⟨sequences, last, hbranches, rfl⟩ := visit_choice_eq_ok.mp hrun
    obtain ⟨hsequences, hleft⟩ := visitBranches_named branches hnamed hbranches
    exact hleft.append (.choice hsequences)
  | .optional inner, _, _, _, hnamed, hrun =>
    hnamed.visit_wrapper .optional (visit_named inner) hrun
  | .zeroOrMore inner, _, _, _, hnamed, hrun =>
    hnamed.visit_wrapper .zeroOrMore (visit_named inner) hrun
  | .oneOrMore inner, _, _, _, hnamed, hrun =>
    hnamed.visit_wrapper .oneOrMore (visit_named inner) hrun
  | .link label inner, _, _, _, hnamed, hrun =>
    hnamed.visit_wrapper (.link label) (visit_named inner) hrun
  | .byte _, names, _, _, hnamed, rfl | .tag _, names, _, _, hnamed, rfl => by
    rw [Expr.references, List.append_nil]
    exact hnamed.append (.of_none rfl)
  | .beginCapture, names, _, _, hnamed, rfl => by
    rw [Expr.references, List.append_nil]
    exact hnamed.enter (Scope.named_opened names .capture)
  | .fold label, _, _, _, hnamed, rfl => by
    rw [Expr.references, List.append_nil]
    exact hnamed.openFold label
  | .endCapture, _, _, _, hnamed, hrun => by
    rw [Expr.references, List.append_nil]
    exact hnamed.closeCapture hrun
  | .empty, _, _, _, hnamed, rfl | .any, _, _, _, hnamed, rfl | .byteSet _, _, _, _, hnamed, rfl
  | .followedBy _, _, _, _, hnamed, rfl | .notFollowedBy _, _, _, _, hnamed, rfl => by
    rw [Expr.references, List.append_nil]
    exact hnamed

/-- Items that are accepted give the names of their references at the next sites. -/
theorem visitItems_named : ∀ (items : List Expr) {names : List String} {walk after : Walk},
      walk.Named names → (visitItems rule items).run walk = .ok () after →
      after.Named (names ++ Expr.referencesOfAll items)
  | [], _, _, _, hnamed, rfl => by
    rw [Expr.referencesOfAll, List.append_nil]
    exact hnamed
  | item :: rest, _, _, _, hnamed, hrun => by
    obtain ⟨last, hitem, hrest⟩ := visitItems_cons_eq_ok.mp hrun
    rw [Expr.referencesOfAll, ← List.append_assoc]
    exact visitItems_named rest (visit_named item hnamed hitem) hrest

/-- Branches that are accepted give the names of their references at the next sites. -/
theorem visitBranches_named : ∀ (branches : List Expr) {names : List String} {walk after : Walk}
      {sequences : List (List Element)}, walk.Named names →
      (visitBranches rule branches).run walk = .ok sequences after →
      (∀ sequence ∈ sequences, NamedBy (names ++ Expr.referencesOfAll branches) sequence) ∧
        after.Named (names ++ Expr.referencesOfAll branches)
  | [], _, _, _, _, hnamed, rfl => by
    rw [Expr.referencesOfAll, List.append_nil]
    exact ⟨fun _ hsequence => absurd hsequence List.not_mem_nil, hnamed⟩
  | branch :: rest, _, _, _, _, hnamed, hrun => by
    obtain ⟨scope, last, others, hbranch, hrest, rfl⟩ := visitBranches_cons_eq_ok.mp hrun
    obtain ⟨hscope, hlast⟩ := hnamed.isolated (visit_named branch) hbranch
    obtain ⟨hothers, hafter⟩ := visitBranches_named rest hlast hrest
    rw [Expr.referencesOfAll, ← List.append_assoc]
    exact ⟨List.forall_mem_cons.mpr ⟨hscope.elements.mono (List.prefix_append _ _), hothers⟩,
      hafter⟩

end

end Builder

namespace Registry

/-- A body that is put among others is one of them from then on. -/
theorem mem_putBody {body found : RuleBody} {rules : List RuleBody}
    (hfound : found ∈ putBody body rules) : found = body ∨ found ∈ rules := by
  induction rules with
  | nil => exact Or.inl (List.mem_singleton.mp hfound)
  | cons first rest ih =>
    rw [putBody] at hfound
    split at hfound
    · rcases List.mem_cons.mp hfound with rfl | hrest
      · exact Or.inl rfl
      · exact Or.inr (List.mem_cons_of_mem _ hrest)
    · rcases List.mem_cons.mp hfound with rfl | hrest
      · exact Or.inr List.mem_cons_self
      · exact (ih hrest).imp_right (List.mem_cons_of_mem _)

/-- Giving a shape a name changes no sequence. -/
theorem elements_modify {shapes : List Shape} {id : ShapeId} {name : String} {shape : Shape}
    (hshape : shape ∈ shapes.modify id (Shape.nameOnce name)) :
    ∃ before ∈ shapes, before.elements = shape.elements := by
  obtain ⟨index, hindex, rfl⟩ := List.mem_iff_getElem.mp hshape
  rw [List.length_modify] at hindex
  refine ⟨shapes[index], List.getElem_mem hindex, ?_⟩
  rw [List.getElem_modify]
  split <;> rfl

/-- A registry with the body of one more rule. -/
theorem Named.registerRule {names : List String} {registry : Registry}
    (hnamed : registry.Named names) (name : String) {elements : List Element}
    (helements : NamedBy names elements) : (registry.registerRule name elements).Named names := by
  constructor
  · intro shape hshape
    simp only [Registry.registerRule] at hshape
    split at hshape
    · obtain ⟨before, hbefore, hsame⟩ := elements_modify hshape
      rw [← hsame]
      exact hnamed.shapes before hbefore
    · exact hnamed.shapes shape hshape
  · intro body hbody
    rcases mem_putBody hbody with rfl | hold
    · exact helements
    · exact hnamed.rules body hold

end Registry

namespace Builder

variable {names : List String} {builder after : Builder}

/-- Building a rule gives the names of its references at the next sites. -/
theorem addRule_named (hnamed : builder.Named names) {rule : Rule}
    (hadd : builder.addRule rule = (.ok (), after)) :
    after.Named (names ++ rule.expr.references) := by
  unfold addRule at hadd
  split at hadd
  · rename_i elements last hbuild
    cases hadd
    obtain ⟨walk, hrun, _, rfl, rfl⟩ := buildRule_eq_ok.mp hbuild
    have hstart : (Walk.start builder).Named names :=
      ⟨hnamed, List.forall_mem_singleton.mpr (Scope.named_opened names .root)⟩
    have hwalk := visit_named rule.name rule.expr hstart hrun
    obtain ⟨hcurrent, _⟩ := List.forall_mem_cons.mp hwalk.scopes
    refine ⟨hwalk.builder.registry.registerRule rule.name hcurrent.elements, ?_⟩
    have hsite := hwalk.builder.nextSite
    unfold enterRule
    dsimp only
    split <;> exact hsite
  · cases hadd

/-- Building rules gives the names of their references at the next sites. -/
theorem addRules_named (hnamed : builder.Named names) {rules : List Rule}
    (hadd : builder.addRules rules = (.ok (), after)) :
    after.Named (names ++ rules.flatMap (·.expr.references)) := by
  induction rules generalizing builder names with
  | nil =>
    cases hadd
    rwa [List.flatMap_nil, List.append_nil]
  | cons rule rest ih =>
    unfold addRules at hadd
    split at hadd
    · rename_i hfirst
      rw [List.flatMap_cons, ← List.append_assoc]
      exact ih (addRule_named hnamed hfirst) hadd
    · cases hadd

end Builder

/-- In the registry of a grammar the references carry the names that the grammar gives at
their sites. -/
theorem Grammar.build_named {grammar : Grammar} {registry : Registry}
    (hbuild : grammar.build = .ok registry) : registry.Named grammar.references := by
  have hfresh : Builder.fresh.Named [] :=
    ⟨⟨fun _ hshape => absurd hshape List.not_mem_nil, fun _ hbody => absurd hbody List.not_mem_nil⟩,
      rfl⟩
  unfold Grammar.build at hbuild
  split at hbuild
  · rename_i hadd
    cases hbuild
    exact (Builder.addRules_named hfresh hadd).registry
  · cases hbuild

end PegTemplates
