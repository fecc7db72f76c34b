import PegTemplates.Proofs.Expanding.Runs

/-!
# Queries that meet no site twice

The full expansion of a sequence replaces every reference by the body of its rule, however
often it is met; so does that of a link body. It is the execution without a guard. If it comes
to an end and meets no site twice, the sequence and every link body in it taken by themselves,
the cycle guard never skips anything: the full expansion is then shown to be the execution with
the guard as well, and thus to come to the outcome of the query.
-/

namespace PegTemplates

namespace Registry

variable {registry : Registry}

mutual

/-- An element of a link body in which no site is met twice is executed with the guard as it is
without. -/
theorem CollectsElement.guard {seen sites : List Site} {element : Element} {collected : Collected}
    (hfirst : FirstMet seen sites) :
    registry.CollectsElement unguarded seen element collected sites →
      registry.CollectsElement guarded seen element collected sites
  | .captured => .captured
  | .byte => .byte
  | .passedOver hpassed => .passedOver hpassed
  | .undefined _ hnone => .undefined (firstMet_cons_iff.mp hfirst).1 hnone
  | .entered _ hbody hinner =>
    .entered (firstMet_cons_iff.mp hfirst).1 hbody
      (hinner.guard (firstMet_cons_iff.mp hfirst).2)
  | .choice hbranches => .choice (hbranches.guard hfirst)

/-- A sequence of a link body in which no site is met twice is executed with the guard as it is
without. -/
theorem Collects.guard {seen sites : List Site} {found : Option (List LinkedInner)}
    {elements : List Element} {collected : Collected} (hfirst : FirstMet seen sites) :
    registry.Collects unguarded seen found elements collected sites →
      registry.Collects guarded seen found elements collected sites
  | .nil => .nil
  | .fails hfails => .fails (hfails.guard hfirst)
  | .cons helement hrest =>
    .cons (helement.guard (firstMet_append_iff.mp hfirst).1)
      (hrest.guard (firstMet_append_iff.mp hfirst).2)

/-- The branches of a choice in a link body in which no site is met twice are executed with the
guard as they are without. -/
theorem CollectsBranches.guard {seen sites : List Site} {found : Option (List LinkedInner)}
    {branches : List (List Element)} {collected : Collected} (hfirst : FirstMet seen sites) :
    registry.CollectsBranches unguarded seen found branches collected sites →
      registry.CollectsBranches guarded seen found branches collected sites
  | .nil => .nil
  | .fails hfails => .fails (hfails.guard hfirst)
  | .cons hbranch hrest =>
    .cons (hbranch.guard (firstMet_append_iff.mp hfirst).1)
      (hrest.guard (firstMet_append_iff.mp hfirst).2)

end

mutual

/-- An element in which no site is met twice is laid out with the guard as it is without. -/
theorem LaysOutElement.guard {seen sites : List Site} {element : Element}
    {laid : Except AnalysisError (List Node)} {links : List LinkQuery}
    (hfirst : FirstMet seen sites) (hlinks : ∀ link ∈ links, link.sites.Nodup) :
    registry.LaysOutElement unguarded seen element laid sites links →
      registry.LaysOutElement guarded seen element laid sites links
  | .byte => .byte
  | .tag => .tag
  | .captured => .captured
  | .undefined _ hnone => .undefined (firstMet_cons_iff.mp hfirst).1 hnone
  | .entered _ hbody hinner =>
    .entered (firstMet_cons_iff.mp hfirst).1 hbody
      (hinner.guard (firstMet_cons_iff.mp hfirst).2 hlinks)
  | .linked hinner =>
    .linked (hinner.guard ⟨hlinks _ List.mem_cons_self, List.disjoint_nil_right _⟩)
  | .choice hbranches => .choice (hbranches.guard hfirst hlinks)
  | .optional hbody => .optional (hbody.guard hfirst hlinks)
  | .zeroOrMore hbody => .zeroOrMore (hbody.guard hfirst hlinks)
  | .oneOrMore hbody => .oneOrMore (hbody.guard hfirst hlinks)

/-- A sequence in which no site is met twice is laid out with the guard as it is without. -/
theorem LaysOut.guard {seen sites : List Site} {elements : List Element}
    {laid : Except AnalysisError (List Node)} {links : List LinkQuery}
    (hfirst : FirstMet seen sites) (hlinks : ∀ link ∈ links, link.sites.Nodup) :
    registry.LaysOut unguarded seen elements laid sites links →
      registry.LaysOut guarded seen elements laid sites links
  | .nil => .nil
  | .fails hfails => .fails (hfails.guard hfirst hlinks)
  | .cons helement hrest =>
    .cons (helement.guard (firstMet_append_iff.mp hfirst).1 (List.forall_mem_append.mp hlinks).1)
      (hrest.guard (firstMet_append_iff.mp hfirst).2 (List.forall_mem_append.mp hlinks).2)

/-- Branches in which no site is met twice are laid out with the guard as they are without. -/
theorem LaysOutBranches.guard {seen sites : List Site} {branches : List (List Element)}
    {laid : Except AnalysisError (List (List Node))} {links : List LinkQuery}
    (hfirst : FirstMet seen sites) (hlinks : ∀ link ∈ links, link.sites.Nodup) :
    registry.LaysOutBranches unguarded seen branches laid sites links →
      registry.LaysOutBranches guarded seen branches laid sites links
  | .nil => .nil
  | .fails hfails => .fails (hfails.guard hfirst hlinks)
  | .cons hbranch hrest =>
    .cons (hbranch.guard (firstMet_append_iff.mp hfirst).1 (List.forall_mem_append.mp hlinks).1)
      (hrest.guard (firstMet_append_iff.mp hfirst).2 (List.forall_mem_append.mp hlinks).2)

end

/-- If the full expansion of a sequence comes to an end and no site is met twice, neither around
the links nor in the body of any of them, the layout is what the full expansion comes to. If no
site is met twice in that of a link body, its captures are those of the full expansion. -/
theorem queries_eq_fullExpansion (registry : Registry) (elements : List Element) :
    (∀ laid sites links, registry.LaysOut unguarded [] elements laid sites links →
      sites.Nodup → (∀ link ∈ links, link.sites.Nodup) → registry.layout elements = laid) ∧
    ∀ collected sites, registry.Collects unguarded [] none elements collected sites →
      sites.Nodup → registry.linkedInners elements = collected.captures := by
  constructor
  · intro laid sites links hlays honce hlinks
    obtain ⟨_, _, hrun⟩ := registry.exists_laysOut elements
    have hguarded := hlays.guard ⟨honce, List.disjoint_nil_right sites⟩ hlinks
    exact (hrun.unique hguarded).1
  · intro collected sites hcollects honce
    obtain ⟨_, _, hrun, hinners⟩ := registry.exists_collects elements
    have hguarded := hcollects.guard ⟨honce, List.disjoint_nil_right sites⟩
    rw [hinners, (hrun.unique hguarded).1]

/-- A rule that is referred to twice, at different sites, and whose body holds a link: the rule
that the link leads to is met once in each of the two link bodies. -/
theorem queries_eq_fullExpansion_of_pair :
    let registry : Registry := ⟨[], [
      ⟨"pair", [.nonTerminal "item" ⟨0⟩, .byte 44, .nonTerminal "item" ⟨1⟩]⟩,
      ⟨"item", [.linked (some "of") [.nonTerminal "name" ⟨2⟩], .tag "Item"]⟩,
      ⟨"name", [.byte 39, .choice [[.captured 0], [.captured 1]]]⟩]⟩
    let body : List Element := [.nonTerminal "name" ⟨2⟩]
    let elements : List Element := [.zeroOrMore [.nonTerminal "pair" ⟨3⟩]]
    let sites : List Site := [⟨3⟩, ⟨0⟩, ⟨1⟩]
    let links : List LinkQuery := [⟨body, [⟨2⟩]⟩, ⟨body, [⟨2⟩]⟩]
    let inners : List LinkedInner := [⟨some 0, "'", ""⟩, ⟨some 1, "'", ""⟩]
    let nodes : List Node :=
      [.zeroOrMore [.link ⟨some "of", inners⟩, .text 44, .link ⟨some "of", inners⟩]]
    registry.LaysOut unguarded [] elements (.ok nodes) sites links ∧ sites.Nodup ∧
      (∀ link ∈ links, link.sites.Nodup) ∧ registry.layout elements = .ok nodes ∧
    registry.Collects unguarded [] none body (.ok (some inners)) [⟨2⟩] ∧ [Site.mk 2].Nodup ∧
      registry.linkedInners body = .ok inners := by
  intro registry body elements sites links inners nodes
  have hinners : Expansion.joinParts (some [.ofByte 39]) (some [.ofCapture 0, .ofCapture 1]) =
      some inners := by decide +kernel
  have hname (seen : List Site) : registry.Collects unguarded seen none
      [.byte 39, .choice [[.captured 0], [.captured 1]]] (.ok (some inners)) [] := by
    rw [← hinners]
    exact .cons .byte (.cons (.choice (.cons (.cons .captured .nil)
      (.cons (.cons .captured .nil) .nil))) .nil)
  have hreference : registry.CollectsElement unguarded [] (.nonTerminal "name" ⟨2⟩)
      (.ok (some inners)) [⟨2⟩] := .entered id rfl (hname _)
  have hbody : registry.Collects unguarded [] none body (.ok (some inners)) [⟨2⟩] :=
    .cons hreference .nil
  have hitem (seen : List Site) (site : Site) : registry.LaysOutElement unguarded seen
      (.nonTerminal "item" site) (.ok [.link ⟨some "of", inners⟩]) [site] [⟨body, [⟨2⟩]⟩] :=
    .entered id rfl (.cons (.linked hbody) (.cons .tag .nil))
  have hpair : registry.LaysOutElement unguarded [] (.nonTerminal "pair" ⟨3⟩)
      (.ok [.link ⟨some "of", inners⟩, .text 44, .link ⟨some "of", inners⟩]) sites links :=
    .entered id rfl (.cons (hitem _ ⟨0⟩) (.cons .byte (.cons (hitem _ ⟨1⟩) .nil)))
  have hround : registry.LaysOut unguarded [] [.nonTerminal "pair" ⟨3⟩]
      (.ok [.link ⟨some "of", inners⟩, .text 44, .link ⟨some "of", inners⟩]) sites links :=
    .cons hpair .nil
  have helements : registry.LaysOut unguarded [] elements (.ok nodes) sites links :=
    .cons (.zeroOrMore hround) .nil
  have hlinks : ∀ link ∈ links, link.sites.Nodup := by decide
  exact ⟨helements, by decide, hlinks,
    (queries_eq_fullExpansion registry elements).1 _ _ _ helements (by decide) hlinks,
    hbody, by decide, (queries_eq_fullExpansion registry body).2 _ _ hbody (by decide)⟩

end Registry

end PegTemplates
