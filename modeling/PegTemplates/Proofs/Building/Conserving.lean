import PegTemplates.Proofs.Building.Contribution
import PegTemplates.Proofs.Building.Holdings
import PegTemplates.Proofs.Building.Sites

/-!
# References and captures are conserved

The run of a rule starts with nothing, so at its end it holds what it has handed out. That
is spread over the body of the rule and the shapes registered while it is built: they hold
exactly the references and captures of the rule, each once where nothing is folded.
-/

namespace PegTemplates

mutual

/-- The steps of an expression collect the references that are visited in it. -/
theorem Expr.references_steps : ∀ expr : Expr,
    expr.steps.flatMap Step.references = expr.references
  | .nonTerminal _ | .byte _ | .tag _ | .beginCapture | .endCapture | .fold _ | .empty | .any
  | .byteSet _ | .followedBy _ | .notFollowedBy _ => rfl
  | .sequence items => references_stepsOfItems items
  | .choice branches => by
    rw [Expr.steps, List.flatMap_append, references_stepsOfBranches branches]
    exact List.append_nil _
  | .optional inner | .zeroOrMore inner | .oneOrMore inner | .link _ inner => by
    rw [Expr.references, Expr.steps, Wrapper.steps, List.flatMap_cons, List.flatMap_append,
      references_steps inner]
    exact List.append_nil _

/-- The steps of items collect the references that are visited in them. -/
theorem Expr.references_stepsOfItems : ∀ items : List Expr,
    (stepsOfItems items).flatMap Step.references = referencesOfAll items
  | [] => rfl
  | item :: rest => by
    rw [stepsOfItems, List.flatMap_append, references_steps item, references_stepsOfItems rest]
    rfl

/-- The steps of branches collect the references that are visited in them. -/
theorem Expr.references_stepsOfBranches : ∀ branches : List Expr,
    (stepsOfBranches branches).flatMap Step.references = referencesOfAll branches
  | [] => rfl
  | branch :: rest => by
    rw [stepsOfBranches, List.flatMap_cons, List.flatMap_append, List.flatMap_cons,
      references_steps branch, references_stepsOfBranches rest]
    rfl

end

mutual

/-- Whether a left fold is visited in an expression. -/
def Expr.hasFold : Expr → Bool
  | .fold _ => true
  | .sequence items | .choice items => hasFoldInAny items
  | .optional inner | .zeroOrMore inner | .oneOrMore inner | .link _ inner => inner.hasFold
  | .empty | .byte _ | .nonTerminal _ | .beginCapture | .endCapture | .tag _ | .any | .byteSet _
  | .followedBy _ | .notFollowedBy _ => false

/-- Whether a left fold is visited in one of several expressions. -/
def Expr.hasFoldInAny : List Expr → Bool
  | [] => false
  | expr :: rest => expr.hasFold || hasFoldInAny rest

end

section Folds

variable (label : Option String)

mutual

/-- An expression in which no fold is visited has no step of one. -/
theorem Expr.fold_not_mem_steps : ∀ {expr : Expr}, expr.hasFold = false →
    .fold label ∉ expr.steps
  | .nonTerminal _, _ | .byte _, _ | .tag _, _ | .beginCapture, _ | .endCapture, _ | .empty, _
  | .any, _ | .byteSet _, _ | .followedBy _, _ | .notFollowedBy _, _ => by simp [Expr.steps]
  | .sequence _, hnone => fold_not_mem_stepsOfItems hnone
  | .choice _, hnone => by
    simpa [Expr.steps] using fold_not_mem_stepsOfBranches hnone
  | .optional inner, hnone | .zeroOrMore inner, hnone | .oneOrMore inner, hnone
  | .link _ inner, hnone => by
    have hinner : inner.hasFold = false := hnone
    simpa [Expr.steps, Wrapper.steps] using fold_not_mem_steps hinner

/-- Items in which no fold is visited have no step of one. -/
theorem Expr.fold_not_mem_stepsOfItems : ∀ {items : List Expr}, hasFoldInAny items = false →
    .fold label ∉ stepsOfItems items
  | [], _ => List.not_mem_nil
  | item :: rest, hnone => by
    obtain ⟨hitem, hrest⟩ := Bool.or_eq_false_iff.mp hnone
    rw [stepsOfItems, List.mem_append]
    exact fun hstep => hstep.elim (fold_not_mem_steps hitem) (fold_not_mem_stepsOfItems hrest)

/-- Branches in which no fold is visited have no step of one. -/
theorem Expr.fold_not_mem_stepsOfBranches : ∀ {branches : List Expr},
    hasFoldInAny branches = false → .fold label ∉ stepsOfBranches branches
  | [], _ => List.not_mem_nil
  | branch :: rest, hnone => by
    obtain ⟨hbranch, hrest⟩ := Bool.or_eq_false_iff.mp hnone
    simpa [stepsOfBranches] using
      And.intro (fold_not_mem_steps hbranch) (fold_not_mem_stepsOfBranches hrest)

end

end Folds

/-- Whether a rule that a builder has walked through keeps its references and captures in
these parts. -/
structure Rule.Conserved (rule : Rule) (builder after : Builder) (parts : List Element) : Prop where
  /-- One site is handed out for each reference. -/
  nextSite : after.nextSite = builder.nextSite + rule.expr.references.length
  /-- The sites in the parts are those handed out for the rule. -/
  sites : ∀ site, site ∈ (mentionsOf true parts).map (·.site.index) ↔
    builder.nextSite ≤ site ∧ site < after.nextSite
  /-- At the sites stand the names of the references, in the order of visiting. -/
  names : ∀ reference ∈ mentionsOf true parts, ∃ position,
    reference.site.index = builder.nextSite + position ∧
      rule.expr.references[position]? = some reference.name
  /-- The captures in the parts are those of the shapes registered for the rule. -/
  captures : ∀ id, id ∈ capturesOf parts ↔ builder.registry.size ≤ id ∧ id < after.registry.size
  /-- Without folds no site and no capture stands twice. -/
  once : rule.expr.hasFold = false →
    ((mentionsOf true parts).map (·.site.index)).Nodup ∧ (capturesOf parts).Nodup

section Parts

variable {parts : List Element}

/-- The sites of references from a site on, each once. -/
theorem sites_referencesFrom (first : Nat) (names : List String) :
    ((referencesFrom first names).filterMap (·.reference?)).map (·.site.index) =
      List.range' first names.length := by
  induction names generalizing first with
  | nil => rfl
  | cons name rest ih =>
    rw [referencesFrom, List.length_cons, List.range'_succ, ← ih]
    rfl

/-- Captures have no sites. -/
theorem references_capturesBetween (first last : Nat) :
    (capturesBetween first last).filterMap (·.reference?) = [] := by
  simp [capturesBetween, Element.reference?]

/-- The numbers of captures from one number to another, each once. -/
theorem captures_capturesBetween (first last : Nat) :
    (capturesBetween first last).filterMap (·.capture?) = List.range' first (last - first) := by
  rw [capturesBetween, List.filterMap_map]
  exact List.filterMap_some

/-- References capture nothing. -/
theorem captures_referencesFrom (first : Nat) (names : List String) :
    (referencesFrom first names).filterMap (·.capture?) = [] := by
  induction names generalizing first with
  | nil => rfl
  | cons name rest ih => rw [referencesFrom, List.filterMap_cons_none rfl, ih]

section Handles

variable {rule : Rule} {builder after : Builder}
  (hmem : ∀ handle, handle ∈ handlesOf parts ↔
    handle ∈ referencesFrom builder.nextSite rule.expr.references ∨
      handle ∈ capturesBetween builder.registry.size after.registry.size)

include hmem

/-- Parts that hold what is handed out for a rule mention its references, at their sites. -/
theorem Rule.mem_mentions_of_handles (reference : Reference) :
    reference ∈ mentionsOf true parts ↔ ∃ position,
      reference.site.index = builder.nextSite + position ∧
        rule.expr.references[position]? = some reference.name := by
  rw [mem_mentionsOf, hmem,
    or_iff_left (nonTerminal_not_mem_capturesBetween reference.name reference.site _ _),
    mem_referencesFrom]

/-- The sites in parts that hold what is handed out for a rule are those of the rule. -/
theorem Rule.mem_sites_of_handles
    (hsite : after.nextSite = builder.nextSite + rule.expr.references.length) (site : Nat) :
    site ∈ (mentionsOf true parts).map (·.site.index) ↔
      builder.nextSite ≤ site ∧ site < after.nextSite := by
  rw [List.mem_map]
  constructor
  · rintro ⟨reference, hreference, rfl⟩
    obtain ⟨position, hposition, hname⟩ := (mem_mentions_of_handles hmem reference).mp hreference
    have hlt := (List.getElem?_eq_some_iff.mp hname).1
    omega
  · rintro ⟨hfrom, hlast⟩
    have hlt : site - builder.nextSite < rule.expr.references.length := by omega
    exact ⟨⟨rule.expr.references[site - builder.nextSite], ⟨site⟩⟩,
      (mem_mentions_of_handles hmem _).mpr ⟨site - builder.nextSite,
        (Nat.add_sub_cancel' hfrom).symm, List.getElem?_eq_getElem hlt⟩, rfl⟩

/-- Parts that hold exactly what is handed out for a rule keep its references and captures. -/
theorem Rule.conserved_of_handles
    (hsite : after.nextSite = builder.nextSite + rule.expr.references.length)
    (honce : rule.expr.hasFold = false → (handlesOf parts).Perm
      (referencesFrom builder.nextSite rule.expr.references ++
        capturesBetween builder.registry.size after.registry.size)) :
    rule.Conserved builder after parts := by
  refine ⟨hsite, mem_sites_of_handles hmem hsite,
    fun reference => (mem_mentions_of_handles hmem reference).mp, ?_, ?_⟩
  · intro id
    rw [mem_capturesOf, hmem, or_iff_right (captured_not_mem_referencesFrom id _ _),
      mem_capturesBetween]
  · intro hnone
    have hperm := honce hnone
    constructor
    · have hsites := (hperm.filterMap (·.reference?)).map (·.site.index)
      rw [← mentionsOf_eq, List.filterMap_append, references_capturesBetween, List.append_nil,
        sites_referencesFrom] at hsites
      exact hsites.nodup_iff.mpr List.nodup_range'
    · have hcaptures := hperm.filterMap (·.capture?)
      rw [List.filterMap_append, captures_referencesFrom, List.nil_append,
        captures_capturesBetween] at hcaptures
      exact hcaptures.nodup_iff.mpr List.nodup_range'

end Handles

end Parts

namespace Builder

section Built

variable {builder after : Builder} {rule : Rule} {elements : List Element}
  (hbuilds : builder.Builds rule elements after)

include hbuilds

/-- The run of a rule that is built holds the body of the rule and its shapes at its end. -/
theorem Builds.holdings :
    (rule.run builder.registry.size builder.nextSite).holdings =
      handles (elements ++ (builder.shapesUntil after).flatMap (·.elements)) := by
  obtain ⟨root, hscopes, rfl⟩ := hbuilds.scopes
  rw [Assembly.holdings, hscopes, hbuilds.reserve, hbuilds.aside, hbuilds.shapesUntil, held,
    List.flatMap_singleton, handles_reverse, handles_append, List.flatten_nil, handles_nil,
    add_zero, add_zero, add_comm]

/-- The run of a rule that is built hands out its sites and the numbers of its shapes. -/
theorem Builds.handed :
    Assembly.handed (rule.expr.steps.flatMap Step.references)
        ⟨builder.registry.size, [], builder.nextSite, [.opened .root], [], []⟩
        (rule.run builder.registry.size builder.nextSite) =
      ↑(referencesFrom builder.nextSite rule.expr.references ++
        capturesBetween builder.registry.size after.registry.size) := by
  rw [Assembly.handed, rule.expr.references_steps, ← hbuilds.size]
  rfl

/-- The parts of a rule that is built hold what is handed out for it, and nothing else. -/
theorem Builds.mem_handles (handle : Element) :
    handle ∈ handlesOf (elements ++ (builder.shapesUntil after).flatMap (·.elements)) ↔
      handle ∈ referencesFrom builder.nextSite rule.expr.references ∨
        handle ∈ capturesBetween builder.registry.size after.registry.size := by
  have hmem := Assembly.mem_holdings_run
    (Assembly.grounded_root builder.registry.size builder.nextSite) (Multiset.zero_subset _)
    rule.expr.steps handle
  change handle ∈ (rule.run builder.registry.size builder.nextSite).holdings ↔
    handle ∈ 0 + Assembly.handed _ _ (rule.run builder.registry.size builder.nextSite) at hmem
  rw [hbuilds.holdings, hbuilds.handed, zero_add] at hmem
  rw [← List.mem_append]
  exact hmem

/-- Without folds the parts of a rule that is built hold it once. -/
theorem Builds.handles_perm (hnone : rule.expr.hasFold = false) :
    (handlesOf (elements ++ (builder.shapesUntil after).flatMap (·.elements))).Perm
      (referencesFrom builder.nextSite rule.expr.references ++
        capturesBetween builder.registry.size after.registry.size) := by
  have hall := Assembly.holdings_run
    (Assembly.grounded_root builder.registry.size builder.nextSite)
    (List.forall_mem_singleton.mpr rfl) fun label => rule.expr.fold_not_mem_steps label hnone
  change (rule.run builder.registry.size builder.nextSite).holdings =
    0 + Assembly.handed _ _ (rule.run builder.registry.size builder.nextSite) at hall
  rw [hbuilds.holdings, hbuilds.handed, zero_add] at hall
  exact Multiset.coe_eq_coe.mp hall

/-- A rule that is built keeps its references and captures. -/
theorem Builds.conserved : rule.Conserved builder after
    (elements ++ (builder.shapesUntil after).flatMap (·.elements)) := by
  refine Rule.conserved_of_handles hbuilds.mem_handles ?_ hbuilds.handles_perm
  rw [hbuilds.nextSite, ← rule.expr.references_steps]
  exact Assembly.nextSite_run (Assembly.grounded_root _ _) rule.expr.steps

end Built

end Builder

/-- In a grammar that is built the body of each rule, together with the shapes registered for
it, keeps the references and captures of the rule. -/
theorem Grammar.build_conserves {grammar : Grammar} {registry : Registry}
    {earlier later : List Rule} {rule : Rule} (hbuild : grammar.build = .ok registry)
    (hrules : grammar.rules = earlier ++ rule :: later) :
    ∃ builder elements after, Builder.fresh.addRules earlier = (.ok (), builder) ∧
      builder.buildRule rule = (.ok elements, after) ∧
      rule.Conserved builder after
        (elements ++ (builder.shapesUntil after).flatMap (·.elements)) := by
  obtain ⟨last, hadd, _⟩ := build_eq_ok.mp hbuild
  rw [hrules] at hadd
  obtain ⟨builder, hearlier, hlater⟩ := Builder.addRules_append.mp hadd
  obtain ⟨after, hrule, _⟩ := Builder.addRules_cons.mp hlater
  obtain ⟨elements, built, hbuilt, _⟩ := Builder.builds_of_addRule hrule
  exact ⟨builder, elements, built, hearlier, hbuilt,
    (Builder.builds_of_buildRule hbuilt).conserved⟩

/-- A fold in a repetition puts the reference before it into the node of a round, and into
the choice in the rule, both times with the name that belongs to the site. -/
theorem Grammar.build_conserves_fold :
    let word : Rule := ⟨"word", .capture [.byte 97]⟩
    let list : Rule := ⟨"list", .sequence [.nonTerminal "word", .zeroOrMore (.sequence
      [.fold none, .nonTerminal "number", .endCapture])]⟩
    (Grammar.mk [word, list]).build = .ok
      ⟨[⟨0, some "word", [.byte 97]⟩,
        ⟨1, none, [.linked none [.choice [[.captured 1], [.nonTerminal "word" ⟨0⟩]]],
          .nonTerminal "number" ⟨1⟩]⟩],
        [⟨"word", [.captured 0]⟩,
          ⟨"list", [.choice [[.captured 1], [.nonTerminal "word" ⟨0⟩]]]⟩]⟩ ∧
      ∃ builder elements after, Builder.fresh.addRules [word] = (.ok (), builder) ∧
        builder.buildRule list = (.ok elements, after) ∧
        list.Conserved builder after
          (elements ++ (builder.shapesUntil after).flatMap (·.elements)) := by
  intro word list
  have hbuild : (Grammar.mk [word, list]).build = .ok
      ⟨[⟨0, some "word", [.byte 97]⟩,
        ⟨1, none, [.linked none [.choice [[.captured 1], [.nonTerminal "word" ⟨0⟩]]],
          .nonTerminal "number" ⟨1⟩]⟩],
        [⟨"word", [.captured 0]⟩,
          ⟨"list", [.choice [[.captured 1], [.nonTerminal "word" ⟨0⟩]]]⟩]⟩ := rfl
  exact ⟨hbuild, @build_conserves _ _ [word] [] list hbuild rfl⟩

end PegTemplates
