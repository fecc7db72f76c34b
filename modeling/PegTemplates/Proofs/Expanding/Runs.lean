import PegTemplates.Proofs.Expanding.Executions
import PegTemplates.Proofs.Expanding.Layouts

/-!
# Runs of a query

The steps that answer a query bound the depth of the references that they follow. They are
shown to do what the rules of its execution say, which know no such bound: wherever a reference
is followed there are fewer sites left to follow, so the bound is never reached. Every query
thus has an execution with the cycle guard, and comes to the outcome of that one.
-/

namespace PegTemplates

namespace Expansion

variable {α β : Type} {sites : List Site} {depth : Nat}

/-- What a query comes to behind the sites met before, and the sites that are followed in it. -/
abbrev Execution (α : Type) := List Site → Except AnalysisError α → List Site → Prop

/-- Whether the result of a step that starts with these sites expanded is that of an
execution. -/
def Matches (execution : Execution α) (expanded : List Site) :
    EStateM.Result AnalysisError Progress α → Prop
  | .ok value after => ∃ followed, execution expanded (.ok value) followed ∧
      after.expanded = followed.reverse ++ expanded
  | .error reason _ => ∃ followed, execution expanded (.error reason) followed

/-- Whether a step comes to what an execution does, from every state in which at most that many
of the sites have not been expanded. -/
def Executes (sites : List Site) (depth : Nat) (execution : Execution α) (step : ExpandM α) :
    Prop :=
  ∀ before : Progress, fresh sites before.expanded ≤ depth →
    Matches execution before.expanded (step.run before)

namespace Executes

variable {execution first other : Execution α} {step : ExpandM α}

/-- A step that only gives a result follows no site. -/
theorem pure {value : α} (hvalue : ∀ seen, execution seen (.ok value) []) :
    Executes sites depth execution (pure value) :=
  fun before _ => ⟨[], hvalue before.expanded, rfl⟩

/-- What a step comes to may be put into what stands around it. -/
theorem map {others : Execution β} {change : α → β} (hstep : Executes sites depth execution step)
    (hchange : ∀ {seen outcome followed}, execution seen outcome followed →
      others seen (outcome.map change) followed) :
    Executes sites depth others (do return change (← step)) := by
  intro before hdepth
  have hresult := hstep before hdepth
  rw [EStateM.run_bind]
  cases hrun : step.run before with
  | error reason after =>
    rw [hrun] at hresult
    obtain ⟨followed, hfails⟩ := hresult
    exact ⟨followed, hchange hfails⟩
  | ok value after =>
    rw [hrun] at hresult
    obtain ⟨followed, hvalue, hexpanded⟩ := hresult
    exact ⟨followed, hchange hvalue, hexpanded⟩

/-- A step that comes to the same for another reason. -/
theorem imp (hstep : Executes sites depth execution step)
    (himp : ∀ {seen outcome followed}, execution seen outcome followed →
      other seen outcome followed) : Executes sites depth other step := by
  intro before hdepth
  have hresult := hstep before hdepth
  cases hrun : step.run before with
  | error reason after =>
    rw [hrun] at hresult
    exact hresult.imp fun _ => himp
  | ok value after =>
    rw [hrun] at hresult
    exact hresult.imp fun _ hvalue => ⟨himp hvalue.1, hvalue.2⟩

/-- One step and, unless it fails, another. -/
theorem bind {joined : Execution β} {next : α → ExpandM β}
    (hstep : Executes sites depth first step) (second : α → Execution β)
    (hnext : ∀ value, Executes sites depth (second value) (next value))
    (hfails : ∀ {seen reason followed}, first seen (.error reason) followed →
      joined seen (.error reason) followed)
    (hjoined : ∀ {seen value followed outcome further}, first seen (.ok value) followed →
      second value (followed.reverse ++ seen) outcome further →
      joined seen outcome (followed ++ further)) :
    Executes sites depth joined (step >>= next) := by
  intro before hdepth
  have hresult := hstep before hdepth
  rw [EStateM.run_bind]
  cases hrun : step.run before with
  | error reason after =>
    rw [hrun] at hresult
    exact hresult.imp fun _ => hfails
  | ok value middle =>
    rw [hrun] at hresult
    obtain ⟨followed, hvalue, hexpanded⟩ := hresult
    have hfewer : fresh sites middle.expanded ≤ depth := by
      refine Nat.le_trans (fresh_le (fun _ hsite => hsite) fun site hsite => ?_) hdepth
      rw [hexpanded]
      exact List.mem_append_right _ hsite
    have hlater := hnext value middle hfewer
    rw [hexpanded] at hlater
    dsimp only
    cases hlast : (next value).run middle with
    | error reason after =>
      rw [hlast] at hlater
      obtain ⟨further, hother⟩ := hlater
      exact ⟨followed ++ further, hjoined hvalue hother⟩
    | ok result after =>
      rw [hlast] at hlater
      obtain ⟨further, hother, hafter⟩ := hlater
      refine ⟨followed ++ further, hjoined hvalue hother, ?_⟩
      rw [hafter, List.reverse_append, List.append_assoc]

end Executes

/-- Whether the execution of a reference skips it if its site was met before, fails if its rule is
undefined, and is that of the body of its rule otherwise. -/
structure Follower (registry : Registry) (nothing : α) (bodies : List Element → Execution α)
    (name : String) (site : Site) (execution : Execution α) : Prop where
  /-- A site that was met before gives nothing. -/
  skipped : ∀ {seen}, site ∈ seen → execution seen (.ok nothing) []
  /-- An undefined rule ends the query. -/
  undefined : ∀ {seen}, site ∉ seen → registry.body? name = none →
    execution seen (.error (.undefinedRule name)) [site]
  /-- The body of the rule is executed with its site among those met before. -/
  entered : ∀ {seen body outcome followed}, site ∉ seen → registry.body? name = some body →
    bodies body.elements (site :: seen) outcome followed →
    execution seen outcome (site :: followed)

variable {registry : Registry} {repeated : String → Event} {nothing : α}
  {bodies : List Element → Execution α}

/-- Following a reference comes to what its execution does if the expansion of the body of its
rule comes to what the execution of that one does. -/
theorem once_executes {name : String} {site : Site} {execution : Execution α}
    {expand : List Element → ExpandM α}
    (hfollower : Follower registry nothing bodies name site execution) (hsite : site ∈ sites)
    (hexpand : ∀ body, registry.body? name = some body → ∀ limit, limit < depth →
      Executes sites limit (bodies body.elements) (expand body.elements)) :
    Executes sites depth execution (once registry repeated nothing name site expand) := by
  intro before hdepth
  rw [run_once]
  by_cases hseen : site ∈ before.expanded
  · rw [if_pos hseen]
    exact ⟨[], hfollower.skipped hseen, rfl⟩
  · rw [if_neg hseen]
    cases hbody : registry.body? name with
    | none => exact ⟨[site], hfollower.undefined hseen hbody⟩
    | some body =>
      have hfewer := fresh_cons_lt (fun _ hkey => hkey) hsite hseen
      have hresult := hexpand body hbody _ (Nat.lt_of_lt_of_le hfewer hdepth)
        { before with expanded := site :: before.expanded } (Nat.le_refl _)
      dsimp only at hresult ⊢
      cases hrun : (expand body.elements).run
        { before with expanded := site :: before.expanded } with
      | error reason after =>
        rw [hrun] at hresult
        obtain ⟨followed, hfails⟩ := hresult
        exact ⟨site :: followed, hfollower.entered hseen hbody hfails⟩
      | ok value after =>
        rw [hrun] at hresult
        obtain ⟨followed, hvalue, hexpanded⟩ := hresult
        refine ⟨site :: followed, hfollower.entered hseen hbody hvalue, ?_⟩
        rw [hexpanded, List.reverse_cons, List.append_assoc, List.singleton_append]

/-- Whether what is done at references to these sites comes to what their executions do. -/
def Enters.Executes (sites : List Site) (depth : Nat)
    (references : String → Site → Execution α) (enter : String → Site → ExpandM α) : Prop :=
  ∀ name site, site ∈ sites →
    Expansion.Executes sites depth (references name site) (enter name site)

/-- Following references comes to what their executions do, if it may go as deep as there are
sites that have not been expanded. -/
theorem follow_executes {references : String → Site → Execution α}
    {expand : (String → Site → ExpandM α) → List Element → ExpandM α}
    (hfollower : ∀ name site, Follower registry nothing bodies name site (references name site))
    (hrules : ∀ body ∈ registry.rules, Within sites body.elements)
    (hexpand : ∀ {depth enter}, Enters.Executes sites depth references enter →
      ∀ elements, Within sites elements →
        Executes sites depth (bodies elements) (expand enter elements)) (depth : Nat) :
    Enters.Executes sites depth references
      (follow registry repeated nothing expand depth) := by
  induction depth with
  | zero =>
    intro name site hsite
    exact once_executes (hfollower name site) hsite
      fun _ _ limit hlimit => absurd hlimit (Nat.not_lt_zero limit)
  | succ depth ih =>
    intro name site hsite
    refine once_executes (hfollower name site) hsite fun body hbody limit hlimit => ?_
    intro before hfresh
    exact hexpand ih body.elements (hrules body (Registry.mem_rules_of_body? hbody).1) before
      (Nat.le_trans hfresh (Nat.le_of_lt_succ hlimit))

/-- A reference in a link body is followed as its execution says. -/
theorem collects_follower (registry : Registry) (name : String) (site : Site) :
    Follower registry none (fun elements seen => registry.Collects guarded seen none elements)
      name site (fun seen => registry.CollectsElement guarded seen (.nonTerminal name site)) :=
  ⟨.skipped, .undefined, .entered⟩

mutual

/-- What an element contributes to a link body is what its execution says, if that holds of the
references in it. -/
theorem innersOfElement_executes {enter : String → Site → ExpandM (Option (List LinkedInner))}
    (henter : Enters.Executes sites depth
      (fun name site seen => registry.CollectsElement guarded seen (.nonTerminal name site))
      enter) : ∀ element : Element, Within sites [element] →
        Executes sites depth (fun seen => registry.CollectsElement guarded seen element)
          (innersOfElement enter element)
  | .captured _, _ => .pure fun _ => .captured
  | .byte _, _ => .pure fun _ => .byte
  | .nonTerminal name site, hwithin => henter name site (hwithin ⟨name, site⟩ List.mem_cons_self)
  | .choice branches, hwithin =>
    (innersOfBranches_executes henter branches none (hwithin.inner rfl)).imp .choice
  | .tag _, _ | .linked _ _, _ | .optional _, _ | .zeroOrMore _, _ | .oneOrMore _, _ =>
    .pure fun _ => .passedOver rfl

/-- What a sequence contributes to a link body is what its execution says, if that holds of the
references in it. -/
theorem innersOfSequence_executes {enter : String → Site → ExpandM (Option (List LinkedInner))}
    (henter : Enters.Executes sites depth
      (fun name site seen => registry.CollectsElement guarded seen (.nonTerminal name site))
      enter) : ∀ (elements : List Element) (found : Option (List LinkedInner)),
        Within sites elements →
        Executes sites depth (fun seen => registry.Collects guarded seen found elements)
          (innersOfSequence enter found elements)
  | [], _, _ => .pure fun _ => .nil
  | element :: rest, _, hwithin =>
    (innersOfElement_executes henter element hwithin.head).bind _
      (fun _ => innersOfSequence_executes henter rest _ hwithin.tail) .fails .cons

/-- What branches contribute to a link body is what their execution says, if that holds of the
references in them. -/
theorem innersOfBranches_executes {enter : String → Site → ExpandM (Option (List LinkedInner))}
    (henter : Enters.Executes sites depth
      (fun name site seen => registry.CollectsElement guarded seen (.nonTerminal name site))
      enter) : ∀ (branches : List (List Element)) (found : Option (List LinkedInner)),
        Within sites branches.flatten →
        Executes sites depth (fun seen => registry.CollectsBranches guarded seen found branches)
          (innersOfBranches enter found branches)
  | [], _, _ => .pure fun _ => .nil
  | branch :: rest, _, hwithin =>
    (innersOfSequence_executes henter branch none (Within.append_iff.mp hwithin).1).bind _
      (fun _ => innersOfBranches_executes henter rest _ (Within.append_iff.mp hwithin).2)
      .fails .cons

end

/-- The query for the captures of a link body has an execution, and comes to its outcome. -/
theorem bodyQuery_matches (registry : Registry) (inner : List Element) :
    Matches (fun seen => registry.Collects guarded seen none inner) []
      ((bodyQuery registry inner).run ⟨[], []⟩) :=
  innersOfSequence_executes
    (follow_executes (collects_follower registry) (within_sitesFrom_rule registry inner)
      (fun henter elements => innersOfSequence_executes henter elements none) _)
    inner none (within_sitesFrom registry inner) ⟨[], []⟩ (fresh_sitesFrom_le registry inner)

end Expansion

/-- The captures of a link body are those that its execution finds. -/
theorem Registry.exists_collects (registry : Registry) (inner : List Element) :
    ∃ collected sites, registry.Collects guarded [] none inner collected sites ∧
      registry.linkedInners inner = collected.captures := by
  have hmatches := Expansion.bodyQuery_matches registry inner
  rw [linkedInners, Expansion.answer_eq, Expansion.outcome_run_linkedInners]
  cases hrun : (Expansion.bodyQuery registry inner).run ⟨[], []⟩ with
  | error reason after =>
    rw [hrun] at hmatches
    obtain ⟨followed, hfails⟩ := hmatches
    exact ⟨_, followed, hfails, rfl⟩
  | ok found after =>
    rw [hrun] at hmatches
    obtain ⟨followed, hfound, _⟩ := hmatches
    exact ⟨_, followed, hfound, rfl⟩

namespace Expansion

variable {registry : Registry} {sites : List Site} {depth : Nat}

/-- What an element is laid out to, with some list of link bodies. -/
def laysOutElement (registry : Registry) (element : Element) : Execution (List Node) :=
  fun seen laid followed =>
    ∃ links, registry.LaysOutElement guarded seen element laid followed links

/-- What a sequence is laid out to, with some list of link bodies. -/
def laysOut (registry : Registry) (elements : List Element) : Execution (List Node) :=
  fun seen laid followed => ∃ links, registry.LaysOut guarded seen elements laid followed links

/-- What branches are laid out to, with some list of link bodies. -/
def laysOutBranches (registry : Registry) (branches : List (List Element)) :
    Execution (List (List Node)) :=
  fun seen laid followed =>
    ∃ links, registry.LaysOutBranches guarded seen branches laid followed links

/-- A reference in a sequence that is laid out is followed as its execution says. -/
theorem laysOut_follower (registry : Registry) (name : String) (site : Site) :
    Follower registry [] (laysOut registry) name site
      (laysOutElement registry (.nonTerminal name site)) where
  skipped hseen := ⟨[], .skipped hseen⟩
  undefined hseen hbody := ⟨[], .undefined hseen hbody⟩
  entered hseen hbody := fun ⟨links, hinner⟩ => ⟨links, .entered hseen hbody hinner⟩

/-- A link is laid out with the captures that the execution of its body finds. -/
theorem linked_executes (label : Option String) (inner : List Element) :
    Executes sites depth (laysOutElement registry (.linked label inner))
      (do return [.link ⟨label, ← linkedInners registry inner⟩]) := by
  intro before _
  obtain ⟨collected, followed, hcollects, hinners⟩ := registry.exists_collects inner
  have hlinked : registry.LaysOutElement guarded before.expanded (.linked label inner) _ [] _ :=
    .linked hcollects
  have houtcome := outcome_linkedInners registry inner before
  rw [hinners] at houtcome
  rw [EStateM.run_bind]
  cases hrun : (linkedInners registry inner).run before with
  | error reason after =>
    rw [hrun] at houtcome
    cases hcaptures : collected.captures with
    | ok _ => rw [hcaptures] at houtcome; cases houtcome
    | error other =>
      rw [hcaptures] at houtcome hlinked
      cases houtcome
      exact ⟨[], _, hlinked⟩
  | ok inners after =>
    rw [hrun] at houtcome
    cases hcaptures : collected.captures with
    | error _ => rw [hcaptures] at houtcome; cases houtcome
    | ok found =>
      rw [hcaptures] at houtcome hlinked
      obtain ⟨rfl, hexpanded⟩ := Prod.mk.inj (Except.ok.inj houtcome)
      exact ⟨[], ⟨_, hlinked⟩, hexpanded⟩

mutual

/-- An element is laid out as its execution says, if that holds of the references in it. -/
theorem layoutOfElement_executes {enter : String → Site → ExpandM (List Node)}
    (henter : Enters.Executes sites depth
      (fun name site => laysOutElement registry (.nonTerminal name site)) enter) :
    ∀ element : Element, Within sites [element] →
      Executes sites depth (laysOutElement registry element)
        (layoutOfElement registry enter element)
  | .byte _, _ => .pure fun _ => ⟨[], .byte⟩
  | .tag _, _ => .pure fun _ => ⟨[], .tag⟩
  | .captured _, _ => .pure fun _ => ⟨[], .captured⟩
  | .nonTerminal name site, hwithin => henter name site (hwithin ⟨name, site⟩ List.mem_cons_self)
  | .linked label inner, _ => linked_executes label inner
  | .choice branches, hwithin =>
    (layoutOfBranches_executes henter branches (hwithin.inner rfl)).map
      fun ⟨links, hbranches⟩ => ⟨links, .choice hbranches⟩
  | .optional body, hwithin =>
    (layoutOfSequence_executes henter body (hwithin.inner rfl)).map
      fun ⟨links, hbody⟩ => ⟨links, .optional hbody⟩
  | .zeroOrMore body, hwithin =>
    (layoutOfSequence_executes henter body (hwithin.inner rfl)).map
      fun ⟨links, hbody⟩ => ⟨links, .zeroOrMore hbody⟩
  | .oneOrMore body, hwithin =>
    (layoutOfSequence_executes henter body (hwithin.inner rfl)).map
      fun ⟨links, hbody⟩ => ⟨links, .oneOrMore hbody⟩

/-- A sequence is laid out as its execution says, if that holds of the references in it. -/
theorem layoutOfSequence_executes {enter : String → Site → ExpandM (List Node)}
    (henter : Enters.Executes sites depth
      (fun name site => laysOutElement registry (.nonTerminal name site)) enter) :
    ∀ elements : List Element, Within sites elements →
      Executes sites depth (laysOut registry elements)
        (layoutOfSequence registry enter elements)
  | [], _ => .pure fun _ => ⟨[], .nil⟩
  | element :: rest, hwithin =>
    (layoutOfElement_executes henter element hwithin.head).bind
      (fun nodes seen laid followed =>
        ∃ others, laysOut registry rest seen others followed ∧ laid = others.map (nodes ++ ·))
      (fun _ => (layoutOfSequence_executes henter rest hwithin.tail).map
        fun hrest => ⟨_, hrest, rfl⟩)
      (fun ⟨links, hfails⟩ => ⟨links, .fails hfails⟩)
      (by
        rintro _ _ _ _ _ ⟨firstLinks, helement⟩ ⟨_, ⟨links, hrest⟩, rfl⟩
        exact ⟨firstLinks ++ links, .cons helement hrest⟩)

/-- Branches are laid out as their execution says, if that holds of the references in them. -/
theorem layoutOfBranches_executes {enter : String → Site → ExpandM (List Node)}
    (henter : Enters.Executes sites depth
      (fun name site => laysOutElement registry (.nonTerminal name site)) enter) :
    ∀ branches : List (List Element), Within sites branches.flatten →
      Executes sites depth (laysOutBranches registry branches)
        (layoutOfBranches registry enter branches)
  | [], _ => .pure fun _ => ⟨[], .nil⟩
  | branch :: rest, hwithin =>
    (layoutOfSequence_executes henter branch (Within.append_iff.mp hwithin).1).bind
      (fun nodes seen laid followed => ∃ others,
        laysOutBranches registry rest seen others followed ∧ laid = others.map (nodes :: ·))
      (fun _ => (layoutOfBranches_executes henter rest (Within.append_iff.mp hwithin).2).map
        fun hrest => ⟨_, hrest, rfl⟩)
      (fun ⟨links, hfails⟩ => ⟨links, .fails hfails⟩)
      (by
        rintro _ _ _ _ _ ⟨firstLinks, hbranch⟩ ⟨_, ⟨links, hrest⟩, rfl⟩
        exact ⟨firstLinks ++ links, .cons hbranch hrest⟩)

end

/-- The query for a layout has an execution, and comes to its outcome. -/
theorem layout_matches (registry : Registry) (elements : List Element) :
    Matches (laysOut registry elements) [] ((layout registry elements).run ⟨[], []⟩) :=
  layoutOfSequence_executes
    (follow_executes (laysOut_follower registry) (within_sitesFrom_rule registry elements)
      layoutOfSequence_executes _)
    elements (within_sitesFrom registry elements) ⟨[], []⟩ (fresh_sitesFrom_le registry elements)

end Expansion

/-- The layout of a sequence is that of its execution. -/
theorem Registry.exists_laysOut (registry : Registry) (elements : List Element) :
    ∃ sites links, registry.LaysOut guarded [] elements (registry.layout elements) sites links := by
  have hmatches := Expansion.layout_matches registry elements
  rw [layout, Expansion.answer]
  cases hrun : (Expansion.layout registry elements).run ⟨[], []⟩ with
  | error reason after =>
    rw [hrun] at hmatches
    exact hmatches
  | ok nodes after =>
    rw [hrun] at hmatches
    obtain ⟨sites, hlays, _⟩ := hmatches
    exact ⟨sites, hlays⟩

end PegTemplates
