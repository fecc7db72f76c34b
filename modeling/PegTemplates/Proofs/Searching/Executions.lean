import PegTemplates.Proofs.Searching.Outcome

/-!
# Executions of a search

What one search for a tag does is written down rule by rule, without any bound on the depth of
the references it follows. A search is shown to have such an execution and to come to its
outcome: wherever a reference is followed there are fewer rules left to enter, so the bound is
never reached. A search enters every rule at most once, and only rules that are defined.
-/

namespace PegTemplates

/-- What a search has come to: its hit, if there is one, and its state then, or the undefined
rule that ended it. -/
abbrev SearchOutcome := Except AnalysisError (Option TagAlternative × TagSearch.Progress)

/-- An outcome whose hit is put into what stands around it. -/
def SearchOutcome.onHit (change : TagAlternative → TagAlternative) (outcome : SearchOutcome) :
    SearchOutcome :=
  outcome.map fun found => (found.1.map change, found.2)

namespace TagAlternative

/-- The way leads into a repetition. -/
def inRound (found : TagAlternative) : TagAlternative := ⟨found.tag, [.oneOrMore found.elements]⟩

/-- The way leads into what stands in front of these elements. -/
def before (rest : List Element) (found : TagAlternative) : TagAlternative :=
  ⟨found.tag, found.elements ++ rest⟩

/-- The way leads into what stands behind that element. -/
def behind (element : Element) (found : TagAlternative) : TagAlternative :=
  ⟨found.tag, element :: found.elements⟩

end TagAlternative

namespace Registry

mutual

/-- What the search of an element comes to, and the names of the rules that are entered in it. -/
inductive SearchesElement (registry : Registry) :
    TagSearch.Progress → Element → SearchOutcome → List String → Prop where
  /-- A tag is hit if none is to be passed over. -/
  | hit {visited : List String} {name : String} :
    SearchesElement registry ⟨0, visited⟩ (.tag name)
      (.ok (some ⟨name, [.tag name]⟩, ⟨0, visited⟩)) []
  /-- Any other tag is passed over. -/
  | passed {left : Nat} {visited : List String} {name : String} :
    SearchesElement registry ⟨left + 1, visited⟩ (.tag name) (.ok (none, ⟨left, visited⟩)) []
  /-- A capture is not searched. -/
  | captured {progress : TagSearch.Progress} {id : ShapeId} :
    SearchesElement registry progress (.captured id) (.ok (none, progress)) []
  /-- A byte is not searched. -/
  | byte {progress : TagSearch.Progress} {value : UInt8} :
    SearchesElement registry progress (.byte value) (.ok (none, progress)) []
  /-- A link is not searched. -/
  | linked {progress : TagSearch.Progress} {label : Option String} {inner : List Element} :
    SearchesElement registry progress (.linked label inner) (.ok (none, progress)) []
  /-- A rule that was entered before is not searched again. -/
  | again {progress : TagSearch.Progress} {name : String} {site : Site} :
    name ∈ progress.visited →
    SearchesElement registry progress (.nonTerminal name site) (.ok (none, progress)) []
  /-- A reference to an undefined rule ends the search. -/
  | undefined {progress : TagSearch.Progress} {name : String} {site : Site} :
    name ∉ progress.visited → registry.body? name = none →
    SearchesElement registry progress (.nonTerminal name site) (.error (.undefinedRule name)) []
  /-- For a reference the body of its rule is searched. -/
  | entered {progress : TagSearch.Progress} {name : String} {site : Site} {body : RuleBody}
    {outcome : SearchOutcome} {names : List String} : name ∉ progress.visited →
    registry.body? name = some body →
    Searches registry { progress with visited := name :: progress.visited } body.elements outcome
      names →
    SearchesElement registry progress (.nonTerminal name site) outcome (name :: names)
  /-- The branches of a choice are searched. -/
  | choice {progress : TagSearch.Progress} {branches : List (List Element)}
    {outcome : SearchOutcome} {names : List String} :
    SearchesBranches registry progress branches outcome names →
    SearchesElement registry progress (.choice branches) outcome names
  /-- The body of an option is searched. -/
  | optional {progress : TagSearch.Progress} {body : List Element} {outcome : SearchOutcome}
    {names : List String} : Searches registry progress body outcome names →
    SearchesElement registry progress (.optional body) outcome names
  /-- The body of a repetition is searched. -/
  | zeroOrMore {progress : TagSearch.Progress} {body : List Element} {outcome : SearchOutcome}
    {names : List String} : Searches registry progress body outcome names →
    SearchesElement registry progress (.zeroOrMore body) (outcome.onHit .inRound) names
  /-- The body of a repetition with a first round is searched. -/
  | oneOrMore {progress : TagSearch.Progress} {body : List Element} {outcome : SearchOutcome}
    {names : List String} : Searches registry progress body outcome names →
    SearchesElement registry progress (.oneOrMore body) (outcome.onHit .inRound) names

/-- What the search of a sequence comes to, and the names of the rules that are entered in it. -/
inductive Searches (registry : Registry) :
    TagSearch.Progress → List Element → SearchOutcome → List String → Prop where
  /-- Where nothing stands nothing is hit. -/
  | nil {progress : TagSearch.Progress} :
    Searches registry progress [] (.ok (none, progress)) []
  /-- An element whose search fails is the last one. -/
  | fails {progress : TagSearch.Progress} {element : Element} {rest : List Element}
    {reason : AnalysisError} {names : List String} :
    SearchesElement registry progress element (.error reason) names →
    Searches registry progress (element :: rest) (.error reason) names
  /-- An element with a hit is the last one. -/
  | hit {progress after : TagSearch.Progress} {element : Element} {rest : List Element}
    {found : TagAlternative} {names : List String} :
    SearchesElement registry progress element (.ok (some found, after)) names →
    Searches registry progress (element :: rest) (.ok (some (found.before rest), after)) names
  /-- Behind an element without a hit the search goes on. -/
  | later {progress after : TagSearch.Progress} {element : Element} {rest : List Element}
    {outcome : SearchOutcome} {first names : List String} :
    SearchesElement registry progress element (.ok (none, after)) first →
    Searches registry after rest outcome names →
    Searches registry progress (element :: rest) (outcome.onHit (.behind element))
      (first ++ names)

/-- What the search of branches comes to, and the names of the rules that are entered in it. -/
inductive SearchesBranches (registry : Registry) :
    TagSearch.Progress → List (List Element) → SearchOutcome → List String → Prop where
  /-- Without branches nothing is hit. -/
  | nil {progress : TagSearch.Progress} :
    SearchesBranches registry progress [] (.ok (none, progress)) []
  /-- A branch whose search fails is the last one. -/
  | fails {progress : TagSearch.Progress} {branch : List Element} {rest : List (List Element)}
    {reason : AnalysisError} {names : List String} :
    Searches registry progress branch (.error reason) names →
    SearchesBranches registry progress (branch :: rest) (.error reason) names
  /-- A branch with a hit is the last one. -/
  | hit {progress after : TagSearch.Progress} {branch : List Element} {rest : List (List Element)}
    {found : TagAlternative} {names : List String} :
    Searches registry progress branch (.ok (some found, after)) names →
    SearchesBranches registry progress (branch :: rest) (.ok (some found, after)) names
  /-- Behind a branch without a hit the search goes on. -/
  | later {progress after : TagSearch.Progress} {branch : List Element}
    {rest : List (List Element)} {outcome : SearchOutcome} {first names : List String} :
    Searches registry progress branch (.ok (none, after)) first →
    SearchesBranches registry after rest outcome names →
    SearchesBranches registry progress (branch :: rest) outcome (first ++ names)

end

/-- Whether the rules entered in a search are different ones, defined, and none of those entered
before, and whether the search keeps all of them in mind. -/
structure Entering (registry : Registry) (visited : List String) (outcome : SearchOutcome)
    (names : List String) : Prop where
  /-- No rule is entered twice. -/
  nodup : names.Nodup
  /-- No rule is entered that was entered before. -/
  disjoint : names.Disjoint visited
  /-- Only defined rules are entered. -/
  defined : names ⊆ registry.rules.map (·.name)
  /-- The rules entered are kept in mind, the latest first. -/
  visited : ∀ hit after, outcome = .ok (hit, after) → after.visited = names.reverse ++ visited

namespace Entering

variable {registry : Registry} {visited names : List String} {outcome other : SearchOutcome}

/-- A search that follows no reference enters no rule. -/
theorem miss {hit : Option TagAlternative} {skip : Nat} :
    Entering registry visited (.ok (hit, ⟨skip, visited⟩)) [] where
  nodup := List.nodup_nil
  disjoint := List.disjoint_nil_left visited
  defined := List.nil_subset _
  visited := by
    rintro _ _ ⟨⟩
    rfl

/-- A search that fails at once enters no rule. -/
theorem failed {reason : AnalysisError} : Entering registry visited (.error reason) [] where
  nodup := List.nodup_nil
  disjoint := List.disjoint_nil_left visited
  defined := List.nil_subset _
  visited := by
    rintro _ _ ⟨⟩

/-- What is said of the rules entered holds if the search ends in the same state. -/
theorem imp (hentering : Entering registry visited outcome names)
    (hother : ∀ hit after, other = .ok (hit, after) → ∃ found, outcome = .ok (found, after)) :
    Entering registry visited other names where
  nodup := hentering.nodup
  disjoint := hentering.disjoint
  defined := hentering.defined
  visited hit after hafter := by
    obtain ⟨found, houtcome⟩ := hother hit after hafter
    exact hentering.visited found after houtcome

/-- A hit that is put into something else does not change the state. -/
theorem onHit (hentering : Entering registry visited outcome names)
    (change : TagAlternative → TagAlternative) :
    Entering registry visited (outcome.onHit change) names := by
  refine hentering.imp fun hit after hafter => ?_
  cases outcome with
  | error reason => cases hafter
  | ok found =>
    cases hafter
    exact ⟨found.1, rfl⟩

/-- A rule is entered before those entered from its body. -/
theorem cons {name : String} {body : RuleBody} (hnew : name ∉ visited)
    (hbody : registry.body? name = some body)
    (hentering : Entering registry (name :: visited) outcome names) :
    Entering registry visited outcome (name :: names) where
  nodup := by
    obtain ⟨hname, _⟩ := List.disjoint_cons_right.mp hentering.disjoint
    exact List.nodup_cons.mpr ⟨hname, hentering.nodup⟩
  disjoint := List.disjoint_cons_left.mpr
    ⟨hnew, (List.disjoint_cons_right.mp hentering.disjoint).2⟩
  defined := by
    obtain ⟨hrule, hname⟩ := mem_rules_of_body? hbody
    exact List.cons_subset.mpr ⟨List.mem_map.mpr ⟨body, hrule, hname⟩, hentering.defined⟩
  visited hit after hafter := by
    rw [hentering.visited hit after hafter, List.reverse_cons, List.append_assoc,
      List.singleton_append]

/-- The rules entered in two searches, one after the other. -/
theorem append {after : TagSearch.Progress} {hit : Option TagAlternative} {first : List String}
    (hfirst : Entering registry visited (.ok (hit, after)) first)
    (hentering : Entering registry after.visited outcome names) :
    Entering registry visited outcome (first ++ names) := by
  have hafter := hfirst.visited hit after rfl
  have hdisjoint := hentering.disjoint
  rw [hafter, List.disjoint_append_right, List.disjoint_reverse_right] at hdisjoint
  exact {
    nodup := List.nodup_append'.mpr ⟨hfirst.nodup, hentering.nodup, hdisjoint.1.symm⟩
    disjoint := List.disjoint_append_left.mpr ⟨hfirst.disjoint, hdisjoint.2⟩
    defined := List.append_subset.mpr ⟨hfirst.defined, hentering.defined⟩
    visited := fun found final hfinal => by
      rw [hentering.visited found final hfinal, hafter, List.reverse_append, List.append_assoc] }

end Entering

variable {registry : Registry}

mutual

/-- The search of an element enters no rule twice. -/
theorem SearchesElement.entering {progress : TagSearch.Progress} {element : Element}
    {outcome : SearchOutcome} {names : List String} :
    registry.SearchesElement progress element outcome names →
      registry.Entering progress.visited outcome names
  | .hit | .passed | .captured | .byte | .linked | .again _ => .miss
  | .undefined _ _ => .failed
  | .entered hnew hbody hinner => hinner.entering.cons hnew hbody
  | .choice hbranches => hbranches.entering
  | .optional hbody => hbody.entering
  | .zeroOrMore hbody | .oneOrMore hbody => hbody.entering.onHit _

/-- The search of a sequence enters no rule twice. -/
theorem Searches.entering {progress : TagSearch.Progress} {elements : List Element}
    {outcome : SearchOutcome} {names : List String} :
    registry.Searches progress elements outcome names →
      registry.Entering progress.visited outcome names
  | .nil => .miss
  | .fails helement => helement.entering
  | .hit helement => helement.entering.imp fun _ _ hhit => by
    cases hhit
    exact ⟨_, rfl⟩
  | .later helement hrest => helement.entering.append (hrest.entering.onHit _)

/-- The search of branches enters no rule twice. -/
theorem SearchesBranches.entering {progress : TagSearch.Progress}
    {branches : List (List Element)} {outcome : SearchOutcome} {names : List String} :
    registry.SearchesBranches progress branches outcome names →
      registry.Entering progress.visited outcome names
  | .nil => .miss
  | .fails hbranch => hbranch.entering
  | .hit hbranch => hbranch.entering
  | .later hbranch hrest => hbranch.entering.append hrest.entering

end

end Registry

namespace TagSearch

/-- What a search comes to from a state, and the names of the rules that are entered in it. -/
abbrev Execution := Progress → SearchOutcome → List String → Prop

variable {registry : Registry} {depth : Nat}

/-- Whether a search comes to what an execution does, from every state in which at most that
many of the defined rules have not been entered. -/
def Executes (registry : Registry) (depth : Nat) (execution : Execution)
    (search : SearchM (Option TagAlternative)) : Prop :=
  ∀ progress, fresh (registry.rules.map (·.name)) progress.visited ≤ depth →
    ∃ names, execution progress (search.run progress) names

namespace Executes

variable {execution first joined : Execution} {search : SearchM (Option TagAlternative)}

/-- A search that misses at once. -/
theorem miss (hmiss : ∀ progress, execution progress (.ok (none, progress)) []) :
    Executes registry depth execution (pure none) :=
  fun progress _ => ⟨[], hmiss progress⟩

/-- What a search comes to for another reason. -/
theorem imp (hsearch : Executes registry depth execution search)
    (himp : ∀ {progress outcome names}, execution progress outcome names →
      joined progress outcome names) : Executes registry depth joined search :=
  fun progress hdepth => (hsearch progress hdepth).imp fun _ => himp

/-- A hit may be put into what stands around it. -/
theorem onHit (hsearch : Executes registry depth execution search)
    (change : TagAlternative → TagAlternative)
    (hchange : ∀ {progress outcome names}, execution progress outcome names →
      joined progress (outcome.onHit change) names) :
    Executes registry depth joined (onHit change search) := by
  intro progress hdepth
  obtain ⟨names, hresult⟩ := hsearch progress hdepth
  refine ⟨names, ?_⟩
  have hjoined := hchange hresult
  rw [run_onHit]
  cases hrun : search.run progress with
  | error reason =>
    rw [hrun] at hjoined
    exact hjoined
  | ok found =>
    rw [hrun] at hjoined
    exact hjoined

/-- One search and, unless it hits, another. -/
theorem orElse {other : SearchM (Option TagAlternative)}
    (hsearch : Executes registry depth first search) (change : TagAlternative → TagAlternative)
    (second : Execution)
    (hother : Executes registry depth second other)
    (hentering : ∀ {progress outcome names}, first progress outcome names →
      registry.Entering progress.visited outcome names)
    (hfails : ∀ {progress reason names}, first progress (.error reason) names →
      joined progress (.error reason) names)
    (hhit : ∀ {progress found after names}, first progress (.ok (some found, after)) names →
      joined progress (.ok (some (change found), after)) names)
    (hlater : ∀ {progress after outcome names more}, first progress (.ok (none, after)) names →
      second after outcome more → joined progress outcome (names ++ more)) :
    Executes registry depth joined (orElse search change other) := by
  intro progress hdepth
  obtain ⟨names, hresult⟩ := hsearch progress hdepth
  rw [run_orElse]
  rcases hrun : search.run progress with reason | ⟨_ | found, after⟩
  · rw [hrun] at hresult
    exact ⟨names, hfails hresult⟩
  · rw [hrun] at hresult
    have hfewer : fresh (registry.rules.map (·.name)) after.visited ≤ depth := by
      refine Nat.le_trans (fresh_le (fun _ hname => hname) fun name hname => ?_) hdepth
      rw [(hentering hresult).visited none after rfl]
      exact List.mem_append_right _ hname
    obtain ⟨more, hrest⟩ := hother after hfewer
    exact ⟨names ++ more, hlater hresult hrest⟩
  · rw [hrun] at hresult
    exact ⟨names, hhit hresult⟩

end Executes

/-- Whether what is done at references comes to what their executions do. -/
def Enters.Executes (registry : Registry) (depth : Nat)
    (enter : String → SearchM (Option TagAlternative)) : Prop :=
  ∀ name site, TagSearch.Executes registry depth
    (registry.SearchesElement · (.nonTerminal name site)) (enter name)

/-- A search hits a tag, or passes it over. -/
theorem tag_executes {enter : String → SearchM (Option TagAlternative)} (name : String) :
    Executes registry depth (registry.SearchesElement · (.tag name))
      (inElement enter (.tag name)) := by
  rintro ⟨skip, visited⟩ _
  cases skip with
  | zero => exact ⟨[], .hit⟩
  | succ left => exact ⟨[], .passed⟩

mutual

/-- The search of an element comes to what its execution does, if that holds of the references in
it. -/
theorem inElement_executes {enter : String → SearchM (Option TagAlternative)}
    (henter : Enters.Executes registry depth enter) : ∀ element : Element,
      Executes registry depth (registry.SearchesElement · element) (inElement enter element)
  | .tag name => tag_executes name
  | .choice branches => (inBranches_executes henter branches).imp .choice
  | .optional body => (inSequence_executes henter body).imp .optional
  | .zeroOrMore body => (inSequence_executes henter body).onHit .inRound .zeroOrMore
  | .oneOrMore body => (inSequence_executes henter body).onHit .inRound .oneOrMore
  | .nonTerminal name site => henter name site
  | .captured _ => .miss fun _ => .captured
  | .byte _ => .miss fun _ => .byte
  | .linked _ _ => .miss fun _ => .linked

/-- The search of a sequence comes to what its execution does, if that holds of the references in
it. -/
theorem inSequence_executes {enter : String → SearchM (Option TagAlternative)}
    (henter : Enters.Executes registry depth enter) : ∀ elements : List Element,
      Executes registry depth (registry.Searches · elements) (inSequence enter elements)
  | [] => .miss fun _ => .nil
  | element :: rest =>
    (inElement_executes henter element).orElse (.before rest)
      (fun progress outcome names => ∃ inner,
        registry.Searches progress rest inner names ∧ outcome = inner.onHit (.behind element))
      ((inSequence_executes henter rest).onHit (.behind element) fun hrest => ⟨_, hrest, rfl⟩)
      (fun helement => helement.entering) .fails .hit
      (by
        rintro _ _ _ _ _ helement ⟨_, hrest, rfl⟩
        exact .later helement hrest)

/-- The search of branches comes to what their execution does, if that holds of the references in
them. -/
theorem inBranches_executes {enter : String → SearchM (Option TagAlternative)}
    (henter : Enters.Executes registry depth enter) : ∀ branches : List (List Element),
      Executes registry depth (registry.SearchesBranches · branches) (inBranches enter branches)
  | [] => .miss fun _ => .nil
  | branch :: rest =>
    (inSequence_executes henter branch).orElse id _ (inBranches_executes henter rest)
      (fun hbranch => hbranch.entering) .fails .hit .later

end

/-- Following a reference comes to what its execution does if the search of the body of its rule
does. -/
theorem once_executes {name : String} {search : List Element → SearchM (Option TagAlternative)}
    (hsearch : ∀ body, registry.body? name = some body → ∀ limit, limit < depth →
      Executes registry limit (registry.Searches · body.elements) (search body.elements))
    (site : Site) : Executes registry depth (registry.SearchesElement · (.nonTerminal name site))
      (once registry name search) := by
  intro progress hdepth
  rw [run_once]
  by_cases hseen : name ∈ progress.visited
  · rw [if_pos hseen]
    exact ⟨[], .again hseen⟩
  · rw [if_neg hseen]
    cases hbody : registry.body? name with
    | none => exact ⟨[], .undefined hseen hbody⟩
    | some body =>
      obtain ⟨hrule, hname⟩ := Registry.mem_rules_of_body? hbody
      have hfewer := fresh_cons_lt (fun _ hkey => hkey)
        (List.mem_map.mpr ⟨body, hrule, hname⟩) hseen
      obtain ⟨names, hinner⟩ := hsearch body hbody _ (Nat.lt_of_lt_of_le hfewer hdepth)
        { progress with visited := name :: progress.visited } (Nat.le_refl _)
      exact ⟨name :: names, .entered hseen hbody hinner⟩

/-- Following references comes to what their executions do, if it may go as deep as there are
defined rules that have not been entered. -/
theorem follow_executes (registry : Registry) (depth : Nat) :
    Enters.Executes registry depth (follow registry depth) := by
  induction depth with
  | zero =>
    intro name site
    exact once_executes (fun _ _ limit hlimit => absurd hlimit (Nat.not_lt_zero limit)) site
  | succ depth ih =>
    intro name site
    refine once_executes (fun body _ limit hlimit => ?_) site
    intro progress hfresh
    exact inSequence_executes ih body.elements progress
      (Nat.le_trans hfresh (Nat.le_of_lt_succ hlimit))

end TagSearch

/-- A search has an execution, and comes to its outcome. -/
theorem Registry.exists_searches (registry : Registry) (elements : List Element) (skip : Nat) :
    ∃ outcome names, registry.Searches ⟨skip, []⟩ elements outcome names ∧
      TagSearch.nth registry elements skip = outcome.map Prod.fst := by
  have hfresh := Nat.le_trans (fresh_nil_le (registry.rules.map (·.name)))
    (Nat.le_of_eq (List.length_map _))
  obtain ⟨names, hsearches⟩ := TagSearch.inSequence_executes
    (TagSearch.follow_executes registry registry.rules.length) elements ⟨skip, []⟩ hfresh
  refine ⟨_, names, hsearches, ?_⟩
  unfold TagSearch.nth
  rcases (TagSearch.inSequence _ elements).run ⟨skip, []⟩ with reason | ⟨hit, after⟩ <;> rfl

end PegTemplates
