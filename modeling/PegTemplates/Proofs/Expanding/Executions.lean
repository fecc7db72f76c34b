import Mathlib.Data.List.Nodup
import Mathlib.Tactic.Tauto
import PegTemplates.Expansion
import PegTemplates.Proofs.Linking.Readings

/-!
# Executions of a query

What it takes to answer a query on the registry is written down rule by rule, without any
bound on the depth: the link bodies that are reduced to their captures, and the sequences that
are laid out. The rules leave open which sites are skipped. With the cycle guard it is those
that were met before, without it there are none, and every reference is replaced by the body
of its rule. Either way an element comes to one outcome at most, over one list of sites.
-/

namespace PegTemplates

/-- Which sites are skipped behind those met before. -/
abbrev GuardRule := List Site → Site → Prop

/-- The cycle guard: what was met before is skipped. -/
def guarded : GuardRule := fun seen site => site ∈ seen

/-- No guard: nothing is skipped. -/
def unguarded : GuardRule := fun _ _ => False

/-- Whether sites are met for the first time one after the other, behind those met before. -/
def FirstMet (seen sites : List Site) : Prop := sites.Nodup ∧ sites.Disjoint seen

theorem firstMet_nil {seen : List Site} : FirstMet seen [] :=
  ⟨List.nodup_nil, List.disjoint_nil_left seen⟩

/-- A site behind which others are met is one of those met before them. -/
theorem firstMet_cons_iff {seen sites : List Site} {site : Site} :
    FirstMet seen (site :: sites) ↔ site ∉ seen ∧ FirstMet (site :: seen) sites := by
  rw [FirstMet, FirstMet, List.nodup_cons, List.disjoint_cons_left, List.disjoint_cons_right]
  tauto

/-- Sites behind which others are met are among those met before them. -/
theorem firstMet_append_iff {seen first sites : List Site} :
    FirstMet seen (first ++ sites) ↔
      FirstMet seen first ∧ FirstMet (first.reverse ++ seen) sites := by
  have hswap : sites.Disjoint first ↔ first.Disjoint sites := List.disjoint_comm
  rw [FirstMet, FirstMet, FirstMet, List.nodup_append', List.disjoint_append_left,
    List.disjoint_append_right, List.disjoint_reverse_right, hswap]
  tauto

/-- What has been found in a link body, or the undefined rule met in it. -/
abbrev Collected := Except AnalysisError (Option (List LinkedInner))

/-- The body of a link, reduced to its captures while a sequence is laid out. -/
structure LinkQuery where
  /-- What stands in the link. -/
  body : List Element
  /-- The sites that were followed in it, in order. -/
  sites : List Site

/-- The captures of a link body: the first entry for each. -/
def Collected.captures (collected : Collected) : Except AnalysisError (List LinkedInner) :=
  collected.map fun found => Expansion.distinctCaptures [] (found.getD [])

namespace Registry

mutual

/-- What an element contributes to a link body behind the sites met before, and the sites that
are followed for it. -/
inductive CollectsElement (registry : Registry) (skips : GuardRule) :
    List Site → Element → Collected → List Site → Prop where
  /-- A capture contributes itself. -/
  | captured {seen : List Site} {id : ShapeId} :
    CollectsElement registry skips seen (.captured id) (.ok (some [.ofCapture id])) []
  /-- A byte contributes its text. -/
  | byte {seen : List Site} {value : UInt8} :
    CollectsElement registry skips seen (.byte value) (.ok (some [.ofByte value])) []
  /-- What is passed over contributes nothing. -/
  | passedOver {seen : List Site} {element : Element} : element.isPassedOver = true →
    CollectsElement registry skips seen element (.ok none) []
  /-- A site that is skipped contributes nothing. -/
  | skipped {seen : List Site} {name : String} {site : Site} : skips seen site →
    CollectsElement registry skips seen (.nonTerminal name site) (.ok none) []
  /-- A reference to an undefined rule ends the query. -/
  | undefined {seen : List Site} {name : String} {site : Site} : ¬ skips seen site →
    registry.body? name = none →
    CollectsElement registry skips seen (.nonTerminal name site)
      (.error (.undefinedRule name)) [site]
  /-- A reference contributes what the body of its rule does. -/
  | entered {seen sites : List Site} {name : String} {site : Site} {body : RuleBody}
    {collected : Collected} : ¬ skips seen site → registry.body? name = some body →
    Collects registry skips (site :: seen) none body.elements collected sites →
    CollectsElement registry skips seen (.nonTerminal name site) collected (site :: sites)
  /-- A choice contributes what its branches do. -/
  | choice {seen sites : List Site} {branches : List (List Element)} {collected : Collected} :
    CollectsBranches registry skips seen none branches collected sites →
    CollectsElement registry skips seen (.choice branches) collected sites

/-- What a sequence contributes to a link body behind what was found there. -/
inductive Collects (registry : Registry) (skips : GuardRule) :
    List Site → Option (List LinkedInner) → List Element → Collected → List Site → Prop where
  /-- At the end there is what was found. -/
  | nil {seen : List Site} {found : Option (List LinkedInner)} :
    Collects registry skips seen found [] (.ok found) []
  /-- An element that fails is the last one. -/
  | fails {seen sites : List Site} {found : Option (List LinkedInner)} {element : Element}
    {rest : List Element} {reason : AnalysisError} :
    CollectsElement registry skips seen element (.error reason) sites →
    Collects registry skips seen found (element :: rest) (.error reason) sites
  /-- What an element contributes is joined to what was found before it. -/
  | cons {seen first sites : List Site} {found next : Option (List LinkedInner)}
    {element : Element} {rest : List Element} {collected : Collected} :
    CollectsElement registry skips seen element (.ok next) first →
    Collects registry skips (first.reverse ++ seen) (Expansion.joinParts found next) rest
      collected sites →
    Collects registry skips seen found (element :: rest) collected (first ++ sites)

/-- What the branches of a choice contribute next to what was found in those before. -/
inductive CollectsBranches (registry : Registry) (skips : GuardRule) :
    List Site → Option (List LinkedInner) → List (List Element) → Collected → List Site →
      Prop where
  /-- At the end there is what was found. -/
  | nil {seen : List Site} {found : Option (List LinkedInner)} :
    CollectsBranches registry skips seen found [] (.ok found) []
  /-- A branch that fails is the last one. -/
  | fails {seen sites : List Site} {found : Option (List LinkedInner)} {branch : List Element}
    {rest : List (List Element)} {reason : AnalysisError} :
    Collects registry skips seen none branch (.error reason) sites →
    CollectsBranches registry skips seen found (branch :: rest) (.error reason) sites
  /-- What a branch contributes is listed behind what was found before it. -/
  | cons {seen first sites : List Site} {found next : Option (List LinkedInner)}
    {branch : List Element} {rest : List (List Element)} {collected : Collected} :
    Collects registry skips seen none branch (.ok next) first →
    CollectsBranches registry skips (first.reverse ++ seen) (Expansion.unionParts found next)
      rest collected sites →
    CollectsBranches registry skips seen found (branch :: rest) collected (first ++ sites)

end

mutual

/-- What an element is laid out to behind the sites met before, the sites that are followed for
it, and the link bodies that are reduced to their captures. -/
inductive LaysOutElement (registry : Registry) (skips : GuardRule) :
    List Site → Element → Except AnalysisError (List Node) → List Site → List LinkQuery →
      Prop where
  /-- A byte is text. -/
  | byte {seen : List Site} {value : UInt8} :
    LaysOutElement registry skips seen (.byte value) (.ok [.text value]) [] []
  /-- A tag leaves no node. -/
  | tag {seen : List Site} {name : String} :
    LaysOutElement registry skips seen (.tag name) (.ok []) [] []
  /-- A capture outside links leaves no node. -/
  | captured {seen : List Site} {id : ShapeId} :
    LaysOutElement registry skips seen (.captured id) (.ok []) [] []
  /-- A site that is skipped leaves no node. -/
  | skipped {seen : List Site} {name : String} {site : Site} : skips seen site →
    LaysOutElement registry skips seen (.nonTerminal name site) (.ok []) [] []
  /-- A reference to an undefined rule ends the query. -/
  | undefined {seen : List Site} {name : String} {site : Site} : ¬ skips seen site →
    registry.body? name = none →
    LaysOutElement registry skips seen (.nonTerminal name site)
      (.error (.undefinedRule name)) [site] []
  /-- In place of a reference stands the layout of the body of its rule. -/
  | entered {seen sites : List Site} {name : String} {site : Site} {body : RuleBody}
    {laid : Except AnalysisError (List Node)} {links : List LinkQuery} :
    ¬ skips seen site → registry.body? name = some body →
    LaysOut registry skips (site :: seen) body.elements laid sites links →
    LaysOutElement registry skips seen (.nonTerminal name site) laid (site :: sites) links
  /-- A link is a node with the captures of its body, which is a query of its own. -/
  | linked {seen sites : List Site} {label : Option String} {inner : List Element}
    {collected : Collected} : Collects registry skips [] none inner collected sites →
    LaysOutElement registry skips seen (.linked label inner)
      (collected.captures.map fun inners => [.link ⟨label, inners⟩]) [] [⟨inner, sites⟩]
  /-- A choice is a node of its branches. -/
  | choice {seen sites : List Site} {branches : List (List Element)}
    {laid : Except AnalysisError (List (List Node))} {links : List LinkQuery} :
    LaysOutBranches registry skips seen branches laid sites links →
    LaysOutElement registry skips seen (.choice branches) (laid.map ([.choice ·])) sites links
  /-- An option is a node of its body. -/
  | optional {seen sites : List Site} {body : List Element}
    {laid : Except AnalysisError (List Node)} {links : List LinkQuery} :
    LaysOut registry skips seen body laid sites links →
    LaysOutElement registry skips seen (.optional body) (laid.map ([.optional ·])) sites links
  /-- A repetition is a node of its body. -/
  | zeroOrMore {seen sites : List Site} {body : List Element}
    {laid : Except AnalysisError (List Node)} {links : List LinkQuery} :
    LaysOut registry skips seen body laid sites links →
    LaysOutElement registry skips seen (.zeroOrMore body) (laid.map ([.zeroOrMore ·])) sites links
  /-- A repetition with a first round is a node of its body. -/
  | oneOrMore {seen sites : List Site} {body : List Element}
    {laid : Except AnalysisError (List Node)} {links : List LinkQuery} :
    LaysOut registry skips seen body laid sites links →
    LaysOutElement registry skips seen (.oneOrMore body) (laid.map ([.oneOrMore ·])) sites links

/-- What a sequence is laid out to behind the sites met before. -/
inductive LaysOut (registry : Registry) (skips : GuardRule) :
    List Site → List Element → Except AnalysisError (List Node) → List Site → List LinkQuery →
      Prop where
  /-- Nothing is laid out to no node. -/
  | nil {seen : List Site} : LaysOut registry skips seen [] (.ok []) [] []
  /-- An element that fails is the last one. -/
  | fails {seen sites : List Site} {element : Element} {rest : List Element}
    {reason : AnalysisError} {links : List LinkQuery} :
    LaysOutElement registry skips seen element (.error reason) sites links →
    LaysOut registry skips seen (element :: rest) (.error reason) sites links
  /-- The nodes of an element stand before those of the elements behind it. -/
  | cons {seen first sites : List Site} {element : Element} {rest : List Element}
    {nodes : List Node} {laid : Except AnalysisError (List Node)}
    {firstLinks links : List LinkQuery} :
    LaysOutElement registry skips seen element (.ok nodes) first firstLinks →
    LaysOut registry skips (first.reverse ++ seen) rest laid sites links →
    LaysOut registry skips seen (element :: rest) (laid.map (nodes ++ ·)) (first ++ sites)
      (firstLinks ++ links)

/-- What the branches of a choice are laid out to behind the sites met before. -/
inductive LaysOutBranches (registry : Registry) (skips : GuardRule) :
    List Site → List (List Element) → Except AnalysisError (List (List Node)) → List Site →
      List LinkQuery → Prop where
  /-- Without branches there is nothing to lay out. -/
  | nil {seen : List Site} : LaysOutBranches registry skips seen [] (.ok []) [] []
  /-- A branch that fails is the last one. -/
  | fails {seen sites : List Site} {branch : List Element} {rest : List (List Element)}
    {reason : AnalysisError} {links : List LinkQuery} :
    LaysOut registry skips seen branch (.error reason) sites links →
    LaysOutBranches registry skips seen (branch :: rest) (.error reason) sites links
  /-- The branches are laid out one after the other. -/
  | cons {seen first sites : List Site} {branch : List Element} {rest : List (List Element)}
    {nodes : List Node} {laid : Except AnalysisError (List (List Node))}
    {firstLinks links : List LinkQuery} :
    LaysOut registry skips seen branch (.ok nodes) first firstLinks →
    LaysOutBranches registry skips (first.reverse ++ seen) rest laid sites links →
    LaysOutBranches registry skips seen (branch :: rest) (laid.map (nodes :: ·))
      (first ++ sites) (firstLinks ++ links)

end

variable {registry : Registry} {skips : GuardRule}

mutual

/-- An element of a link body comes to one outcome, over one list of sites. -/
theorem CollectsElement.unique {seen sites otherSites : List Site} {element : Element}
    {collected other : Collected} :
    registry.CollectsElement skips seen element collected sites →
      registry.CollectsElement skips seen element other otherSites →
      collected = other ∧ sites = otherSites
  | .captured => fun hother => by
    cases hother with
    | captured => exact ⟨rfl, rfl⟩
    | passedOver hpassed => cases hpassed
  | .byte => fun hother => by
    cases hother with
    | byte => exact ⟨rfl, rfl⟩
    | passedOver hpassed => cases hpassed
  | .passedOver hpassed => fun hother => by
    cases hother with
    | passedOver => exact ⟨rfl, rfl⟩
    | _ => cases hpassed
  | .skipped hskips => fun hother => by
    cases hother with
    | skipped => exact ⟨rfl, rfl⟩
    | undefined hmet => exact absurd hskips hmet
    | entered hmet => exact absurd hskips hmet
    | passedOver hpassed => cases hpassed
  | .undefined hmet hnone => fun hother => by
    cases hother with
    | skipped hskips => exact absurd hskips hmet
    | undefined => exact ⟨rfl, rfl⟩
    | entered _ hbody => rw [hnone] at hbody; cases hbody
    | passedOver hpassed => cases hpassed
  | .entered hmet hbody hinner => fun hother => by
    cases hother with
    | skipped hskips => exact absurd hskips hmet
    | undefined _ hnone => rw [hnone] at hbody; cases hbody
    | entered _ hsame hotherInner =>
      obtain rfl := Option.some.inj (hbody.symm.trans hsame)
      obtain ⟨rfl, rfl⟩ := hinner.unique hotherInner
      exact ⟨rfl, rfl⟩
    | passedOver hpassed => cases hpassed
  | .choice hbranches => fun hother => by
    cases hother with
    | choice hothers => exact hbranches.unique hothers
    | passedOver hpassed => cases hpassed

/-- A sequence of a link body comes to one outcome, over one list of sites. -/
theorem Collects.unique {seen sites otherSites : List Site} {found : Option (List LinkedInner)}
    {elements : List Element} {collected other : Collected} :
    registry.Collects skips seen found elements collected sites →
      registry.Collects skips seen found elements other otherSites →
      collected = other ∧ sites = otherSites
  | .nil => fun hother => by
    cases hother
    exact ⟨rfl, rfl⟩
  | .fails hfails => fun hother => by
    cases hother with
    | fails hother =>
      obtain ⟨hreason, rfl⟩ := hfails.unique hother
      cases hreason
      exact ⟨rfl, rfl⟩
    | cons hother => cases (hfails.unique hother).1
  | .cons helement hrest => fun hother => by
    cases hother with
    | fails hother => cases (helement.unique hother).1
    | cons hother hothers =>
      obtain ⟨hnext, rfl⟩ := helement.unique hother
      cases hnext
      obtain ⟨rfl, rfl⟩ := hrest.unique hothers
      exact ⟨rfl, rfl⟩

/-- The branches of a choice in a link body come to one outcome, over one list of sites. -/
theorem CollectsBranches.unique {seen sites otherSites : List Site}
    {found : Option (List LinkedInner)} {branches : List (List Element)}
    {collected other : Collected} :
    registry.CollectsBranches skips seen found branches collected sites →
      registry.CollectsBranches skips seen found branches other otherSites →
      collected = other ∧ sites = otherSites
  | .nil => fun hother => by
    cases hother
    exact ⟨rfl, rfl⟩
  | .fails hfails => fun hother => by
    cases hother with
    | fails hother =>
      obtain ⟨hreason, rfl⟩ := hfails.unique hother
      cases hreason
      exact ⟨rfl, rfl⟩
    | cons hother => cases (hfails.unique hother).1
  | .cons hbranch hrest => fun hother => by
    cases hother with
    | fails hother => cases (hbranch.unique hother).1
    | cons hother hothers =>
      obtain ⟨hnext, rfl⟩ := hbranch.unique hother
      cases hnext
      obtain ⟨rfl, rfl⟩ := hrest.unique hothers
      exact ⟨rfl, rfl⟩

end

mutual

/-- An element is laid out in one way, over one list of sites and with the same link bodies. -/
theorem LaysOutElement.unique {seen sites otherSites : List Site} {element : Element}
    {laid other : Except AnalysisError (List Node)} {links otherLinks : List LinkQuery} :
    registry.LaysOutElement skips seen element laid sites links →
      registry.LaysOutElement skips seen element other otherSites otherLinks →
      laid = other ∧ sites = otherSites ∧ links = otherLinks
  | .byte | .tag | .captured => fun hother => by
    cases hother
    exact ⟨rfl, rfl, rfl⟩
  | .skipped hskips => fun hother => by
    cases hother with
    | skipped => exact ⟨rfl, rfl, rfl⟩
    | undefined hmet => exact absurd hskips hmet
    | entered hmet => exact absurd hskips hmet
  | .undefined hmet hnone => fun hother => by
    cases hother with
    | skipped hskips => exact absurd hskips hmet
    | undefined => exact ⟨rfl, rfl, rfl⟩
    | entered _ hbody => rw [hnone] at hbody; cases hbody
  | .entered hmet hbody hinner => fun hother => by
    cases hother with
    | skipped hskips => exact absurd hskips hmet
    | undefined _ hnone => rw [hnone] at hbody; cases hbody
    | entered _ hsame hotherInner =>
      obtain rfl := Option.some.inj (hbody.symm.trans hsame)
      obtain ⟨rfl, rfl, rfl⟩ := hinner.unique hotherInner
      exact ⟨rfl, rfl, rfl⟩
  | .linked hinner => fun hother => by
    cases hother with
    | linked hother =>
      obtain ⟨rfl, rfl⟩ := hinner.unique hother
      exact ⟨rfl, rfl, rfl⟩
  | .choice hbranches => fun hother => by
    cases hother with
    | choice hothers =>
      obtain ⟨rfl, rfl, rfl⟩ := hbranches.unique hothers
      exact ⟨rfl, rfl, rfl⟩
  | .optional hbody => fun hother => by
    cases hother with
    | optional hother =>
      obtain ⟨rfl, rfl, rfl⟩ := hbody.unique hother
      exact ⟨rfl, rfl, rfl⟩
  | .zeroOrMore hbody => fun hother => by
    cases hother with
    | zeroOrMore hother =>
      obtain ⟨rfl, rfl, rfl⟩ := hbody.unique hother
      exact ⟨rfl, rfl, rfl⟩
  | .oneOrMore hbody => fun hother => by
    cases hother with
    | oneOrMore hother =>
      obtain ⟨rfl, rfl, rfl⟩ := hbody.unique hother
      exact ⟨rfl, rfl, rfl⟩

/-- A sequence is laid out in one way, over one list of sites and with the same link bodies. -/
theorem LaysOut.unique {seen sites otherSites : List Site} {elements : List Element}
    {laid other : Except AnalysisError (List Node)} {links otherLinks : List LinkQuery} :
    registry.LaysOut skips seen elements laid sites links →
      registry.LaysOut skips seen elements other otherSites otherLinks →
      laid = other ∧ sites = otherSites ∧ links = otherLinks
  | .nil => fun hother => by
    cases hother
    exact ⟨rfl, rfl, rfl⟩
  | .fails hfails => fun hother => by
    cases hother with
    | fails hother =>
      obtain ⟨hreason, rfl, rfl⟩ := hfails.unique hother
      cases hreason
      exact ⟨rfl, rfl, rfl⟩
    | cons hother => cases (hfails.unique hother).1
  | .cons helement hrest => fun hother => by
    cases hother with
    | fails hother => cases (helement.unique hother).1
    | cons hother hothers =>
      obtain ⟨hnodes, rfl, rfl⟩ := helement.unique hother
      cases hnodes
      obtain ⟨rfl, rfl, rfl⟩ := hrest.unique hothers
      exact ⟨rfl, rfl, rfl⟩

/-- Branches are laid out in one way, over one list of sites and with the same link bodies. -/
theorem LaysOutBranches.unique {seen sites otherSites : List Site}
    {branches : List (List Element)} {laid other : Except AnalysisError (List (List Node))}
    {links otherLinks : List LinkQuery} :
    registry.LaysOutBranches skips seen branches laid sites links →
      registry.LaysOutBranches skips seen branches other otherSites otherLinks →
      laid = other ∧ sites = otherSites ∧ links = otherLinks
  | .nil => fun hother => by
    cases hother
    exact ⟨rfl, rfl, rfl⟩
  | .fails hfails => fun hother => by
    cases hother with
    | fails hother =>
      obtain ⟨hreason, rfl, rfl⟩ := hfails.unique hother
      cases hreason
      exact ⟨rfl, rfl, rfl⟩
    | cons hother => cases (hfails.unique hother).1
  | .cons hbranch hrest => fun hother => by
    cases hother with
    | fails hother => cases (hbranch.unique hother).1
    | cons hother hothers =>
      obtain ⟨hnodes, rfl, rfl⟩ := hbranch.unique hother
      cases hnodes
      obtain ⟨rfl, rfl, rfl⟩ := hrest.unique hothers
      exact ⟨rfl, rfl, rfl⟩

end

end Registry

end PegTemplates
