import PegTemplates.Proofs.Expanding.Runs
import PegTemplates.Proofs.Searching.Calls
import PegTemplates.Proofs.Searching.Executions

/-!
# Queries come to an end

With the cycle guard every site is followed once at most in a query, and only sites of the
sequence and of rule bodies are. So the execution of a query is shown to follow no more
references than there are such sites, whatever the rules are: they may be cyclic or undefined,
and references may share their sites. A search is shown to enter no more rule bodies than there
are names of rules, and a cursor to hand out no more tags than stand in the sequence and in
rule bodies before it ends.
-/

namespace PegTemplates

/-- Different keys among others are no more than these hold different ones. -/
theorem length_le_card_toFinset {κ : Type} [DecidableEq κ] {keys others : List κ}
    (hnodup : keys.Nodup) (hothers : keys ⊆ others) : keys.length ≤ others.toFinset.card := by
  rw [← List.toFinset_card_of_nodup hnodup]
  exact Finset.card_le_card fun key hkey =>
    List.mem_toFinset.mpr (hothers (List.mem_toFinset.mp hkey))

/-- Whether sites are met for the first time one after the other, and are all among some. -/
def MetAmong (all seen sites : List Site) : Prop := FirstMet seen sites ∧ sites ⊆ all

namespace MetAmong

variable {all seen sites : List Site}

theorem nil : MetAmong all seen [] := ⟨firstMet_nil, List.nil_subset all⟩

/-- A site is met before those that are met behind it. -/
theorem cons {site : Site} (hsite : site ∈ all) (hnew : site ∉ seen)
    (hmet : MetAmong all (site :: seen) sites) : MetAmong all seen (site :: sites) :=
  ⟨firstMet_cons_iff.mpr ⟨hnew, hmet.1⟩, List.cons_subset.mpr ⟨hsite, hmet.2⟩⟩

/-- Sites are met before those that are met behind them. -/
theorem append {first : List Site} (hfirst : MetAmong all seen first)
    (hmet : MetAmong all (first.reverse ++ seen) sites) : MetAmong all seen (first ++ sites) :=
  ⟨firstMet_append_iff.mpr ⟨hfirst.1, hmet.1⟩, List.append_subset.mpr ⟨hfirst.2, hmet.2⟩⟩

/-- Sites that are met are no more than there are different ones. -/
theorem length_le (hmet : MetAmong all seen sites) : sites.length ≤ all.toFinset.card :=
  length_le_card_toFinset hmet.1.1 hmet.2

end MetAmong

namespace Registry

open Expansion

variable {registry : Registry} {all : List Site}

mutual

/-- Every site that is followed for an element of a link body is met for the first time. -/
theorem CollectsElement.metAmong {seen sites : List Site} {element : Element}
    {collected : Collected} (hrules : ∀ body ∈ registry.rules, Within all body.elements)
    (hwithin : Within all [element]) :
    registry.CollectsElement guarded seen element collected sites → MetAmong all seen sites
  | .captured | .byte | .passedOver _ | .skipped _ => .nil
  | .undefined hnew _ => MetAmong.nil.cons (hwithin ⟨_, _⟩ List.mem_cons_self) hnew
  | .entered hnew hbody hinner =>
    (hinner.metAmong hrules (hrules _ (mem_rules_of_body? hbody).1)).cons
      (hwithin ⟨_, _⟩ List.mem_cons_self) hnew
  | .choice hbranches => hbranches.metAmong hrules (hwithin.inner rfl)

/-- Every site that is followed for a sequence of a link body is met for the first time. -/
theorem Collects.metAmong {seen sites : List Site} {found : Option (List LinkedInner)}
    {elements : List Element} {collected : Collected}
    (hrules : ∀ body ∈ registry.rules, Within all body.elements)
    (hwithin : Within all elements) :
    registry.Collects guarded seen found elements collected sites → MetAmong all seen sites
  | .nil => .nil
  | .fails helement => helement.metAmong hrules hwithin.head
  | .cons helement hrest =>
    (helement.metAmong hrules hwithin.head).append (hrest.metAmong hrules hwithin.tail)

/-- Every site that is followed for branches in a link body is met for the first time. -/
theorem CollectsBranches.metAmong {seen sites : List Site} {found : Option (List LinkedInner)}
    {branches : List (List Element)} {collected : Collected}
    (hrules : ∀ body ∈ registry.rules, Within all body.elements)
    (hwithin : Within all branches.flatten) :
    registry.CollectsBranches guarded seen found branches collected sites →
      MetAmong all seen sites
  | .nil => .nil
  | .fails hbranch => hbranch.metAmong hrules (Within.append_iff.mp hwithin).1
  | .cons hbranch hrest =>
    (hbranch.metAmong hrules (Within.append_iff.mp hwithin).1).append
      (hrest.metAmong hrules (Within.append_iff.mp hwithin).2)

end

mutual

/-- Every site that is followed for an element of a sequence is met for the first time. -/
theorem LaysOutElement.metAmong {seen sites : List Site} {element : Element}
    {laid : Except AnalysisError (List Node)} {links : List LinkQuery}
    (hrules : ∀ body ∈ registry.rules, Within all body.elements)
    (hwithin : Within all [element]) :
    registry.LaysOutElement guarded seen element laid sites links → MetAmong all seen sites
  | .byte | .tag | .captured | .skipped _ | .linked _ => .nil
  | .undefined hnew _ => MetAmong.nil.cons (hwithin ⟨_, _⟩ List.mem_cons_self) hnew
  | .entered hnew hbody hinner =>
    (hinner.metAmong hrules (hrules _ (mem_rules_of_body? hbody).1)).cons
      (hwithin ⟨_, _⟩ List.mem_cons_self) hnew
  | .choice hbranches => hbranches.metAmong hrules (hwithin.inner rfl)
  | .optional hbody | .zeroOrMore hbody | .oneOrMore hbody =>
    hbody.metAmong hrules (hwithin.inner rfl)

/-- Every site that is followed for a sequence is met for the first time. -/
theorem LaysOut.metAmong {seen sites : List Site} {elements : List Element}
    {laid : Except AnalysisError (List Node)} {links : List LinkQuery}
    (hrules : ∀ body ∈ registry.rules, Within all body.elements)
    (hwithin : Within all elements) :
    registry.LaysOut guarded seen elements laid sites links → MetAmong all seen sites
  | .nil => .nil
  | .fails helement => helement.metAmong hrules hwithin.head
  | .cons helement hrest =>
    (helement.metAmong hrules hwithin.head).append (hrest.metAmong hrules hwithin.tail)

/-- Every site that is followed for branches of a sequence is met for the first time. -/
theorem LaysOutBranches.metAmong {seen sites : List Site} {branches : List (List Element)}
    {laid : Except AnalysisError (List (List Node))} {links : List LinkQuery}
    (hrules : ∀ body ∈ registry.rules, Within all body.elements)
    (hwithin : Within all branches.flatten) :
    registry.LaysOutBranches guarded seen branches laid sites links → MetAmong all seen sites
  | .nil => .nil
  | .fails hbranch => hbranch.metAmong hrules (Within.append_iff.mp hwithin).1
  | .cons hbranch hrest =>
    (hbranch.metAmong hrules (Within.append_iff.mp hwithin).1).append
      (hrest.metAmong hrules (Within.append_iff.mp hwithin).2)

end

mutual

/-- In every link body of an element no more sites are followed than there are. -/
theorem LaysOutElement.length_links_le {seen sites : List Site} {element : Element}
    {laid : Except AnalysisError (List Node)} {links : List LinkQuery} :
    registry.LaysOutElement guarded seen element laid sites links → ∀ link ∈ links,
      link.sites.length ≤ (sitesFrom registry link.body).toFinset.card
  | .byte | .tag | .captured | .skipped _ | .undefined _ _ => by simp
  | .entered _ _ hinner => hinner.length_links_le
  | .linked hinner => List.forall_mem_singleton.mpr
    (hinner.metAmong (within_sitesFrom_rule registry _) (within_sitesFrom registry _)).length_le
  | .choice hbranches => hbranches.length_links_le
  | .optional hbody | .zeroOrMore hbody | .oneOrMore hbody => hbody.length_links_le

/-- In every link body of a sequence no more sites are followed than there are. -/
theorem LaysOut.length_links_le {seen sites : List Site} {elements : List Element}
    {laid : Except AnalysisError (List Node)} {links : List LinkQuery} :
    registry.LaysOut guarded seen elements laid sites links → ∀ link ∈ links,
      link.sites.length ≤ (sitesFrom registry link.body).toFinset.card
  | .nil => by simp
  | .fails helement => helement.length_links_le
  | .cons helement hrest =>
    List.forall_mem_append.mpr ⟨helement.length_links_le, hrest.length_links_le⟩

/-- In every link body of branches no more sites are followed than there are. -/
theorem LaysOutBranches.length_links_le {seen sites : List Site} {branches : List (List Element)}
    {laid : Except AnalysisError (List (List Node))} {links : List LinkQuery} :
    registry.LaysOutBranches guarded seen branches laid sites links → ∀ link ∈ links,
      link.sites.length ≤ (sitesFrom registry link.body).toFinset.card
  | .nil => by simp
  | .fails hbranch => hbranch.length_links_le
  | .cons hbranch hrest =>
    List.forall_mem_append.mpr ⟨hbranch.length_links_le, hrest.length_links_le⟩

end

end Registry

/-- A cursor hands out one tag after the other, no more than stand in the sequence and in rule
bodies, and then it ends: with nothing, or with an undefined rule. -/
theorem TagCursor.exists_end (registry : Registry) (elements : List Element) :
    ∃ count ≤ registry.tagBound elements,
      (∀ call < count, ∃ found, (start elements).item registry call = some (.ok found)) ∧
      ((start elements).item registry count = none ∨
        ∃ reason, (start elements).item registry count = some (.error reason)) := by
  let tour := registry.tour Reference.name [] elements
  refine ⟨tour.tags.length, registry.length_tags_le elements, fun call hcall => ?_, ?_⟩
  · have hitem := item_eq registry elements call
    rw [Tour.items_of_tag (List.getElem?_eq_getElem hcall)] at hitem
    rcases hfound : (start elements).item registry call with _ | reason | found
    · rw [hfound] at hitem
      cases hitem
    · rw [hfound] at hitem
      cases hitem
    · exact ⟨found, rfl⟩
  · have hitem := item_eq registry elements tour.tags.length
    cases hstopped : tour.stopped with
    | none =>
      rw [Tour.items_of_ended hstopped, Option.map_eq_none_iff] at hitem
      exact Or.inl hitem
    | some name =>
      rw [Tour.items_of_stopped hstopped] at hitem
      rcases hfound : (start elements).item registry tour.tags.length with _ | reason | found
      · exact Or.inl rfl
      · exact Or.inr ⟨reason, rfl⟩
      · rw [hfound] at hitem
        cases hitem

/-- Every query on a registry comes to an end. The layout of a sequence follows no more references
than there are different sites in it and in rule bodies, and in each link body no more than there
are in that body and in rule bodies; so does the query for the captures of a link body. A search
for a tag enters no more rule bodies than there are different names of rules. A cursor hands out
no more tags than stand in the sequence and in rule bodies before it gives nothing or an error. -/
theorem Registry.queries_end (registry : Registry) (elements : List Element) :
    (∃ sites links,
      registry.LaysOut guarded [] elements (registry.layout elements) sites links ∧
      sites.length ≤ (Expansion.sitesFrom registry elements).toFinset.card ∧
      ∀ link ∈ links,
        link.sites.length ≤ (Expansion.sitesFrom registry link.body).toFinset.card) ∧
    (∃ collected sites, registry.Collects guarded [] none elements collected sites ∧
      registry.linkedInners elements = collected.captures ∧
      sites.length ≤ (Expansion.sitesFrom registry elements).toFinset.card) ∧
    (∀ skip, ∃ outcome names, registry.Searches ⟨skip, []⟩ elements outcome names ∧
      TagSearch.nth registry elements skip = outcome.map Prod.fst ∧
      names.length ≤ (registry.rules.map (·.name)).toFinset.card) ∧
    ∃ count ≤ registry.tagBound elements,
      (∀ call < count,
        ∃ found, (TagCursor.start elements).item registry call = some (.ok found)) ∧
      ((TagCursor.start elements).item registry count = none ∨
        ∃ reason, (TagCursor.start elements).item registry count = some (.error reason)) := by
  have hrules := Expansion.within_sitesFrom_rule registry elements
  have hwithin := Expansion.within_sitesFrom registry elements
  refine ⟨?_, ?_, fun skip => ?_, TagCursor.exists_end registry elements⟩
  · obtain ⟨sites, links, hlays⟩ := registry.exists_laysOut elements
    exact ⟨sites, links, hlays, (hlays.metAmong hrules hwithin).length_le, hlays.length_links_le⟩
  · obtain ⟨collected, sites, hcollects, hinners⟩ := registry.exists_collects elements
    exact ⟨collected, sites, hcollects, hinners, (hcollects.metAmong hrules hwithin).length_le⟩
  · obtain ⟨outcome, names, hsearches, hnth⟩ := registry.exists_searches elements skip
    have hentering := hsearches.entering
    exact ⟨outcome, names, hsearches, hnth,
      length_le_card_toFinset hentering.nodup hentering.defined⟩

end PegTemplates
