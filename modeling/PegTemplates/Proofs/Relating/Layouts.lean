import PegTemplates.Proofs.Expanding.Layouts
import PegTemplates.Proofs.Relating.Embedding

/-!
# Layouts under new numbers

An expansion compares sites and nothing else of a reference but its name, and a link body is
reduced to captures that are told apart. As no two sites and no two shapes get the same number,
a registry that stands for the same has the same layouts under the new numbers, also if an
expansion may go deeper there.
-/

namespace PegTemplates

section Renumber

variable (numbers : Renumbering)

/-- A way of reaching a capture under new numbers. -/
def LinkedInner.renumber (inner : LinkedInner) : LinkedInner :=
  { inner with capture := inner.capture.map numbers.capture }

/-- A link under new numbers. -/
def Link.renumber (target : Link) : Link :=
  ⟨target.label, target.inners.map (·.renumber numbers)⟩

mutual

/-- A node under new numbers. -/
def Node.renumber : Node → Node
  | .text value => .text value
  | .link target => .link (target.renumber numbers)
  | .choice branches => .choice (Node.renumberBranches branches)
  | .optional body => .optional (Node.renumberEach body)
  | .zeroOrMore body => .zeroOrMore (Node.renumberEach body)
  | .oneOrMore body => .oneOrMore (Node.renumberEach body)

/-- The nodes of a layout under new numbers. -/
def Node.renumberEach : List Node → List Node
  | [] => []
  | node :: rest => node.renumber :: Node.renumberEach rest

/-- The branches of a choice under new numbers. -/
def Node.renumberBranches : List (List Node) → List (List Node)
  | [] => []
  | branch :: rest => Node.renumberEach branch :: Node.renumberBranches rest

end

theorem Node.renumberEach_append (first next : List Node) :
    Node.renumberEach numbers (first ++ next) =
      Node.renumberEach numbers first ++ Node.renumberEach numbers next := by
  induction first with
  | nil => rfl
  | cons node rest ih => rw [List.cons_append, renumberEach, ih]; rfl

/-- Parts that are joined have the same capture. -/
theorem LinkedInner.join_renumber (first next : LinkedInner) :
    (first.renumber numbers).join (next.renumber numbers) =
      (first.join next).renumber numbers := by
  obtain ⟨_ | id, before, behind⟩ := first <;> obtain ⟨_ | other, _, _⟩ := next <;> rfl

/-- What one part after another gives is the same. -/
theorem Expansion.joinParts_renumber (found next : Option (List LinkedInner)) :
    joinParts (found.map (List.map (·.renumber numbers)))
        (next.map (List.map (·.renumber numbers))) =
      (joinParts found next).map (List.map (·.renumber numbers)) := by
  cases found with
  | none => rfl
  | some found =>
    cases next with
    | none => rfl
    | some next =>
      simp only [joinParts, Option.map_some, List.flatMap_map, List.map_flatMap, List.map_map]
      congr 1
      refine List.flatMap_congr fun first _ => List.map_congr_left fun inner _ => ?_
      exact LinkedInner.join_renumber numbers first inner

/-- What one branch or another gives is the same. -/
theorem Expansion.unionParts_renumber (found next : Option (List LinkedInner)) :
    unionParts (found.map (List.map (·.renumber numbers)))
        (next.map (List.map (·.renumber numbers))) =
      (unionParts found next).map (List.map (·.renumber numbers)) := by
  cases found with
  | none => rfl
  | some found => cases next <;> simp [unionParts]

/-- The same entries are kept if no two shapes get the same number. -/
theorem Expansion.distinctCaptures_renumber (hinjective : Function.Injective numbers.capture)
    (seen : List ShapeId) (inners : List LinkedInner) :
    distinctCaptures (seen.map numbers.capture) (inners.map (·.renumber numbers)) =
      (distinctCaptures seen inners).map (·.renumber numbers) := by
  induction inners generalizing seen with
  | nil => rfl
  | cons inner rest ih =>
    obtain ⟨_ | id, before, behind⟩ := inner
    · exact ih seen
    · have hseen : (seen.map numbers.capture).contains (numbers.capture id) = seen.contains id := by
        rw [Bool.eq_iff_iff, List.contains_iff_mem, List.contains_iff_mem,
          List.mem_map_of_injective hinjective]
      have hkept := ih (id :: seen)
      simp only [List.map_cons, distinctCaptures, LinkedInner.renumber, Option.map_some, hseen]
      split
      · exact ih seen
      · exact congrArg _ hkept

end Renumber

namespace Expansion

variable {α β : Type}

/-- What a step has come to, under new numbers, its result being changed in that way. -/
def carried (numbers : Renumbering) (change : α → α) :
    Except AnalysisError (α × List Site) → Except AnalysisError (α × List Site) :=
  Except.map fun result => (change result.1, result.2.map (·.renumber numbers))

/-- Whether a step comes to what another one does, from every state in which at most that many of
the sites have not been expanded. -/
def Carries (numbers : Renumbering) (sites : List Site) (depth : Nat) (change : α → α)
    (step other : ExpandM α) : Prop :=
  ∀ before beforeOther : Progress, fresh sites before.expanded ≤ depth →
    beforeOther.expanded = before.expanded.map (·.renumber numbers) →
    outcome (other.run beforeOther) = carried numbers change (outcome (step.run before)) ∧
      ∀ value expanded, outcome (step.run before) = .ok (value, expanded) →
        before.expanded ⊆ expanded

namespace Carries

variable {numbers : Renumbering} {sites : List Site} {depth : Nat}

/-- Steps that do nothing. -/
theorem pure {change : α → α} {value valueOther : α} (hvalue : valueOther = change value) :
    Carries numbers sites depth change (pure value) (pure valueOther) := by
  intro before beforeOther _ hexpanded
  refine ⟨?_, ?_⟩
  · change Except.ok (valueOther, beforeOther.expanded) = _
    rw [hvalue, hexpanded]
    rfl
  · intro _ _ hok
    cases hok
    exact List.Subset.refl _

/-- Two steps in a row. -/
theorem bind {change : α → α} {changeNext : β → β} {step other : ExpandM α}
    {next nextOther : α → ExpandM β} (hstep : Carries numbers sites depth change step other)
    (hnext : ∀ value, Carries numbers sites depth changeNext (next value)
      (nextOther (change value))) :
    Carries numbers sites depth changeNext (step >>= next) (other >>= nextOther) := by
  intro before beforeOther hdepth hexpanded
  obtain ⟨hsame, hgrown⟩ := hstep before beforeOther hdepth hexpanded
  rw [EStateM.run_bind, EStateM.run_bind]
  cases hrun : step.run before with
  | error reason middle =>
    rw [hrun] at hsame
    cases hother : other.run beforeOther with
    | error _ _ =>
      rw [hother] at hsame
      obtain rfl := Except.error.inj hsame
      exact ⟨rfl, fun _ _ hfailed => nomatch hfailed⟩
    | ok _ _ => rw [hother] at hsame; cases hsame
  | ok value middle =>
    rw [hrun] at hsame
    cases hother : other.run beforeOther with
    | error _ _ => rw [hother] at hsame; cases hsame
    | ok valueOther middleOther =>
      rw [hother] at hsame
      obtain ⟨rfl, hmiddle⟩ := Prod.mk.inj (Except.ok.inj hsame)
      have hmore : before.expanded ⊆ middle.expanded := by
        refine hgrown value middle.expanded ?_
        rw [hrun]
        rfl
      have hfewer : fresh sites middle.expanded ≤ depth :=
        Nat.le_trans (fresh_le (fun _ hsite => hsite) fun _ hsite => hmore hsite) hdepth
      obtain ⟨houtcome, hlater⟩ := hnext value middle middleOther hfewer hmiddle
      exact ⟨houtcome, fun last expanded hok =>
        List.Subset.trans hmore (hlater last expanded hok)⟩

/-- Queries that come to the same from the start answer the same. -/
theorem answer_eq {change : α → α} {query other : ExpandM α}
    (hquery : Carries numbers sites depth change query other) (hdepth : fresh sites [] ≤ depth) :
    answer other = (answer query).map change := by
  have hsame := (hquery ⟨[], []⟩ ⟨[], []⟩ hdepth rfl).1
  rw [Expansion.answer_eq, Expansion.answer_eq, hsame]
  cases outcome (query.run ⟨[], []⟩) <;> rfl

end Carries

variable {numbers : Renumbering} {known allowed : Reference → Prop} {registry other : Registry}
  {sites : List Site} {depth : Nat}

/-- Whether what is done at such references comes to the same. -/
def EntersAlike (numbers : Renumbering) (known : Reference → Prop) (sites : List Site)
    (depth : Nat) (change : α → α) (enter enterOther : String → Site → ExpandM α) : Prop :=
  ∀ reference, known reference → Carries numbers sites depth change
    (enter reference.name reference.site)
    (enterOther reference.name (reference.site.renumber numbers))

/-- Whether a reference is known and stands at one of these sites. -/
def KnownAt (known : Reference → Prop) (sites : List Site) (reference : Reference) : Prop :=
  known reference ∧ reference.site ∈ sites

section Inners

variable {enter enterOther : String → Site → ExpandM (Option (List LinkedInner))}

mutual

/-- An element contributes the same to a link body if what is done at references does. -/
theorem innersOfElement_carries (henter : EntersAlike numbers known sites depth
      (Option.map (List.map (·.renumber numbers))) enter enterOther) :
    ∀ element : Element, RefersTo known [element] → Carries numbers sites depth
      (Option.map (List.map (·.renumber numbers))) (innersOfElement enter element)
      (innersOfElement enterOther (element.renumber numbers))
  | .nonTerminal name site, hknown => henter ⟨name, site⟩ (hknown _ List.mem_cons_self)
  | .choice branches, hknown => innersOfBranches_carries henter branches none hknown.of_choice
  | .captured _, _ | .byte _, _ | .tag _, _ | .linked _ _, _ | .optional _, _ | .zeroOrMore _, _
  | .oneOrMore _, _ => .pure rfl

/-- A sequence contributes the same to a link body if what is done at references does. -/
theorem innersOfSequence_carries (henter : EntersAlike numbers known sites depth
      (Option.map (List.map (·.renumber numbers))) enter enterOther) :
    ∀ (elements : List Element) (found : Option (List LinkedInner)), RefersTo known elements →
      Carries numbers sites depth (Option.map (List.map (·.renumber numbers)))
        (innersOfSequence enter found elements)
        (innersOfSequence enterOther (found.map (List.map (·.renumber numbers)))
          (Element.renumberEach numbers elements))
  | [], _, _ => .pure rfl
  | element :: rest, found, hknown => by
    have hparts := RefersTo.cons_iff.mp hknown
    refine (innersOfElement_carries henter element hparts.1).bind fun next => ?_
    rw [joinParts_renumber]
    exact innersOfSequence_carries henter rest (joinParts found next) hparts.2

/-- Branches contribute the same to a link body if what is done at references does. -/
theorem innersOfBranches_carries (henter : EntersAlike numbers known sites depth
      (Option.map (List.map (·.renumber numbers))) enter enterOther) :
    ∀ (branches : List (List Element)) (found : Option (List LinkedInner)),
      RefersTo known branches.flatten →
      Carries numbers sites depth (Option.map (List.map (·.renumber numbers)))
        (innersOfBranches enter found branches)
        (innersOfBranches enterOther (found.map (List.map (·.renumber numbers)))
          (Element.renumberBranches numbers branches))
  | [], _, _ => .pure rfl
  | branch :: rest, found, hknown => by
    have hparts := RefersTo.append_iff.mp hknown
    refine (innersOfSequence_carries henter branch none hparts.1).bind fun next => ?_
    rw [unionParts_renumber]
    exact innersOfBranches_carries henter rest (unionParts found next) hparts.2

end

end Inners

/-- The references from a sequence are at the sites that can be met from it. -/
theorem refersTo_sitesFrom (registry : Registry) {elements : List Element}
    (hknown : RefersTo known elements) :
    RefersTo (KnownAt known (sitesFrom registry elements)) elements :=
  fun reference hreference => ⟨hknown reference hreference,
    List.mem_map_of_mem (List.mem_append_left _ hreference)⟩

section Embedded

variable (hembeds : registry.Embeds numbers known other)

include hembeds

/-- Following a reference comes to the same if the expansion of its body does, from every state
in which its site has just been expanded. -/
theorem once_carries {reference : Reference} (hreference : known reference)
    (hsite : reference.site ∈ sites) {change : α → α} {nothing : α}
    (hnothing : nothing = change nothing) {repeated : String → Event}
    {expand expandOther : List Element → ExpandM α}
    (hexpand : ∀ body, registry.body? reference.name = some body → ∀ limit, limit < depth →
      Carries numbers sites limit change (expand body.elements)
        (expandOther (renumberSequence numbers body.elements))) :
    Carries numbers sites depth change
      (once registry repeated nothing reference.name reference.site expand)
      (once other repeated nothing reference.name (reference.site.renumber numbers)
        expandOther) := by
  intro before beforeOther hdepth hexpanded
  have hinjective : Function.Injective (Site.renumber numbers) := fun first next hsame =>
    congrArg Site.mk (hembeds.site_injective (congrArg Site.index hsame))
  have hsame : reference.site.renumber numbers ∈ beforeOther.expanded ↔
      reference.site ∈ before.expanded := by
    rw [hexpanded]
    exact List.mem_map_of_injective hinjective
  rw [run_once, run_once, hembeds.body? hreference]
  by_cases hseen : reference.site ∈ before.expanded
  · rw [if_pos hseen, if_pos (hsame.mpr hseen)]
    exact Carries.pure hnothing before beforeOther hdepth hexpanded
  · rw [if_neg hseen, if_neg fun hother => hseen (hsame.mp hother), hexpanded]
    cases hbody : registry.body? reference.name with
    | none => exact ⟨rfl, fun _ _ hfailed => nomatch hfailed⟩
    | some body =>
      have hfewer := fresh_cons_lt (fun _ hkey => hkey) hsite hseen
      obtain ⟨houtcome, hgrown⟩ := hexpand body hbody _ (Nat.lt_of_lt_of_le hfewer hdepth)
        { before with expanded := reference.site :: before.expanded }
        { beforeOther with
          expanded := (reference.site :: before.expanded).map (·.renumber numbers) }
        (Nat.le_refl _) rfl
      exact ⟨houtcome, fun value expanded hok =>
        List.Subset.trans (List.subset_cons_self _ _) (hgrown value expanded hok)⟩

/-- Following references comes to the same, and may go deeper, if it may go as deep as there are
sites that have not been expanded. -/
theorem follow_carries
    (hrules : ∀ body ∈ registry.rules, ∀ reference ∈ mentionsOf true body.elements,
      reference.site ∈ sites)
    {change : α → α} {nothing : α} (hnothing : nothing = change nothing)
    {repeated : String → Event}
    {expand expandOther : (String → Site → ExpandM α) → List Element → ExpandM α}
    (hexpand : ∀ {limit enter enterOther},
      EntersAlike numbers (KnownAt known sites) sites limit change enter enterOther →
      ∀ elements, RefersTo (KnownAt known sites) elements →
        Carries numbers sites limit change (expand enter elements)
          (expandOther enterOther (renumberSequence numbers elements)))
    {depthOther : Nat} (hdeep : depth ≤ depthOther) :
    EntersAlike numbers (KnownAt known sites) sites depth change
      (follow registry repeated nothing expand depth)
      (follow other repeated nothing expandOther depthOther) := by
  induction depth generalizing depthOther with
  | zero =>
    intro reference hreference
    cases depthOther <;> exact once_carries hembeds hreference.1 hreference.2 hnothing
      fun _ _ limit hlimit => absurd hlimit (Nat.not_lt_zero limit)
  | succ depth ih =>
    intro reference hreference
    obtain ⟨deeper, rfl⟩ := Nat.exists_eq_add_of_lt (Nat.lt_of_succ_le hdeep)
    refine once_carries hembeds hreference.1 hreference.2 hnothing fun body hbody limit hlimit => ?_
    have hrule := (Registry.mem_rules_of_body? hbody).1
    have hinner : depth ≤ depth + deeper := Nat.le_add_right _ _
    intro before beforeOther hfresh
    exact hexpand (ih hinner) body.elements
      (fun other hother => ⟨hembeds.refers body hrule other hother, hrules body hrule other hother⟩)
      before beforeOther (Nat.le_trans hfresh (Nat.le_of_lt_succ hlimit))

/-- Following references from a sequence comes to the same, as deep as the bounds allow. -/
theorem enters_carries (elements : List Element) {change : α → α} {nothing : α}
    (hnothing : nothing = change nothing) {repeated : String → Event}
    {expand expandOther : (String → Site → ExpandM α) → List Element → ExpandM α}
    (hexpand : ∀ {limit enter enterOther},
      EntersAlike numbers (KnownAt known (sitesFrom registry elements))
        (sitesFrom registry elements) limit change enter enterOther →
      ∀ others, RefersTo (KnownAt known (sitesFrom registry elements)) others →
        Carries numbers (sitesFrom registry elements) limit change (expand enter others)
          (expandOther enterOther (renumberSequence numbers others))) :
    EntersAlike numbers (KnownAt known (sitesFrom registry elements))
      (sitesFrom registry elements) (registry.siteBound elements) change
      (follow registry repeated nothing expand (registry.siteBound elements))
      (follow other repeated nothing expandOther
        (other.siteBound (renumberSequence numbers elements))) := by
  refine follow_carries hembeds (fun body hbody reference hreference => ?_) hnothing hexpand
    (hembeds.siteBound_le elements)
  exact List.mem_map_of_mem (List.mem_append_right _ (Registry.mem_ruleMentions hbody hreference))

/-- A link body reaches the same captures. -/
theorem linkedInners_renumber {inner : List Element} (hknown : RefersTo known inner) :
    other.linkedInners (renumberSequence numbers inner) =
      (registry.linkedInners inner).map (List.map (·.renumber numbers)) := by
  have hbody : Carries numbers (sitesFrom registry inner) (registry.siteBound inner)
      (Option.map (List.map (·.renumber numbers))) (bodyQuery registry inner)
      (bodyQuery other (renumberSequence numbers inner)) := by
    unfold bodyQuery
    rw [← Element.renumberEach_eq]
    refine innersOfSequence_carries ?_ inner none (refersTo_sitesFrom registry hknown)
    rw [Element.renumberEach_eq]
    refine enters_carries hembeds inner rfl fun henter others hothers => ?_
    rw [← Element.renumberEach_eq]
    exact innersOfSequence_carries henter others none hothers
  have hfresh : fresh (sitesFrom registry inner) [] ≤ registry.siteBound inner :=
    Nat.le_trans (fresh_nil_le _) (Nat.le_of_eq (length_sitesFrom registry inner))
  have hsame := (hbody ⟨[], []⟩ ⟨[], []⟩ hfresh rfl).1
  rw [Registry.linkedInners, Registry.linkedInners, Expansion.answer_eq, Expansion.answer_eq,
    outcome_run_linkedInners, outcome_run_linkedInners, hsame]
  rcases outcome ((bodyQuery registry inner).run ⟨[], []⟩) with reason | ⟨found, expanded⟩
  · rfl
  · have hkept := distinctCaptures_renumber numbers hembeds.capture_injective [] (found.getD [])
    refine congrArg Except.ok ?_
    rw [← hkept]
    cases found <;> rfl

/-- Wherever a link stands, its body reaches the same captures. -/
theorem linkedInners_carries {inner : List Element} (hknown : RefersTo known inner) :
    Carries numbers sites depth (List.map (·.renumber numbers)) (linkedInners registry inner)
      (linkedInners other (renumberSequence numbers inner)) := by
  intro before beforeOther _ hexpanded
  rw [outcome_linkedInners, outcome_linkedInners, linkedInners_renumber hembeds hknown, hexpanded]
  cases registry.linkedInners inner with
  | error reason => exact ⟨rfl, fun _ _ hfailed => nomatch hfailed⟩
  | ok inners =>
    refine ⟨rfl, fun _ _ hok => ?_⟩
    cases hok
    exact List.Subset.refl _

end Embedded

section Layouts

variable {enter enterOther : String → Site → ExpandM (List Node)}

mutual

/-- The layout of an element is the same if what is done at references is. -/
theorem layoutOfElement_carries (hembeds : registry.Embeds numbers known other)
    (hknown : ∀ {reference}, allowed reference → known reference)
    (henter : EntersAlike numbers allowed sites depth (Node.renumberEach numbers) enter
      enterOther) :
    ∀ element : Element, RefersTo allowed [element] → Carries numbers sites depth
      (Node.renumberEach numbers) (layoutOfElement registry enter element)
      (layoutOfElement other enterOther (element.renumber numbers))
  | .byte _, _ | .tag _, _ | .captured _, _ => .pure rfl
  | .nonTerminal name site, hrefers => henter ⟨name, site⟩ (hrefers _ List.mem_cons_self)
  | .linked label inner, hrefers => by
    have hinner : Carries numbers sites depth (List.map (·.renumber numbers))
        (linkedInners registry inner) (linkedInners other (renumberSequence numbers inner)) :=
      linkedInners_carries hembeds (hrefers.of_body rfl |>.imp hknown)
    rw [← Element.renumberEach_eq] at hinner
    exact hinner.bind fun _ => .pure rfl
  | .choice branches, hrefers =>
    (layoutOfBranches_carries hembeds hknown henter branches hrefers.of_choice).bind
      fun _ => .pure rfl
  | .optional body, hrefers | .zeroOrMore body, hrefers | .oneOrMore body, hrefers =>
    (layoutOfSequence_carries hembeds hknown henter body (hrefers.of_body rfl)).bind
      fun _ => .pure rfl

/-- The layout of a sequence is the same if what is done at references is. -/
theorem layoutOfSequence_carries (hembeds : registry.Embeds numbers known other)
    (hknown : ∀ {reference}, allowed reference → known reference)
    (henter : EntersAlike numbers allowed sites depth (Node.renumberEach numbers) enter
      enterOther) :
    ∀ elements : List Element, RefersTo allowed elements → Carries numbers sites depth
      (Node.renumberEach numbers) (layoutOfSequence registry enter elements)
      (layoutOfSequence other enterOther (Element.renumberEach numbers elements))
  | [], _ => .pure rfl
  | element :: rest, hrefers => by
    have hparts := RefersTo.cons_iff.mp hrefers
    refine (layoutOfElement_carries hembeds hknown henter element hparts.1).bind fun first => ?_
    refine (layoutOfSequence_carries hembeds hknown henter rest hparts.2).bind fun later => ?_
    exact .pure (Node.renumberEach_append numbers first later).symm

/-- The layouts of branches are the same if what is done at references is. -/
theorem layoutOfBranches_carries (hembeds : registry.Embeds numbers known other)
    (hknown : ∀ {reference}, allowed reference → known reference)
    (henter : EntersAlike numbers allowed sites depth (Node.renumberEach numbers) enter
      enterOther) :
    ∀ branches : List (List Element), RefersTo allowed branches.flatten →
      Carries numbers sites depth (Node.renumberBranches numbers)
        (layoutOfBranches registry enter branches)
        (layoutOfBranches other enterOther (Element.renumberBranches numbers branches))
  | [], _ => .pure rfl
  | branch :: rest, hrefers => by
    have hparts := RefersTo.append_iff.mp hrefers
    refine (layoutOfSequence_carries hembeds hknown henter branch hparts.1).bind fun first => ?_
    exact (layoutOfBranches_carries hembeds hknown henter rest hparts.2).bind fun _ => .pure rfl

end

end Layouts

end Expansion

/-- A sequence has the same layout, or the undefined rule met in it is the same. -/
theorem Registry.layout_renumber {numbers : Renumbering} {known : Reference → Prop}
    {registry other : Registry} (hembeds : registry.Embeds numbers known other)
    {elements : List Element} (hknown : RefersTo known elements) :
    other.layout (renumberSequence numbers elements) =
      (registry.layout elements).map (Node.renumberEach numbers) := by
  have hquery : Expansion.Carries numbers (Expansion.sitesFrom registry elements)
      (registry.siteBound elements) (Node.renumberEach numbers)
      (Expansion.layout registry elements)
      (Expansion.layout other (renumberSequence numbers elements)) := by
    unfold Expansion.layout
    rw [← Element.renumberEach_eq]
    refine Expansion.layoutOfSequence_carries hembeds And.left ?_ elements
      (Expansion.refersTo_sitesFrom registry hknown)
    rw [Element.renumberEach_eq]
    refine Expansion.enters_carries hembeds elements rfl fun henter others hothers => ?_
    rw [← Element.renumberEach_eq]
    exact Expansion.layoutOfSequence_carries hembeds And.left henter others hothers
  exact hquery.answer_eq <| Nat.le_trans (fresh_nil_le _)
    (Nat.le_of_eq (Expansion.length_sitesFrom registry elements))

end PegTemplates
