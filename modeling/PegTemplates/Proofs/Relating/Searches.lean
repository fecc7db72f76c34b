import PegTemplates.Proofs.Relating.Embedding
import PegTemplates.Proofs.Searching.Calls

/-!
# Tag alternatives under new numbers

A search reads the bodies of rules and the names it has entered, but no numbers. So in a
registry that stands for the same it finds the same alternatives under the new numbers, also
if it may go deeper there. A cursor hands out the same from call to call, and once it has been
called often enough for both registries these are all alternatives of both.
-/

namespace PegTemplates

/-- A tag alternative under new numbers. -/
def TagAlternative.renumber (numbers : Renumbering) (found : TagAlternative) : TagAlternative :=
  ⟨found.tag, renumberSequence numbers found.elements⟩

namespace TagSearch

/-- What a search has come to, under new numbers. -/
def carried (numbers : Renumbering) :
    Except AnalysisError (Option TagAlternative × Progress) →
      Except AnalysisError (Option TagAlternative × Progress) :=
  Except.map fun result => (result.1.map (·.renumber numbers), result.2)

/-- Whether a search comes to what another one does, under new numbers, from every state in
which at most that many of the rules have not been entered. -/
def Carries (numbers : Renumbering) (rules : List String) (depth : Nat)
    (search other : SearchM (Option TagAlternative)) : Prop :=
  ∀ progress, fresh rules progress.visited ≤ depth →
    other.run progress = carried numbers (search.run progress) ∧
      ∀ hit after, search.run progress = .ok (hit, after) → progress.visited ⊆ after.visited

namespace Carries

variable {numbers : Renumbering} {rules : List String} {depth : Nat}
  {search other next nextOther : SearchM (Option TagAlternative)}

/-- Searches that miss at once. -/
theorem none : Carries numbers rules depth (pure .none) (pure .none) := by
  intro progress _
  refine ⟨rfl, ?_⟩
  rintro hit after hrun
  cases hrun
  exact List.Subset.refl _

/-- Searches that hit a tag unless one more is to be passed over. -/
theorem tag (enter enterOther : String → SearchM (Option TagAlternative)) (name : String) :
    Carries numbers rules depth (inElement enter (.tag name))
      (inElement enterOther (.tag name)) := by
  rintro ⟨skip, visited⟩ _
  cases skip <;> refine ⟨rfl, ?_⟩ <;> rintro hit after hrun <;> cases hrun <;>
    exact List.Subset.refl _

/-- What searches give may be put into what stands around it. -/
theorem onHit (hsearch : Carries numbers rules depth search other)
    {change changeOther : TagAlternative → TagAlternative}
    (hchange : ∀ found, changeOther (found.renumber numbers) = (change found).renumber numbers) :
    Carries numbers rules depth (TagSearch.onHit change search)
      (TagSearch.onHit changeOther other) := by
  intro progress hdepth
  obtain ⟨hsame, hgrown⟩ := hsearch progress hdepth
  rw [run_onHit, run_onHit, hsame]
  rcases hrun : search.run progress with reason | ⟨hit, after⟩
  · exact ⟨rfl, fun _ _ hfailed => nomatch hfailed⟩
  · refine ⟨?_, ?_⟩
    · cases hit with
      | none => rfl
      | some found =>
        change Except.ok (some (changeOther (found.renumber numbers)), after) = _
        rw [hchange]
        rfl
    · rintro _ _ hok
      cases hok
      exact hgrown hit after hrun

/-- Searches and, unless they hit, others. -/
theorem orElse (hsearch : Carries numbers rules depth search other)
    (hnext : Carries numbers rules depth next nextOther)
    {change changeOther : TagAlternative → TagAlternative}
    (hchange : ∀ found, changeOther (found.renumber numbers) = (change found).renumber numbers) :
    Carries numbers rules depth (TagSearch.orElse search change next)
      (TagSearch.orElse other changeOther nextOther) := by
  intro progress hdepth
  obtain ⟨hsame, hgrown⟩ := hsearch progress hdepth
  rw [run_orElse, run_orElse, hsame]
  rcases hrun : search.run progress with reason | ⟨hit, middle⟩
  · exact ⟨rfl, fun _ _ hfailed => nomatch hfailed⟩
  · have hmiddle := hgrown hit middle hrun
    cases hit with
    | some found =>
      refine ⟨?_, ?_⟩
      · change Except.ok (some (changeOther (found.renumber numbers)), middle) = _
        rw [hchange]
        rfl
      · rintro _ _ hok
        cases hok
        exact hmiddle
    | none =>
      have hfewer : fresh rules middle.visited ≤ depth :=
        Nat.le_trans (fresh_le (fun _ hname => hname) fun _ hname => hmiddle hname) hdepth
      obtain ⟨hsameNext, hgrownNext⟩ := hnext middle hfewer
      exact ⟨hsameNext, fun hit after hok =>
        List.Subset.trans hmiddle (hgrownNext hit after hok)⟩

end Carries

section Embedded

variable {numbers : Renumbering} {known : Reference → Prop} {registry other : Registry}
  (hembeds : registry.Embeds numbers known other) {rules : List String} {depth : Nat}
  {enter enterOther : String → SearchM (Option TagAlternative)}

/-- Whether what is done at these references comes to the same. -/
def EntersAlike (numbers : Renumbering) (known : Reference → Prop) (rules : List String)
    (depth : Nat) (enter enterOther : String → SearchM (Option TagAlternative)) : Prop :=
  ∀ reference, known reference →
    Carries numbers rules depth (enter reference.name) (enterOther reference.name)

mutual

/-- A search of an element comes to the same if those behind references do. -/
theorem inElement_carries (henter : EntersAlike numbers known rules depth enter enterOther) :
    ∀ element : Element, RefersTo known [element] → Carries numbers rules depth
      (inElement enter element) (inElement enterOther (element.renumber numbers))
  | .tag name, _ => .tag enter enterOther name
  | .choice branches, hknown => inBranches_carries henter branches hknown.of_choice
  | .optional body, hknown => inSequence_carries henter body (hknown.of_body rfl)
  | .zeroOrMore body, hknown =>
    (inSequence_carries henter body (hknown.of_body rfl)).onHit fun _ => by
      simp [TagAlternative.renumber, renumberSequence, Element.renumber]
  | .oneOrMore body, hknown =>
    (inSequence_carries henter body (hknown.of_body rfl)).onHit fun _ => by
      simp [TagAlternative.renumber, renumberSequence, Element.renumber]
  | .nonTerminal name site, hknown => henter ⟨name, site⟩ (hknown _ List.mem_cons_self)
  | .captured _, _ | .byte _, _ | .linked _ _, _ => .none

/-- A search of a sequence comes to the same if those behind references do. -/
theorem inSequence_carries (henter : EntersAlike numbers known rules depth enter enterOther) :
    ∀ elements : List Element, RefersTo known elements → Carries numbers rules depth
      (inSequence enter elements) (inSequence enterOther (Element.renumberEach numbers elements))
  | [], _ => .none
  | element :: rest, hknown => by
    have hparts := RefersTo.cons_iff.mp hknown
    refine (inElement_carries henter element hparts.1).orElse
      ((inSequence_carries henter rest hparts.2).onHit fun found => ?_) fun found => ?_
    · simp [TagAlternative.renumber, renumberSequence]
    · simp [TagAlternative.renumber, renumberSequence]

/-- A search of branches comes to the same if those behind references do. -/
theorem inBranches_carries (henter : EntersAlike numbers known rules depth enter enterOther) :
    ∀ branches : List (List Element), RefersTo known branches.flatten →
      Carries numbers rules depth (inBranches enter branches)
        (inBranches enterOther (Element.renumberBranches numbers branches))
  | [], _ => .none
  | branch :: rest, hknown =>
    have hparts := RefersTo.append_iff.mp hknown
    (inSequence_carries henter branch hparts.1).orElse
      (inBranches_carries henter rest hparts.2) fun _ => rfl

end

include hembeds

/-- Following a reference comes to the same if the searches of its body do, from every state in
which its rule has just been entered. -/
theorem once_carries {reference : Reference} (hreference : known reference)
    {search searchOther : List Element → SearchM (Option TagAlternative)}
    (hsearch : ∀ body, registry.body? reference.name = some body → ∀ limit, limit < depth →
      Carries numbers (registry.rules.map (·.name)) limit (search body.elements)
        (searchOther (renumberSequence numbers body.elements))) :
    Carries numbers (registry.rules.map (·.name)) depth (once registry reference.name search)
      (once other reference.name searchOther) := by
  intro progress hdepth
  rw [run_once, run_once, hembeds.body? hreference]
  by_cases hseen : reference.name ∈ progress.visited
  · rw [if_pos hseen, if_pos hseen]
    refine ⟨rfl, ?_⟩
    rintro _ _ hok
    cases hok
    exact List.Subset.refl _
  · rw [if_neg hseen, if_neg hseen]
    cases hbody : registry.body? reference.name with
    | none => exact ⟨rfl, fun _ _ hfailed => nomatch hfailed⟩
    | some body =>
      obtain ⟨hrule, hsame⟩ := Registry.mem_rules_of_body? hbody
      have hfewer := fresh_cons_lt (fun _ hkey => hkey)
        (List.mem_map.mpr ⟨body, hrule, hsame⟩) hseen
      obtain ⟨houtcome, hgrown⟩ := hsearch body hbody _ (Nat.lt_of_lt_of_le hfewer hdepth)
        { progress with visited := reference.name :: progress.visited } (Nat.le_refl _)
      refine ⟨houtcome, fun hit after hok => ?_⟩
      exact List.Subset.trans (List.subset_cons_self _ _) (hgrown hit after hok)

/-- Following references comes to the same, and may go deeper, if it may go as deep as there are
rules that have not been entered. -/
theorem follow_carries {depthOther : Nat} (hdeep : depth ≤ depthOther) :
    EntersAlike numbers known (registry.rules.map (·.name)) depth (follow registry depth)
      (follow other depthOther) := by
  induction depth generalizing depthOther with
  | zero =>
    intro reference hreference
    cases depthOther <;> exact once_carries hembeds hreference
      fun _ _ limit hlimit => absurd hlimit (Nat.not_lt_zero limit)
  | succ depth ih =>
    intro reference hreference
    obtain ⟨deeper, rfl⟩ := Nat.exists_eq_add_of_lt (Nat.lt_of_succ_le hdeep)
    refine once_carries hembeds hreference fun body hbody limit hlimit progress hfresh => ?_
    have hknown := hembeds.refers body (Registry.mem_rules_of_body? hbody).1
    have hinner : depth ≤ depth + deeper := Nat.le_add_right _ _
    rw [← Element.renumberEach_eq]
    exact inSequence_carries (ih hinner) body.elements hknown progress
      (Nat.le_trans hfresh (Nat.le_of_lt_succ hlimit))

/-- The alternative behind the same number of others is the same. -/
theorem nth_renumber {elements : List Element} (hknown : RefersTo known elements) (skip : Nat) :
    nth other (renumberSequence numbers elements) skip =
      (nth registry elements skip).map (Option.map (·.renumber numbers)) := by
  have hfresh : fresh (registry.rules.map (·.name)) [] ≤ registry.rules.length :=
    Nat.le_trans (fresh_nil_le _) (Nat.le_of_eq (List.length_map _))
  have hsame := (inSequence_carries (follow_carries hembeds hembeds.length_rules_le) elements hknown
    ⟨skip, []⟩ hfresh).1
  rw [Element.renumberEach_eq] at hsame
  unfold nth
  rw [hsame]
  rcases (inSequence (follow registry registry.rules.length) elements).run ⟨skip, []⟩ with
    reason | ⟨hit, after⟩ <;> rfl

end Embedded

end TagSearch

/-- Results that are changed one by one are collected as before and changed then. -/
theorem mapM_id_map {ε α β : Type} (change : α → β) (items : List (Except ε α)) :
    (items.map (Except.map change)).mapM id = (items.mapM id).map (List.map change) := by
  induction items with
  | nil => rfl
  | cons item rest ih =>
    rw [List.map_cons, List.mapM_cons, List.mapM_cons, ih]
    cases item with
    | error reason => rfl
    | ok value => cases rest.mapM id <;> rfl

section Alternatives

variable {numbers : Renumbering} {known : Reference → Prop} {registry other : Registry}
  (hembeds : registry.Embeds numbers known other) {elements : List Element}
  (hknown : RefersTo known elements)

include hembeds hknown

/-- A cursor hands out the same alternatives. -/
theorem TagCursor.take_renumber (calls found : Nat) :
    take other calls ⟨renumberSequence numbers elements, found, false⟩ =
      (take registry calls ⟨elements, found, false⟩).map (Except.map (·.renumber numbers)) := by
  induction calls generalizing found with
  | zero => rfl
  | succ calls ih =>
    have hnth := TagSearch.nth_renumber hembeds hknown found
    cases hfirst : TagSearch.nth registry elements found with
    | error reason =>
      rw [hfirst] at hnth
      simp [take, next, hnth, hfirst, Except.map, take_exhausted]
    | ok hit =>
      rw [hfirst] at hnth
      cases hit with
      | none => simp [take, next, hnth, hfirst, Except.map]
      | some hit => simp [take, next, hnth, hfirst, Except.map, ih]

/-- The alternatives are the same, or the undefined rule met among them is. -/
theorem Registry.tagAlternatives_renumber :
    other.tagAlternatives (renumberSequence numbers elements) =
      (registry.tagAlternatives elements).map (List.map (·.renumber numbers)) := by
  let calls := (registry.tour Reference.name [] elements).tags.length +
    (other.tour Reference.name [] (renumberSequence numbers elements)).tags.length + 1
  have hcalls : registry.alternatives elements = (TagCursor.start elements).take registry calls :=
    registry.alternatives_eq_take elements (by omega)
  have hcallsOther : other.alternatives (renumberSequence numbers elements) =
      (TagCursor.start (renumberSequence numbers elements)).take other calls :=
    other.alternatives_eq_take _ (by omega)
  rw [tagAlternatives, tagAlternatives, hcalls, hcallsOther, ← mapM_id_map]
  exact congrArg (List.mapM id) (TagCursor.take_renumber hembeds hknown calls 0)

end Alternatives

end PegTemplates
