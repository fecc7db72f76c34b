import PegTemplates.Proofs.Expanding.Reports
import PegTemplates.Proofs.Searching.References

/-!
# Undefined rules in expansions

A sequence is looked through for undefined rules in the order of its references, link bodies
included. An expansion looks further, into the bodies of rules. It is shown to fail for nothing
but an undefined rule to which a reference can be met from the sequence expanded, and so is the
query for the captures of a link body.
-/

namespace PegTemplates

namespace Registry

variable (registry : Registry)

/-- The error of a reference, if its rule is undefined. -/
def undefined? (reference : Reference) : Option AnalysisError :=
  match registry.body? reference.name with
  | some _ => none
  | none => some (.undefinedRule reference.name)

variable {registry} in
/-- A reference has no error exactly if its rule is defined. -/
theorem undefined?_eq_none_iff {reference : Reference} :
    registry.undefined? reference = none ↔
      ∃ body, registry.body? reference.name = some body := by
  rw [undefined?]
  cases registry.body? reference.name <;> simp

variable {registry} in
/-- The error of a reference says that its rule is undefined. -/
theorem undefined?_eq_some_iff {reference : Reference} {reason : AnalysisError} :
    registry.undefined? reference = some reason ↔
      registry.body? reference.name = none ∧ reason = .undefinedRule reference.name := by
  rw [undefined?]
  cases registry.body? reference.name <;> simp [eq_comm]

mutual

/-- In an element the first reference with an error is found. -/
theorem undefinedIn?_eq : ∀ element : Element,
    registry.undefinedIn? element = (element.mentions true).findSome? registry.undefined?
  | .nonTerminal name site => by
    rw [undefinedIn?, Element.mentions, List.findSome?_singleton]
    cases hbody : registry.body? name <;> simp [undefined?, hbody]
  | .captured _ | .byte _ | .tag _ => rfl
  | .linked _ inner => firstUndefined?_eq inner
  | .choice branches => undefinedInBranches?_eq branches
  | .zeroOrMore body | .oneOrMore body | .optional body => firstUndefined?_eq body

/-- In a sequence the first reference with an error is found. -/
theorem firstUndefined?_eq : ∀ elements : List Element,
    registry.firstUndefined? elements = (mentionsOf true elements).findSome? registry.undefined?
  | [] => rfl
  | element :: rest => by
    rw [firstUndefined?, undefinedIn?_eq element, firstUndefined?_eq rest, mentionsOf,
      List.findSome?_append, Option.orElse_eq_orElse, Option.orElse_eq_or]

/-- In branches the first reference with an error is found. -/
theorem undefinedInBranches?_eq : ∀ branches : List (List Element),
    registry.undefinedInBranches? branches =
      (mentionsOfBranches true branches).findSome? registry.undefined?
  | [] => rfl
  | branch :: rest => by
    rw [undefinedInBranches?, firstUndefined?_eq branch, undefinedInBranches?_eq rest,
      mentionsOfBranches, List.findSome?_append, Option.orElse_eq_orElse, Option.orElse_eq_or]

end

variable {registry} {elements : List Element}

/-- No undefined name is found exactly if the rules of all references are defined. -/
theorem firstUndefined?_eq_none_iff : registry.firstUndefined? elements = none ↔
    ∀ reference ∈ mentionsOf true elements, ∃ body, registry.body? reference.name = some body := by
  rw [firstUndefined?_eq, List.findSome?_eq_none_iff]
  exact forall₂_congr fun _ _ => undefined?_eq_none_iff

/-- An undefined name that is found is that of a reference in the sequence. -/
theorem blames_of_firstUndefined? {reason : AnalysisError}
    (hfound : registry.firstUndefined? elements = some reason) :
    registry.Blames elements reason := by
  rw [firstUndefined?_eq] at hfound
  obtain ⟨reference, hmentioned, hundefined⟩ := List.exists_of_findSome?_eq_some hfound
  exact ⟨reference, .own hmentioned, undefined?_eq_some_iff.mp hundefined⟩

end Registry

namespace Expansion

variable {α β : Type} {registry : Registry} {root : List Element}

/-- Whether a step fails for nothing but undefined rules that can be met from a sequence. -/
def FailsWithin (registry : Registry) (root : List Element) (step : ExpandM α) : Prop :=
  ∀ before reason, outcome (step.run before) = .error reason → registry.Blames root reason

/-- A step that does nothing does not fail. -/
theorem FailsWithin.pure (value : α) : FailsWithin registry root (pure value) :=
  fun _ _ hfailed => nomatch hfailed

/-- Two steps fail only if one of them does. -/
theorem FailsWithin.bind {step : ExpandM α} {next : α → ExpandM β}
    (hstep : FailsWithin registry root step)
    (hnext : ∀ value, FailsWithin registry root (next value)) :
    FailsWithin registry root (step >>= next) := by
  intro before reason hfailed
  rw [EStateM.run_bind] at hfailed
  cases hrun : step.run before with
  | error other after =>
    rw [hrun] at hfailed
    obtain rfl := Except.error.inj hfailed
    refine hstep before other ?_
    rw [hrun]
    rfl
  | ok value after =>
    rw [hrun] at hfailed
    exact hnext value after reason hfailed

theorem FailsWithin.sequential : Sequential (FailsWithin registry root) :=
  ⟨FailsWithin.pure, FailsWithin.bind⟩

/-- Following a reference that can be met fails only if its rule is undefined or the expansion
of its body fails. -/
theorem FailsWithin.once {repeated : String → Event} {nothing : α} {name : String} {site : Site}
    {expand : List Element → ExpandM α} (hrefers : registry.Refers root ⟨name, site⟩)
    (hexpand : ∀ body, registry.body? name = some body →
      FailsWithin registry root (expand body.elements)) :
    FailsWithin registry root (once registry repeated nothing name site expand) := by
  intro before reason hfailed
  rw [run_once] at hfailed
  split at hfailed
  · cases hfailed
  · split at hfailed
    · rename_i body hbody
      exact hexpand body hbody _ reason hfailed
    · rename_i hnone
      exact ⟨⟨name, site⟩, hrefers, hnone, (Except.error.inj hfailed).symm⟩

/-- Following references that can be met fails within the sequence if the expansion of bodies
does. -/
theorem FailsWithin.follow {repeated : String → Event} {nothing : α}
    {expand : (String → Site → ExpandM α) → List Element → ExpandM α}
    (hexpand : ∀ enter, (∀ name site, registry.Refers root ⟨name, site⟩ →
        FailsWithin registry root (enter name site)) →
      ∀ elements, (∀ reference ∈ mentionsOf true elements, registry.Refers root reference) →
        FailsWithin registry root (expand enter elements)) (depth : Nat) :
    ∀ name site, registry.Refers root ⟨name, site⟩ →
      FailsWithin registry root (follow registry repeated nothing expand depth name site) := by
  induction depth with
  | zero => exact fun name site hrefers => .once hrefers fun _ _ => .pure nothing
  | succ depth ih =>
    exact fun name site hrefers => .once hrefers fun body hbody =>
      hexpand _ ih body.elements fun _ hmentioned => hrefers.inner hbody hmentioned

/-- The captures of a link body can be found unless a rule is undefined that can be met. -/
theorem linkedInners_failsWithin {inner : List Element}
    (hmet : ∀ reference ∈ mentionsOf true inner, registry.Refers root reference) :
    FailsWithin registry root (linkedInners registry inner) := by
  have hbody : FailsWithin registry root (bodyQuery registry inner) :=
    innersOfSequence_holds FailsWithin.sequential inner none fun reference hmentioned =>
      FailsWithin.follow (fun _ henter elements hmet =>
        innersOfSequence_holds FailsWithin.sequential elements none fun reference hmentioned =>
          henter _ _ (hmet reference hmentioned)) _ _ _ (hmet reference hmentioned)
  intro before reason hfailed
  rw [outcome_run_linkedInners] at hfailed
  cases hquery : outcome ((bodyQuery registry inner).run { before with expanded := [] }) with
  | ok found =>
    rw [hquery] at hfailed
    cases hfailed
  | error other =>
    rw [hquery] at hfailed
    cases hfailed
    exact hbody _ reason hquery

section Layouts

variable {enter : String → Site → ExpandM (List Node)}

mutual

/-- The layout of an element fails only for what can be met. -/
theorem layoutOfElement_failsWithin (henter : ∀ name site, registry.Refers root ⟨name, site⟩ →
      FailsWithin registry root (enter name site)) :
    ∀ element : Element, (∀ reference ∈ element.mentions true, registry.Refers root reference) →
      FailsWithin registry root (layoutOfElement registry enter element)
  | .byte _, _ | .tag _, _ | .captured _, _ => .pure _
  | .nonTerminal name site, hmet => henter name site (hmet _ List.mem_cons_self)
  | .linked _ _, hmet => (linkedInners_failsWithin hmet).bind fun _ => .pure _
  | .choice branches, hmet =>
    (layoutOfBranches_failsWithin henter branches hmet).bind fun _ => .pure _
  | .optional body, hmet | .zeroOrMore body, hmet | .oneOrMore body, hmet =>
    (layoutOfSequence_failsWithin henter body hmet).bind fun _ => .pure _

/-- The layout of a sequence fails only for what can be met. -/
theorem layoutOfSequence_failsWithin (henter : ∀ name site, registry.Refers root ⟨name, site⟩ →
      FailsWithin registry root (enter name site)) :
    ∀ elements : List Element,
      (∀ reference ∈ mentionsOf true elements, registry.Refers root reference) →
      FailsWithin registry root (layoutOfSequence registry enter elements)
  | [], _ => .pure _
  | element :: rest, hmet =>
    (layoutOfElement_failsWithin henter element (List.forall_mem_append.mp hmet).1).bind fun _ =>
      (layoutOfSequence_failsWithin henter rest (List.forall_mem_append.mp hmet).2).bind fun _ =>
        .pure _

/-- The layouts of branches fail only for what can be met. -/
theorem layoutOfBranches_failsWithin (henter : ∀ name site, registry.Refers root ⟨name, site⟩ →
      FailsWithin registry root (enter name site)) :
    ∀ branches : List (List Element),
      (∀ reference ∈ mentionsOfBranches true branches, registry.Refers root reference) →
      FailsWithin registry root (layoutOfBranches registry enter branches)
  | [], _ => .pure _
  | branch :: rest, hmet =>
    (layoutOfSequence_failsWithin henter branch (List.forall_mem_append.mp hmet).1).bind fun _ =>
      (layoutOfBranches_failsWithin henter rest (List.forall_mem_append.mp hmet).2).bind fun _ =>
        .pure _

end

end Layouts

end Expansion

/-- A sequence has no layout only because of an undefined rule that can be met from it. -/
theorem Registry.blames_of_layout {registry : Registry} {elements : List Element}
    {reason : AnalysisError} (hlayout : registry.layout elements = .error reason) :
    registry.Blames elements reason := by
  have hquery : Expansion.FailsWithin registry elements (Expansion.layout registry elements) :=
    Expansion.layoutOfSequence_failsWithin (Expansion.FailsWithin.follow
      (fun _ => Expansion.layoutOfSequence_failsWithin) _) elements fun _ => .own
  rw [layout, Expansion.answer_eq] at hlayout
  cases houtcome : Expansion.outcome ((Expansion.layout registry elements).run ⟨[], []⟩) with
  | ok found =>
    rw [houtcome] at hlayout
    cases hlayout
  | error other =>
    rw [houtcome] at hlayout
    cases hlayout
    exact hquery _ reason houtcome

end PegTemplates
