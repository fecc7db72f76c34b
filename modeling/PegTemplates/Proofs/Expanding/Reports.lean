import PegTemplates.Proofs.Expanding.Steps

/-!
# Reports of an expansion

What an expansion reports is kept beside the sites that it has expanded. No answer is
shown to depend on what was reported before. The body of a link is a query of its own,
so the captures it can reach are the same wherever the link stands.
-/

namespace PegTemplates

namespace Expansion

variable {α β : Type}

/-- What a step has come to apart from what was reported: its result and the sites that are
expanded then, or the reason why it failed. -/
def outcome : EStateM.Result AnalysisError Progress α → Except AnalysisError (α × List Site)
  | .ok value after => .ok (value, after.expanded)
  | .error reason _ => .error reason

/-- Whether a step comes to the same whatever was reported before. -/
def Blind (step : ExpandM α) : Prop :=
  ∀ before other : Progress, before.expanded = other.expanded →
    outcome (step.run before) = outcome (step.run other)

/-- A reference is followed unless its site was expanded before. -/
theorem run_once (registry : Registry) (repeated : String → Event) (nothing : α) (name : String)
    (site : Site) (expand : List Element → ExpandM α) (before : Progress) :
    (once registry repeated nothing name site expand).run before =
      if site ∈ before.expanded then
        .ok nothing { before with events := repeated name :: before.events }
      else match registry.body? name with
        | some body =>
          (expand body.elements).run { before with expanded := site :: before.expanded }
        | none =>
          .error (.undefinedRule name) { before with expanded := site :: before.expanded } := by
  unfold once
  simp only [EStateM.run_bind, EStateM.run_get, List.contains_eq_mem]
  by_cases hexpanded : site ∈ before.expanded
  · rw [if_pos hexpanded, decide_eq_true hexpanded]
    rfl
  · rw [if_neg hexpanded, decide_eq_false hexpanded, Registry.body]
    cases registry.body? name <;> rfl

/-- A step that does nothing reads no report. -/
theorem Blind.pure (value : α) : Blind (pure value) := by
  intro before other hsame
  exact congrArg (fun expanded => Except.ok (value, expanded)) hsame

/-- Of two steps neither reads a report if none of them does. -/
theorem Blind.bind {step : ExpandM α} {next : α → ExpandM β} (hstep : Blind step)
    (hnext : ∀ value, Blind (next value)) : Blind (step >>= next) := by
  intro before other hsame
  have hfirst := hstep before other hsame
  rw [EStateM.run_bind, EStateM.run_bind]
  cases hleft : step.run before with
  | error reason after =>
    rw [hleft] at hfirst
    cases hright : step.run other with
    | error _ _ =>
      rw [hright] at hfirst
      obtain rfl := Except.error.inj hfirst
      rfl
    | ok _ _ => rw [hright] at hfirst; cases hfirst
  | ok value after =>
    rw [hleft] at hfirst
    cases hright : step.run other with
    | error _ _ => rw [hright] at hfirst; cases hfirst
    | ok _ afterOther =>
      rw [hright] at hfirst
      obtain ⟨rfl, hexpanded⟩ := Prod.mk.inj (Except.ok.inj hfirst)
      exact hnext value after afterOther hexpanded

theorem Blind.sequential : Sequential Blind := ⟨Blind.pure, Blind.bind⟩

/-- Following a reference reads no report if the expansion of its body does not. -/
theorem Blind.once {registry : Registry} {repeated : String → Event} {nothing : α} {name : String}
    {site : Site} {expand : List Element → ExpandM α}
    (hexpand : ∀ elements, Blind (expand elements)) :
    Blind (once registry repeated nothing name site expand) := by
  intro before other hsame
  rw [run_once, run_once, hsame]
  split
  · rfl
  · split
    · exact hexpand _ _ _ rfl
    · rfl

/-- Following references reads no report if the expansion of bodies does not. -/
theorem Blind.follow {registry : Registry} {repeated : String → Event} {nothing : α}
    {expand : (String → Site → ExpandM α) → List Element → ExpandM α}
    (hexpand : ∀ enter, (∀ name site, Blind (enter name site)) →
      ∀ elements, Blind (expand enter elements)) (depth : Nat) :
    ∀ name site, Blind (follow registry repeated nothing expand depth name site) := by
  induction depth with
  | zero => exact fun name site => .once fun _ => .pure nothing
  | succ depth ih => exact fun name site => .once (hexpand _ ih)

/-- What the body of a link contributes as a query of its own. -/
def bodyQuery (registry : Registry) (inner : List Element) : ExpandM (Option (List LinkedInner)) :=
  innersOfSequence (follow registry .repeatedReferenceInLink none
    (fun enter => innersOfSequence enter none) (registry.siteBound inner)) none inner

/-- The body of a link is a query with nothing expanded, after which the sites expanded before
are so again. -/
theorem outcome_run_linkedInners (registry : Registry) (inner : List Element) (before : Progress) :
    outcome ((linkedInners registry inner).run before) =
      (outcome ((bodyQuery registry inner).run { before with expanded := [] })).map
        fun found => (distinctCaptures [] (found.1.getD []), before.expanded) := by
  unfold linkedInners bodyQuery
  simp only [EStateM.run_bind, EStateM.run_get, EStateM.run_set]
  generalize EStateM.run (innersOfSequence _ none inner) _ = result
  cases result <;> rfl

/-- An answer is what a query has come to with nothing expanded or reported before. -/
theorem answer_eq (query : ExpandM α) :
    answer query = (outcome (query.run ⟨[], []⟩)).map Prod.fst := by
  unfold answer
  cases query.run ⟨[], []⟩ <;> rfl

/-- Wherever a link stands, the captures that its body can reach are those of the body alone. -/
theorem outcome_linkedInners (registry : Registry) (inner : List Element) (before : Progress) :
    outcome ((linkedInners registry inner).run before) =
      (registry.linkedInners inner).map (·, before.expanded) := by
  have hblind : Blind (bodyQuery registry inner) :=
    innersOfSequence_holds Blind.sequential inner none fun _ _ =>
      Blind.follow (fun _ henter elements =>
        innersOfSequence_holds Blind.sequential elements none fun _ _ => henter _ _) _ _ _
  rw [Registry.linkedInners, answer_eq, outcome_run_linkedInners, outcome_run_linkedInners,
    hblind { before with expanded := [] } ⟨[], []⟩ rfl]
  cases outcome ((bodyQuery registry inner).run ⟨[], []⟩) <;> rfl

end Expansion

end PegTemplates
