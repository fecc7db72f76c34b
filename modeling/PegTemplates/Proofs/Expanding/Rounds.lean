import PegTemplates.Proofs.Expanding.Runs

/-!
# Links to the round before

A link whose body is a choice of one capture and something else reaches that capture first, with
no text around it, and then whatever else it would reach without the capture. That is the link
of a fold in a repetition: the choice is between the node of the round before and the head.
-/

namespace PegTemplates

namespace Expansion

/-- Behind one more capture its entries are dropped, and no others. -/
theorem distinctCaptures_cons (id : ShapeId) (seen : List ShapeId) (parts : List LinkedInner) :
    distinctCaptures (id :: seen) parts =
      (distinctCaptures seen parts).filter (·.capture ≠ some id) := by
  induction parts generalizing seen id with
  | nil => rfl
  | cons part rest ih =>
    cases hcapture : part.capture with
    | none =>
      simp only [distinctCaptures, hcapture]
      exact ih id seen
    | some other =>
      by_cases hseen : other ∈ seen
      · simp only [distinctCaptures, hcapture, List.contains_eq_mem, hseen, List.mem_cons, or_true,
          decide_true, if_true]
        exact ih id seen
      · by_cases hsame : other = id
        · subst hsame
          simp only [distinctCaptures, hcapture, List.contains_eq_mem, hseen, List.mem_cons,
            true_or, decide_true, decide_false, if_true, Bool.false_eq_true, if_false]
          rw [List.filter_cons_of_neg (by simp [hcapture]), ih other seen, List.filter_filter]
          simp only [Bool.and_self]
        · simp only [distinctCaptures, hcapture, List.contains_eq_mem, hseen, List.mem_cons, hsame,
            or_self, decide_false, Bool.false_eq_true, if_false]
          rw [List.filter_cons_of_pos (by simp [hcapture, hsame]), ih other (id :: seen),
            ih id seen, ih other seen, List.filter_comm]

/-- A capture in front is kept, and drops what else reaches it. -/
theorem distinctCaptures_ofCapture (id : ShapeId) (parts : List LinkedInner) :
    distinctCaptures [] (.ofCapture id :: parts) =
      .ofCapture id :: (distinctCaptures [] parts).filter (·.capture ≠ some id) := by
  rw [← distinctCaptures_cons]
  rfl

end Expansion

/-- A choice of a capture and something else reaches that capture alone, and then what the
other branch reaches besides. -/
theorem Registry.linkedInners_choice {registry : Registry} {head : List Element}
    {inners : List LinkedInner} (hinners : registry.linkedInners head = .ok inners) (id : ShapeId) :
    registry.linkedInners [.choice [[.captured id], head]] =
      .ok (.ofCapture id :: inners.filter (·.capture ≠ some id)) := by
  obtain ⟨collected, sites, hcollects, hhead⟩ := registry.exists_collects head
  rw [hinners] at hhead
  cases collected with
  | error reason => cases hhead
  | ok found =>
    obtain rfl := Except.ok.inj hhead
    have hcaptured : registry.Collects guarded [] none [.captured id]
        (.ok (some [.ofCapture id])) [] := .cons .captured .nil
    have hbranches : registry.CollectsBranches guarded [] none [[.captured id], head]
        (.ok (Expansion.unionParts (some [.ofCapture id]) found)) ([] ++ (sites ++ [])) :=
      .cons hcaptured (.cons hcollects .nil)
    have hchoice : registry.Collects guarded [] none [.choice [[.captured id], head]]
        (.ok (Expansion.unionParts (some [.ofCapture id]) found)) _ :=
      .cons (.choice hbranches) .nil
    obtain ⟨other, _, hother, hlinked⟩ :=
      registry.exists_collects [.choice [[.captured id], head]]
    obtain rfl := (hother.unique hchoice).1
    rw [hlinked]
    cases found with
    | none => rfl
    | some parts => exact congrArg Except.ok (Expansion.distinctCaptures_ofCapture id parts)

end PegTemplates
