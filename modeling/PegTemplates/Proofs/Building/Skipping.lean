import PegTemplates.Proofs.Building.Renumbering
import PegTemplates.Proofs.Building.Sketch

/-!
# Reading an option or repetition as absent

An option or a repetition of any number of rounds is skipped by leaving it out. One
that a left fold has made a choice of is skipped by taking the head that it keeps.
What is left then is what stood before it exactly if the folds in its body put back
what they took, which only the last fold directly in the body does.
-/

namespace PegTemplates

/-- What the last part of a sequence keeps when it is skipped: the head beside the
folded body, if a left fold has made a choice of it. -/
def keptLast (elements : List Element) : List Element :=
  match elements.getLast? with
  | some (.choice [_, kept]) => kept
  | _ => []

/-- A sequence that ends in an option or repetition, with that part skipped. -/
def skipLast (elements : List Element) : List Element :=
  elements.dropLast ++ keptLast elements

/-- Whether skipping an option or repetition with this body leaves alone what was
built before it, the wrapper keeping these elements. Without a fold directly in the
body nothing may be taken. If the last one takes an element from before the wrapper,
it must be the only one that is taken. If it takes one from inside, exactly one
element must be taken and the two have to be alike. -/
def Expr.LeavesAlone (kind : ScopeKind) (body : Expr) (before kept : List Element) : Prop :=
  let taken := min (body.sketch kind).reached before.length
  match body.foldSource kind with
  | none => taken = 0
  | some (.around rank) => taken = 0 ∨ (taken = 1 ∧ rank = 0)
  | some .within => taken = 1 ∧ Alike (before.dropLast ++ kept) before

namespace Builder

/-- The word of a wrapper is a part. -/
theorem wrapper_parts (wrapper : Wrapper) (body : Expr) :
    ∀ letter ∈ (wrapper.expr body).word, ∃ inner, letter = Delimiter.part inner := by
  have hword : (wrapper.expr body).word = [.part body.word] := by
    cases wrapper <;> rfl
  intro letter hletter
  rw [hword] at hletter
  exact ⟨body.word, List.mem_singleton.mp hletter⟩

/-- A rule that ends in a wrapper and is built consists of what is left of the part
before it and the wrapper around the scope of its body. -/
theorem buildRule_wrapper {builder after : Builder} {name : String} {items : List Expr}
    {wrapper : Wrapper} {body : Expr} {elements : List Element}
    (hbuild : builder.buildRule ⟨name, .sequence (items ++ [wrapper.expr body])⟩ =
      (.ok elements, after)) :
    ∃ before alone outline scope, builder.buildRule ⟨name, .sequence items⟩ = (.ok before, alone) ∧
      elements = before.take (before.length - (body.sketch wrapper.kind).reached) ++
        wrapper.around scope ∧
      outline.fold = body.foldSource wrapper.kind ∧
      ScopeSketch.Describes before.reverse outline scope := by
  obtain ⟨begun, ended, hbegun, _, hsingle, hlast, _, helements, _⟩ :=
    buildRule_last (wrapper_parts wrapper body) hbuild
  have halone : builder.buildRule ⟨name, .sequence items⟩ = (.ok begun.current.elements,
      begun.toBuilder.report (.ruleBuilt name begun.current.elements)) :=
    buildRule_eq_ok.mpr ⟨begun, hbegun, hsingle, rfl, rfl⟩
  obtain ⟨scope, left, hisolated, rfl⟩ := visit_wrapper_eq_ok.mp hlast
  obtain ⟨_, htaken⟩ := isolated_takes wrapper.isCapture_kind hsingle hisolated
  obtain ⟨hscopes, _⟩ := isolated_outcome wrapper.isCapture_kind hisolated
  have hdescribes := (body.sketch_describes wrapper.kind begun).scopes
  rw [hscopes] at hdescribes
  obtain ⟨outline, rest, houtline, _, hsketch⟩ := List.forall₂_cons_right_iff.mp hdescribes
  rw [Walk.held_of_single hsingle] at houtline
  refine ⟨_, _, outline, scope, halone, ?_, ?_, houtline⟩
  · rw [← helements]
    exact congrArg (· ++ _) htaken
  · rw [Expr.foldSource, hsketch]
    rfl

end Builder

/-- Skipping an option or repetition drops it, or takes the head that it keeps. -/
theorem skipLast_around {wrapper : Wrapper} (hwrapper : wrapper = .optional ∨ wrapper = .zeroOrMore)
    (elements : List Element) (scope : Scope) :
    skipLast (elements ++ wrapper.around scope) =
        elements ++ keptLast (elements ++ wrapper.around scope) ∧
      keptLast (elements ++ wrapper.around scope) =
        (scope.fold.bind (·.head)).toList := by
  obtain ⟨kind, inner, fold⟩ := scope
  rcases hwrapper with rfl | rfl <;> cases fold with
  | none => simp [skipLast, keptLast, Wrapper.around]
  | some mark => simp [skipLast, keptLast, Wrapper.around, Builder.foldedOrHead]

section Lists

variable {before : List Element} {count : Nat}

/-- A sequence from which nothing is taken is left as it is. -/
theorem take_of_taken_zero (htaken : min count before.length = 0) :
    before.take (before.length - count) = before := by
  apply List.take_of_length_le
  omega

/-- A sequence from which one element is taken is left without its last one. -/
theorem take_of_taken_one (htaken : min count before.length = 1) :
    before.take (before.length - count) = before.dropLast := by
  rw [List.dropLast_eq_take]
  congr 1
  omega

/-- The last element put back behind the others makes the sequence again. -/
theorem dropLast_append_first (before : List Element) :
    before.dropLast ++ before.reverse[0]?.toList = before := by
  rw [← List.head?_eq_getElem?, List.head?_reverse]
  rcases List.eq_nil_or_concat before with rfl | ⟨front, last, rfl⟩
  · rfl
  · simp

/-- A sequence can be like itself with some elements taken off and others put in their
place only if these are as many. -/
theorem length_of_alike_take {kept : List Element}
    (halike : Alike (before.take (before.length - count) ++ kept) before) :
    kept.length = min count before.length := by
  have hlength := halike.length_eq
  rw [List.length_append, List.length_take] at hlength
  omega

/-- Without anything put in their place no elements may be taken. -/
theorem alike_take_iff :
    Alike (before.take (before.length - count) ++ []) before ↔ min count before.length = 0 := by
  constructor
  · intro halike
    exact (length_of_alike_take halike).symm
  · intro htaken
    rw [List.append_nil, take_of_taken_zero htaken]
    exact .refl before

/-- An element can only be put in the place of one element that is like it. -/
theorem alike_take_singleton_iff {head : Element} :
    Alike (before.take (before.length - count) ++ [head]) before ↔
      min count before.length = 1 ∧ Alike (before.dropLast ++ [head]) before := by
  constructor
  · intro halike
    have htaken : min count before.length = 1 := (length_of_alike_take halike).symm
    rw [take_of_taken_one htaken] at halike
    exact ⟨htaken, halike⟩
  · rintro ⟨htaken, halike⟩
    rw [take_of_taken_one htaken]
    exact halike

/-- One of the elements that have been taken can only be put back if it was the only one. -/
theorem alike_take_rank_iff {rank : Nat} (hrank : rank < count) :
    Alike (before.take (before.length - count) ++ before.reverse[rank]?.toList) before ↔
      min count before.length = 0 ∨ (min count before.length = 1 ∧ rank = 0) := by
  constructor
  · intro halike
    have hlength := length_of_alike_take halike
    cases hhead : before.reverse[rank]? with
    | none =>
      rw [hhead] at hlength
      exact Or.inl hlength.symm
    | some head =>
      rw [hhead] at hlength
      have htaken : min count before.length = 1 := hlength.symm
      have hinside := (List.getElem?_eq_some_iff.mp hhead).1
      rw [List.length_reverse] at hinside
      exact Or.inr ⟨htaken, by omega⟩
  · rintro (htaken | ⟨htaken, rfl⟩)
    · have hempty : before = [] := List.eq_nil_of_length_eq_zero (by omega)
      subst hempty
      simpa using Alike.refl []
    · rw [take_of_taken_one htaken, dropLast_append_first]
      exact .refl before

end Lists

namespace Builder

/-- Skipping the option or repetition at the end of a rule that is built gives the
body of the rule without it, up to the numbers, exactly if its body leaves alone what
was built before. -/
theorem buildRule_skipLast {builder after : Builder} {name : String} {items : List Expr}
    {wrapper : Wrapper} {body : Expr} {elements : List Element}
    (hwrapper : wrapper = .optional ∨ wrapper = .zeroOrMore)
    (hbuild : builder.buildRule ⟨name, .sequence (items ++ [wrapper.expr body])⟩ =
      (.ok elements, after)) :
    ∃ before alone, builder.buildRule ⟨name, .sequence items⟩ = (.ok before, alone) ∧
      (Alike (skipLast elements) before ↔
        body.LeavesAlone wrapper.kind before (keptLast elements)) := by
  obtain ⟨before, alone, outline, scope, halone, rfl, hsource, hscope⟩ := buildRule_wrapper hbuild
  refine ⟨before, alone, halone, ?_⟩
  obtain ⟨hskip, hkept⟩ := skipLast_around hwrapper
    (before.take (before.length - (body.sketch wrapper.kind).reached)) scope
  rw [hskip, hkept]
  have hfold := hscope.fold
  rw [hsource] at hfold
  unfold Expr.LeavesAlone
  dsimp only
  cases hwhere : body.foldSource wrapper.kind with
  | none =>
    rw [hwhere] at hfold
    cases hmark : scope.fold with
    | some mark => rw [hmark] at hfold; cases hfold
    | none => exact alike_take_iff
  | some source =>
    rw [hwhere] at hfold
    cases hmark : scope.fold with
    | none => rw [hmark] at hfold; cases hfold
    | some mark =>
      rw [hmark] at hfold
      have hgives : source.Gives before.reverse mark.head := by
        cases hfold with
        | some hgives => exact hgives
      rw [Option.bind_some]
      cases source with
      | within =>
        obtain ⟨head, hhead⟩ := hgives
        rw [hhead]
        exact alike_take_singleton_iff
      | around rank =>
        have hhead : mark.head = before.reverse[rank]? := hgives
        rw [hhead]
        exact alike_take_rank_iff (body.foldSource_lt hwhere)

/-- An option that has taken one byte in front of it, and nothing else, is skipped to
that byte. -/
theorem skipLast_puts_byte_back :
    (Builder.fresh.buildRule ⟨"sum", .sequence ([.byte 97] ++
        [Wrapper.optional.expr (.sequence [.fold none, .byte 98, .endCapture])])⟩).1 =
      .ok [.choice [[.captured 0], [.byte 97]]] ∧
    ∃ before alone, Builder.fresh.buildRule ⟨"sum", .sequence [.byte 97]⟩ = (.ok before, alone) ∧
      Alike (skipLast [.choice [[.captured 0], [.byte 97]]]) before := by
  have hbuild : Builder.fresh.buildRule ⟨"sum", .sequence ([.byte 97] ++
        [Wrapper.optional.expr (.sequence [.fold none, .byte 98, .endCapture])])⟩ =
      (.ok [.choice [[.captured 0], [.byte 97]]], _) := rfl
  refine ⟨congrArg Prod.fst hbuild, ?_⟩
  obtain ⟨before, alone, halone, hskip⟩ := buildRule_skipLast (Or.inl rfl) hbuild
  cases halone
  exact ⟨_, _, rfl, hskip.mpr (Or.inr ⟨rfl, rfl⟩)⟩

/-- An option whose fold takes a byte of its own body keeps that byte when it is
skipped, behind the one before it. -/
theorem skipLast_keeps_own_byte :
    (Builder.fresh.buildRule ⟨"sum", .sequence [.byte 97,
        .optional (.sequence [.byte 98, .fold none, .endCapture])]⟩).1 =
      .ok [.byte 97, .choice [[.captured 0], [.byte 98]]] ∧
    (Builder.fresh.buildRule ⟨"sum", .sequence [.byte 97]⟩).1 = .ok [.byte 97] ∧
    ¬ Alike (skipLast [.byte 97, .choice [[.captured 0], [.byte 98]]]) [.byte 97] := by
  refine ⟨rfl, rfl, fun halike => ?_⟩
  have hlength := halike.length_eq
  simp [skipLast, keptLast] at hlength

end Builder

end PegTemplates
