import PegTemplates.Proofs.Building.Conserving

/-!
# Walking inside open scopes

What is walked through on its own is walked through in the same way inside any scopes that are
open already, if it closes what it opens and folds nothing: the scopes around it, and the
elements that were collected in front of it, are neither read nor changed. Only a fold reaches
out of the scopes that it stands in.
-/

namespace PegTemplates

/-- Whether a walk that goes on in the current scope of another stands where it stands when it
has gone on alone: the scopes of the other walk are around it, and what its outermost scope holds
is behind what was collected there before. -/
structure Walk.Encloses (outer alone whole : Walk) : Prop where
  /-- A fold that closes in the current scope is not one of a repetition. -/
  kind : outer.current.kind ≠ .repeated
  /-- The same shapes and rules are registered. -/
  registry : whole.registry = alone.registry
  /-- Both hand out the same site next. -/
  nextSite : whole.nextSite = alone.nextSite
  /-- Only the outermost scope differs, and what is around it. -/
  scopes : ∃ inner own, alone.scopes = inner ++ [own] ∧ own.kind ≠ .repeated ∧
    whole.scopes = inner ++ outer.current.append own.elements :: outer.enclosing

namespace Walk.Encloses

variable {outer alone whole after : Walk}

/-- The same elements are collected. -/
theorem append (hencloses : outer.Encloses alone whole) (elements : List Element) :
    outer.Encloses (alone.append elements) (whole.append elements) := by
  have hscopes : ∀ walk : Walk,
      (walk.append elements).scopes = walk.scopes.modifyHead (·.append elements) := fun _ => rfl
  obtain ⟨houter, hregistry, hsite, inner, own, halone, hown, hwhole⟩ := hencloses
  refine ⟨houter, hregistry, hsite, ?_⟩
  rw [hscopes, hscopes, halone, hwhole]
  cases inner with
  | nil =>
    refine ⟨[], own.append elements, rfl, hown, ?_⟩
    simp [Scope.append]
  | cons scope rest => exact ⟨scope.append elements :: rest, own, rfl, hown, rfl⟩

/-- The same scope is opened. -/
theorem enter (hencloses : outer.Encloses alone whole) (scope : Scope) :
    outer.Encloses (alone.enter scope) (whole.enter scope) := by
  obtain ⟨houter, hregistry, hsite, inner, own, halone, hown, hwhole⟩ := hencloses
  exact ⟨houter, hregistry, hsite, scope :: inner, own, congrArg (scope :: ·) halone, hown,
    congrArg (scope :: ·) hwhole⟩

/-- The same site is handed out. -/
theorem reference (hencloses : outer.Encloses alone whole) (name : String) :
    outer.Encloses (alone.reference name) (whole.reference name) := by
  have hsite := hencloses.nextSite
  have happend := hencloses.append [.nonTerminal name ⟨alone.nextSite⟩]
  rw [Walk.reference, Walk.reference, hsite]
  exact ⟨happend.kind, happend.registry, rfl, happend.scopes⟩

/-- A node that closes becomes the same shape. -/
theorem closeCapture (hencloses : outer.Encloses alone whole) {rule : String}
    (hrun : (Builder.closeCapture rule).run alone = .ok () after) :
    ∃ last, (Builder.closeCapture rule).run whole = .ok () last ∧ outer.Encloses after last := by
  obtain ⟨hcapture, around, rest, henclosing, rfl⟩ := Builder.closeCapture_eq_ok.mp hrun
  obtain ⟨houter, hregistry, hsite, inner, own, halone, hown, hwhole⟩ := hencloses
  rw [Walk.scopes, henclosing] at halone
  rcases inner with _ | ⟨first, _ | ⟨next, inner⟩⟩
  · cases halone
  · -- the node closes into the scope that is the outermost one of the walk alone
    obtain ⟨rfl, haround⟩ := List.cons.inj halone
    obtain ⟨rfl, rfl⟩ := List.cons.inj haround
    obtain ⟨hcurrent, hbelow⟩ := List.cons.inj hwhole
    rw [← hcurrent] at hcapture
    have hbase : (outer.current.append around.elements).kind ≠ .repeated := houter
    refine ⟨_, Builder.closeCapture_eq_ok.mpr ⟨hcapture, _, _, hbelow, rfl⟩, houter, ?_, hsite, [],
      { around with elements := around.elements ++ [.captured alone.registry.size] }, rfl, hown, ?_⟩
    · simp only [Walk.closeInto, closedElements_of_ne_repeated hown,
        closedElements_of_ne_repeated hbase, hregistry, hcurrent]
    · simp [Walk.closeInto, Walk.scopes, Scope.append, hregistry]
  · obtain ⟨rfl, haround⟩ := List.cons.inj halone
    obtain ⟨rfl, rfl⟩ := List.cons.inj haround
    obtain ⟨hcurrent, hbelow⟩ := List.cons.inj hwhole
    rw [← hcurrent] at hcapture
    refine ⟨_, Builder.closeCapture_eq_ok.mpr ⟨hcapture, _, _, hbelow, rfl⟩, houter, ?_, hsite,
      { around with elements := around.elements ++ [.captured alone.registry.size] } :: inner, own,
      rfl, hown, ?_⟩
    · simp only [Walk.closeInto, hregistry, hcurrent]
    · simp only [Walk.closeInto, Walk.scopes, hregistry]
      rfl

/-- A step in a scope of its own hands back the same scope. -/
theorem isolated (hencloses : outer.Encloses alone whole) {rule : String} {kind : ScopeKind}
    {step : WalkM Unit} {scope : Scope}
    (hstep : ∀ inside, step.run (alone.enter (.opened kind)) = .ok () inside →
      ∃ last, step.run (whole.enter (.opened kind)) = .ok () last ∧ outer.Encloses inside last)
    (hrun : (Builder.isolated rule kind step).run alone = .ok scope after) :
    ∃ last, (Builder.isolated rule kind step).run whole = .ok scope last ∧
      outer.Encloses after last := by
  obtain ⟨hinside, hcount⟩ := Builder.isolated_eq_ok.mp hrun
  obtain ⟨last, hlast, houter, hregistry, hsite, inner, own, hinner, hown, hwhole⟩ :=
    hstep _ hinside
  obtain ⟨_, _, _, before, root, hbefore, _, hbegun⟩ := hencloses
  have hopen : inner.length = before.length + 1 := by
    have hfirst := congrArg List.length hinner
    have hsecond := congrArg List.length hbefore
    simp only [Walk.scopes, Walk.enter, List.length_cons, List.length_append] at hfirst hsecond
    omega
  cases inner with
  | nil => cases hopen
  | cons current inner =>
    obtain ⟨rfl, hleft⟩ := List.cons.inj hinner
    obtain ⟨hsame, hbelow⟩ := List.cons.inj hwhole
    obtain ⟨first, later, hfirst⟩ : ∃ first later,
        inner ++ outer.current.append own.elements :: outer.enclosing = first :: later := by
      cases inner <;> exact ⟨_, _, rfl⟩
    have hdepth := congrArg List.length hbegun
    have hlength := congrArg List.length hfirst
    have hended : last = (last.leave first later).enter (after.enter scope).current := by
      rw [← hsame]
      exact congrArg (Walk.mk last.toBuilder last.current) (hbelow.trans hfirst)
    have hkept : (last.leave first later).enclosing.length = whole.enclosing.length := by
      simp only [Walk.scopes, Walk.leave, List.length_cons, List.length_append]
        at hdepth hopen hlength ⊢
      omega
    exact ⟨last.leave first later,
      Builder.isolated_eq_ok.mpr ⟨hlast.trans (congrArg _ hended), hkept⟩, houter, hregistry,
      hsite, inner, own, hleft, hown, hfirst.symm⟩

/-- A wrapper stands for the same elements if its body does. -/
theorem visit_wrapper (hencloses : outer.Encloses alone whole) {rule : String}
    (wrapper : Wrapper) {inner : Expr}
    (hinner : ∀ inside,
      (Builder.visit rule inner).run (alone.enter (.opened wrapper.kind)) = .ok () inside →
        ∃ last, (Builder.visit rule inner).run (whole.enter (.opened wrapper.kind)) = .ok () last ∧
          outer.Encloses inside last)
    (hrun : (Builder.visit rule (wrapper.expr inner)).run alone = .ok () after) :
    ∃ last, (Builder.visit rule (wrapper.expr inner)).run whole = .ok () last ∧
      outer.Encloses after last := by
  obtain ⟨scope, inside, hisolated, rfl⟩ := Builder.visit_wrapper_eq_ok.mp hrun
  obtain ⟨last, hlast, hbehind⟩ := hencloses.isolated hinner hisolated
  exact ⟨last.append (wrapper.around scope),
    Builder.visit_wrapper_eq_ok.mpr ⟨scope, last, hlast, rfl⟩, hbehind.append _⟩

end Walk.Encloses

namespace Builder

variable (rule : String) {outer : Walk}

mutual

/-- An expression without folds that is accepted alone is accepted inside open scopes. -/
theorem visit_encloses : ∀ (expr : Expr) {alone whole after : Walk}, expr.hasFold = false →
      outer.Encloses alone whole → (visit rule expr).run alone = .ok () after →
      ∃ last, (visit rule expr).run whole = .ok () last ∧ outer.Encloses after last
  | .byte value, _, _, _, _, hencloses, rfl => ⟨_, rfl, hencloses.append [.byte value]⟩
  | .tag name, _, _, _, _, hencloses, rfl => ⟨_, rfl, hencloses.append [.tag name]⟩
  | .nonTerminal name, _, _, _, _, hencloses, rfl => ⟨_, rfl, hencloses.reference name⟩
  | .sequence items, _, _, _, hnone, hencloses, hrun =>
    visitItems_encloses items hnone hencloses hrun
  | .choice branches, _, _, _, hnone, hencloses, hrun => by
    obtain ⟨sequences, inside, hbranches, rfl⟩ := visit_choice_eq_ok.mp hrun
    obtain ⟨last, hlast, hbehind⟩ := visitBranches_encloses branches hnone hencloses hbranches
    exact ⟨last.append [.choice sequences],
      visit_choice_eq_ok.mpr ⟨sequences, last, hlast, rfl⟩, hbehind.append _⟩
  | .optional inner, _, _, _, hnone, hencloses, hrun => hencloses.visit_wrapper .optional
    (fun _ => visit_encloses inner hnone (hencloses.enter _)) hrun
  | .zeroOrMore inner, _, _, _, hnone, hencloses, hrun => hencloses.visit_wrapper .zeroOrMore
    (fun _ => visit_encloses inner hnone (hencloses.enter _)) hrun
  | .oneOrMore inner, _, _, _, hnone, hencloses, hrun => hencloses.visit_wrapper .oneOrMore
    (fun _ => visit_encloses inner hnone (hencloses.enter _)) hrun
  | .link label inner, _, _, _, hnone, hencloses, hrun => hencloses.visit_wrapper (.link label)
    (fun _ => visit_encloses inner hnone (hencloses.enter _)) hrun
  | .beginCapture, _, _, _, _, hencloses, rfl => ⟨_, rfl, hencloses.enter (.opened .capture)⟩
  | .endCapture, _, _, _, _, hencloses, hrun => hencloses.closeCapture hrun
  | .fold _, _, _, _, hnone, _, _ => Bool.noConfusion hnone
  | .empty, _, _, _, _, hencloses, rfl | .any, _, _, _, _, hencloses, rfl
  | .byteSet _, _, _, _, _, hencloses, rfl | .followedBy _, _, _, _, _, hencloses, rfl
  | .notFollowedBy _, _, _, _, _, hencloses, rfl => ⟨_, rfl, hencloses⟩

/-- Items without folds that are accepted alone are accepted inside open scopes. -/
theorem visitItems_encloses : ∀ (items : List Expr) {alone whole after : Walk},
      Expr.hasFoldInAny items = false → outer.Encloses alone whole →
      (visitItems rule items).run alone = .ok () after →
      ∃ last, (visitItems rule items).run whole = .ok () last ∧ outer.Encloses after last
  | [], _, _, _, _, hencloses, rfl => ⟨_, rfl, hencloses⟩
  | item :: rest, _, _, _, hnone, hencloses, hrun => by
    obtain ⟨hitem, hrest⟩ := Bool.or_eq_false_iff.mp hnone
    obtain ⟨middle, hmiddle, hafter⟩ := visitItems_cons_eq_ok.mp hrun
    obtain ⟨between, hbetween, hbehind⟩ := visit_encloses item hitem hencloses hmiddle
    obtain ⟨last, hlast, hend⟩ := visitItems_encloses rest hrest hbehind hafter
    exact ⟨last, visitItems_cons_eq_ok.mpr ⟨between, hbetween, hlast⟩, hend⟩

/-- Branches without folds that are accepted alone are accepted inside open scopes. -/
theorem visitBranches_encloses : ∀ (branches : List Expr) {alone whole after : Walk}
      {sequences : List (List Element)}, Expr.hasFoldInAny branches = false →
      outer.Encloses alone whole → (visitBranches rule branches).run alone = .ok sequences after →
      ∃ last, (visitBranches rule branches).run whole = .ok sequences last ∧
        outer.Encloses after last
  | [], _, _, _, _, _, hencloses, rfl => ⟨_, rfl, hencloses⟩
  | branch :: rest, _, _, _, _, hnone, hencloses, hrun => by
    obtain ⟨hbranch, hrest⟩ := Bool.or_eq_false_iff.mp hnone
    obtain ⟨scope, middle, others, hscope, hothers, rfl⟩ := visitBranches_cons_eq_ok.mp hrun
    obtain ⟨between, hbetween, hbehind⟩ := hencloses.isolated
      (fun _ => visit_encloses branch hbranch (hencloses.enter _)) hscope
    obtain ⟨last, hlast, hend⟩ := visitBranches_encloses rest hrest hbehind hothers
    exact ⟨last, visitBranches_cons_eq_ok.mpr ⟨scope, between, others, hbetween, hlast, rfl⟩, hend⟩

end

/-- An expression without folds that is built on its own comes to the same inside open scopes: its
elements are collected in the current one. -/
theorem visit_of_buildRule {builder middle : Builder} {expr : Expr} {elements : List Element}
    (hnone : expr.hasFold = false)
    (hbuild : builder.buildRule ⟨rule, expr⟩ = (.ok elements, middle)) (walk : Walk)
    (hkind : walk.current.kind ≠ .repeated) (hregistry : walk.registry = builder.registry)
    (hsite : walk.nextSite = builder.nextSite) :
    ∃ last, (visit rule expr).run walk = .ok () last ∧
      last.scopes = walk.current.append elements :: walk.enclosing ∧
      last.registry = middle.registry ∧ last.nextSite = middle.nextSite := by
  obtain ⟨alone, hrun, hsingle, rfl, rfl⟩ := buildRule_eq_ok.mp hbuild
  have hstart : walk.Encloses (.start builder) walk := by
    refine ⟨hkind, hregistry, hsite, [], .opened .root, rfl, by decide, ?_⟩
    simp [Walk.scopes, Scope.append, Scope.opened]
  obtain ⟨last, hlast, _, hshapes, hsites, inner, own, halone, _, hwhole⟩ :=
    visit_encloses rule expr hnone hstart hrun
  rw [Walk.scopes, hsingle] at halone
  obtain ⟨rfl, hown⟩ | ⟨_, hnothing⟩ := List.append_eq_singleton_iff.mp halone.symm
  · obtain rfl := (List.cons.inj hown).1
    exact ⟨last, hlast, hwhole, hshapes, hsites⟩
  · cases hnothing

end Builder

end PegTemplates
