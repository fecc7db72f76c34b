import PegTemplates.Proofs.Building.Heads
import PegTemplates.Proofs.Building.Merging

/-!
# Reading a choice as one of its branches

The branches of a choice are visited one after the other, and the folds in them take
elements from before the choice. A branch comes to what it would come to in the place
of the whole choice exactly if no other branch takes an element away that it would
find or leave there.
-/

namespace PegTemplates

/-- Moves a block of numbers behind the block that follows it: from `start` on, `first`
numbers change places with the next `next` ones. -/
def moveBlock (start first next number : Nat) : Nat :=
  if number < start then number
  else if number < start + first then number + next
  else if number < start + first + next then number - first
  else number

/-- Moving a block back undoes the move. -/
theorem moveBlock_moveBlock (start first next number : Nat) :
    moveBlock start next first (moveBlock start first next number) = number := by
  unfold moveBlock
  split_ifs <;> omega

/-- Moving a block is a renumbering. -/
theorem moveBlock_bijective (start first next : Nat) :
    Function.Bijective (moveBlock start first next) :=
  Function.bijective_iff_has_inverse.mpr ⟨moveBlock start next first,
    moveBlock_moveBlock start first next, moveBlock_moveBlock start next first⟩

/-- Numbers in front of the blocks stay. -/
theorem moveBlock_of_lt {start number : Nat} (hnumber : number < start) (first next : Nat) :
    moveBlock start first next number = number :=
  if_pos hnumber

/-- Numbers handed out between `start` and `last` move back to follow `other`. -/
theorem moveBlock_back {start other last number : Nat} (hother : other ≤ start)
    (hfrom : start ≤ number) (hlast : number < last) :
    moveBlock other (start - other) (last - start) number + start = number + other := by
  unfold moveBlock
  split_ifs <;> omega

namespace Renumbering

/-- The numbers that the run from `start` to `last` hands out become the next ones
behind `other`, whose numbers come first. -/
def back (start other last : Assembly) : Renumbering where
  capture := moveBlock other.nextShape (start.nextShape - other.nextShape)
    (last.nextShape - start.nextShape)
  site := moveBlock other.nextSite (start.nextSite - other.nextSite)
    (last.nextSite - start.nextSite)

/-- Going back is a renumbering. -/
theorem back_bijective (start other last : Assembly) : (back start other last).Bijective :=
  ⟨moveBlock_bijective _ _ _, moveBlock_bijective _ _ _⟩

/-- Going back carries the numbers of the run over. -/
theorem back_carries (start other last : Assembly) (hshape : other.nextShape ≤ start.nextShape)
    (hsite : other.nextSite ≤ start.nextSite) :
    (back start other last).Carries start other last :=
  ⟨fun _ hfrom hlast => moveBlock_back hshape hfrom hlast,
    fun _ hfrom hlast => moveBlock_back hsite hfrom hlast⟩

end Renumbering

/-- Shapes that have been registered since. -/
def Builder.shapesUntil (builder later : Builder) : List Shape :=
  later.registry.shapes.drop builder.registry.size

/-- Items that are accepted in the scope of a rule hold, and register, only numbers that
have been handed out by then. -/
theorem Builder.visitItems_fixed {builder : Builder} {name : String} {items : List Expr}
    {after : Walk} (hrun : (visitItems name items).run (.start builder) = .ok () after)
    (numbers : Renumbering)
    (hcapture : ∀ id, id < after.registry.size → numbers.capture id = id)
    (hsite : ∀ site, site < after.nextSite → numbers.site site = site) :
    renumberSequence numbers after.current.elements = after.current.elements ∧
      (builder.shapesUntil after.toBuilder).map (·.renumber numbers) =
        builder.shapesUntil after.toBuilder := by
  have hmirrors := visitItems_mirrors name items (Walk.mirrors_whole (.start builder))
    (Walk.grounded_whole rfl) hrun
  have hstart : Assembly.Renumbered numbers (Walk.start builder).whole (Walk.start builder).whole
      (Walk.start builder).whole (Walk.start builder).whole :=
    ⟨rfl, rfl, ⟨Nat.le_refl _, Nat.le_refl _⟩, rfl, rfl, rfl, rfl⟩
  have hcarries : numbers.Carries (Walk.start builder).whole (Walk.start builder).whole
      (Assembly.run (Expr.stepsOfItems items) (Walk.start builder).whole) := by
    constructor
    · intro id _ hlast
      rw [hcapture id (hmirrors.nextShape ▸ hlast)]
    · intro site _ hlast
      rw [hsite site (hmirrors.nextSite ▸ hlast)]
  obtain ⟨_, _, _, hscopes, hshapes, _, _⟩ := hstart.run (Expr.stepsOfItems items) hcarries
  obtain ⟨around, hwalk, hdepth, _⟩ := hmirrors.scopes
  rw [List.length_eq_zero_iff.mp hdepth, List.append_nil] at hwalk
  rw [← hwalk] at hscopes
  constructor
  · exact (congrArg Scope.elements (List.cons.inj hscopes).1).symm
  · have huntil : builder.shapesUntil after.toBuilder =
        (Assembly.run (Expr.stepsOfItems items) (Walk.start builder).whole).shapes := by
      rw [shapesUntil, hmirrors.shapes]
      exact List.drop_left
    rw [huntil]
    exact hshapes.symm

/-- A sequence that ends in a choice, with that choice read as its branch of that number. -/
def chooseLast (number : Nat) (elements : List Element) : List Element :=
  match elements.getLast? with
  | some (.choice branches) => elements.dropLast ++ branches[number]?.getD []
  | _ => elements

/-- The choice at the end of a sequence is read as the branch behind that many others. -/
theorem chooseLast_choice (front chosen : List Element) (earlier later : List (List Element)) :
    chooseLast earlier.length (front ++ [.choice (earlier ++ chosen :: later)]) =
      front ++ chosen := by
  simp [chooseLast]

namespace Builder

/-- The word of a choice consists of parts. -/
theorem choice_parts (branches : List Expr) :
    ∀ letter ∈ (Expr.choice branches).word, ∃ inner, letter = Delimiter.part inner := by
  change ∀ letter ∈ Expr.wordOfBranches branches, _
  induction branches with
  | nil =>
    intro letter hletter
    cases hletter
  | cons branch rest ih =>
    intro letter hletter
    rcases List.mem_cons.mp hletter with rfl | hrest
    · exact ⟨branch.word, rfl⟩
    · exact ih letter hrest

/-- The visit of a rule that ends in a choice and is built, up to and behind one branch. -/
structure ChoiceVisit (builder : Builder) (name : String) (items branches : List Expr)
    (number : Nat) (branch : Expr) (elements : List Element) where
  /-- The walk in front of the choice. -/
  begun : Walk
  /-- The walk in front of the branch. -/
  started : Walk
  /-- The walk behind the branch. -/
  left : Walk
  /-- The walk behind the choice, before that is collected. -/
  ended : Walk
  /-- What the branches before that one come to. -/
  earlier : List (List Element)
  /-- What the branch comes to. -/
  scope : Scope
  /-- What the branches behind it come to. -/
  later : List (List Element)
  /-- The items before the choice are accepted. -/
  items_run : (visitItems name items).run (.start builder) = .ok () begun
  /-- They leave no node open. -/
  kinds : begun.kinds = [.root]
  /-- They leave the scope of the rule alone. -/
  single : begun.enclosing = []
  /-- The branches before that one are accepted. -/
  earlier_run : (visitBranches name (branches.take number)).run begun = .ok earlier started
  /-- The branch is accepted. -/
  branch_run : (isolated name .branch (visit name branch)).run started = .ok scope left
  /-- The branches behind it are accepted. -/
  later_run : (visitBranches name (branches.drop (number + 1))).run left = .ok later ended
  /-- The rule ends in the choice. -/
  elements_eq : elements = ended.current.elements ++ [.choice (earlier ++ scope.elements :: later)]

/-- A rule that ends in a choice and is built has been visited in that way. -/
theorem buildRule_choice {builder after : Builder} {name : String} {items branches : List Expr}
    {number : Nat} {branch : Expr} {elements : List Element}
    (hbranch : branches[number]? = some branch)
    (hbuild : builder.buildRule ⟨name, .sequence (items ++ [.choice branches])⟩ =
      (.ok elements, after)) :
    Nonempty (ChoiceVisit builder name items branches number branch elements) := by
  obtain ⟨begun, final, hbegun, hkinds, hsingle, hchoice, _, helements, _⟩ :=
    buildRule_last (choice_parts branches) hbuild
  obtain ⟨sequences, ended, hsequences, rfl⟩ := visit_choice_eq_ok.mp hchoice
  have hsplit : branches = branches.take number ++ branch :: branches.drop (number + 1) := by
    obtain ⟨hnumber, hget⟩ := List.getElem?_eq_some_iff.mp hbranch
    rw [← hget, List.getElem_cons_drop, List.take_append_drop]
  rw [hsplit, run_visitBranches_append, goOn_eq_ok] at hsequences
  obtain ⟨earlier, started, hearlier, hrest⟩ := hsequences
  rw [goOn_eq_ok] at hrest
  obtain ⟨others, last, hothers, hlast⟩ := hrest
  cases hlast
  obtain ⟨scope, left, later, hscope, hlater, rfl⟩ := visitBranches_cons_eq_ok.mp hothers
  exact ⟨begun, started, left, ended, earlier, scope, later, hbegun, hkinds, hsingle, hearlier,
    hscope, hlater, helements.symm⟩

/-- A body that is accepted in a scope of its own registers no less and meets no less. -/
theorem isolated_grows {rule : String} {kind : ScopeKind} {expr : Expr} {walk after : Walk}
    {scope : Scope} (hkind : kind.isCapture = false)
    (hrun : (isolated rule kind (visit rule expr)).run walk = .ok scope after) :
    walk.registry.size ≤ after.registry.size ∧ walk.nextSite ≤ after.nextSite := by
  obtain ⟨_, hafter⟩ := isolated_outcome hkind hrun
  have hnumbers := Assembly.numbers_le_run expr.steps ((Step.enter kind).apply walk.beside)
  rw [hafter.nextShape, hafter.nextSite]
  exact hnumbers

/-- Branches that are accepted register no less and meet no less. -/
theorem visitBranches_grows (rule : String) : ∀ {branches : List Expr} {walk after : Walk}
      {sequences : List (List Element)},
      (visitBranches rule branches).run walk = .ok sequences after →
      walk.registry.size ≤ after.registry.size ∧ walk.nextSite ≤ after.nextSite
  | [], _, _, _, hrun => by
    cases hrun
    exact ⟨Nat.le_refl _, Nat.le_refl _⟩
  | branch :: rest, _, _, _, hrun => by
    obtain ⟨scope, last, sequences, hbranch, hrest, rfl⟩ := visitBranches_cons_eq_ok.mp hrun
    obtain ⟨hshape, hsite⟩ := isolated_grows rfl hbranch
    obtain ⟨hshapes, hsites⟩ := visitBranches_grows rule hrest
    exact ⟨Nat.le_trans hshape hshapes, Nat.le_trans hsite hsites⟩

namespace ChoiceVisit

variable {builder : Builder} {name : String} {items branches : List Expr} {number : Nat}
  {branch : Expr} {elements : List Element}
  (visited : ChoiceVisit builder name items branches number branch elements)

/-- What was built before the choice. -/
def before : List Element := visited.begun.current.elements

/-- The run of the branch where it stands. -/
def run : Assembly := branch.runBeside .branch visited.started

/-- The run that the branch would have right behind the items. -/
def runFirst : Assembly := branch.runBeside .branch visited.begun

/-- The elements left to the branch, in the order in which folds take them. -/
theorem held_started :
    held visited.started.scopes =
      visited.before.reverse.drop ((branches.take number).map Expr.reach).sum := by
  obtain ⟨_, hsingle, hstarted⟩ := visitBranches_takes name visited.single visited.earlier_run
  rw [Walk.held_of_single hsingle, hstarted, Scope.without_eq, List.reverse_reverse, before]

/-- The elements that the branch would find right behind the items. -/
theorem held_begun : held visited.begun.scopes = visited.before.reverse := by
  rw [Walk.held_of_single visited.single, before]

/-- What the branches before this one, the branch itself, and those behind it leave. -/
theorem ended_elements :
    visited.ended.current.elements =
      (visited.run.reserve.drop ((branches.drop (number + 1)).map Expr.reach).sum).reverse := by
  obtain ⟨_, hstarted, _⟩ := visitBranches_takes name visited.single visited.earlier_run
  obtain ⟨hleft, hreserve⟩ := isolated_leaves rfl hstarted visited.branch_run
  obtain ⟨_, _, hended⟩ := visitBranches_takes name hleft visited.later_run
  rw [hended, Scope.without_eq, hreserve, List.reverse_reverse]
  rfl

/-- Reading the choice as the branch gives what the branches leave and what the branch
itself comes to. -/
theorem chooseLast_elements (hbranch : branches[number]? = some branch) :
    chooseLast number elements = visited.ended.current.elements ++ visited.scope.elements := by
  obtain ⟨hlength, _⟩ := visitBranches_takes name visited.single visited.earlier_run
  have hnumber := (List.getElem?_eq_some_iff.mp hbranch).1
  rw [List.length_take, Nat.min_eq_left (Nat.le_of_lt hnumber)] at hlength
  exact (congrArg₂ chooseLast hlength.symm visited.elements_eq).trans (chooseLast_choice _ _ _ _)

/-- The branch alone behind the items is accepted as well. -/
theorem buildRule_alone :
    ∃ last, (visit name branch).run visited.begun = .ok () last ∧ last.enclosing = [] ∧
      builder.buildRule ⟨name, .sequence (items ++ [branch])⟩ =
        (.ok last.current.elements,
          last.toBuilder.report (.ruleBuilt name last.current.elements)) := by
  have hfits : Place.part.Fits .branch := Or.inl rfl
  have hpart : offenceIn name .part 0 branch.word = none := by
    have hreads := isolated_readsPart name .branch (visit_readsWord name hfits branch
      (Walk.Above.zero_iff.mpr (visited.started.kinds_enter (.opened .branch))))
    rw [visited.branch_run] at hreads
    exact hreads.2
  have hword : offenceIn name .rule 0 branch.word = none :=
    (offenceIn_eq_none_iff name .rule branch.word).mpr
      ((offenceIn_eq_none_iff name .part branch.word).mp hpart)
  have hroot : Place.rule.Fits .root := rfl
  have hreads := visit_readsWord name hroot branch (Walk.Above.zero_iff.mpr visited.kinds)
  cases hrun : (visit name branch).run visited.begun with
  | error reason last =>
    rw [hrun] at hreads
    have hoffence := hreads.offence
    rw [hword] at hoffence
    cases hoffence
  | ok _ last =>
    rw [hrun] at hreads
    obtain ⟨depth, habove, hend⟩ := hreads.above
    rw [hword] at hend
    obtain rfl := offenceIn_parts (by simp) hend.symm
    have hsingle := Walk.enclosing_of_kinds (Walk.Above.zero_iff.mp habove)
    refine ⟨last, rfl, hsingle, buildRule_eq_ok.mpr ⟨last, ?_, hsingle, rfl, rfl⟩⟩
    change (visitItems name (items ++ [branch])).run (.start builder) = _
    rw [run_visitItems_append, visited.items_run]
    change (visitItems name [branch]).run visited.begun = _
    rw [run_visitItems_cons, hrun]
    rfl

/-- The rule with the choice read as the branch, together with the shapes registered in
the items and in the branch. -/
def chosen : Yield :=
  ⟨chooseLast number elements, builder.shapesUntil visited.begun.toBuilder ++
    visited.started.toBuilder.shapesUntil visited.left.toBuilder⟩

/-- What the branch comes to where it stands. -/
theorem run_outcome :
    visited.run.scopes = [visited.scope] ∧ visited.run.aside = [] ∧
      visited.started.toBuilder.shapesUntil visited.left.toBuilder = visited.run.shapes := by
  obtain ⟨hscopes, hleft⟩ := isolated_outcome rfl visited.branch_run
  refine ⟨hscopes, hleft.aside, ?_⟩
  rw [shapesUntil, hleft.shapes]
  exact List.drop_left

/-- What the rule with the branch alone yields. -/
theorem alone_outcome :
    ∃ own alone last, builder.buildRule ⟨name, .sequence (items ++ [branch])⟩ = (.ok alone, last) ∧
      visited.runFirst.scopes = [own] ∧ visited.runFirst.aside = [] ∧
      alone = visited.runFirst.reserve.reverse ++ own.elements ∧
      builder.shapesUntil last =
        builder.shapesUntil visited.begun.toBuilder ++ visited.runFirst.shapes := by
  obtain ⟨last, hrun, hsingle, hbuild⟩ := visited.buildRule_alone
  obtain ⟨own, hscopes, helements, hshapes, haside⟩ := visit_merges visited.kinds hsingle hrun
  refine ⟨own, _, _, hbuild, hscopes, haside, helements, ?_⟩
  have hbegun := (visitItems_mirrors name items (Walk.mirrors_whole (.start builder))
    (Walk.grounded_whole rfl) visited.items_run).shapes
  have hknown : builder.registry.size ≤ visited.begun.registry.shapes.length := by
    rw [hbegun, List.length_append]
    exact Nat.le_add_right _ _
  unfold shapesUntil
  change last.registry.shapes.drop _ = _
  rw [hshapes, List.drop_append_of_le_length hknown]
  rfl

/-- A branch that finds what stands behind the items, and behind which nothing more is
taken, comes to the rule with the branch alone. -/
theorem chosen_alike (hbranch : branches[number]? = some branch)
    (hstarted : held visited.started.scopes = held visited.begun.scopes)
    (hended : visited.ended.current.elements = visited.run.reserve.reverse)
    {own : Scope} (hown : visited.runFirst.scopes = [own]) :
    Yield.Alike visited.chosen ⟨visited.runFirst.reserve.reverse ++ own.elements,
      builder.shapesUntil visited.begun.toBuilder ++ visited.runFirst.shapes⟩ := by
  obtain ⟨hshape, hsite⟩ := visitBranches_grows name visited.earlier_run
  obtain ⟨hscopes, _, hshapes⟩ := visited.run_outcome
  let numbers := Renumbering.back visited.started.beside visited.begun.beside visited.run
  obtain ⟨hfixed, hfixedShapes⟩ := visitItems_fixed visited.items_run numbers
    (fun _ hid => moveBlock_of_lt hid _ _) (fun _ hfrom => moveBlock_of_lt hfrom _ _)
  have hreserve : held visited.begun.scopes =
      renumberSequence numbers (held visited.started.scopes) := by
    rw [hstarted, held_begun, renumberSequence, List.map_reverse]
    exact congrArg List.reverse hfixed.symm
  have hstart : Assembly.Renumbered numbers visited.started.beside visited.begun.beside
      ((Step.enter .branch).apply visited.started.beside)
      ((Step.enter .branch).apply visited.begun.beside) :=
    ⟨Nat.add_comm _ _, Nat.add_comm _ _, ⟨Nat.le_refl _, Nat.le_refl _⟩, rfl, rfl, hreserve, rfl⟩
  obtain ⟨_, _, _, hfirst, hfirstShapes, hfirstReserve, _⟩ := hstart.run branch.steps
    (Renumbering.back_carries visited.started.beside visited.begun.beside visited.run hshape hsite)
  change visited.runFirst.scopes = visited.run.scopes.map _ at hfirst
  change visited.runFirst.shapes = visited.run.shapes.map _ at hfirstShapes
  change visited.runFirst.reserve = renumberSequence numbers visited.run.reserve at hfirstReserve
  rw [hown, hscopes] at hfirst
  refine ⟨numbers, Renumbering.back_bijective _ _ _, ?_⟩
  unfold chosen Yield.renumber
  rw [visited.chooseLast_elements hbranch, hended, hshapes, List.map_append, hfixedShapes,
    hfirstShapes, hfirstReserve, renumberSequence_append, (List.cons.inj hfirst).1]
  dsimp only [Scope.renumber]
  rw [renumberSequence, renumberSequence, List.map_reverse]
  rfl

/-- What the branch leaves where it stands. -/
theorem reserve_run :
    visited.run.reserve =
      (visited.before.reverse.drop ((branches.take number).map Expr.reach).sum).drop
        branch.reach := by
  rw [← held_started]
  exact (branch.sketch_describes .branch visited.started).reserve

/-- What the branch would leave right behind the items. -/
theorem reserve_runFirst :
    visited.runFirst.reserve = visited.before.reverse.drop branch.reach := by
  rw [← held_begun]
  exact (branch.sketch_describes .branch visited.begun).reserve

/-- If the two readings are alike, the branch comes to the same in both, apart from the
numbers, and as much is left in front of it. -/
theorem bare_of_alike (hbranch : branches[number]? = some branch) {own : Scope}
    (hown : visited.runFirst.scopes = [own])
    (halike : Yield.Alike visited.chosen ⟨visited.runFirst.reserve.reverse ++ own.elements,
      builder.shapesUntil visited.begun.toBuilder ++ visited.runFirst.shapes⟩) :
    bare visited.ended.current.elements = bare visited.runFirst.reserve.reverse ∧
      bare visited.scope.elements = bare own.elements ∧
      visited.run.shapes.map (fun shape => bare shape.elements) =
        visited.runFirst.shapes.map fun shape => bare shape.elements := by
  obtain ⟨numbers, _, hsame⟩ := halike
  obtain ⟨hscopes, _, hshapes⟩ := visited.run_outcome
  have helements := congrArg (fun yield => bare yield.elements) hsame
  have hregistered := congrArg
    (fun yield => yield.shapes.map fun shape => bare shape.elements) hsame
  dsimp only [chosen, Yield.renumber] at helements hregistered
  have hsizes : visited.scope.elements.length = own.elements.length := by
    have hrun := sizes_of_describes (branch.sketch_describes .branch visited.started).scopes
    have hfirst := sizes_of_describes (branch.sketch_describes .branch visited.begun).scopes
    have hboth := hrun.trans hfirst.symm
    change visited.run.scopes.map _ = visited.runFirst.scopes.map _ at hboth
    rw [hscopes, hown] at hboth
    exact (List.cons.inj hboth).1
  rw [bare, renumberSequence_erase, visited.chooseLast_elements hbranch] at helements
  obtain ⟨hfront, hending⟩ := bare_append_inj hsizes helements
  have hbare : ∀ shape : Shape, bare (shape.renumber numbers).elements = bare shape.elements :=
    fun shape => renumberSequence_erase numbers shape.elements
  rw [hshapes, List.map_map, List.map_append, List.map_append] at hregistered
  simp only [Function.comp_def, hbare] at hregistered
  exact ⟨hfront, hending, List.append_cancel_left hregistered⟩

/-- A branch can only come to the rule with the branch alone if nothing is missing of
what it would find and leave behind the items. -/
theorem taken_of_alike (hbranch : branches[number]? = some branch) {own : Scope}
    (hown : visited.runFirst.scopes = [own]) (haside : visited.runFirst.aside = [])
    (halike : Yield.Alike visited.chosen ⟨visited.runFirst.reserve.reverse ++ own.elements,
      builder.shapesUntil visited.begun.toBuilder ++ visited.runFirst.shapes⟩) :
    (visited.before = [] ∨ ((branches.take number).map Expr.reach).sum = 0) ∧
      (visited.before.length ≤ branch.reach ∨
        ((branches.drop (number + 1)).map Expr.reach).sum = 0) := by
  obtain ⟨hscopes, hnone, _⟩ := visited.run_outcome
  obtain ⟨helements, hending, hregistered⟩ := visited.bare_of_alike hbranch hown halike
  have hcounts := congrArg List.length helements
  rw [length_bare, length_bare, visited.ended_elements, visited.reserve_run,
    visited.reserve_runFirst] at hcounts
  simp only [List.length_reverse, List.length_drop] at hcounts
  have hcontents : contents (branch.runBeside .branch visited.started).scopes =
      contents (branch.runBeside .branch visited.begun).scopes := by
    change contents visited.run.scopes = contents visited.runFirst.scopes
    rw [hscopes, hown]
    exact congrArg (fun elements => [elements]) hending
  have hfirst : visited.before = [] ∨ ((branches.take number).map Expr.reach).sum = 0 := by
    by_contra hmissing
    obtain ⟨hsome, htaken⟩ := not_or.mp hmissing
    have hlength := List.length_pos_of_ne_nil hsome
    -- the branch takes the first element of the rule if it stands alone, but not behind the others
    have hposition : visited.before.length - 1 < branch.reach := by omega
    have hhead := branch.heads_of_runBeside rfl hcontents hregistered (hnone.trans haside.symm)
      hposition
    have hgone : (held visited.started.scopes)[visited.before.length - 1]? = none := by
      rw [held_started, List.getElem?_eq_none_iff, List.length_drop, List.length_reverse]
      omega
    have hthere : visited.before.length - 1 < (held visited.begun.scopes).length := by
      rw [held_begun, List.length_reverse]
      omega
    rw [hgone, List.getElem?_eq_getElem hthere] at hhead
    cases hhead
  refine ⟨hfirst, ?_⟩
  rcases hfirst with hempty | htaken
  · exact Or.inl (by rw [hempty]; exact Nat.zero_le _)
  · omega

end ChoiceVisit

/-- Reading the choice at the end of a rule that is built as one of its branches gives,
up to the numbers, the rule with that branch alone exactly if the branches before it
find nothing to take or take nothing, and so do those behind it. -/
theorem buildRule_chooseLast {builder after : Builder} {name : String}
    {items branches : List Expr} {number : Nat} {branch : Expr} {elements : List Element}
    (hbranch : branches[number]? = some branch)
    (hbuild : builder.buildRule ⟨name, .sequence (items ++ [.choice branches])⟩ =
      (.ok elements, after)) :
    ∃ (visited : ChoiceVisit builder name items branches number branch elements)
      (alone : List Element) (last : Builder),
      builder.buildRule ⟨name, .sequence (items ++ [branch])⟩ = (.ok alone, last) ∧
        (Yield.Alike visited.chosen ⟨alone, builder.shapesUntil last⟩ ↔
          (visited.before = [] ∨ ∀ other ∈ branches.take number, other.reach = 0) ∧
            (visited.before.length ≤ branch.reach ∨
              ∀ other ∈ branches.drop (number + 1), other.reach = 0)) := by
  obtain ⟨visited⟩ := buildRule_choice hbranch hbuild
  obtain ⟨own, alone, last, hlast, hown, haside, rfl, hshapes⟩ := visited.alone_outcome
  refine ⟨visited, _, last, hlast, ?_⟩
  rw [hshapes, ← Expr.sum_reach_eq_zero, ← Expr.sum_reach_eq_zero]
  constructor
  · exact visited.taken_of_alike hbranch hown haside
  · rintro ⟨hearlier, hlater⟩
    apply visited.chosen_alike hbranch ?_ ?_ hown
    · rw [visited.held_started, visited.held_begun]
      rcases hearlier with hempty | hnone
      · rw [hempty, List.reverse_nil, List.drop_nil]
      · rw [hnone, List.drop_zero]
    · rw [visited.ended_elements]
      rcases hlater with hall | hnone
      · have hempty : visited.run.reserve = [] := by
          rw [visited.reserve_run, List.drop_eq_nil_iff, List.length_drop, List.length_reverse]
          omega
        rw [hempty, List.drop_nil]
      · rw [hnone, List.drop_zero]

/-- A branch behind one that takes nothing comes to what it comes to alone, although its
own fold takes the byte before the choice. -/
theorem chooseLast_behind_byte :
    (Builder.fresh.buildRule ⟨"sum", .sequence ([.byte 97] ++
        [.choice [.byte 98, .sequence [.fold none, .endCapture]]])⟩).1 =
      .ok [.choice [[.byte 98], [.captured 0]]] ∧
    ∃ (visited : ChoiceVisit Builder.fresh "sum" [.byte 97]
        [.byte 98, .sequence [.fold none, .endCapture]] 1 (.sequence [.fold none, .endCapture])
        [.choice [[.byte 98], [.captured 0]]])
      (alone : List Element) (last : Builder),
      Builder.fresh.buildRule
          ⟨"sum", .sequence ([.byte 97] ++ [.sequence [.fold none, .endCapture]])⟩ =
        (.ok alone, last) ∧
        Yield.Alike visited.chosen ⟨alone, Builder.fresh.shapesUntil last⟩ := by
  have hbranch : [Expr.byte 98, .sequence [.fold none, .endCapture]][1]? =
      some (.sequence [.fold none, .endCapture]) := rfl
  have hbuild : Builder.fresh.buildRule ⟨"sum", .sequence ([.byte 97] ++
        [.choice [.byte 98, .sequence [.fold none, .endCapture]]])⟩ =
      (.ok [.choice [[.byte 98], [.captured 0]]], _) := rfl
  refine ⟨congrArg Prod.fst hbuild, ?_⟩
  obtain ⟨visited, alone, last, hlast, halike⟩ := buildRule_chooseLast hbranch hbuild
  refine ⟨visited, alone, last, hlast, halike.mpr ⟨Or.inr ?_, Or.inr ?_⟩⟩
  · intro other hother
    obtain rfl := List.mem_singleton.mp hother
    rfl
  · intro other hother
    cases hother

/-- A branch whose fold takes the byte before the choice takes it from the next branch
as well. -/
theorem chooseLast_loses_byte :
    (Builder.fresh.buildRule ⟨"sum", .sequence [.byte 97,
        .choice [.sequence [.fold none, .endCapture], .byte 98]]⟩).1 =
      .ok [.choice [[.captured 0], [.byte 98]]] ∧
    (Builder.fresh.buildRule ⟨"sum", .sequence [.byte 97, .byte 98]⟩).1 =
      .ok [.byte 97, .byte 98] ∧
    ¬ Yield.Alike ⟨chooseLast 1 [.choice [[.captured 0], [.byte 98]]], []⟩
      ⟨[.byte 97, .byte 98], []⟩ := by
  refine ⟨rfl, rfl, ?_⟩
  rintro ⟨numbers, _, hsame⟩
  have hlength := congrArg (fun yield => yield.elements.length) hsame
  simp [Yield.renumber, chooseLast] at hlength

end Builder

end PegTemplates
