import PegTemplates.Proofs.Building.Assembly
import Mathlib.Algebra.GroupWithZero.Nat
import Mathlib.Data.List.Forall2

/-!
# What a run reaches for outside its scopes

How many elements each scope of a run holds, and where its last left fold took
its head from, is fixed by the steps alone. So is the number of elements that the
run takes from around its scopes, as long as there are any.
-/

namespace PegTemplates

/-- Where a left fold takes its head from. -/
inductive HeadSource where
  /-- From a scope of the run. -/
  | within
  /-- From around the run, where that many elements have been taken before. -/
  | around (rank : Nat)
  deriving DecidableEq, Repr

/-- What the steps alone tell about a scope. -/
structure ScopeSketch where
  /-- What the scope was opened for. -/
  kind : ScopeKind
  /-- Number of elements collected so far. -/
  size : Nat
  /-- Where the latest left fold directly in this scope took its head from. -/
  fold : Option HeadSource
  deriving DecidableEq, Repr

/-- What the steps alone tell about a run. -/
structure Sketch where
  /-- Open scopes of the run, innermost first. -/
  scopes : List ScopeSketch
  /-- How often the run has reached for an element around it. -/
  reached : Nat
  deriving DecidableEq, Repr

namespace Sketch

/-- Counts elements in the current scope. -/
def append (count : Nat) (sketch : Sketch) : Sketch :=
  { sketch with scopes := sketch.scopes.modifyHead fun scope =>
      { scope with size := scope.size + count } }

/-- Takes one element off the first scope that holds one, if there is such a scope. -/
def shorten : List ScopeSketch → Option (List ScopeSketch)
  | [] => none
  | scope :: rest =>
    match scope.size with
    | 0 => (shorten rest).map (scope :: ·)
    | size + 1 => some ({ scope with size := size } :: rest)

/-- Takes the head of a left fold. -/
def takeHead (sketch : Sketch) : HeadSource × Sketch :=
  match shorten sketch.scopes with
  | some shortened => (.within, { sketch with scopes := shortened })
  | none => (.around sketch.reached, { sketch with reached := sketch.reached + 1 })

/-- Opens the node of a left fold and marks the scope around it. -/
def openFold (source : HeadSource) (sketch : Sketch) : Sketch :=
  { sketch with
    scopes := ⟨.foldCapture, 1, none⟩ ::
      sketch.scopes.modifyHead fun scope => { scope with fold := some source } }

/-- Leaves the current scope for the one around it. -/
def pop (further : ScopeSketch → Sketch → Sketch) (sketch : Sketch) : Sketch :=
  match sketch.scopes with
  | inner :: outer :: rest => further inner { sketch with scopes := outer :: rest }
  | _ => sketch

end Sketch

/-- Number of elements that a wrapper stands for in the scope around it. -/
def Wrapper.width (body : ScopeSketch) : Wrapper → Nat
  | optional | zeroOrMore | link _ => 1
  | oneOrMore => if body.fold.isSome then body.size else 1

/-- What a step does, as far as the steps alone tell. -/
def Step.outline : Step → Sketch → Sketch
  | .byte _, sketch | .tag _, sketch | .reference _, sketch | .choose _, sketch =>
    sketch.append 1
  | .enter kind, sketch => { sketch with scopes := ⟨kind, 0, none⟩ :: sketch.scopes }
  | .fold _, sketch => sketch.takeHead.2.openFold sketch.takeHead.1
  | .close, sketch => sketch.pop fun _ => .append 1
  | .wrap wrapper, sketch => sketch.pop fun body => .append (wrapper.width body)
  | .setAside, sketch => sketch.pop fun _ outer => outer

namespace Sketch

/-- Outlines steps, one after the other. -/
def run (steps : List Step) (sketch : Sketch) : Sketch :=
  steps.foldl (fun reached step => step.outline reached) sketch

end Sketch

/-- What visiting the expression in a scope of its own does, as far as its steps tell. -/
def Expr.sketch (kind : ScopeKind) (expr : Expr) : Sketch :=
  Sketch.run expr.steps ⟨[⟨kind, 0, none⟩], 0⟩

/-- Whether the head comes from there, these elements being around the run at its
start, in the order in which folds take them. -/
def HeadSource.Gives (reserve : List Element) : HeadSource → Option Element → Prop
  | within, head => ∃ element, head = some element
  | around rank, head => head = reserve[rank]?

/-- Whether the sketch is one of the scope. -/
structure ScopeSketch.Describes (reserve : List Element) (sketch : ScopeSketch) (scope : Scope) :
    Prop where
  /-- The scope was opened for that. -/
  kind : scope.kind = sketch.kind
  /-- The scope holds that many elements. -/
  size : scope.elements.length = sketch.size
  /-- The scope is marked by a fold that took its head from there. -/
  fold : Option.Rel (fun source mark => source.Gives reserve mark.head) sketch.fold scope.fold

/-- Whether the sketch is one of the run. -/
structure Sketch.Describes (reserve : List Element) (sketch : Sketch) (assembly : Assembly) :
    Prop where
  /-- The scopes are sketched one by one. -/
  scopes : List.Forall₂ (ScopeSketch.Describes reserve) sketch.scopes assembly.scopes
  /-- The run has taken as much from around it as it has reached for. -/
  reserve : assembly.reserve = reserve.drop sketch.reached

variable {reserve : List Element}

/-- The head comes from the scopes exactly if the sketch of them can be shortened. -/
theorem shorten_takeNearest {sketches : List ScopeSketch} {scopes : List Scope}
    (hscopes : List.Forall₂ (ScopeSketch.Describes reserve) sketches scopes) :
    match Sketch.shorten sketches with
    | some shortened => ∃ head, (takeNearest scopes).1 = some head ∧
        List.Forall₂ (ScopeSketch.Describes reserve) shortened (takeNearest scopes).2
    | none => (takeNearest scopes).1 = none := by
  induction hscopes with
  | nil => rfl
  | @cons sketch scope sketches scopes hscope hrest ih =>
    obtain ⟨skind, size, sfold⟩ := sketch
    obtain ⟨kind, elements, fold⟩ := scope
    obtain ⟨hkind, hsize, hfold⟩ := hscope
    rcases List.eq_nil_or_concat elements with rfl | ⟨front, last, rfl⟩
    · obtain rfl : 0 = size := hsize
      rw [Sketch.shorten, takeNearest]
      dsimp only [Scope.takeLast?, List.getLast?_nil, Option.map_none]
      cases hshort : Sketch.shorten sketches with
      | none =>
        rw [hshort] at ih
        exact ih
      | some shortened =>
        rw [hshort] at ih
        obtain ⟨head, hhead, hshortened⟩ := ih
        exact ⟨head, hhead, .cons ⟨hkind, rfl, hfold⟩ hshortened⟩
    · cases size with
      | zero => simp at hsize
      | succ size =>
        have hfront : front.length = size := by simpa using hsize
        have htake : takeNearest (⟨kind, front ++ [last], fold⟩ :: scopes) =
            (some last, ⟨kind, front, fold⟩ :: scopes) := by
          simp [takeNearest, Scope.takeLast?]
        rw [List.concat_eq_append, htake]
        exact ⟨last, rfl, .cons ⟨hkind, hfront, hfold⟩ hrest⟩

namespace Sketch.Describes

variable {sketch : Sketch} {assembly : Assembly}

/-- A scope that has been sketched as long as the number of its elements. -/
theorem append (hdescribes : sketch.Describes reserve assembly) (elements : List Element) :
    (sketch.append elements.length).Describes reserve (assembly.append elements) := by
  obtain ⟨scopes, reached⟩ := sketch
  obtain ⟨known, shapes, nextSite, stack, left, aside⟩ := assembly
  obtain ⟨hscopes, hreserve⟩ := hdescribes
  refine ⟨?_, hreserve⟩
  cases hscopes with
  | nil => exact .nil
  | cons hscope hrest =>
    refine .cons ⟨hscope.kind, ?_, hscope.fold⟩ hrest
    exact (List.length_append).trans (congrArg (· + elements.length) hscope.size)

/-- The head of a left fold comes from where the sketch takes it. -/
theorem takeHead (hdescribes : sketch.Describes reserve assembly) :
    sketch.takeHead.1.Gives reserve assembly.takeHead.1 ∧
      sketch.takeHead.2.Describes reserve assembly.takeHead.2 := by
  obtain ⟨hscopes, hreserve⟩ := hdescribes
  have hnearest := shorten_takeNearest hscopes
  unfold Sketch.takeHead Assembly.takeHead
  cases htake : takeNearest assembly.scopes with
  | mk head scopes =>
    cases hshort : Sketch.shorten sketch.scopes with
    | some shortened =>
      rw [hshort, htake] at hnearest
      obtain ⟨element, rfl, hshortened⟩ := hnearest
      exact ⟨⟨element, rfl⟩, hshortened, hreserve⟩
    | none =>
      rw [hshort, htake] at hnearest
      obtain rfl : head = none := hnearest
      refine ⟨?_, hscopes, ?_⟩
      · change assembly.reserve.head? = reserve[sketch.reached]?
        rw [hreserve, List.head?_drop]
      · change assembly.reserve.tail = reserve.drop (sketch.reached + 1)
        rw [hreserve, List.tail_drop]

/-- A left fold opens a node that holds one link and marks the scope around it. -/
theorem openFold (hdescribes : sketch.Describes reserve assembly) (label : Option String)
    {source : HeadSource} {head : Option Element} (hsource : source.Gives reserve head) :
    (sketch.openFold source).Describes reserve (assembly.openFold label head) := by
  obtain ⟨scopes, reached⟩ := sketch
  obtain ⟨known, shapes, nextSite, stack, left, aside⟩ := assembly
  obtain ⟨hscopes, hreserve⟩ := hdescribes
  refine ⟨.cons ⟨rfl, rfl, .none⟩ ?_, hreserve⟩
  cases hscopes with
  | nil => exact .nil
  | cons hscope hrest => exact .cons ⟨hscope.kind, hscope.size, .some hsource⟩ hrest

/-- Leaving a scope is sketched if what follows is. -/
theorem pop (hdescribes : sketch.Describes reserve assembly)
    {outline : ScopeSketch → Sketch → Sketch} {further : Scope → Assembly → Assembly}
    (hfurther : ∀ body scope outer stack, ScopeSketch.Describes reserve body scope →
      Sketch.Describes reserve outer stack →
      (outline body outer).Describes reserve (further scope stack)) :
    (sketch.pop outline).Describes reserve (assembly.pop further) := by
  obtain ⟨scopes, reached⟩ := sketch
  obtain ⟨known, shapes, nextSite, stack, left, aside⟩ := assembly
  obtain ⟨hscopes, hreserve⟩ := hdescribes
  cases hscopes with
  | nil => exact ⟨.nil, hreserve⟩
  | cons hbody hrest =>
    cases hrest with
    | nil => exact ⟨.cons hbody .nil, hreserve⟩
    | cons houter hrest => exact hfurther _ _ _ _ hbody ⟨.cons houter hrest, hreserve⟩

end Sketch.Describes

/-- A wrapper stands for as many elements as the sketch of its body tells. -/
theorem Wrapper.length_around (wrapper : Wrapper) {body : ScopeSketch} {scope : Scope}
    (hbody : body.Describes reserve scope) :
    (wrapper.around scope).length = wrapper.width body := by
  obtain ⟨bkind, size, source⟩ := body
  obtain ⟨kind, elements, fold⟩ := scope
  obtain ⟨_, hsize, hfold⟩ := hbody
  cases hfold with
  | none => cases wrapper <;> rfl
  | some _ =>
    cases wrapper with
    | oneOrMore => exact hsize
    | _ => rfl

namespace Sketch.Describes

variable {sketch : Sketch} {assembly : Assembly}

/-- A sketch that describes a run before a step describes it after the step. -/
theorem apply (hdescribes : sketch.Describes reserve assembly) (step : Step) :
    (step.outline sketch).Describes reserve (step.apply assembly) := by
  cases step with
  | byte value => exact hdescribes.append [.byte value]
  | tag name => exact hdescribes.append [.tag name]
  | reference name =>
    obtain ⟨hscopes, hreserve⟩ := hdescribes.append [.nonTerminal name ⟨assembly.nextSite⟩]
    exact ⟨hscopes, hreserve⟩
  | choose count =>
    obtain ⟨hscopes, hreserve⟩ :=
      hdescribes.append [.choice (assembly.aside.take count).reverse]
    exact ⟨hscopes, hreserve⟩
  | enter kind => exact ⟨.cons ⟨rfl, rfl, .none⟩ hdescribes.scopes, hdescribes.reserve⟩
  | fold label =>
    obtain ⟨hsource, hafter⟩ := hdescribes.takeHead
    exact hafter.openFold label hsource
  | close =>
    apply hdescribes.pop
    intro _ scope _ stack _ hstack
    obtain ⟨hscopes, hreserve⟩ := hstack.append [.captured stack.nextShape]
    exact ⟨hscopes, hreserve⟩
  | wrap wrapper =>
    apply hdescribes.pop
    intro body scope _ _ hbody houter
    rw [← wrapper.length_around hbody]
    exact houter.append (wrapper.around scope)
  | setAside =>
    rw [Step.outline, Step.apply]
    apply hdescribes.pop
    intro _ _ _ _ _ hstack
    exact ⟨hstack.scopes, hstack.reserve⟩

/-- A sketch that describes a run describes it after any steps. -/
theorem run (hdescribes : sketch.Describes reserve assembly) (steps : List Step) :
    (Sketch.run steps sketch).Describes reserve (Assembly.run steps assembly) := by
  induction steps generalizing sketch assembly with
  | nil => exact hdescribes
  | cons step rest ih => exact ih (hdescribes.apply step)

end Sketch.Describes

/-- A run that is about to start beside a walk has one scope that holds nothing. -/
theorem Sketch.describes_beside (kind : ScopeKind) (walk : Walk) :
    Sketch.Describes (held walk.scopes) ⟨[⟨kind, 0, none⟩], 0⟩
      ((Step.enter kind).apply walk.beside) :=
  ⟨.cons ⟨rfl, rfl, .none⟩ .nil, rfl⟩

/-- The sketch of an expression describes its run beside any walk. -/
theorem Expr.sketch_describes (kind : ScopeKind) (expr : Expr) (walk : Walk) :
    (expr.sketch kind).Describes (held walk.scopes) (expr.runBeside kind walk) :=
  (Sketch.describes_beside kind walk).run expr.steps

namespace Sketch

/-- What the marks of the scopes tell. -/
def folds (sketch : Sketch) : List (Option HeadSource) := sketch.scopes.map (·.fold)

/-- Whether all marks tell of elements that have been taken. -/
def Ranked (sketch : Sketch) : Prop :=
  ∀ rank, some (HeadSource.around rank) ∈ sketch.folds → rank < sketch.reached

theorem folds_append (count : Nat) (sketch : Sketch) :
    (sketch.append count).folds = sketch.folds := by
  unfold folds append
  cases sketch.scopes <;> rfl

/-- Taking an element off a scope changes no mark. -/
theorem folds_shorten {scopes shortened : List ScopeSketch}
    (hshort : shorten scopes = some shortened) :
    shortened.map (·.fold) = scopes.map (·.fold) := by
  induction scopes generalizing shortened with
  | nil => cases hshort
  | cons scope rest ih =>
    rw [shorten] at hshort
    split at hshort
    · obtain ⟨others, hothers, rfl⟩ := Option.map_eq_some_iff.mp hshort
      exact congrArg (scope.fold :: ·) (ih hothers)
    · cases hshort
      rfl

/-- The head of a left fold is among the elements that have been taken then. -/
theorem Ranked.takeHead {sketch : Sketch} (hranked : sketch.Ranked) :
    sketch.takeHead.2.Ranked ∧
      ∀ rank, sketch.takeHead.1 = .around rank → rank < sketch.takeHead.2.reached := by
  unfold Sketch.takeHead
  cases hshort : shorten sketch.scopes with
  | some shortened =>
    refine ⟨fun rank hmark => hranked rank ?_, fun rank hsource => by cases hsource⟩
    change _ ∈ shortened.map (·.fold) at hmark
    rwa [folds_shorten hshort] at hmark
  | none =>
    refine ⟨fun rank hmark => Nat.lt_succ_of_lt (hranked rank hmark), fun rank hsource => ?_⟩
    cases hsource
    exact Nat.lt_succ_self _

/-- A fold marks its scope with an element that has been taken. -/
theorem Ranked.openFold {sketch : Sketch} (hranked : sketch.Ranked) {source : HeadSource}
    (hsource : ∀ rank, source = .around rank → rank < sketch.reached) :
    (sketch.openFold source).Ranked := by
  intro rank hmark
  have hnode : (sketch.openFold source).folds =
      none :: sketch.folds.modifyHead fun _ => some source := by
    unfold Sketch.openFold folds
    cases sketch.scopes <;> rfl
  rw [hnode] at hmark
  unfold Ranked at hranked
  cases hfolds : sketch.folds with
  | nil => rw [hfolds] at hmark; simp at hmark
  | cons first rest =>
    rw [hfolds] at hmark hranked
    rcases List.mem_cons.mp hmark with hnone | hmark
    · cases hnone
    · rcases List.mem_cons.mp hmark with hfirst | hrest
      · exact hsource rank (Option.some.inj hfirst).symm
      · exact hranked rank (List.mem_cons_of_mem first hrest)

/-- Leaving a scope leaves its mark behind. -/
theorem Ranked.pop {sketch : Sketch} (hranked : sketch.Ranked)
    {further : ScopeSketch → Sketch → Sketch}
    (hfurther : ∀ body outer, (further body outer).folds = outer.folds ∧
      (further body outer).reached = outer.reached) :
    (sketch.pop further).Ranked := by
  unfold Sketch.pop
  split
  · rename_i inner outer rest hscopes
    obtain ⟨hfolds, hreached⟩ := hfurther inner { sketch with scopes := outer :: rest }
    intro rank hmark
    rw [hfolds] at hmark
    rw [hreached]
    apply hranked rank
    rw [folds, hscopes]
    exact List.mem_cons_of_mem inner.fold hmark
  · exact hranked

/-- Every step marks its scope with an element that has been taken, if any. -/
theorem Ranked.apply {sketch : Sketch} (hranked : sketch.Ranked) (step : Step) :
    (step.outline sketch).Ranked := by
  have happend : ∀ count, (sketch.append count).Ranked := by
    intro count rank hmark
    rw [folds_append] at hmark
    exact hranked rank hmark
  cases step with
  | enter kind =>
    intro rank hmark
    rcases List.mem_cons.mp hmark with hnone | hrest
    · cases hnone
    · exact hranked rank hrest
  | fold label => exact hranked.takeHead.1.openFold hranked.takeHead.2
  | close => exact hranked.pop fun _ outer => ⟨folds_append _ outer, rfl⟩
  | wrap wrapper => exact hranked.pop fun _ outer => ⟨folds_append _ outer, rfl⟩
  | setAside =>
    rw [Step.outline]
    exact hranked.pop fun _ _ => ⟨rfl, rfl⟩
  | _ => exact happend 1

/-- Every run marks its scopes with elements that have been taken. -/
theorem Ranked.run {sketch : Sketch} (hranked : sketch.Ranked) (steps : List Step) :
    (Sketch.run steps sketch).Ranked := by
  induction steps generalizing sketch with
  | nil => exact hranked
  | cons step rest ih => exact ih (hranked.apply step)

end Sketch

/-- Where the last left fold directly in the scope of the expression takes its head from. -/
def Expr.foldSource (kind : ScopeKind) (expr : Expr) : Option HeadSource :=
  (expr.sketch kind).scopes.head?.bind (·.fold)

/-- The mark of an expression tells of an element that the expression takes. -/
theorem Expr.foldSource_lt {kind : ScopeKind} {expr : Expr} {rank : Nat}
    (hsource : expr.foldSource kind = some (.around rank)) :
    rank < (expr.sketch kind).reached := by
  have hstart : Sketch.Ranked ⟨[⟨kind, 0, none⟩], 0⟩ := by
    intro rank hmark
    simp [Sketch.folds] at hmark
  apply hstart.run expr.steps rank
  obtain ⟨scope, hscope, hfold⟩ := Option.bind_eq_some_iff.mp hsource
  rw [← hfold]
  exact List.mem_map_of_mem (List.mem_of_head? hscope)

/-- The elements of a scope without its last ones. -/
def Scope.without (count : Nat) (scope : Scope) : List Element :=
  scope.elements.take (scope.elements.length - count)

/-- Leaving out some elements and then some more leaves out both. -/
theorem Scope.without_without {scope shortened : Scope} {first : Nat}
    (helements : shortened.elements = scope.without first) (next : Nat) :
    shortened.without next = scope.without (first + next) := by
  unfold without at helements ⊢
  rw [helements, List.take_take, List.length_take]
  congr 1
  omega

/-- Folds take the elements of a single scope from its end. -/
theorem Scope.without_eq (count : Nat) (scope : Scope) :
    scope.without count = (scope.elements.reverse.drop count).reverse := by
  rw [without, List.drop_reverse, List.reverse_reverse]

/-- A body that is accepted beside a single scope takes as many elements off the end
of it as it reaches for. -/
theorem Builder.isolated_takes {rule : String} {kind : ScopeKind} {expr : Expr}
    {walk after : Walk} {scope : Scope} (hkind : kind.isCapture = false)
    (hsingle : walk.enclosing = [])
    (hrun : (Builder.isolated rule kind (visit rule expr)).run walk = .ok scope after) :
    after.enclosing = [] ∧
      after.current.elements = walk.current.without (expr.sketch kind).reached := by
  obtain ⟨hnone, helements⟩ := isolated_leaves hkind hsingle hrun
  refine ⟨hnone, ?_⟩
  rw [helements, Scope.without_eq, (expr.sketch_describes kind walk).reserve,
    Walk.held_of_single hsingle]

/-- Number of elements that a branch takes from before its choice, as long as there
are any. -/
def Expr.reach (branch : Expr) : Nat := (branch.sketch .branch).reached

/-- Branches reach for nothing together exactly if none of them does. -/
theorem Expr.sum_reach_eq_zero {branches : List Expr} :
    (branches.map Expr.reach).sum = 0 ↔ ∀ branch ∈ branches, branch.reach = 0 := by
  rw [List.sum_eq_zero_iff_forall_eq_nat]
  exact List.forall_mem_map

/-- Branches that are accepted beside a single scope take together as many elements off
the end of it as they reach for. -/
theorem Builder.visitBranches_takes (rule : String) : ∀ {branches : List Expr} {walk after : Walk}
      {sequences : List (List Element)}, walk.enclosing = [] →
      (visitBranches rule branches).run walk = .ok sequences after →
      sequences.length = branches.length ∧ after.enclosing = [] ∧
        after.current.elements = walk.current.without (branches.map Expr.reach).sum
  | [], walk, _, _, hsingle, hrun => by
    cases hrun
    refine ⟨rfl, hsingle, ?_⟩
    exact List.take_length.symm
  | branch :: rest, _, _, _, hsingle, hrun => by
    obtain ⟨scope, last, sequences, hbranch, hrest, rfl⟩ := visitBranches_cons_eq_ok.mp hrun
    obtain ⟨hnone, helements⟩ := isolated_takes rfl hsingle hbranch
    obtain ⟨hlength, hend, htaken⟩ := visitBranches_takes rule hnone hrest
    refine ⟨congrArg (· + 1) hlength, hend, ?_⟩
    rw [htaken, Scope.without_without helements, List.map_cons, List.sum_cons]
    rfl

end PegTemplates
