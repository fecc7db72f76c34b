import Mathlib.Tactic.Abel
import PegTemplates.Proofs.Building.Assembly
import PegTemplates.Proofs.Building.Handles

/-!
# What a run of steps holds

Folds take elements out of scopes, put them into links and leave marks behind, and a
wrapper may put a mark in as well. So the handles are counted over everything that a run
holds: its shapes, its open scopes, the branches set aside and the elements around it. One
step is shown to keep all of them, to add those that it hands a number out to, and to copy
at most what a fold has marked or the shape it registers. So at its end a run holds what it
held before and what it has handed out, and nothing twice where nothing is folded.
-/

namespace PegTemplates

/-- References of these names at the sites from `first` on. -/
def referencesFrom (first : Nat) : List String → List Element
  | [] => []
  | name :: rest => .nonTerminal name ⟨first⟩ :: referencesFrom (first + 1) rest

/-- Captures of the shapes numbered from `first` up to `last`. -/
def capturesBetween (first last : Nat) : List Element :=
  (List.range' first (last - first)).map .captured

/-- Names of the references that a step collects. -/
def Step.references : Step → List String
  | .reference name => [name]
  | _ => []

/-- The element in the mark of a scope. -/
def Scope.marked (scope : Scope) : List Element := (scope.fold.bind (·.head)).toList

theorem referencesFrom_append (first : Nat) (names more : List String) :
    referencesFrom first (names ++ more) =
      referencesFrom first names ++ referencesFrom (first + names.length) more := by
  induction names generalizing first with
  | nil => rfl
  | cons name rest ih =>
    rw [List.cons_append, referencesFrom, referencesFrom, ih, List.length_cons,
      Nat.add_right_comm, Nat.add_assoc, List.cons_append]

/-- The sites of such references are the ones from `first` on, and the name of each stands
in the list at that distance. -/
theorem mem_referencesFrom {first : Nat} {names : List String} {name : String} {site : Site} :
    .nonTerminal name site ∈ referencesFrom first names ↔
      ∃ position, site.index = first + position ∧ names[position]? = some name := by
  induction names generalizing first with
  | nil => simp [referencesFrom]
  | cons head rest ih =>
    rw [referencesFrom, List.mem_cons, ih]
    constructor
    · rintro (hhead | ⟨position, hsite, hname⟩)
      · cases hhead
        exact ⟨0, rfl, rfl⟩
      · exact ⟨position + 1, by omega, hname⟩
    · rintro ⟨_ | position, hsite, hname⟩
      · obtain ⟨index⟩ := site
        obtain rfl : index = first := hsite
        obtain rfl : head = name := Option.some.inj hname
        exact Or.inl rfl
      · exact Or.inr ⟨position, by omega, hname⟩

/-- Such references are no captures. -/
theorem captured_not_mem_referencesFrom (id : ShapeId) (first : Nat) (names : List String) :
    .captured id ∉ referencesFrom first names := by
  induction names generalizing first with
  | nil => exact List.not_mem_nil
  | cons name rest ih => simp [referencesFrom, ih]

theorem capturesBetween_self (number : Nat) : capturesBetween number number = [] := by
  rw [capturesBetween, Nat.sub_self]
  rfl

theorem capturesBetween_succ (number : Nat) :
    capturesBetween number (number + 1) = [.captured number] := by
  rw [capturesBetween, Nat.add_sub_cancel_left]
  rfl

theorem capturesBetween_append {first middle last : Nat} (hfirst : first ≤ middle)
    (hlast : middle ≤ last) :
    capturesBetween first last = capturesBetween first middle ++ capturesBetween middle last := by
  have hsize : last - first = (middle - first) + (last - middle) := by omega
  have hmiddle : first + (middle - first) = middle := Nat.add_sub_cancel' hfirst
  rw [capturesBetween, capturesBetween, capturesBetween, ← List.map_append, hsize,
    ← List.range'_append_1, hmiddle]

theorem mem_capturesBetween {first last id : Nat} :
    .captured id ∈ capturesBetween first last ↔ first ≤ id ∧ id < last := by
  simp only [capturesBetween, List.mem_map, Element.captured.injEq, exists_eq_right,
    List.mem_range'_1]
  omega

/-- Such captures are no references. -/
theorem nonTerminal_not_mem_capturesBetween (name : String) (site : Site) (first last : Nat) :
    .nonTerminal name site ∉ capturesBetween first last := by
  simp [capturesBetween]

/-- A wrapper keeps the handles of its scope, and adds at most those of its mark. -/
theorem Wrapper.handles_around (scope : Scope) (wrapper : Wrapper) :
    ∃ copies, handles (wrapper.around scope) = handles scope.elements + copies ∧
      copies ⊆ handles scope.marked ∧ (scope.fold = none → copies = 0) := by
  obtain ⟨kind, elements, fold⟩ := scope
  have hsingle : ∀ {element : Element}, element.handles = handlesOf elements →
      ∃ copies, handles [element] = handles elements + copies ∧
        copies ⊆ handles (Scope.marked ⟨kind, elements, fold⟩) ∧ (fold = none → copies = 0) :=
    fun hbody => ⟨0, by rw [handles_singleton hbody, add_zero], Multiset.zero_subset _,
      fun _ => rfl⟩
  cases fold with
  | none => cases wrapper <;> exact hsingle rfl
  | some mark =>
    have hfolded : ∃ copies,
        handles [Builder.foldedOrHead elements mark] = handles elements + copies ∧
          copies ⊆ handles (Scope.marked ⟨kind, elements, some mark⟩) ∧
          (some mark = none → copies = 0) := by
      refine ⟨handles mark.head.toList, ?_, Multiset.Subset.refl _, fun hnone => nomatch hnone⟩
      rw [Builder.foldedOrHead, handles_choice, List.flatten_cons, handles_append,
        List.flatten_cons, List.flatten_nil, List.append_nil]
    cases wrapper with
    | optional => exact hfolded
    | zeroOrMore => exact hfolded
    | oneOrMore => exact ⟨0, (add_zero _).symm, Multiset.zero_subset _, fun _ => rfl⟩
    | link label => exact hsingle rfl

/-- A capture that closes keeps its handles, and adds at most itself. -/
theorem handles_closedElements (closing outer : Scope) (id : ShapeId) :
    ∃ copies, handles (Walk.closedElements closing outer id) = handles closing.elements + copies ∧
      copies ⊆ {.captured id} ∧ (outer.fold = none → copies = 0) := by
  have hkept : ∃ copies, handles closing.elements = handles closing.elements + copies ∧
      copies ⊆ {.captured id} ∧ (outer.fold = none → copies = 0) :=
    ⟨0, (add_zero _).symm, Multiset.zero_subset _, fun _ => rfl⟩
  unfold Walk.closedElements
  split
  · rename_i htied
    unfold Walk.tieFold
    split
    · rename_i label inner rest helements
      refine ⟨{.captured id}, ?_, Multiset.Subset.refl _, fun hnone => ?_⟩
      · have hlink : ∀ body, handles [.linked label body] = handles body := fun _ =>
          handles_singleton rfl
        rw [helements, handles_cons, handles_cons (.linked label inner), hlink, hlink,
          handles_choice, List.flatten_cons, List.flatten_cons, List.flatten_nil, List.append_nil,
          handles_append, handles_captured]
        abel
      · rw [hnone] at htied
        exact absurd htied.2.2 Bool.false_ne_true
    · exact hkept
  · exact hkept

namespace Assembly

/-- The handles of everything that a run holds. -/
def holdings (assembly : Assembly) : Multiset Element :=
  handles (assembly.shapes.flatMap (·.elements)) + handles (held assembly.scopes) +
    handles assembly.aside.flatten + handles assembly.reserve

/-- The handles in the marks of the open scopes. -/
def marks (assembly : Assembly) : Multiset Element :=
  handles (assembly.scopes.flatMap (·.marked))

/-- The handles that numbers are handed out to between two states of a run, in which
references of these names are collected. -/
def handed (names : List String) (before after : Assembly) : Multiset Element :=
  ↑(referencesFrom before.nextSite names) +
    ↑(capturesBetween before.nextShape after.nextShape)

/-- Whether no fold has happened directly in an open scope. -/
def Unmarked (assembly : Assembly) : Prop := ∀ scope ∈ assembly.scopes, scope.fold = none

/-- Whether a step keeps what the run holds and adds what it hands numbers out to. -/
structure Conserves (names : List String) (before after : Assembly) : Prop where
  /-- One site is handed out for each name. -/
  nextSite : after.nextSite = before.nextSite + names.length
  /-- No shape is taken back. -/
  nextShape_le : before.nextShape ≤ after.nextShape
  /-- Anything else that the run holds is a copy of what is marked or handed out. -/
  holdings : ∃ copies,
    after.holdings = before.holdings + handed names before after + copies ∧
      copies ⊆ before.marks + handed names before after ∧ (before.Unmarked → copies = 0)
  /-- Only what the run has held gets marked. -/
  marks : after.marks ⊆ before.marks + before.holdings

variable {assembly after : Assembly}

/-- Collected elements are held. -/
theorem holdings_append (hopen : assembly.scopes ≠ []) (elements : List Element) :
    (assembly.append elements).holdings = assembly.holdings + handles elements := by
  unfold holdings append
  dsimp only
  cases hscopes : assembly.scopes with
  | nil => exact absurd hscopes hopen
  | cons scope rest =>
    rw [List.modifyHead_cons, held, held, List.flatMap_cons, List.flatMap_cons, Scope.append]
    simp only [List.reverse_append, handles_append, handles_reverse]
    abel

theorem marks_append (elements : List Element) :
    (assembly.append elements).marks = assembly.marks := by
  unfold marks append
  dsimp only
  cases assembly.scopes <;> rfl

/-- The head that a fold takes was held. -/
theorem holdings_takeHead (assembly : Assembly) :
    assembly.holdings = assembly.takeHead.2.holdings + handles assembly.takeHead.1.toList := by
  obtain ⟨hhead, hrest, _⟩ := takeNearest_held assembly.scopes
  have hsplit : ∀ elements : List Element,
      handles elements = handles elements.head?.toList + handles elements.tail := by
    intro elements
    cases elements with
    | nil => rfl
    | cons element rest => exact handles_cons element rest
  cases hnearest : (takeNearest assembly.scopes).1 with
  | some head =>
    rw [takeHead_of_some hnearest]
    unfold holdings
    dsimp only
    rw [hsplit (held assembly.scopes), ← hhead, ← hrest, hnearest]
    abel
  | none =>
    rw [takeHead_of_none hnearest]
    unfold holdings
    dsimp only
    rw [hsplit assembly.reserve]
    abel

/-- Where a fold takes its head from changes no mark. -/
theorem marks_takeHead (assembly : Assembly) : assembly.takeHead.2.marks = assembly.marks := by
  have hmarked : ∀ scopes : List Scope,
      (takeNearest scopes).2.flatMap (·.marked) = scopes.flatMap (·.marked) := by
    intro scopes
    induction scopes with
    | nil => rfl
    | cons scope rest ih =>
      rw [takeNearest]
      cases htake : scope.takeLast? with
      | none => rw [List.flatMap_cons, List.flatMap_cons, ih]
      | some taken =>
        obtain ⟨last, _, rfl⟩ := Option.map_eq_some_iff.mp htake
        rfl
  unfold marks
  cases hnearest : (takeNearest assembly.scopes).1 with
  | some head => rw [takeHead_of_some hnearest, hmarked]
  | none => rw [takeHead_of_none hnearest]

/-- The head of a fold is held by the node that the fold opens. -/
theorem holdings_openFold (label : Option String) (head : Option Element) :
    (assembly.openFold label head).holdings = assembly.holdings + handles head.toList := by
  have hkept : held (assembly.scopes.modifyHead fun scope => { scope with fold := some ⟨head⟩ }) =
      held assembly.scopes := by
    cases assembly.scopes <;> rfl
  have hlink : handles [.linked label head.toList] = handles head.toList := handles_singleton rfl
  unfold holdings openFold
  dsimp only
  rw [held, List.flatMap_cons, handles_append, handles_reverse, hlink, ← held, hkept]
  abel

/-- A fold marks its head, in the place of an earlier mark. -/
theorem marks_openFold (label : Option String) (head : Option Element) :
    (assembly.openFold label head).marks ⊆ assembly.marks + handles head.toList := by
  unfold marks openFold
  dsimp only
  cases assembly.scopes with
  | nil => exact Multiset.zero_subset _
  | cons scope rest =>
    intro handle hhandle
    change handle ∈ handles (head.toList ++ rest.flatMap (·.marked)) at hhandle
    rw [handles_append, Multiset.mem_add] at hhandle
    rw [List.flatMap_cons, handles_append, Multiset.mem_add, Multiset.mem_add]
    exact hhandle.elim Or.inr fun hrest => Or.inl (Or.inr hrest)

/-- Leaving a scope does nothing where no other scope is around it. -/
theorem pop_eq (further : Scope → Assembly → Assembly) :
    assembly.pop further = assembly ∨ ∃ inner outer rest,
      assembly.scopes = inner :: outer :: rest ∧
        assembly.pop further = further inner { assembly with scopes := outer :: rest } := by
  unfold pop
  split
  · exact Or.inr ⟨_, _, _, ‹_›, rfl⟩
  · exact Or.inl rfl

/-- What a scope holds is held apart from it when it is left. -/
theorem holdings_leave {inner : Scope} {rest : List Scope}
    (hscopes : assembly.scopes = inner :: rest) :
    assembly.holdings =
      holdings { assembly with scopes := rest } + handles inner.elements := by
  unfold holdings
  rw [hscopes, held, List.flatMap_cons, handles_append, handles_reverse, ← held]
  abel

/-- A scope that closes is held by its shape, and its capture by the scope around it. -/
theorem holdings_register {outer : Scope} {rest : List Scope}
    (hscopes : assembly.scopes = outer :: rest) (closing : Scope) :
    (assembly.register closing).holdings = assembly.holdings + {.captured assembly.nextShape} +
      handles (Walk.closedElements closing outer assembly.nextShape) := by
  have hopen : assembly.scopes ≠ [] := by
    rw [hscopes]
    exact List.cons_ne_nil outer rest
  rw [← handles_captured, ← holdings_append hopen]
  unfold register holdings
  rw [hscopes]
  dsimp only [append]
  rw [List.flatMap_append, handles_append, List.flatMap_singleton]
  abel

/-- The mark of a scope is lost when it is left. -/
theorem marks_leave {inner : Scope} {rest : List Scope}
    (hscopes : assembly.scopes = inner :: rest) :
    assembly.marks = handles inner.marked + marks { assembly with scopes := rest } := by
  rw [marks, hscopes, List.flatMap_cons, handles_append]
  rfl

/-- Without a number handed out no handle is new. -/
theorem handed_nil (hshape : after.nextShape = assembly.nextShape) :
    handed [] assembly after = 0 := by
  rw [handed, hshape, capturesBetween_self]
  rfl

namespace Conserves

/-- A step that only moves elements about. -/
theorem of_holdings (hsite : after.nextSite = assembly.nextSite)
    (hshape : after.nextShape = assembly.nextShape) (hholdings : after.holdings = assembly.holdings)
    (hmarks : after.marks ⊆ assembly.marks + assembly.holdings) :
    Conserves [] assembly after := by
  refine ⟨hsite, Nat.le_of_eq hshape.symm, ⟨0, ?_, Multiset.zero_subset _, fun _ => rfl⟩, hmarks⟩
  rw [handed_nil hshape, hholdings, add_zero, add_zero]

/-- A step that does nothing. -/
theorem refl (assembly : Assembly) : Conserves [] assembly assembly :=
  of_holdings rfl rfl rfl fun _ hhandle => Multiset.mem_add.mpr (Or.inl hhandle)

/-- An element without handles that is collected. -/
theorem append_plain (hopen : assembly.scopes ≠ []) {element : Element}
    (hplain : element.handles = []) : Conserves [] assembly (assembly.append [element]) := by
  refine of_holdings rfl rfl ?_ ?_
  · have hnone : handles [element] = handles [] := handles_singleton hplain
    rw [holdings_append hopen, hnone, handles_nil, add_zero]
  · rw [marks_append]
    exact fun _ hhandle => Multiset.mem_add.mpr (Or.inl hhandle)

/-- A reference that is collected. -/
theorem reference (hopen : assembly.scopes ≠ []) (name : String) :
    Conserves [name] assembly ((Step.reference name).apply assembly) := by
  have hhanded : handed [name] assembly ((Step.reference name).apply assembly) =
      {.nonTerminal name ⟨assembly.nextSite⟩} := by
    unfold handed
    have hshape : ((Step.reference name).apply assembly).nextShape = assembly.nextShape := rfl
    rw [hshape, capturesBetween_self]
    rfl
  refine ⟨rfl, Nat.le_refl _, ⟨0, ?_, Multiset.zero_subset _, fun _ => rfl⟩, ?_⟩
  · rw [hhanded, add_zero]
    exact holdings_append hopen [.nonTerminal name ⟨assembly.nextSite⟩]
  · intro handle hhandle
    have hsame : handle ∈ (assembly.append [.nonTerminal name ⟨assembly.nextSite⟩]).marks := hhandle
    rw [marks_append] at hsame
    exact Multiset.mem_add.mpr (Or.inl hsame)

/-- A left fold. -/
theorem fold (assembly : Assembly) (label : Option String) :
    Conserves [] assembly ((Step.fold label).apply assembly) := by
  have htaken : assembly.takeHead.2.nextShape = assembly.nextShape ∧
      assembly.takeHead.2.nextSite = assembly.nextSite := by
    unfold takeHead
    split <;> exact ⟨rfl, rfl⟩
  refine of_holdings htaken.2 htaken.1 ?_ ?_
  · rw [assembly.holdings_takeHead]
    exact holdings_openFold label _
  · intro handle hhandle
    have hmarked := marks_openFold label _ hhandle
    rw [marks_takeHead, Multiset.mem_add] at hmarked
    rw [assembly.holdings_takeHead, Multiset.mem_add, Multiset.mem_add]
    exact hmarked.imp_right Or.inr

/-- A capture that closes. -/
theorem close (assembly : Assembly) : Conserves [] assembly (Step.close.apply assembly) := by
  rw [Step.apply]
  rcases assembly.pop_eq register with hnone | ⟨inner, outer, rest, hscopes, hpop⟩
  · rw [hnone]
    exact refl assembly
  · rw [hpop]
    obtain ⟨copies, hclosed, hcopies, hunmarked⟩ :=
      handles_closedElements inner outer assembly.nextShape
    let left : Assembly := { assembly with scopes := outer :: rest }
    have hhanded : handed [] assembly (left.register inner) = {.captured assembly.nextShape} := by
      unfold handed
      rw [nextShape_register]
      change (0 : Multiset Element) +
        ↑(capturesBetween assembly.nextShape (assembly.nextShape + 1)) = _
      rw [capturesBetween_succ]
      rfl
    refine ⟨rfl, ?_, ⟨copies, ?_, ?_, fun hnone => hunmarked (hnone outer ?_)⟩, ?_⟩
    · rw [nextShape_register]
      exact Nat.le_succ _
    · have hopened : left.scopes = outer :: rest := rfl
      have hheld := holdings_register hopened inner
      rw [hheld, hhanded, holdings_leave hscopes]
      change left.holdings + {.captured assembly.nextShape} +
        handles (Walk.closedElements inner outer assembly.nextShape) = _
      rw [hclosed]
      abel
    · rw [hhanded]
      exact fun _ hhandle => Multiset.mem_add.mpr (Or.inr (hcopies hhandle))
    · rw [hscopes]
      exact List.mem_cons_of_mem _ List.mem_cons_self
    · intro handle hhandle
      have hsame : handle ∈ (left.append [.captured assembly.nextShape]).marks := hhandle
      rw [marks_append] at hsame
      rw [marks_leave hscopes, Multiset.mem_add, Multiset.mem_add]
      exact Or.inl (Or.inr hsame)

/-- The end of a wrapper. -/
theorem wrap (assembly : Assembly) (wrapper : Wrapper) :
    Conserves [] assembly ((Step.wrap wrapper).apply assembly) := by
  rw [Step.apply]
  rcases assembly.pop_eq (fun body => append (wrapper.around body)) with
    hnone | ⟨inner, outer, rest, hscopes, hpop⟩
  · rw [hnone]
    exact refl assembly
  · rw [hpop]
    obtain ⟨copies, haround, hcopies, hunmarked⟩ := wrapper.handles_around inner
    have hmarks := marks_leave hscopes
    have hnothing : handed [] assembly
        (append (wrapper.around inner) { assembly with scopes := outer :: rest }) = 0 :=
      handed_nil rfl
    refine ⟨rfl, Nat.le_refl _, ⟨copies, ?_, ?_, fun hnone => hunmarked (hnone inner ?_)⟩, ?_⟩
    · rw [holdings_append (List.cons_ne_nil outer rest), haround, hnothing, holdings_leave hscopes]
      abel
    · intro handle hhandle
      rw [hnothing, add_zero, hmarks, Multiset.mem_add]
      exact Or.inl (hcopies hhandle)
    · rw [hscopes]
      exact List.mem_cons_self
    · rw [marks_append, hmarks]
      intro handle hhandle
      rw [Multiset.mem_add, Multiset.mem_add]
      exact Or.inl (Or.inr hhandle)

/-- The end of a branch. -/
theorem setAside (assembly : Assembly) :
    Conserves [] assembly (Step.setAside.apply assembly) := by
  rw [Step.apply]
  rcases assembly.pop_eq (fun body outer => { outer with aside := body.elements :: outer.aside })
    with hnone | ⟨inner, outer, rest, hscopes, hpop⟩
  · rw [hnone]
    exact refl assembly
  · rw [hpop]
    refine of_holdings rfl rfl ?_ ?_
    · rw [holdings_leave hscopes]
      unfold Assembly.holdings
      dsimp only
      rw [List.flatten_cons, handles_append]
      abel
    · rw [marks_leave hscopes]
      intro handle hhandle
      rw [Multiset.mem_add, Multiset.mem_add]
      exact Or.inl (Or.inr hhandle)

/-- The end of a choice. -/
theorem choose (hopen : assembly.scopes ≠ []) (count : Nat) :
    Conserves [] assembly ((Step.choose count).apply assembly) := by
  have hflatten : ∀ branches : List (List Element),
      handles branches.reverse.flatten = handles branches.flatten := by
    intro branches
    induction branches with
    | nil => rfl
    | cons branch rest ih =>
      rw [List.reverse_cons, List.flatten_append, handles_append, ih, List.flatten_singleton,
        List.flatten_cons, handles_append, add_comm]
  refine of_holdings rfl rfl ?_ ?_
  · have hchoice := holdings_append hopen [.choice (assembly.aside.take count).reverse]
    rw [handles_choice, hflatten] at hchoice
    have hsplit : handles assembly.aside.flatten =
        handles (assembly.aside.take count).flatten +
          handles (assembly.aside.drop count).flatten := by
      rw [← handles_append, ← List.flatten_append, List.take_append_drop]
    unfold Assembly.holdings at hchoice ⊢
    change _ + _ + handles (assembly.aside.drop count).flatten + _ = _
    change _ + _ + handles assembly.aside.flatten + _ = _ at hchoice
    rw [hsplit] at hchoice ⊢
    rw [← add_left_inj (handles (assembly.aside.take count).flatten), ← hchoice]
    change handles (assembly.shapes.flatMap (·.elements)) +
      handles (held (assembly.append _).scopes) + _ + handles assembly.reserve + _ =
      handles (assembly.shapes.flatMap (·.elements)) +
        handles (held (assembly.append _).scopes) + _ + handles assembly.reserve
    abel
  · intro handle hhandle
    have hsame : handle ∈
        (assembly.append [.choice (assembly.aside.take count).reverse]).marks := hhandle
    rw [marks_append] at hsame
    exact Multiset.mem_add.mpr (Or.inl hsame)

end Conserves

/-- One step keeps what the run holds and adds what it hands numbers out to. -/
theorem conserves_apply (hopen : assembly.scopes ≠ []) (step : Step) :
    Conserves step.references assembly (step.apply assembly) := by
  cases step with
  | byte value => exact .append_plain hopen rfl
  | tag name => exact .append_plain hopen rfl
  | reference name => exact .reference hopen name
  | enter kind =>
    exact .of_holdings rfl rfl rfl fun _ hhandle => Multiset.mem_add.mpr (Or.inl hhandle)
  | fold label => exact .fold assembly label
  | close => exact .close assembly
  | wrap wrapper => exact .wrap assembly wrapper
  | setAside => exact .setAside assembly
  | choose count => exact .choose hopen count

/-- Handles are handed out by one part of a run and then by the other. -/
theorem handed_append {middle : Assembly} {names more : List String}
    (hsite : middle.nextSite = assembly.nextSite + names.length)
    (hfirst : assembly.nextShape ≤ middle.nextShape) (hlast : middle.nextShape ≤ after.nextShape) :
    handed (names ++ more) assembly after =
      handed names assembly middle + handed more middle after := by
  unfold handed
  rw [referencesFrom_append, capturesBetween_append hfirst hlast, hsite, ← Multiset.coe_add,
    ← Multiset.coe_add]
  abel

/-- A run hands out one site for each reference. -/
theorem nextSite_run (hgrounded : assembly.Grounded) (steps : List Step) :
    (run steps assembly).nextSite =
      assembly.nextSite + (steps.flatMap Step.references).length := by
  induction steps generalizing assembly with
  | nil => rfl
  | cons step rest ih =>
    change (run rest (step.apply assembly)).nextSite = _
    rw [ih (hgrounded.apply step), (conserves_apply hgrounded.ne_nil step).nextSite,
      List.flatMap_cons, List.length_append, Nat.add_assoc]

/-- What a run hands out is handed out by its first step or by the others. -/
theorem handed_cons (hgrounded : assembly.Grounded) (step : Step) (rest : List Step) :
    handed ((step :: rest).flatMap Step.references) assembly (run (step :: rest) assembly) =
      handed step.references assembly (step.apply assembly) +
        handed (rest.flatMap Step.references) (step.apply assembly)
          (run rest (step.apply assembly)) := by
  have hstep := conserves_apply hgrounded.ne_nil step
  rw [List.flatMap_cons]
  exact handed_append hstep.nextSite hstep.nextShape_le (numbers_le_run rest _).1

section Marked

variable {names : List String} (hconserves : Conserves names assembly after)
  (hmarks : assembly.marks ⊆ assembly.holdings)

include hconserves hmarks

/-- Where the marks are held as well, the copies that a step makes are nothing new. -/
theorem Conserves.mem_holdings (handle : Element) :
    handle ∈ after.holdings ↔ handle ∈ assembly.holdings + handed names assembly after := by
  obtain ⟨copies, hholdings, hcopies, _⟩ := hconserves.holdings
  rw [hholdings, Multiset.mem_add, or_iff_left_iff_imp]
  intro hcopy
  rcases Multiset.mem_add.mp (hcopies hcopy) with hmarked | hhanded
  · exact Multiset.mem_add.mpr (Or.inl (hmarks hmarked))
  · exact Multiset.mem_add.mpr (Or.inr hhanded)

/-- What a step marks is held behind it. -/
theorem Conserves.marks_subset : after.marks ⊆ after.holdings := by
  intro handle hhandle
  refine (hconserves.mem_holdings hmarks handle).mpr (Multiset.mem_add.mpr (Or.inl ?_))
  rcases Multiset.mem_add.mp (hconserves.marks hhandle) with hmarked | hheld
  · exact hmarks hmarked
  · exact hheld

end Marked

/-- A run holds at its end what it held before and what it has handed out, and nothing else. -/
theorem mem_holdings_run (hgrounded : assembly.Grounded)
    (hmarks : assembly.marks ⊆ assembly.holdings) (steps : List Step) (handle : Element) :
    handle ∈ (run steps assembly).holdings ↔
      handle ∈ assembly.holdings +
        handed (steps.flatMap Step.references) assembly (run steps assembly) := by
  induction steps generalizing assembly with
  | nil =>
    have hnothing : handed ([].flatMap Step.references) assembly (run [] assembly) = 0 :=
      handed_nil rfl
    rw [hnothing, add_zero]
    rfl
  | cons step rest ih =>
    have hstep := conserves_apply hgrounded.ne_nil step
    change handle ∈ (run rest (step.apply assembly)).holdings ↔ _
    rw [ih (hgrounded.apply step) (hstep.marks_subset hmarks), Multiset.mem_add,
      hstep.mem_holdings hmarks, ← Multiset.mem_add, add_assoc, ← handed_cons hgrounded]

/-- A step other than a fold marks no scope. -/
theorem Unmarked.apply (hunmarked : assembly.Unmarked) {step : Step}
    (hfold : ∀ label, step ≠ .fold label) : (step.apply assembly).Unmarked := by
  have happend : ∀ {assembly : Assembly} (elements : List Element), assembly.Unmarked →
      (assembly.append elements).Unmarked := by
    intro assembly elements hunmarked
    unfold Unmarked append at *
    cases hscopes : assembly.scopes with
    | nil => exact fun _ hscope => absurd hscope List.not_mem_nil
    | cons scope rest =>
      rw [hscopes, List.forall_mem_cons] at hunmarked
      exact List.forall_mem_cons.mpr hunmarked
  have hleave : ∀ {further : Scope → Assembly → Assembly},
      (∀ scope outer, outer.Unmarked → (further scope outer).Unmarked) →
      (assembly.pop further).Unmarked := by
    intro further hfurther
    rcases assembly.pop_eq further with hnone | ⟨inner, outer, rest, hscopes, hpop⟩
    · rwa [hnone]
    · rw [hpop]
      refine hfurther inner _ fun scope hscope => hunmarked scope ?_
      rw [hscopes]
      exact List.mem_cons_of_mem inner hscope
  cases step with
  | byte value => exact happend _ hunmarked
  | tag name => exact happend _ hunmarked
  | reference name => exact happend _ hunmarked
  | choose count => exact happend _ hunmarked
  | enter kind => exact List.forall_mem_cons.mpr ⟨rfl, hunmarked⟩
  | fold label => exact absurd rfl (hfold label)
  | close => exact hleave fun closing outer houter => happend _ houter
  | wrap wrapper => exact hleave fun body outer houter => happend _ houter
  | setAside => exact hleave fun body outer houter => houter

/-- Without folds nothing is held twice that has not been before. -/
theorem holdings_run (hgrounded : assembly.Grounded) (hunmarked : assembly.Unmarked)
    {steps : List Step} (hfold : ∀ label, .fold label ∉ steps) :
    (run steps assembly).holdings =
      assembly.holdings +
        handed (steps.flatMap Step.references) assembly (run steps assembly) := by
  induction steps generalizing assembly with
  | nil =>
    have hnothing : handed ([].flatMap Step.references) assembly (run [] assembly) = 0 :=
      handed_nil rfl
    rw [hnothing, add_zero]
    rfl
  | cons step rest ih =>
    obtain ⟨copies, hholdings, _, hcopies⟩ := (conserves_apply hgrounded.ne_nil step).holdings
    have hstep : ∀ label, step ≠ .fold label := fun label hlabel =>
      hfold label (hlabel ▸ List.mem_cons_self)
    have hrest : ∀ label, .fold label ∉ rest := fun label hlabel =>
      hfold label (List.mem_cons_of_mem step hlabel)
    change (run rest (step.apply assembly)).holdings = _
    rw [ih (hgrounded.apply step) (hunmarked.apply hstep) hrest, hholdings, hcopies hunmarked,
      add_zero, add_assoc, ← handed_cons hgrounded]

end Assembly

end PegTemplates
