import PegTemplates.Proofs.Following.Tour
import PegTemplates.TagSearch

/-!
# Outcome of one search

A search for a tag passes over as many tags as it is told to. It is shown to go
the way of the tour that enters every rule once: it hits the tag behind those
passed over, misses if the tour holds too few, and fails only where the tour has
ended at an undefined rule before that tag. What it gives on a hit is the
sequence with the way to one of its tags fixed.
-/

namespace PegTemplates

/-- The name of a tag, none for any other element. -/
def Element.tag? : Element → Option String
  | .tag name => some name
  | _ => none

/-- Tags among leaves. -/
def tagsAmong (leaves : List Element) : List String := leaves.filterMap Element.tag?

/-- Tags that a tour has read. -/
def Tour.tags (tour : Tour) : List String := tagsAmong tour.leaves

@[simp] theorem tagsAmong_append (first next : List Element) :
    tagsAmong (first ++ next) = tagsAmong first ++ tagsAmong next :=
  List.filterMap_append

theorem Tour.tags_append (first next : Tour) :
    (first.append next).tags = first.tags ++ next.tags :=
  tagsAmong_append first.leaves next.leaves

/-- A tag that one tour has read stands at the same position if another tour follows. -/
theorem Tour.tags_andThen {first : Tour} {position : Nat} {tag : String}
    (htag : first.tags[position]? = some tag) (next : Tour) :
    (first.andThen next).tags[position]? = some tag := by
  cases hstopped : first.stopped with
  | some name => rwa [Tour.andThen_of_some hstopped]
  | none =>
    rw [Tour.andThen_of_none hstopped, Tour.tags_append,
      List.getElem?_append_left (List.getElem?_eq_some_iff.mp htag).1]
    exact htag

/-- Whether an alternative is the sequence with the way to one of its tags fixed. -/
inductive Registry.Fixes (registry : Registry) : List Element → TagAlternative → Prop where
  /-- A tag stays as it is. -/
  | tag {name : String} : Fixes registry [.tag name] ⟨name, [.tag name]⟩
  /-- A choice is the branch that holds the tag. -/
  | choice {branches : List (List Element)} {branch : List Element} {found : TagAlternative} :
    branch ∈ branches → Fixes registry branch found → Fixes registry [.choice branches] found
  /-- An option is taken. -/
  | optional {body : List Element} {found : TagAlternative} : Fixes registry body found →
    Fixes registry [.optional body] found
  /-- A repetition runs at least once, with the way fixed in every round. -/
  | zeroOrMore {body : List Element} {found : TagAlternative} : Fixes registry body found →
    Fixes registry [.zeroOrMore body] ⟨found.tag, [.oneOrMore found.elements]⟩
  /-- In a repetition with a first round the way is fixed in every round. -/
  | oneOrMore {body : List Element} {found : TagAlternative} : Fixes registry body found →
    Fixes registry [.oneOrMore body] ⟨found.tag, [.oneOrMore found.elements]⟩
  /-- A reference is the body of its rule. -/
  | nonTerminal {name : String} {site : Site} {body : RuleBody} {found : TagAlternative} :
    registry.body? name = some body → Fixes registry body.elements found →
    Fixes registry [.nonTerminal name site] found
  /-- The way leads into the first element. -/
  | first {element : Element} {rest : List Element} {found : TagAlternative} :
    Fixes registry [element] found →
    Fixes registry (element :: rest) ⟨found.tag, found.elements ++ rest⟩
  /-- The way leads past the first element. -/
  | later {element : Element} {rest : List Element} {found : TagAlternative} :
    Fixes registry rest found →
    Fixes registry (element :: rest) ⟨found.tag, element :: found.elements⟩

namespace TagSearch

/-- Whether a search that starts in that state has come to what a tour says, with hits of
that kind. -/
def Answers (tour : Tour) (fixes : TagAlternative → Prop) (progress : Progress) :
    Except AnalysisError (Option TagAlternative × Progress) → Prop
  | .error reason => ∃ name, tour.stopped = some name ∧ reason = .undefinedRule name ∧
      tour.tags.length ≤ progress.skip
  | .ok (some hit, _) => tour.tags[progress.skip]? = some hit.tag ∧ fixes hit
  | .ok (none, after) => tour.stopped = none ∧
      after.visited = tour.seen Reference.name progress.visited ∧
      progress.skip = tour.tags.length + after.skip

/-- Whether a search goes the way of the tour through a part, from every state in which at
most that many defined rules have not been entered, with hits of that kind. -/
def Follows (registry : Registry) (depth : Nat) (part : List Element)
    (fixes : TagAlternative → Prop) (search : SearchM (Option TagAlternative)) : Prop :=
  ∀ progress, fresh (registry.rules.map (·.name)) progress.visited ≤ depth →
    Answers (registry.tour Reference.name progress.visited part) fixes progress
      (search.run progress)

/-- One search and, unless it hits, another. -/
def orElse (search : SearchM (Option TagAlternative)) (onHit : TagAlternative → TagAlternative)
    (next : SearchM (Option TagAlternative)) : SearchM (Option TagAlternative) := do
  match ← search with
  | some found => return some (onHit found)
  | none => next

/-- A search whose hit is put into what stands around it. -/
def onHit (change : TagAlternative → TagAlternative)
    (search : SearchM (Option TagAlternative)) : SearchM (Option TagAlternative) := do
  let hit ← search
  return hit.map change

theorem run_orElse (search : SearchM (Option TagAlternative))
    (change : TagAlternative → TagAlternative) (next : SearchM (Option TagAlternative))
    (progress : Progress) :
    (orElse search change next).run progress =
      match search.run progress with
      | .error reason => .error reason
      | .ok (some found, after) => .ok (some (change found), after)
      | .ok (none, after) => next.run after := by
  rw [orElse, StateT.run_bind]
  rcases search.run progress with reason | ⟨_ | found, after⟩ <;> rfl

theorem run_onHit (change : TagAlternative → TagAlternative)
    (search : SearchM (Option TagAlternative)) (progress : Progress) :
    (onHit change search).run progress =
      match search.run progress with
      | .error reason => .error reason
      | .ok (hit, after) => .ok (hit.map change, after) := by
  rw [onHit, StateT.run_bind]
  rcases search.run progress with reason | ⟨hit, after⟩ <;> rfl

/-- A reference is followed unless its rule was entered before. -/
theorem run_once (registry : Registry) (name : String)
    (search : List Element → SearchM (Option TagAlternative)) (progress : Progress) :
    (once registry name search).run progress =
      if name ∈ progress.visited then .ok (none, progress)
      else match registry.body? name with
        | some body =>
          (search body.elements).run { progress with visited := name :: progress.visited }
        | none => .error (.undefinedRule name) := by
  unfold once
  simp only [StateT.run_bind, StateT.run_get, pure_bind, List.contains_eq_mem]
  by_cases hseen : name ∈ progress.visited
  · rw [if_pos hseen, decide_eq_true hseen]
    rfl
  · rw [if_neg hseen, decide_eq_false hseen, Registry.body]
    cases registry.body? name <;> rfl

/-- What is true behind a tour that has been passed over is true of both tours together. -/
theorem Answers.behind {first next : Tour} {fixes : TagAlternative → Prop}
    {progress middle : Progress}
    {result : Except AnalysisError (Option TagAlternative × Progress)}
    (hvisited : middle.visited = first.seen Reference.name progress.visited)
    (hskip : progress.skip = first.tags.length + middle.skip)
    (hanswer : Answers next fixes middle result) :
    Answers (first.append next) fixes progress result := by
  rcases result with reason | ⟨_ | found, after⟩
  · obtain ⟨name, hstopped, hreason, hfew⟩ := hanswer
    refine ⟨name, hstopped, hreason, ?_⟩
    rw [Tour.tags_append, List.length_append]
    omega
  · obtain ⟨hended, hafter, hleft⟩ := hanswer
    refine ⟨hended, ?_, ?_⟩
    · rw [Tour.seen_append, ← hvisited]
      exact hafter
    · rw [Tour.tags_append, List.length_append]
      omega
  · obtain ⟨hhit, hfound⟩ := hanswer
    refine ⟨?_, hfound⟩
    rw [Tour.tags_append, hskip, List.getElem?_append_right (Nat.le_add_right _ _),
      Nat.add_sub_cancel_left]
    exact hhit

namespace Follows

variable {registry : Registry} {depth : Nat} {part next : List Element}
  {fixes fixesNext : TagAlternative → Prop} {search : SearchM (Option TagAlternative)}

/-- What a search gives may be put into what stands around it. -/
theorem onHit (hsearch : Follows registry depth part fixes search)
    {change : TagAlternative → TagAlternative} {changed : TagAlternative → Prop}
    (htag : ∀ found, (change found).tag = found.tag)
    (hfixes : ∀ found, fixes found → changed (change found)) :
    Follows registry depth part changed (onHit change search) := by
  intro progress hdepth
  have hanswer := hsearch progress hdepth
  rw [run_onHit]
  rcases hrun : search.run progress with reason | ⟨_ | found, after⟩
  · rw [hrun] at hanswer
    exact hanswer
  · rw [hrun] at hanswer
    exact hanswer
  · rw [hrun] at hanswer
    exact ⟨hanswer.1.trans (congrArg some (htag found).symm), hfixes found hanswer.2⟩

/-- Hits of one kind are hits of a wider kind. -/
theorem imp (hsearch : Follows registry depth part fixes search)
    {others : TagAlternative → Prop} (hfixes : ∀ found, fixes found → others found) :
    Follows registry depth part others search := by
  intro progress hdepth
  have hanswer := hsearch progress hdepth
  rcases hrun : search.run progress with reason | ⟨_ | found, after⟩
  · rw [hrun] at hanswer
    exact hanswer
  · rw [hrun] at hanswer
    exact hanswer
  · rw [hrun] at hanswer
    exact ⟨hanswer.1, hfixes found hanswer.2⟩

/-- A search of one part and, unless it hits, of the next one goes the way of the tour
through both. -/
theorem orElse {other : SearchM (Option TagAlternative)} {joined : TagAlternative → Prop}
    {change : TagAlternative → TagAlternative}
    (hsearch : Follows registry depth part fixes search)
    (hother : Follows registry depth next fixesNext other)
    (htag : ∀ found, (change found).tag = found.tag)
    (hfixes : ∀ found, fixes found → joined (change found))
    (hnext : ∀ found, fixesNext found → joined found) :
    Follows registry depth (part ++ next) joined (orElse search change other) := by
  intro progress hdepth
  have hanswer := hsearch progress hdepth
  rw [run_orElse, Registry.tour_append]
  rcases hrun : search.run progress with reason | ⟨_ | found, middle⟩
  · rw [hrun] at hanswer
    obtain ⟨name, hstopped, hreason, hfew⟩ := hanswer
    rw [Tour.andThen_of_some hstopped]
    exact ⟨name, hstopped, hreason, hfew⟩
  · rw [hrun] at hanswer
    obtain ⟨hended, hvisited, hskip⟩ := hanswer
    rw [Tour.andThen_of_none hended, ← hvisited]
    refine Answers.behind hvisited hskip ((hother.imp hnext) middle ?_)
    refine Nat.le_trans (fresh_le (fun _ hkey => hkey) ?_) hdepth
    intro name hname
    rw [hvisited]
    exact List.mem_append_right _ hname
  · rw [hrun] at hanswer
    obtain ⟨hhit, hfound⟩ := hanswer
    exact ⟨(Tour.tags_andThen hhit _).trans (congrArg some (htag found).symm), hfixes found hfound⟩

/-- A search of what is read in place of an element is one of that element. -/
theorem of_inner {element : Element} (hinner : element.encounter = .inner part)
    (hsearch : Follows registry depth part fixes search) :
    Follows registry depth [element] fixes search := by
  intro progress hdepth
  rw [Registry.tour_inner _ _ _ hinner, List.append_nil]
  exact hsearch progress hdepth

/-- Where nothing is to be read a search misses. -/
theorem nil : Follows registry depth [] fixes (pure none) := by
  intro progress _
  rw [Registry.tour_nil]
  exact ⟨rfl, rfl, (Nat.zero_add _).symm⟩

/-- A search misses a leaf that is no tag. -/
theorem leaf {element : Element} (hleaf : element.encounter = .leaf)
    (hnone : tagsAmong [element] = []) : Follows registry depth [element] fixes (pure none) := by
  intro progress _
  rw [Registry.tour_leaf _ _ _ hleaf, Registry.tour_nil]
  refine ⟨rfl, rfl, ?_⟩
  change progress.skip = (tagsAmong [element]).length + progress.skip
  rw [hnone]
  exact (Nat.zero_add _).symm

end Follows

variable {registry : Registry} {depth : Nat} {enter : String → SearchM (Option TagAlternative)}

/-- A search hits a tag, unless one more is to be passed over. -/
theorem inElement_tag_follows (name : String) :
    Follows registry depth [.tag name] (registry.Fixes [.tag name])
      (inElement enter (.tag name)) := by
  rintro ⟨skip, visited⟩ _
  rw [Registry.tour_leaf _ _ _ rfl, Registry.tour_nil, inElement]
  cases skip with
  | zero => exact ⟨rfl, .tag⟩
  | succ left => exact ⟨rfl, rfl, Nat.add_comm left 1⟩

/-- Whether what is done at references goes the way of the tour. -/
def Enters (registry : Registry) (depth : Nat)
    (enter : String → SearchM (Option TagAlternative)) : Prop :=
  ∀ name site, Follows registry depth [.nonTerminal name site]
    (registry.Fixes [.nonTerminal name site]) (enter name)

mutual

/-- A search of an element goes the way of the tour if those behind references do. -/
theorem inElement_follows (henter : Enters registry depth enter) : ∀ element : Element,
    Follows registry depth [element] (registry.Fixes [element]) (inElement enter element)
  | .tag name => inElement_tag_follows name
  | .choice branches =>
    (inBranches_follows henter branches).of_inner rfl |>.imp fun _ ⟨_, hbranch, hfixes⟩ =>
      .choice hbranch hfixes
  | .optional body => (inSequence_follows henter body).of_inner rfl |>.imp fun _ => .optional
  | .zeroOrMore body =>
    (inSequence_follows henter body).of_inner rfl |>.onHit (fun _ => rfl) fun _ => .zeroOrMore
  | .oneOrMore body =>
    (inSequence_follows henter body).of_inner rfl |>.onHit (fun _ => rfl) fun _ => .oneOrMore
  | .nonTerminal name site => henter name site
  | .captured _ => .leaf rfl rfl
  | .byte _ => .leaf rfl rfl
  | .linked _ _ => .leaf rfl rfl

/-- A search of a sequence goes the way of the tour if those behind references do. -/
theorem inSequence_follows (henter : Enters registry depth enter) : ∀ elements : List Element,
    Follows registry depth elements (registry.Fixes elements) (inSequence enter elements)
  | [] => .nil
  | element :: rest =>
    (inElement_follows henter element).orElse
      ((inSequence_follows henter rest).onHit (fun _ => rfl) fun _ => .later)
      (fun _ => rfl) (fun _ => .first) fun _ hfixes => hfixes

/-- A search of branches goes the way of the tour if those behind references do. -/
theorem inBranches_follows (henter : Enters registry depth enter) :
    ∀ branches : List (List Element), Follows registry depth branches.flatten
      (fun found => ∃ branch ∈ branches, registry.Fixes branch found) (inBranches enter branches)
  | [] => .nil
  | branch :: rest =>
    (inSequence_follows henter branch).orElse (inBranches_follows henter rest) (fun _ => rfl)
      (fun _ hfixes => ⟨branch, List.mem_cons_self, hfixes⟩)
      fun _ ⟨other, hother, hfixes⟩ => ⟨other, List.mem_cons_of_mem _ hother, hfixes⟩

end

/-- Following a reference goes the way of the tour if the search of its body does, from every
state in which its rule has just been entered. -/
theorem once_follows {name : String} {search : List Element → SearchM (Option TagAlternative)}
    (hsearch : ∀ body, registry.body? name = some body → ∀ limit, limit < depth →
      Follows registry limit body.elements (registry.Fixes body.elements) (search body.elements))
    (site : Site) :
    Follows registry depth [.nonTerminal name site] (registry.Fixes [.nonTerminal name site])
      (once registry name search) := by
  intro progress hdepth
  rw [run_once]
  by_cases hseen : name ∈ progress.visited
  · rw [if_pos hseen, Registry.tour_seen _ _ _ rfl hseen, Registry.tour_nil]
    exact ⟨rfl, rfl, (Nat.zero_add _).symm⟩
  · rw [if_neg hseen]
    cases hbody : registry.body? name with
    | none =>
      rw [Registry.tour_stop _ _ _ rfl hseen hbody]
      exact ⟨name, rfl, rfl, Nat.zero_le _⟩
    | some body =>
      obtain ⟨hrule, hname⟩ := Registry.mem_rules_of_body? hbody
      have hfewer := fresh_cons_lt (fun _ hkey => hkey)
        (List.mem_map.mpr ⟨body, hrule, hname⟩) hseen
      have hanswer := hsearch body hbody _ (Nat.lt_of_lt_of_le hfewer hdepth)
        { progress with visited := name :: progress.visited } (Nat.le_refl _)
      rw [Registry.tour_follow _ _ _ rfl hseen hbody, List.append_nil]
      dsimp only
      rcases hrun : (search body.elements).run
        { progress with visited := name :: progress.visited } with reason | ⟨_ | found, after⟩
      · rw [hrun] at hanswer
        exact hanswer
      · rw [hrun] at hanswer
        obtain ⟨hended, hvisited, hskip⟩ := hanswer
        refine ⟨hended, ?_, hskip⟩
        rw [Tour.seen_follow]
        exact hvisited
      · rw [hrun] at hanswer
        exact ⟨hanswer.1, .nonTerminal hbody hanswer.2⟩

/-- Following references goes the way of the tour, if it may go as deep as there are defined
rules that have not been entered. -/
theorem enters_follow (registry : Registry) (depth : Nat) :
    Enters registry depth (follow registry depth) := by
  induction depth with
  | zero =>
    intro name site
    exact once_follows (fun _ _ limit hlimit => absurd hlimit (Nat.not_lt_zero limit)) site
  | succ depth ih =>
    intro name site
    refine once_follows (fun body _ limit hlimit => ?_) site
    intro progress hfresh
    exact inSequence_follows ih body.elements progress
      (Nat.le_trans hfresh (Nat.le_of_lt_succ hlimit))

/-- A search that has entered no rule goes the way of the tour. -/
theorem nth_answers (registry : Registry) (elements : List Element) (skip : Nat) :
    Answers (registry.tour Reference.name [] elements) (registry.Fixes elements) ⟨skip, []⟩
      ((inSequence (follow registry registry.rules.length) elements).run ⟨skip, []⟩) := by
  refine inSequence_follows (enters_follow registry _) elements ⟨skip, []⟩ ?_
  exact Nat.le_trans (fresh_nil_le _) (Nat.le_of_eq (List.length_map _))

end TagSearch

end PegTemplates
