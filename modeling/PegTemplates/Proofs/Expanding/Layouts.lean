import PegTemplates.Proofs.Expanding.Reports
import PegTemplates.Proofs.Following.Tour

/-!
# Layouts as tours

The layout of a sequence is shown to go the way of the tour that enters a rule once for
every site. Its literal bytes are those that the tour reads, in order, and its links are
those that the tour reads, each with the captures that its own body can reach. It fails
only if the tour ends at an undefined rule or reads a link whose body fails.
-/

namespace PegTemplates

mutual

/-- Every literal byte in a node, depth first. -/
def Node.texts : Node → List UInt8
  | .text value => [value]
  | .link _ => []
  | .choice branches => textsOfBranches branches
  | .optional body | .zeroOrMore body | .oneOrMore body => textsOf body

/-- Every literal byte in a layout, depth first. -/
def textsOf : List Node → List UInt8
  | [] => []
  | node :: rest => node.texts ++ textsOf rest

/-- Every literal byte in the branches of a choice, depth first. -/
def textsOfBranches : List (List Node) → List UInt8
  | [] => []
  | branch :: rest => textsOf branch ++ textsOfBranches rest

end

@[simp] theorem textsOf_append (first next : List Node) :
    textsOf (first ++ next) = textsOf first ++ textsOf next := by
  induction first with
  | nil => rfl
  | cons node rest ih => simp only [List.cons_append, textsOf, ih, List.append_assoc]

@[simp] theorem linksOf_append (first next : List Node) :
    linksOf (first ++ next) = linksOf first ++ linksOf next := by
  induction first with
  | nil => rfl
  | cons node rest ih => simp only [List.cons_append, linksOf, ih, List.append_assoc]

/-- The bytes of branches are those of the layout of all of them. -/
theorem textsOfBranches_eq (branches : List (List Node)) :
    textsOfBranches branches = textsOf branches.flatten := by
  induction branches with
  | nil => rfl
  | cons branch rest ih => rw [textsOfBranches, ih, List.flatten_cons, textsOf_append]

/-- The links of branches are those of the layout of all of them. -/
theorem linksOfBranches_eq (branches : List (List Node)) :
    linksOfBranches branches = linksOf branches.flatten := by
  induction branches with
  | nil => rfl
  | cons branch rest ih => rw [linksOfBranches, ih, List.flatten_cons, linksOf_append]

/-- The value of a literal byte, none for any other element. -/
def Element.byte? : Element → Option UInt8
  | .byte value => some value
  | _ => none

/-- Literal bytes among leaves. -/
def bytesAmong (leaves : List Element) : List UInt8 := leaves.filterMap Element.byte?

@[simp] theorem bytesAmong_append (first next : List Element) :
    bytesAmong (first ++ next) = bytesAmong first ++ bytesAmong next :=
  List.filterMap_append

namespace Registry

/-- A link with the captures that its own body can reach, or with the reason why these cannot be
found; none for any other element. -/
def link? (registry : Registry) : Element → Option (Except AnalysisError Link)
  | .linked label inner => some ((registry.linkedInners inner).map (Link.mk label))
  | _ => none

/-- Links among leaves. -/
def linksAmong (registry : Registry) (leaves : List Element) : List (Except AnalysisError Link) :=
  leaves.filterMap registry.link?

@[simp] theorem linksAmong_append (registry : Registry) (first next : List Element) :
    registry.linksAmong (first ++ next) = registry.linksAmong first ++ registry.linksAmong next :=
  List.filterMap_append

/-- A link whose body fails stands among leaves exactly if it is one of them. -/
theorem error_mem_linksAmong {registry : Registry} {leaves : List Element}
    {reason : AnalysisError} : .error reason ∈ registry.linksAmong leaves ↔
      ∃ label inner, .linked label inner ∈ leaves ∧
        registry.linkedInners inner = .error reason := by
  rw [linksAmong, List.mem_filterMap]
  constructor
  · rintro ⟨leaf, hleaf, hlink⟩
    cases leaf with
    | linked label inner =>
      refine ⟨label, inner, hleaf, ?_⟩
      cases hinners : registry.linkedInners inner with
      | ok inners => simp [link?, hinners, Except.map] at hlink
      | error other =>
        simp only [link?, hinners, Except.map, Option.some.injEq, Except.error.injEq] at hlink
        rw [hlink]
    | _ => cases hlink
  · rintro ⟨label, inner, hleaf, hinners⟩
    refine ⟨.linked label inner, hleaf, ?_⟩
    rw [link?, hinners]
    rfl

/-- Whether a layout holds the bytes and the links that stand among leaves, in order. -/
structure Shows (registry : Registry) (leaves : List Element) (nodes : List Node) : Prop where
  /-- The same bytes. -/
  texts : textsOf nodes = bytesAmong leaves
  /-- The same links, all of them with their captures. -/
  links : (linksOf nodes).map .ok = registry.linksAmong leaves

variable {registry : Registry}

theorem Shows.nil : registry.Shows [] [] := ⟨rfl, rfl⟩

/-- Two layouts one after the other hold what both hold. -/
theorem Shows.append {leaves others : List Element} {nodes next : List Node}
    (hshows : registry.Shows leaves nodes) (hnext : registry.Shows others next) :
    registry.Shows (leaves ++ others) (nodes ++ next) where
  texts := by rw [textsOf_append, bytesAmong_append, hshows.texts, hnext.texts]
  links := by rw [linksOf_append, linksAmong_append, List.map_append, hshows.links, hnext.links]

/-- A node around a layout holds what the layout holds. -/
theorem Shows.around {leaves : List Element} {nodes : List Node} {node : Node}
    (htexts : node.texts = textsOf nodes) (hlinks : node.links = linksOf nodes)
    (hshows : registry.Shows leaves nodes) : registry.Shows leaves [node] where
  texts := by rw [textsOf, textsOf, List.append_nil, htexts, hshows.texts]
  links := by rw [linksOf, linksOf, List.append_nil, hlinks, hshows.links]

end Registry

namespace Expansion

variable {α β : Type}

/-- Whether a step that starts with these sites expanded has come to what a tour says, its
result read as a layout in that way. -/
def Answers (registry : Registry) (tour : Tour) (view : α → List Node) (expanded : List Site) :
    EStateM.Result AnalysisError Progress α → Prop
  | .ok value after => tour.stopped = none ∧
      after.expanded = tour.seen Reference.site expanded ∧
      registry.Shows tour.leaves (view value)
  | .error _ _ => (∃ name, tour.stopped = some name) ∨
      ∃ reason, .error reason ∈ registry.linksAmong tour.leaves

/-- Whether a step goes the way of the tour through a part, from every state in which at most
that many of the sites have not been expanded. -/
def Follows (registry : Registry) (sites : List Site) (depth : Nat) (part : List Element)
    (view : α → List Node) (step : ExpandM α) : Prop :=
  ∀ before : Progress, fresh sites before.expanded ≤ depth →
    Answers registry (registry.tour Reference.site before.expanded part) view before.expanded
      (step.run before)

namespace Follows

variable {registry : Registry} {sites : List Site} {depth : Nat} {part next : List Element}
  {view : α → List Node} {step : ExpandM α}

/-- The result of a step may be put into what stands around it. -/
theorem map {change : α → β} {others : β → List Node}
    (hstep : Follows registry sites depth part view step)
    (hchange : ∀ {leaves value}, registry.Shows leaves (view value) →
      registry.Shows leaves (others (change value))) :
    Follows registry sites depth part others (do return change (← step)) := by
  intro before hdepth
  have hanswer := hstep before hdepth
  rw [EStateM.run_bind]
  cases hrun : step.run before with
  | error reason after =>
    rw [hrun] at hanswer
    exact hanswer
  | ok value after =>
    rw [hrun] at hanswer
    obtain ⟨hended, hexpanded, hshows⟩ := hanswer
    exact ⟨hended, hexpanded, hchange hshows⟩

/-- Two steps, one after the other, go the way of the tour through both parts. -/
theorem join {γ : Type} {other : ExpandM β} {viewOther : β → List Node} {joined : α → β → γ}
    {viewJoined : γ → List Node} (hstep : Follows registry sites depth part view step)
    (hother : Follows registry sites depth next viewOther other)
    (hjoined : ∀ value valueOther,
      viewJoined (joined value valueOther) = view value ++ viewOther valueOther) :
    Follows registry sites depth (part ++ next) viewJoined
      (do let value ← step; return joined value (← other)) := by
  intro before hdepth
  have hanswer := hstep before hdepth
  rw [EStateM.run_bind, Registry.tour_append]
  cases hrun : step.run before with
  | error reason after =>
    rw [hrun] at hanswer
    rcases hanswer with ⟨name, hstopped⟩ | ⟨failure, hfailure⟩
    · rw [Tour.andThen_of_some hstopped]
      exact Or.inl ⟨name, hstopped⟩
    · obtain ⟨more, hleaves⟩ := Tour.leaves_andThen
        (registry.tour Reference.site before.expanded part) (registry.tour Reference.site
          ((registry.tour Reference.site before.expanded part).seen Reference.site before.expanded)
          next)
      refine Or.inr ⟨failure, ?_⟩
      rw [hleaves, Registry.linksAmong_append]
      exact List.mem_append_left _ hfailure
  | ok value middle =>
    rw [hrun] at hanswer
    obtain ⟨hended, hexpanded, hshows⟩ := hanswer
    have hfewer : fresh sites middle.expanded ≤ depth := by
      refine Nat.le_trans (fresh_le (fun _ hsite => hsite) fun site hsite => ?_) hdepth
      rw [hexpanded]
      exact List.mem_append_right _ hsite
    have hnext := hother middle hfewer
    rw [Tour.andThen_of_none hended, ← hexpanded]
    dsimp only
    rw [EStateM.run_bind]
    cases hlast : other.run middle with
    | error reason after =>
      rw [hlast] at hnext
      rcases hnext with hstopped | ⟨failure, hfailure⟩
      · exact Or.inl hstopped
      · refine Or.inr ⟨failure, ?_⟩
        change _ ∈ registry.linksAmong (_ ++ _)
        rw [Registry.linksAmong_append]
        exact List.mem_append_right _ hfailure
    | ok valueOther after =>
      rw [hlast] at hnext
      obtain ⟨hendedOther, hexpandedOther, hshowsOther⟩ := hnext
      refine ⟨hendedOther, ?_, ?_⟩
      · rw [Tour.seen_append, ← hexpanded]
        exact hexpandedOther
      · rw [hjoined]
        exact hshows.append hshowsOther

/-- A step for what is read in place of an element is one for that element. -/
theorem of_inner {element : Element} (hinner : element.encounter = .inner part)
    (hstep : Follows registry sites depth part view step) :
    Follows registry sites depth [element] view step := by
  intro before hdepth
  rw [Registry.tour_inner _ _ _ hinner, List.append_nil]
  exact hstep before hdepth

/-- Where nothing is to be read nothing is laid out. -/
theorem nil {value : α} (hnone : view value = []) :
    Follows registry sites depth [] view (pure value) := by
  intro before _
  rw [Registry.tour_nil]
  refine ⟨rfl, rfl, ?_⟩
  rw [hnone]
  exact .nil

/-- A leaf that is no link is laid out by itself. -/
theorem leaf {element : Element} (hleaf : element.encounter = .leaf) {value : α}
    (hshows : registry.Shows [element] (view value)) :
    Follows registry sites depth [element] view (pure value) := by
  intro before _
  rw [Registry.tour_leaf _ _ _ hleaf, Registry.tour_nil]
  exact ⟨rfl, rfl, hshows⟩

/-- A link is laid out with the captures that its own body can reach. -/
theorem linked (label : Option String) (inner : List Element) :
    Follows registry sites depth [.linked label inner] id
      (do return [.link ⟨label, ← linkedInners registry inner⟩]) := by
  intro before _
  have houtcome := outcome_linkedInners registry inner before
  rw [Registry.tour_leaf _ _ _ rfl, Registry.tour_nil, EStateM.run_bind]
  cases hrun : (linkedInners registry inner).run before with
  | error reason after =>
    rw [hrun] at houtcome
    refine Or.inr ⟨reason, Registry.error_mem_linksAmong.mpr
      ⟨label, inner, List.mem_singleton_self _, ?_⟩⟩
    cases hinners : registry.linkedInners inner with
    | ok _ => rw [hinners] at houtcome; cases houtcome
    | error other => rw [hinners] at houtcome; cases houtcome; rfl
  | ok inners after =>
    rw [hrun] at houtcome
    cases hinners : registry.linkedInners inner with
    | error _ => rw [hinners] at houtcome; cases houtcome
    | ok found =>
      rw [hinners] at houtcome
      obtain ⟨rfl, hexpanded⟩ := Prod.mk.inj (Except.ok.inj houtcome)
      refine ⟨rfl, hexpanded, rfl, ?_⟩
      change [Except.ok (Link.mk label inners)] =
        [(registry.linkedInners inner).map (Link.mk label)]
      rw [hinners]
      rfl

end Follows

variable {registry : Registry} {sites : List Site} {depth : Nat}
  {enter : String → Site → ExpandM (List Node)}

/-- Whether what is done at references to these sites goes the way of the tour. -/
def Enters (registry : Registry) (sites : List Site) (depth : Nat)
    (enter : String → Site → ExpandM (List Node)) : Prop :=
  ∀ name site, site ∈ sites →
    Follows registry sites depth [.nonTerminal name site] id (enter name site)

/-- Whether all references of a part are at these sites. -/
def Within (sites : List Site) (part : List Element) : Prop :=
  ∀ reference ∈ mentionsOf false part, reference.site ∈ sites

theorem Within.head {element : Element} {rest : List Element}
    (hwithin : Within sites (element :: rest)) : Within sites [element] := by
  intro reference hreference
  rw [mentionsOf, mentionsOf, List.append_nil] at hreference
  exact hwithin reference (List.mem_append_left _ hreference)

theorem Within.tail {element : Element} {rest : List Element}
    (hwithin : Within sites (element :: rest)) : Within sites rest :=
  fun reference hreference => hwithin reference (List.mem_append_right _ hreference)

theorem Within.inner {element : Element} {part : List Element}
    (hinner : element.encounter = .inner part) (hwithin : Within sites [element]) :
    Within sites part := by
  intro reference hreference
  refine hwithin reference ?_
  rwa [mentionsOf, mentionsOf, List.append_nil, (Element.of_inner hinner).2]

theorem Within.append_iff {first next : List Element} :
    Within sites (first ++ next) ↔ Within sites first ∧ Within sites next := by
  rw [Within, mentionsOf_append, List.forall_mem_append]
  rfl

mutual

/-- The layout of an element goes the way of the tour if what is done at references does. -/
theorem layoutOfElement_follows (henter : Enters registry sites depth enter) :
    ∀ element : Element, Within sites [element] →
      Follows registry sites depth [element] id (layoutOfElement registry enter element)
  | .byte _, _ => .leaf rfl ⟨rfl, rfl⟩
  | .tag _, _ => .leaf rfl ⟨rfl, rfl⟩
  | .captured _, _ => .leaf rfl ⟨rfl, rfl⟩
  | .nonTerminal name site, hwithin => henter name site (hwithin ⟨name, site⟩ List.mem_cons_self)
  | .linked label inner, _ => .linked label inner
  | .choice branches, hwithin =>
    (layoutOfBranches_follows henter branches (hwithin.inner rfl)).of_inner rfl |>.map fun hshows =>
      hshows.around (textsOfBranches_eq _) (linksOfBranches_eq _)
  | .optional body, hwithin =>
    (layoutOfSequence_follows henter body (hwithin.inner rfl)).of_inner rfl |>.map
      fun hshows => hshows.around rfl rfl
  | .zeroOrMore body, hwithin =>
    (layoutOfSequence_follows henter body (hwithin.inner rfl)).of_inner rfl |>.map
      fun hshows => hshows.around rfl rfl
  | .oneOrMore body, hwithin =>
    (layoutOfSequence_follows henter body (hwithin.inner rfl)).of_inner rfl |>.map
      fun hshows => hshows.around rfl rfl

/-- The layout of a sequence goes the way of the tour if what is done at references does. -/
theorem layoutOfSequence_follows (henter : Enters registry sites depth enter) :
    ∀ elements : List Element, Within sites elements →
      Follows registry sites depth elements id (layoutOfSequence registry enter elements)
  | [], _ => .nil rfl
  | element :: rest, hwithin =>
    (layoutOfElement_follows henter element hwithin.head).join
      (layoutOfSequence_follows henter rest hwithin.tail) fun _ _ => rfl

/-- The layouts of branches go the way of the tour if what is done at references does. -/
theorem layoutOfBranches_follows (henter : Enters registry sites depth enter) :
    ∀ branches : List (List Element), Within sites branches.flatten →
      Follows registry sites depth branches.flatten List.flatten
        (layoutOfBranches registry enter branches)
  | [], _ => .nil rfl
  | branch :: rest, hwithin =>
    (layoutOfSequence_follows henter branch (Within.append_iff.mp hwithin).1).join
      (layoutOfBranches_follows henter rest (Within.append_iff.mp hwithin).2) fun _ _ => rfl

end

/-- Following a reference goes the way of the tour if the layout of its body does, from every
state in which its site has just been expanded. -/
theorem once_follows {name : String} {site : Site} {expand : List Element → ExpandM (List Node)}
    {repeated : String → Event} (hsite : site ∈ sites)
    (hexpand : ∀ body, registry.body? name = some body → ∀ limit, limit < depth →
      Follows registry sites limit body.elements id (expand body.elements)) :
    Follows registry sites depth [.nonTerminal name site] id
      (once registry repeated [] name site expand) := by
  intro before hdepth
  rw [run_once]
  by_cases hseen : site ∈ before.expanded
  · rw [if_pos hseen, Registry.tour_seen _ _ _ rfl hseen, Registry.tour_nil]
    exact ⟨rfl, rfl, .nil⟩
  · rw [if_neg hseen]
    cases hbody : registry.body? name with
    | none =>
      rw [Registry.tour_stop _ _ _ rfl hseen hbody]
      exact Or.inl ⟨name, rfl⟩
    | some body =>
      have hfewer := fresh_cons_lt (fun _ hkey => hkey) hsite hseen
      have hanswer := hexpand body hbody _ (Nat.lt_of_lt_of_le hfewer hdepth)
        { before with expanded := site :: before.expanded } (Nat.le_refl _)
      rw [Registry.tour_follow _ _ _ rfl hseen hbody, List.append_nil]
      dsimp only
      cases hrun : (expand body.elements).run
        { before with expanded := site :: before.expanded } with
      | error reason after =>
        rw [hrun] at hanswer
        exact hanswer
      | ok nodes after =>
        rw [hrun] at hanswer
        obtain ⟨hended, hexpanded, hshows⟩ := hanswer
        refine ⟨hended, ?_, hshows⟩
        rw [Tour.seen_follow]
        exact hexpanded

/-- Following references goes the way of the tour, if it may go as deep as there are sites that
have not been expanded. -/
theorem enters_follow (hrules : ∀ body ∈ registry.rules, Within sites body.elements)
    (depth : Nat) : Enters registry sites depth
      (follow registry .repeatedReference [] (layoutOfSequence registry) depth) := by
  induction depth with
  | zero =>
    intro name site hsite
    exact once_follows hsite fun _ _ limit hlimit => absurd hlimit (Nat.not_lt_zero limit)
  | succ depth ih =>
    intro name site hsite
    refine once_follows hsite fun body hbody limit hlimit => ?_
    intro before hfresh
    exact layoutOfSequence_follows ih body.elements
      (hrules body (Registry.mem_rules_of_body? hbody).1) before
      (Nat.le_trans hfresh (Nat.le_of_lt_succ hlimit))

/-- The sites of all references that a sequence or the body of a rule holds. -/
def sitesFrom (registry : Registry) (elements : List Element) : List Site :=
  (mentionsOf true elements ++ registry.ruleMentions true).map Reference.site

/-- There are as many of them as the bound on the depth says. -/
theorem length_sitesFrom (registry : Registry) (elements : List Element) :
    (sitesFrom registry elements).length = registry.siteBound elements := by
  rw [sitesFrom, List.length_map, List.length_append, Registry.ruleMentions,
    length_mentionsOf, length_mentionsOf, Registry.siteBound]

/-- The references of a sequence stand at its sites. -/
theorem within_sitesFrom (registry : Registry) (elements : List Element) :
    Within (sitesFrom registry elements) elements :=
  fun _ hreference => List.mem_map_of_mem <| List.mem_append_left _ <|
    mentionsOf_subset _ hreference

/-- The references of rule bodies stand at the sites of any sequence. -/
theorem within_sitesFrom_rule (registry : Registry) (elements : List Element) :
    ∀ body ∈ registry.rules, Within (sitesFrom registry elements) body.elements :=
  fun _ hbody _ hreference => List.mem_map_of_mem <| List.mem_append_right _ <|
    Registry.mem_ruleMentions hbody (mentionsOf_subset _ hreference)

/-- At most as many sites can be followed from a sequence as the bound on the depth says. -/
theorem fresh_sitesFrom_le (registry : Registry) (elements : List Element) :
    fresh (sitesFrom registry elements) [] ≤ registry.siteBound elements :=
  Nat.le_trans (fresh_nil_le _) (Nat.le_of_eq (length_sitesFrom registry elements))

/-- The layout of a sequence goes the way of the tour that enters a rule once for every site. -/
theorem layout_answers (registry : Registry) (elements : List Element) :
    Answers registry (registry.tour Reference.site [] elements) id []
      ((layout registry elements).run ⟨[], []⟩) :=
  layoutOfSequence_follows (enters_follow (within_sitesFrom_rule registry elements) _) elements
    (within_sitesFrom registry elements) ⟨[], []⟩ (fresh_sitesFrom_le registry elements)

end Expansion

namespace Registry

variable {registry : Registry} {elements : List Element}

/-- A layout shows what the tour reads, which has come to its end. -/
theorem layout_eq_ok {nodes : List Node} (hlayout : registry.layout elements = .ok nodes) :
    (registry.tour Reference.site [] elements).stopped = none ∧
      registry.Shows (registry.tour Reference.site [] elements).leaves nodes := by
  have hanswer := Expansion.layout_answers registry elements
  unfold layout Expansion.answer at hlayout
  split at hlayout
  · rename_i hrun
    cases hlayout
    rw [hrun] at hanswer
    exact ⟨hanswer.1, hanswer.2.2⟩
  · cases hlayout

/-- There is no layout only if the tour has ended at an undefined rule or has read a link whose
body fails. -/
theorem layout_eq_error {reason : AnalysisError}
    (hlayout : registry.layout elements = .error reason) :
    (∃ name, (registry.tour Reference.site [] elements).stopped = some name) ∨
      ∃ failure, .error failure ∈
        registry.linksAmong (registry.tour Reference.site [] elements).leaves := by
  have hanswer := Expansion.layout_answers registry elements
  unfold layout Expansion.answer at hlayout
  split at hlayout
  · cases hlayout
  · rename_i hrun
    rw [hrun] at hanswer
    exact hanswer

end Registry

end PegTemplates
