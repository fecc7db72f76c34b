import Mathlib.Data.Finset.Card
import PegTemplates.Registry

/-!
# Tours through element sequences

A tour reads a sequence from left to right, through the branches of choices and
the bodies of options and repetitions. A reference leads into the body of its
rule the first time its key is met in the tour. With the name of the rule as the
key every rule is entered once, with the site every reference. A link is not
entered, and an undefined rule ends the tour. Tours are shown to end on cyclic
rules, and a tour of two parts is one of the first and then one of the second.
-/

namespace PegTemplates

/-- A reference to a rule at one site. -/
structure Reference where
  /-- Name of the rule. -/
  name : String
  /-- Where the reference stands. -/
  site : Site
  deriving DecidableEq, Repr

mutual

/-- References in an element, those inside links only if these are looked into. -/
def Element.mentions (inLinks : Bool) : Element → List Reference
  | .nonTerminal name site => [⟨name, site⟩]
  | .captured _ | .byte _ | .tag _ => []
  | .linked _ inner => if inLinks then mentionsOf inLinks inner else []
  | .choice branches => mentionsOfBranches inLinks branches
  | .zeroOrMore body | .oneOrMore body | .optional body => mentionsOf inLinks body

/-- References in a sequence. -/
def mentionsOf (inLinks : Bool) : List Element → List Reference
  | [] => []
  | element :: rest => element.mentions inLinks ++ mentionsOf inLinks rest

/-- References in the branches of a choice. -/
def mentionsOfBranches (inLinks : Bool) : List (List Element) → List Reference
  | [] => []
  | branch :: rest => mentionsOf inLinks branch ++ mentionsOfBranches inLinks rest

end

mutual

/-- What stands in an element apart from references. A link is one leaf. -/
def Element.leaves : Element → List Element
  | .nonTerminal _ _ => []
  | .captured id => [.captured id]
  | .byte value => [.byte value]
  | .tag name => [.tag name]
  | .linked label inner => [.linked label inner]
  | .choice branches => leavesOfBranches branches
  | .zeroOrMore body | .oneOrMore body | .optional body => leavesOf body

/-- What stands in a sequence apart from references. -/
def leavesOf : List Element → List Element
  | [] => []
  | element :: rest => element.leaves ++ leavesOf rest

/-- What stands in the branches of a choice apart from references. -/
def leavesOfBranches : List (List Element) → List Element
  | [] => []
  | branch :: rest => leavesOf branch ++ leavesOfBranches rest

end

@[simp] theorem mentionsOf_append (inLinks : Bool) (first next : List Element) :
    mentionsOf inLinks (first ++ next) = mentionsOf inLinks first ++ mentionsOf inLinks next := by
  induction first with
  | nil => rfl
  | cons element rest ih => simp only [List.cons_append, mentionsOf, ih, List.append_assoc]

/-- The references in branches are those in the sequence of all of them. -/
theorem mentionsOfBranches_eq (inLinks : Bool) (branches : List (List Element)) :
    mentionsOfBranches inLinks branches = mentionsOf inLinks branches.flatten := by
  induction branches with
  | nil => rfl
  | cons branch rest ih => rw [mentionsOfBranches, ih, List.flatten_cons, mentionsOf_append]

mutual

/-- An element holds as many references as it mentions, links included. -/
theorem Element.length_mentions : ∀ element : Element,
    (element.mentions true).length = Registry.referencesIn element
  | .nonTerminal _ _ | .captured _ | .byte _ | .tag _ => rfl
  | .linked _ inner => length_mentionsOf inner
  | .choice branches => length_mentionsOfBranches branches
  | .zeroOrMore body | .oneOrMore body | .optional body => length_mentionsOf body

/-- A sequence holds as many references as it mentions, links included. -/
theorem length_mentionsOf : ∀ elements : List Element,
    (mentionsOf true elements).length = Registry.references elements
  | [] => rfl
  | element :: rest => by
    rw [mentionsOf, List.length_append, element.length_mentions, length_mentionsOf rest,
      Registry.references]

/-- Branches hold as many references as they mention, links included. -/
theorem length_mentionsOfBranches : ∀ branches : List (List Element),
    (mentionsOfBranches true branches).length = Registry.referencesInBranches branches
  | [] => rfl
  | branch :: rest => by
    rw [mentionsOfBranches, List.length_append, length_mentionsOf branch,
      length_mentionsOfBranches rest, Registry.referencesInBranches]

end

mutual

/-- What an element mentions outside links it mentions. -/
theorem Element.mentions_subset {reference : Reference} : ∀ element : Element,
    reference ∈ element.mentions false → reference ∈ element.mentions true
  | .nonTerminal _ _, hmentioned => hmentioned
  | .choice branches, hmentioned => mentionsOfBranches_subset branches hmentioned
  | .zeroOrMore body, hmentioned | .oneOrMore body, hmentioned | .optional body, hmentioned =>
    mentionsOf_subset body hmentioned

/-- What a sequence mentions outside links it mentions. -/
theorem mentionsOf_subset {reference : Reference} : ∀ elements : List Element,
    reference ∈ mentionsOf false elements → reference ∈ mentionsOf true elements
  | element :: rest, hmentioned => by
    rw [mentionsOf, List.mem_append] at hmentioned ⊢
    exact hmentioned.imp element.mentions_subset (mentionsOf_subset rest)

/-- What branches mention outside links they mention. -/
theorem mentionsOfBranches_subset {reference : Reference} : ∀ branches : List (List Element),
    reference ∈ mentionsOfBranches false branches → reference ∈ mentionsOfBranches true branches
  | branch :: rest, hmentioned => by
    rw [mentionsOfBranches, List.mem_append] at hmentioned ⊢
    exact hmentioned.imp (mentionsOf_subset branch) (mentionsOfBranches_subset rest)

end

@[simp] theorem leavesOf_append (first next : List Element) :
    leavesOf (first ++ next) = leavesOf first ++ leavesOf next := by
  induction first with
  | nil => rfl
  | cons element rest ih => simp only [List.cons_append, leavesOf, ih, List.append_assoc]

/-- The leaves of branches are those of the sequence of all of them. -/
theorem leavesOfBranches_eq (branches : List (List Element)) :
    leavesOfBranches branches = leavesOf branches.flatten := by
  induction branches with
  | nil => rfl
  | cons branch rest ih => rw [leavesOfBranches, ih, List.flatten_cons, leavesOf_append]

/-- What a tour does at an element. -/
inductive Encounter where
  /-- The element is a leaf. -/
  | leaf
  /-- These elements are read in its place. -/
  | inner (elements : List Element)
  /-- A reference is met. -/
  | rule (reference : Reference)

/-- What a tour does at an element: captures and links are leaves, and choices are
read branch by branch. -/
def Element.encounter : Element → Encounter
  | .nonTerminal name site => .rule ⟨name, site⟩
  | .captured _ | .byte _ | .tag _ | .linked _ _ => .leaf
  | .choice branches => .inner branches.flatten
  | .zeroOrMore body | .oneOrMore body | .optional body => .inner body

section Encounter

variable {element : Element} {elements : List Element} {reference : Reference}

/-- A leaf stands for itself. -/
theorem Element.of_leaf (hmet : element.encounter = .leaf) :
    element.leaves = [element] ∧ element.mentions false = [] := by
  cases element <;> first | exact ⟨rfl, rfl⟩ | cases hmet

/-- Elements read in place of another one have what stands in it. -/
theorem Element.of_inner (hmet : element.encounter = .inner elements) :
    element.leaves = leavesOf elements ∧ element.mentions false = mentionsOf false elements := by
  cases element with
  | choice branches =>
    cases hmet
    exact ⟨leavesOfBranches_eq branches, mentionsOfBranches_eq false branches⟩
  | _ => cases hmet <;> exact ⟨rfl, rfl⟩

/-- Only a reference is met as one. -/
theorem Element.of_rule (hmet : element.encounter = .rule reference) :
    element = .nonTerminal reference.name reference.site := by
  cases element <;> cases hmet
  rfl

theorem sizeOf_append (first next : List Element) :
    sizeOf (first ++ next) + 1 = sizeOf first + sizeOf next := by
  induction first with
  | nil => simp [Nat.add_comm]
  | cons element rest ih =>
    simp only [List.cons_append, List.cons.sizeOf_spec]
    omega

theorem sizeOf_flatten_le (branches : List (List Element)) :
    sizeOf branches.flatten ≤ sizeOf branches := by
  induction branches with
  | nil => simp
  | cons branch rest ih =>
    have happend := sizeOf_append branch rest.flatten
    simp only [List.flatten_cons, List.cons.sizeOf_spec]
    omega

/-- Elements read in place of another one are smaller. -/
theorem Element.sizeOf_inner_lt
    (hmet : element.encounter = .inner elements) : sizeOf elements < sizeOf element := by
  cases element with
  | choice branches =>
    cases hmet
    have hflat := sizeOf_flatten_le branches
    simp only [Element.choice.sizeOf_spec]
    omega
  | _ => cases hmet <;> simp +arith

end Encounter

section Fresh

variable {κ : Type} [DecidableEq κ]

/-- Number of keys that have not been seen. -/
def fresh (keys seen : List κ) : Nat := (keys.toFinset \ seen.toFinset).card

/-- Keys count once each. -/
theorem fresh_nil_le (keys : List κ) : fresh keys [] ≤ keys.length := by
  rw [fresh, List.toFinset_nil, Finset.sdiff_empty]
  exact keys.toFinset_card_le

/-- Fewer keys are fresh if more have been seen. -/
theorem fresh_le {keys others seen later : List κ} (hkeys : ∀ key ∈ keys, key ∈ others)
    (hseen : ∀ key ∈ seen, key ∈ later) : fresh keys later ≤ fresh others seen := by
  apply Finset.card_le_card
  apply Finset.sdiff_subset_sdiff
  · intro key hkey
    exact List.mem_toFinset.mpr (hkeys key (List.mem_toFinset.mp hkey))
  · intro key hkey
    exact List.mem_toFinset.mpr (hseen key (List.mem_toFinset.mp hkey))

/-- A key that is met for the first time is fresh no more. -/
theorem fresh_cons_lt {keys others seen : List κ} {key : κ} (hkeys : ∀ key ∈ keys, key ∈ others)
    (hkey : key ∈ others) (hfresh : key ∉ seen) : fresh keys (key :: seen) < fresh others seen := by
  apply Finset.card_lt_card
  rw [Finset.ssubset_iff_of_subset]
  · refine ⟨key, ?_, ?_⟩
    · simp [hkey, hfresh]
    · simp
  · intro other hother
    simp only [Finset.mem_sdiff, List.mem_toFinset, List.mem_cons, not_or] at hother ⊢
    exact ⟨hkeys other hother.1, hother.2.2⟩

end Fresh

/-- What a tour has come to. -/
structure Tour where
  /-- Leaves in the order in which they were read. -/
  leaves : List Element
  /-- References in the order in which they were followed. -/
  followed : List Reference
  /-- Name of the undefined rule that ended the tour. -/
  stopped : Option String
  deriving Repr

namespace Tour

/-- A tour of nothing. -/
def done : Tour := ⟨[], [], none⟩

/-- A tour that ends at an undefined rule. -/
def stop (name : String) : Tour := ⟨[], [], some name⟩

/-- A tour that reads a leaf first. -/
def read (leaf : Element) (tour : Tour) : Tour := { tour with leaves := leaf :: tour.leaves }

/-- A tour that follows a reference first. -/
def follow (reference : Reference) (tour : Tour) : Tour :=
  { tour with followed := reference :: tour.followed }

/-- All that one tour and then another has met. -/
def append (first next : Tour) : Tour :=
  ⟨first.leaves ++ next.leaves, first.followed ++ next.followed, next.stopped⟩

/-- One tour and then another, unless the first one has ended at an undefined rule. -/
def andThen (first next : Tour) : Tour :=
  match first.stopped with
  | none => first.append next
  | some _ => first

theorem andThen_of_none {first : Tour} (hended : first.stopped = none) (next : Tour) :
    first.andThen next = first.append next := by
  rw [andThen, hended]

theorem andThen_of_some {first : Tour} {name : String} (hstopped : first.stopped = some name)
    (next : Tour) : first.andThen next = first := by
  rw [andThen, hstopped]

/-- Keys that have been seen after the tour, the latest first. -/
def seen {κ : Type} (key : Reference → κ) (before : List κ) (tour : Tour) : List κ :=
  (tour.followed.map key).reverse ++ before

theorem read_andThen (leaf : Element) (first next : Tour) :
    (first.read leaf).andThen next = (first.andThen next).read leaf := by
  obtain ⟨leaves, followed, stopped⟩ := first
  cases stopped <;> rfl

theorem follow_andThen (reference : Reference) (first next : Tour) :
    (first.follow reference).andThen next = (first.andThen next).follow reference := by
  obtain ⟨leaves, followed, stopped⟩ := first
  cases stopped <;> rfl

/-- A reference that was followed first is the earliest one seen. -/
theorem seen_follow {κ : Type} (key : Reference → κ) (before : List κ) (reference : Reference)
    (tour : Tour) :
    (tour.follow reference).seen key before = tour.seen key (key reference :: before) := by
  simp [seen, follow]

/-- What the second tour has seen is seen last. -/
theorem seen_append {κ : Type} (key : Reference → κ) (before : List κ) (first next : Tour) :
    (first.append next).seen key before = next.seen key (first.seen key before) := by
  simp [seen, append]

/-- The leaves of the first tour come first. -/
theorem leaves_andThen (first next : Tour) :
    ∃ more, (first.andThen next).leaves = first.leaves ++ more := by
  obtain ⟨leaves, followed, stopped⟩ := first
  cases stopped with
  | none => exact ⟨next.leaves, rfl⟩
  | some name => exact ⟨[], (List.append_nil leaves).symm⟩

end Tour

namespace Registry

/-- References in the bodies of all rules. -/
def ruleMentions (registry : Registry) (inLinks : Bool) : List Reference :=
  mentionsOf inLinks (registry.rules.flatMap (·.elements))

/-- The body of a defined rule is one of the registered bodies. -/
theorem mem_rules_of_body? {registry : Registry} {name : String} {body : RuleBody}
    (hbody : registry.body? name = some body) : body ∈ registry.rules ∧ body.name = name :=
  ⟨List.mem_of_find?_eq_some hbody, by simpa using List.find?_some hbody⟩

/-- References in a rule body are among those in all rule bodies. -/
theorem mem_ruleMentions {registry : Registry} {inLinks : Bool} {body : RuleBody}
    (hbody : body ∈ registry.rules) {reference : Reference}
    (hreference : reference ∈ mentionsOf inLinks body.elements) :
    reference ∈ registry.ruleMentions inLinks := by
  obtain ⟨before, after, hrules⟩ := List.append_of_mem hbody
  simp [ruleMentions, hrules, hreference]

variable {κ : Type} [DecidableEq κ]

/-- Number of keys that a tour of the sequence can still meet for the first time. -/
def pending (registry : Registry) (key : Reference → κ) (seen : List κ)
    (elements : List Element) : Nat :=
  fresh ((mentionsOf false elements ++ registry.ruleMentions false).map key) seen

/-- Nothing more can be met for the first time behind a part whose references were there
before. -/
theorem pending_le {registry : Registry} {key : Reference → κ} {seen : List κ}
    {elements others : List Element}
    (hmentions : ∀ reference ∈ mentionsOf false elements, reference ∈ mentionsOf false others) :
    registry.pending key seen elements ≤ registry.pending key seen others := by
  refine fresh_le ?_ fun _ hseen => hseen
  intro found hfound
  obtain ⟨reference, hreference, rfl⟩ := List.mem_map.mp hfound
  refine List.mem_map_of_mem ?_
  rcases List.mem_append.mp hreference with hown | hrule
  · exact List.mem_append_left _ (hmentions reference hown)
  · exact List.mem_append_right _ hrule

/-- Following a reference leaves one key less. -/
theorem pending_follow_lt {registry : Registry} {key : Reference → κ} {seen : List κ}
    {element : Element} {rest : List Element} {reference : Reference} {body : RuleBody}
    (hmet : element.encounter = .rule reference) (hseen : key reference ∉ seen)
    (hbody : registry.body? reference.name = some body) :
    registry.pending key (key reference :: seen) (body.elements ++ rest) <
      registry.pending key seen (element :: rest) := by
  obtain rfl := Element.of_rule hmet
  refine fresh_cons_lt ?_ ?_ hseen
  · intro found hfound
    obtain ⟨other, hother, rfl⟩ := List.mem_map.mp hfound
    refine List.mem_map_of_mem ?_
    rw [mentionsOf_append, List.append_assoc, List.mem_append, List.mem_append] at hother
    rw [mentionsOf, List.append_assoc, List.mem_append, List.mem_append]
    rcases hother with hinner | hrest | hrule
    · exact Or.inr (Or.inr (mem_ruleMentions (mem_rules_of_body? hbody).1 hinner))
    · exact Or.inr (Or.inl hrest)
    · exact Or.inr (Or.inr hrule)
  · exact List.mem_map_of_mem (List.mem_append_left _ List.mem_cons_self)

/-- The tour of a sequence when these keys have been seen before. -/
def tour (registry : Registry) (key : Reference → κ) (seen : List κ) : List Element → Tour
  | [] => .done
  | element :: rest =>
    match _hmet : element.encounter with
    | .leaf => (registry.tour key seen rest).read element
    | .inner elements => registry.tour key seen (elements ++ rest)
    | .rule reference =>
      if _hseen : key reference ∈ seen then registry.tour key seen rest
      else
        match _hbody : registry.body? reference.name with
        | some body =>
          (registry.tour key (key reference :: seen) (body.elements ++ rest)).follow reference
        | none => .stop reference.name
termination_by elements => (registry.pending key seen elements, sizeOf elements)
decreasing_by
  · refine Prod.Lex.right' _ (pending_le fun _ hrest => ?_) ?_
    · exact List.mem_append_right _ hrest
    · simp +arith
  · refine Prod.Lex.right' _ (pending_le fun reference hreference => ?_) ?_
    · rw [mentionsOf_append] at hreference
      rw [mentionsOf, (Element.of_inner _hmet).2]
      exact hreference
    · have happend := sizeOf_append elements rest
      have hinner := Element.sizeOf_inner_lt _hmet
      simp only [List.cons.sizeOf_spec]
      omega
  · refine Prod.Lex.right' _ (pending_le fun _ hrest => ?_) ?_
    · exact List.mem_append_right _ hrest
    · simp +arith
  · exact Prod.Lex.left _ _ (pending_follow_lt _hmet _hseen _hbody)

/-- Induction along a tour, with one case for each thing that it can do. -/
@[elab_as_elim]
theorem tour_induction (registry : Registry) (key : Reference → κ)
    {motive : List κ → List Element → Prop} (nil : ∀ seen, motive seen [])
    (leaf : ∀ seen element rest, element.encounter = .leaf → motive seen rest →
      motive seen (element :: rest))
    (inner : ∀ seen element rest elements, element.encounter = .inner elements →
      motive seen (elements ++ rest) → motive seen (element :: rest))
    (again : ∀ seen element rest reference, element.encounter = .rule reference →
      key reference ∈ seen → motive seen rest → motive seen (element :: rest))
    (follow : ∀ seen element rest reference, element.encounter = .rule reference →
      key reference ∉ seen → ∀ body, registry.body? reference.name = some body →
      motive (key reference :: seen) (body.elements ++ rest) → motive seen (element :: rest))
    (stop : ∀ seen element rest reference, element.encounter = .rule reference →
      key reference ∉ seen → registry.body? reference.name = none → motive seen (element :: rest))
    (seen : List κ) (elements : List Element) : motive seen elements :=
  tour.induct registry key motive nil leaf inner again follow stop seen elements

section Equations

variable (registry : Registry) (key : Reference → κ) (seen : List κ) {element : Element}
  {rest : List Element} {reference : Reference}

@[simp] theorem tour_nil : registry.tour key seen [] = .done := by
  rw [tour]

theorem tour_leaf (hmet : element.encounter = .leaf) :
    registry.tour key seen (element :: rest) = (registry.tour key seen rest).read element := by
  rw [tour]
  split <;> simp_all

theorem tour_inner {elements : List Element} (hmet : element.encounter = .inner elements) :
    registry.tour key seen (element :: rest) = registry.tour key seen (elements ++ rest) := by
  rw [tour]
  split <;> simp_all

theorem tour_seen (hmet : element.encounter = .rule reference) (hseen : key reference ∈ seen) :
    registry.tour key seen (element :: rest) = registry.tour key seen rest := by
  rw [tour]
  split <;> simp_all

theorem tour_follow {body : RuleBody} (hmet : element.encounter = .rule reference)
    (hseen : key reference ∉ seen) (hbody : registry.body? reference.name = some body) :
    registry.tour key seen (element :: rest) =
      (registry.tour key (key reference :: seen) (body.elements ++ rest)).follow reference := by
  rw [tour]
  split <;> simp_all
  split <;> simp_all

theorem tour_stop (hmet : element.encounter = .rule reference)
    (hseen : key reference ∉ seen) (hbody : registry.body? reference.name = none) :
    registry.tour key seen (element :: rest) = .stop reference.name := by
  rw [tour]
  split <;> simp_all
  split <;> simp_all

end Equations

/-- A tour of two parts is one of the first and then one of the second. -/
theorem tour_append (registry : Registry) (key : Reference → κ) (seen : List κ)
    (first next : List Element) :
    registry.tour key seen (first ++ next) = (registry.tour key seen first).andThen
      (registry.tour key ((registry.tour key seen first).seen key seen) next) := by
  induction seen, first using tour_induction registry key with
  | nil seen => rw [tour_nil]; rfl
  | leaf seen element rest hleaf ih =>
    rw [List.cons_append, tour_leaf _ _ _ hleaf, tour_leaf _ _ _ hleaf, ih, Tour.read_andThen]
    rfl
  | inner seen element rest elements hinner ih =>
    rw [List.append_assoc] at ih
    rw [List.cons_append, tour_inner _ _ _ hinner, tour_inner _ _ _ hinner, ih]
  | again seen element rest reference hrule hseen ih =>
    rw [List.cons_append, tour_seen _ _ _ hrule hseen, tour_seen _ _ _ hrule hseen, ih]
  | follow seen element rest reference hrule hseen body hbody ih =>
    rw [List.append_assoc] at ih
    rw [List.cons_append, tour_follow _ _ _ hrule hseen hbody, tour_follow _ _ _ hrule hseen hbody,
      ih, Tour.follow_andThen, Tour.seen_follow]
  | stop seen element rest reference hrule hseen hbody =>
    rw [List.cons_append, tour_stop _ _ _ hrule hseen hbody, tour_stop _ _ _ hrule hseen hbody]
    rfl

end Registry

end PegTemplates
