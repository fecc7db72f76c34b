import Mathlib.Data.List.Nodup
import PegTemplates.Binding

/-!
# Decisions behind a binding

A binding takes one decision at every part of a layout: a link is bound to one
of its captures, one branch of a choice is read, an option or a repetition is
there or not. Here these decisions are data of their own, without any index.
Which combinations a layout admits is a relation on its structure. They are
listed with the first part varying fastest, the branches of a choice in order,
and the decision against the links of a part last. The list is shown to hold
every admitted combination exactly once, and to be as long as the exact count.
-/

namespace PegTemplates

/-- What is decided at one part of a layout, with all that reading it takes. -/
inductive Decision where
  /-- A literal byte, which leaves nothing to decide. -/
  | text (value : UInt8)
  /-- A link bound to the capture at that position among those it reaches. -/
  | bound (label : Option String) (position : Nat) (inner : LinkedInner)
  /-- A link that reaches no capture. -/
  | unbound (label : Option String)
  /-- A choice of which the branch at that position is read. -/
  | branch (position : Nat) (body : List Decision)
  /-- A part of which nothing is read. -/
  | absent
  /-- An option that is there. -/
  | present (body : List Decision)
  /-- A repetition that is there. -/
  | repeated (body : List Decision)

mutual

/-- What a decision writes, in or outside of a repetition. -/
def Decision.resolved (tags : TagTable) (repeated : Bool) : Decision → Resolved
  | .text value => ⟨[], [.text value]⟩
  | .bound label _ inner =>
    ⟨[labelEntry tags repeated label inner], [.placeholder label inner.before inner.after]⟩
  | .unbound label => ⟨[], [.placeholder label "" ""]⟩
  | .branch _ body | .present body => resolvedOf tags repeated body
  | .absent => .nothing
  | .repeated body => (resolvedOf tags true body).looped

/-- What decisions write one after the other. -/
def resolvedOf (tags : TagTable) (repeated : Bool) : List Decision → Resolved
  | [] => .nothing
  | decision :: rest => (decision.resolved tags repeated).append (resolvedOf tags repeated rest)

end

/-- Whether a choice can be read without reading any of its links: one of its
branches holds none, or it has no branch at all. -/
def readsUnlinked (branches : List (List Node)) : Bool := branches.isEmpty || hasUnlinked branches

mutual

/-- The decisions that a node admits. -/
inductive Node.Admits : Node → Decision → Prop where
  /-- A literal byte stays what it is. -/
  | text {value : UInt8} : Node.Admits (.text value) (.text value)
  /-- A link may be bound to any capture that it reaches. -/
  | bound {target : Link} {position : Nat} {inner : LinkedInner} :
    target.inners[position]? = some inner →
    Node.Admits (.link target) (.bound target.label position inner)
  /-- A link without captures stays unbound. -/
  | unbound {target : Link} : target.inners = [] →
    Node.Admits (.link target) (.unbound target.label)
  /-- Any branch with a link may be read. -/
  | branch {branches : List (List Node)} {position : Nat} {body : List Node}
    {taken : List Decision} : branches[position]? = some body → hasLinks body = true →
    AdmitsAll body taken → Node.Admits (.choice branches) (.branch position taken)
  /-- All readings of a choice without a link are one decision. -/
  | unlinked {branches : List (List Node)} : readsUnlinked branches = true →
    Node.Admits (.choice branches) .absent
  /-- An option with a link may be there. -/
  | present {body : List Node} {taken : List Decision} : hasLinks body = true →
    AdmitsAll body taken → Node.Admits (.optional body) (.present taken)
  /-- An option may be left out. -/
  | leftOut {body : List Node} : Node.Admits (.optional body) .absent
  /-- A repetition with a link may be there. -/
  | some {body : List Node} {taken : List Decision} : hasLinks body = true →
    AdmitsAll body taken → Node.Admits (.zeroOrMore body) (.repeated taken)
  /-- A repetition may have no round. -/
  | none {body : List Node} : Node.Admits (.zeroOrMore body) .absent
  /-- A repetition with a first round is always there. -/
  | always {body : List Node} {taken : List Decision} : AdmitsAll body taken →
    Node.Admits (.oneOrMore body) (.repeated taken)

/-- The combinations of decisions that a layout admits. -/
inductive AdmitsAll : List Node → List Decision → Prop where
  /-- An empty layout leaves nothing to decide. -/
  | nil : AdmitsAll [] []
  /-- Every node takes a decision of its own. -/
  | cons {node : Node} {nodes : List Node} {decision : Decision} {taken : List Decision} :
    node.Admits decision → AdmitsAll nodes taken → AdmitsAll (node :: nodes) (decision :: taken)

end

mutual

/-- Exact number of decisions that a node admits. -/
def Node.combinations : Node → Nat
  | .text _ => 1
  | .link target => max 1 target.inners.length
  | .choice branches =>
    linkedCombinations branches + if readsUnlinked branches then 1 else 0
  | .optional body | .zeroOrMore body => if hasLinks body then combinationsOf body + 1 else 1
  | .oneOrMore body => combinationsOf body

/-- Exact number of combinations that a layout admits. -/
def combinationsOf : List Node → Nat
  | [] => 1
  | node :: rest => node.combinations * combinationsOf rest

/-- Exact number of combinations that the branches with a link admit together. -/
def linkedCombinations : List (List Node) → Nat
  | [] => 0
  | branch :: rest =>
    (if hasLinks branch then combinationsOf branch else 0) + linkedCombinations rest

end

/-- Every pair of a first entry and a later one, the first entries varying fastest. -/
def fastestFirst {α : Type} (first : List α) (later : List (List α)) : List (List α) :=
  later.flatMap fun rest => first.map (· :: rest)

/-- The decisions about a part that may be left out: all ways of having it, which
count only if it holds a link, and the decision against it. -/
def thereOrAbsent (there : List Decision → Decision) (linked : Bool)
    (bodies : List (List Decision)) : List Decision :=
  (if linked then bodies.map there else []) ++ [.absent]

mutual

/-- The decisions that a node admits, in the order of its digits. -/
def Node.decisions : Node → List Decision
  | .text value => [.text value]
  | .link target =>
    if target.inners = [] then [.unbound target.label]
    else target.inners.mapIdx fun position inner => .bound target.label position inner
  | .choice branches =>
    branchDecisions 0 branches ++ if readsUnlinked branches then [.absent] else []
  | .optional body => thereOrAbsent .present (hasLinks body) (decisionsOf body)
  | .zeroOrMore body => thereOrAbsent .repeated (hasLinks body) (decisionsOf body)
  | .oneOrMore body => (decisionsOf body).map .repeated

/-- The combinations that a layout admits, in the order of its indices. -/
def decisionsOf : List Node → List (List Decision)
  | [] => [[]]
  | node :: rest => fastestFirst node.decisions (decisionsOf rest)

/-- The decisions for a branch with a link, when the first of the branches has
that position. -/
def branchDecisions (position : Nat) : List (List Node) → List Decision
  | [] => []
  | branch :: rest =>
    (if hasLinks branch then (decisionsOf branch).map (.branch position) else []) ++
      branchDecisions (position + 1) rest

end

/-- The number of pairs is the product of the two numbers. -/
theorem length_fastestFirst {α : Type} (first : List α) (later : List (List α)) :
    (fastestFirst first later).length = first.length * later.length := by
  induction later with
  | nil => rfl
  | cons rest later ih =>
    have hsplit : fastestFirst first (rest :: later) =
        first.map (· :: rest) ++ fastestFirst first later := rfl
    rw [hsplit, List.length_append, List.length_map, ih, List.length_cons, Nat.mul_succ,
      Nat.add_comm]

/-- A pair is listed exactly if both of its parts are. -/
theorem mem_fastestFirst {α : Type} {first : List α} {later : List (List α)} {whole : List α} :
    whole ∈ fastestFirst first later ↔
      ∃ head ∈ first, ∃ rest ∈ later, whole = head :: rest := by
  simp only [fastestFirst, List.mem_flatMap, List.mem_map]
  constructor
  · rintro ⟨rest, hrest, head, hhead, rfl⟩
    exact ⟨head, hhead, rest, hrest, rfl⟩
  · rintro ⟨head, hhead, rest, hrest, rfl⟩
    exact ⟨rest, hrest, head, hhead, rfl⟩

/-- The pair at an index has the remainder as its first digit and the quotient
as the index of what follows. -/
theorem getElem?_fastestFirst {α : Type} {first : List α} (hfirst : 0 < first.length)
    (later : List (List α)) (index : Nat) :
    (fastestFirst first later)[index]? =
      (first[index % first.length]?).bind fun head =>
        (later[index / first.length]?).map (head :: ·) := by
  induction later generalizing index with
  | nil => simp [fastestFirst]
  | cons rest later ih =>
    have hsplit : fastestFirst first (rest :: later) =
        first.map (· :: rest) ++ fastestFirst first later := rfl
    rw [hsplit]
    by_cases hin : index < first.length
    · rw [List.getElem?_append_left (by simpa using hin), Nat.mod_eq_of_lt hin,
        Nat.div_eq_of_lt hin, List.getElem?_map]
      cases first[index]? <;> rfl
    · have hge : first.length ≤ index := Nat.le_of_not_lt hin
      rw [List.getElem?_append_right (by simpa using hge), List.length_map, ih,
        Nat.mod_eq_sub_mod hge, Nat.div_eq_sub_div hfirst hge, List.getElem?_cons_succ]

/-- Pairs of distinct entries are distinct. -/
theorem nodup_fastestFirst {α : Type} {first : List α} {later : List (List α)}
    (hfirst : first.Nodup) (hlater : later.Nodup) : (fastestFirst first later).Nodup := by
  apply List.nodup_flatMap.mpr
  constructor
  · intro rest _
    exact hfirst.map fun a b h => (List.cons.inj h).1
  · refine hlater.imp ?_
    intro rest other hne whole hrest hother
    obtain ⟨_, _, rfl⟩ := List.mem_map.mp hrest
    obtain ⟨_, _, hsame⟩ := List.mem_map.mp hother
    exact hne (List.cons.inj hsame).2.symm

/-- A part that may be left out has one decision more than its body, or one alone. -/
theorem length_thereOrAbsent (there : List Decision → Decision) (linked : Bool)
    (bodies : List (List Decision)) :
    (thereOrAbsent there linked bodies).length = if linked then bodies.length + 1 else 1 := by
  cases linked <;> simp [thereOrAbsent]

/-- What may be decided about a part that may be left out. -/
theorem mem_thereOrAbsent {there : List Decision → Decision} {linked : Bool}
    {bodies : List (List Decision)} {decision : Decision} :
    decision ∈ thereOrAbsent there linked bodies ↔
      (linked = true ∧ ∃ taken ∈ bodies, decision = there taken) ∨ decision = .absent := by
  cases linked with
  | false => simp [thereOrAbsent]
  | true =>
    simp only [thereOrAbsent, if_true, List.mem_append, List.mem_map, List.mem_singleton,
      true_and]
    constructor
    · rintro (⟨taken, hmem, rfl⟩ | rfl)
      · exact Or.inl ⟨taken, hmem, rfl⟩
      · exact Or.inr rfl
    · rintro (⟨taken, hmem, rfl⟩ | rfl)
      · exact Or.inl ⟨taken, hmem, rfl⟩
      · exact Or.inr rfl

/-- Distinct bodies make distinct decisions, and none of them is the absence. -/
theorem nodup_thereOrAbsent {there : List Decision → Decision} (linked : Bool)
    {bodies : List (List Decision)} (hbodies : bodies.Nodup)
    (hinjective : ∀ first second, there first = there second → first = second)
    (hthere : ∀ taken, there taken ≠ .absent) :
    (thereOrAbsent there linked bodies).Nodup := by
  cases linked with
  | false => simp [thereOrAbsent]
  | true =>
    apply List.nodup_append.mpr
    refine ⟨hbodies.map fun first second => hinjective first second, by simp, ?_⟩
    intro decision hdecision last hlast
    obtain ⟨taken, _, rfl⟩ := List.mem_map.mp hdecision
    rw [List.mem_singleton.mp hlast]
    exact hthere taken

mutual

/-- The list of a node is as long as its exact count says. -/
theorem Node.length_decisions : ∀ node : Node, node.decisions.length = node.combinations
  | .text _ => rfl
  | .link target => by
    cases hinners : target.inners with
    | nil => simp [Node.decisions, Node.combinations, hinners]
    | cons inner rest => simp [Node.decisions, Node.combinations, hinners]
  | .choice branches => by
    rw [Node.decisions, Node.combinations, List.length_append, length_branchDecisions]
    split <;> rfl
  | .optional body => by
    rw [Node.decisions, Node.combinations, length_thereOrAbsent, length_decisionsOf]
  | .zeroOrMore body => by
    rw [Node.decisions, Node.combinations, length_thereOrAbsent, length_decisionsOf]
  | .oneOrMore body => by
    rw [Node.decisions, Node.combinations, List.length_map, length_decisionsOf]

/-- The list of a layout is as long as its exact count says. -/
theorem length_decisionsOf : ∀ nodes : List Node,
    (decisionsOf nodes).length = combinationsOf nodes
  | [] => rfl
  | node :: rest => by
    rw [decisionsOf, combinationsOf, length_fastestFirst, Node.length_decisions,
      length_decisionsOf]

/-- The list for the branches with a link is as long as their exact counts
together. -/
theorem length_branchDecisions : ∀ (position : Nat) (branches : List (List Node)),
    (branchDecisions position branches).length = linkedCombinations branches
  | _, [] => rfl
  | position, branch :: rest => by
    have hbranch := length_decisionsOf branch
    rw [branchDecisions, linkedCombinations, List.length_append, length_branchDecisions]
    split <;> simp [hbranch]

end

/-- The decisions listed for a link are those that it admits. -/
theorem mem_decisions_link (target : Link) (decision : Decision) :
    decision ∈ (Node.link target).decisions ↔ (Node.link target).Admits decision := by
  rw [Node.decisions]
  split
  · rename_i hnone
    rw [List.mem_singleton]
    constructor
    · rintro rfl
      exact .unbound hnone
    · intro hadmits
      cases hadmits with
      | bound hinner => simp [hnone] at hinner
      | unbound _ => rfl
  · rename_i hsome
    rw [List.mem_mapIdx]
    constructor
    · rintro ⟨position, hlt, rfl⟩
      exact .bound (List.getElem?_eq_getElem hlt)
    · intro hadmits
      cases hadmits with
      | bound hinner =>
        obtain ⟨hlt, rfl⟩ := List.getElem?_eq_some_iff.mp hinner
        exact ⟨_, hlt, rfl⟩
      | unbound hnone => exact absurd hnone hsome

mutual

/-- The decisions listed for a node are those that it admits. -/
theorem Node.mem_decisions : ∀ (node : Node) (decision : Decision),
    decision ∈ node.decisions ↔ node.Admits decision
  | .text value, decision => by
    rw [Node.decisions, List.mem_singleton]
    constructor
    · rintro rfl
      exact .text
    · rintro ⟨⟩
      rfl
  | .link target, decision => mem_decisions_link target decision
  | .choice branches, decision => by
    rw [Node.decisions, List.mem_append, mem_branchDecisions]
    constructor
    · rintro (⟨offset, body, taken, hbody, hlinks, hall, rfl⟩ | hlast)
      · rw [Nat.zero_add]
        exact .branch hbody hlinks hall
      · split at hlast
        · rename_i hunlinked
          rw [List.mem_singleton] at hlast
          subst hlast
          exact .unlinked hunlinked
        · cases hlast
    · intro hadmits
      cases hadmits with
      | branch hbody hlinks hall =>
        exact Or.inl ⟨_, _, _, hbody, hlinks, hall, by rw [Nat.zero_add]⟩
      | unlinked hunlinked =>
        rw [if_pos hunlinked]
        exact Or.inr (List.mem_singleton.mpr rfl)
  | .optional body, decision => by
    have hbody := mem_decisionsOf body
    rw [Node.decisions, mem_thereOrAbsent]
    constructor
    · rintro (⟨hlinks, taken, hmem, rfl⟩ | rfl)
      · exact .present hlinks ((hbody taken).mp hmem)
      · exact .leftOut
    · intro hadmits
      cases hadmits with
      | present hlinks hall => exact Or.inl ⟨hlinks, _, (hbody _).mpr hall, rfl⟩
      | leftOut => exact Or.inr rfl
  | .zeroOrMore body, decision => by
    have hbody := mem_decisionsOf body
    rw [Node.decisions, mem_thereOrAbsent]
    constructor
    · rintro (⟨hlinks, taken, hmem, rfl⟩ | rfl)
      · exact .some hlinks ((hbody taken).mp hmem)
      · exact .none
    · intro hadmits
      cases hadmits with
      | some hlinks hall => exact Or.inl ⟨hlinks, _, (hbody _).mpr hall, rfl⟩
      | none => exact Or.inr rfl
  | .oneOrMore body, decision => by
    have hbody := mem_decisionsOf body
    rw [Node.decisions]
    constructor
    · intro hthere
      obtain ⟨taken, hmem, rfl⟩ := List.mem_map.mp hthere
      exact .always ((hbody taken).mp hmem)
    · intro hadmits
      cases hadmits with
      | always hall => exact List.mem_map.mpr ⟨_, (hbody _).mpr hall, rfl⟩

/-- The combinations listed for a layout are those that it admits. -/
theorem mem_decisionsOf : ∀ (nodes : List Node) (taken : List Decision),
    taken ∈ decisionsOf nodes ↔ AdmitsAll nodes taken
  | [], taken => by
    rw [decisionsOf, List.mem_singleton]
    constructor
    · rintro rfl
      exact .nil
    · rintro ⟨⟩
      rfl
  | node :: rest, taken => by
    rw [decisionsOf, mem_fastestFirst]
    constructor
    · rintro ⟨decision, hdecision, later, hlater, rfl⟩
      exact .cons ((node.mem_decisions decision).mp hdecision)
        ((mem_decisionsOf rest later).mp hlater)
    · intro hadmits
      cases hadmits with
      | cons hdecision hlater =>
        exact ⟨_, (node.mem_decisions _).mpr hdecision, _, (mem_decisionsOf rest _).mpr hlater, rfl⟩

/-- The decisions listed for branches are those that read one with a link, at
the position that it has. -/
theorem mem_branchDecisions : ∀ (position : Nat) (branches : List (List Node))
    (decision : Decision), decision ∈ branchDecisions position branches ↔
      ∃ offset body taken, branches[offset]? = some body ∧ hasLinks body = true ∧
        AdmitsAll body taken ∧ decision = .branch (position + offset) taken
  | _, [], decision => by simp [branchDecisions]
  | position, branch :: rest, decision => by
    have hbranch := mem_decisionsOf branch
    rw [branchDecisions, List.mem_append, mem_branchDecisions]
    constructor
    · rintro (hfirst | ⟨offset, body, taken, hbody, hlinks, hall, rfl⟩)
      · split at hfirst
        · rename_i hlinks
          obtain ⟨taken, hmem, rfl⟩ := List.mem_map.mp hfirst
          exact ⟨0, branch, taken, rfl, hlinks, (hbranch taken).mp hmem, rfl⟩
        · cases hfirst
      · exact ⟨offset + 1, body, taken, hbody, hlinks, hall, by
          rw [Nat.add_assoc, Nat.add_comm 1 offset]⟩
    · rintro ⟨offset, body, taken, hbody, hlinks, hall, rfl⟩
      cases offset with
      | zero =>
        cases hbody
        rw [if_pos hlinks]
        exact Or.inl (List.mem_map.mpr ⟨taken, (hbranch taken).mpr hall, rfl⟩)
      | succ offset =>
        exact Or.inr ⟨offset, body, taken, hbody, hlinks, hall, by
          rw [Nat.add_assoc, Nat.add_comm 1 offset]⟩

end

mutual

/-- No decision is listed twice for a node. -/
theorem Node.nodup_decisions : ∀ node : Node, node.decisions.Nodup
  | .text _ => List.nodup_singleton _
  | .link target => by
    rw [Node.decisions]
    split
    · exact List.nodup_singleton _
    · apply List.nodup_iff_getElem?_ne_getElem?.mpr
      intro first second hlt hin
      rw [List.length_mapIdx] at hin
      rw [List.getElem?_mapIdx, List.getElem?_mapIdx,
        List.getElem?_eq_getElem (Nat.lt_trans hlt hin),
        List.getElem?_eq_getElem hin]
      simp only [Option.map_some, ne_eq, Option.some.injEq, Decision.bound.injEq]
      omega
  | .choice branches => by
    rw [Node.decisions]
    apply List.nodup_append.mpr
    refine ⟨nodup_branchDecisions 0 branches, by split <;> simp, ?_⟩
    intro decision hdecision last hlast
    obtain ⟨offset, body, taken, _, _, _, rfl⟩ := (mem_branchDecisions 0 branches _).mp hdecision
    split at hlast
    · rw [List.mem_singleton.mp hlast]
      exact Decision.noConfusion
    · cases hlast
  | .optional body => by
    rw [Node.decisions]
    exact nodup_thereOrAbsent _ (nodup_decisionsOf body) (fun _ _ => Decision.present.inj)
      fun _ => Decision.noConfusion
  | .zeroOrMore body => by
    rw [Node.decisions]
    exact nodup_thereOrAbsent _ (nodup_decisionsOf body) (fun _ _ => Decision.repeated.inj)
      fun _ => Decision.noConfusion
  | .oneOrMore body => by
    rw [Node.decisions]
    exact (nodup_decisionsOf body).map fun _ _ => Decision.repeated.inj

/-- No combination is listed twice for a layout. -/
theorem nodup_decisionsOf : ∀ nodes : List Node, (decisionsOf nodes).Nodup
  | [] => List.nodup_singleton _
  | node :: rest => by
    rw [decisionsOf]
    exact nodup_fastestFirst node.nodup_decisions (nodup_decisionsOf rest)

/-- No decision is listed twice for the branches of a choice. -/
theorem nodup_branchDecisions : ∀ (position : Nat) (branches : List (List Node)),
    (branchDecisions position branches).Nodup
  | _, [] => List.nodup_nil
  | position, branch :: rest => by
    rw [branchDecisions]
    apply List.nodup_append.mpr
    refine ⟨?_, nodup_branchDecisions (position + 1) rest, ?_⟩
    · split
      · exact (nodup_decisionsOf branch).map fun _ _ h => (Decision.branch.inj h).2
      · exact List.nodup_nil
    · intro decision hfirst later hlater
      obtain ⟨offset, body, taken, _, _, _, rfl⟩ :=
        (mem_branchDecisions (position + 1) rest _).mp hlater
      split at hfirst
      · obtain ⟨_, _, rfl⟩ := List.mem_map.mp hfirst
        simp only [ne_eq, Decision.branch.injEq]
        omega
      · cases hfirst

end

/-- A combination that a layout admits stands at exactly one index of its list. -/
theorem existsUnique_index {nodes : List Node} {taken : List Decision}
    (hadmits : AdmitsAll nodes taken) :
    ∃! index : Nat, (decisionsOf nodes)[index]? = some taken := by
  obtain ⟨index, hindex, htaken⟩ :=
    List.mem_iff_getElem.mp ((mem_decisionsOf nodes taken).mpr hadmits)
  refine ⟨index, List.getElem?_eq_some_iff.mpr ⟨hindex, htaken⟩, ?_⟩
  intro other hother
  obtain ⟨hlt, hsame⟩ := List.getElem?_eq_some_iff.mp hother
  exact ((nodup_decisionsOf nodes).getElem_inj_iff.mp (hsame.trans htaken.symm))

end PegTemplates
