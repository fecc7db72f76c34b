import PegTemplates.Proofs.Building.Naming

/-!
# The built registry is closed

In the registry of a grammar every capture is one of a shape that is there, and the shapes
are the nodes of the grammar in the order in which these close. A shape captures earlier
shapes only, and itself only in its first element, where a repetition ties it to the round
before. That element is the link of its own fold unless another fold has taken this one and
left the node to begin with a link all the same.
-/

namespace PegTemplates

mutual

/-- Number of nodes that close in an expression. What only steers parsing is not visited. -/
def Expr.closes : Expr → Nat
  | .endCapture => 1
  | .sequence items => closesInAll items
  | .choice branches => closesInAll branches
  | .optional inner | .zeroOrMore inner | .oneOrMore inner | .link _ inner => inner.closes
  | .empty | .byte _ | .nonTerminal _ | .beginCapture | .tag _ | .fold _ | .any | .byteSet _
  | .followedBy _ | .notFollowedBy _ => 0

/-- Number of nodes that close in several expressions. -/
def Expr.closesInAll : List Expr → Nat
  | [] => 0
  | expr :: rest => expr.closes + closesInAll rest

end

/-- Number of nodes that close in a grammar. -/
def Grammar.closes (grammar : Grammar) : Nat := (grammar.rules.map (·.expr.closes)).sum

namespace Builder

variable (rule : String)

/-- A step in a scope of its own registers as many shapes as the step. -/
theorem isolated_closes {kind : ScopeKind} {step : WalkM Unit} {count : Nat}
    (hstep : ∀ {walk inner : Walk}, step.run walk = .ok () inner →
      inner.registry.size = walk.registry.size + count) {walk after : Walk} {scope : Scope}
    (hrun : (isolated rule kind step).run walk = .ok scope after) :
    after.registry.size = walk.registry.size + count := by
  have hcount : (after.enter scope).registry.size = (walk.enter (.opened kind)).registry.size + _ :=
    hstep (isolated_eq_ok.mp hrun).1
  exact hcount

/-- A wrapper registers as many shapes as its body. -/
theorem visit_wrapper_closes (wrapper : Wrapper) {inner : Expr}
    (hinner : ∀ {walk after : Walk}, (visit rule inner).run walk = .ok () after →
      after.registry.size = walk.registry.size + inner.closes) {walk after : Walk}
    (hrun : (visit rule (wrapper.expr inner)).run walk = .ok () after) :
    after.registry.size = walk.registry.size + inner.closes := by
  obtain ⟨scope, last, hisolated, rfl⟩ := visit_wrapper_eq_ok.mp hrun
  have hcount := isolated_closes rule hinner hisolated
  exact hcount

mutual

/-- A visit that is accepted registers a shape for each node that closes. -/
theorem visit_closes : ∀ (expr : Expr) {walk after : Walk},
    (visit rule expr).run walk = .ok () after →
      after.registry.size = walk.registry.size + expr.closes
  | .sequence items, _, _, hrun => visitItems_closes items hrun
  | .choice branches, _, _, hrun => by
    obtain ⟨sequences, last, hbranches, rfl⟩ := visit_choice_eq_ok.mp hrun
    have hcount := visitBranches_closes branches hbranches
    exact hcount
  | .optional inner, _, _, hrun => visit_wrapper_closes rule .optional (visit_closes inner) hrun
  | .zeroOrMore inner, _, _, hrun =>
    visit_wrapper_closes rule .zeroOrMore (visit_closes inner) hrun
  | .oneOrMore inner, _, _, hrun => visit_wrapper_closes rule .oneOrMore (visit_closes inner) hrun
  | .link label inner, _, _, hrun =>
    visit_wrapper_closes rule (.link label) (visit_closes inner) hrun
  | .endCapture, walk, _, hrun => by
    obtain ⟨_, _, _, _, rfl⟩ := closeCapture_eq_ok.mp hrun
    exact List.length_append
  | .fold label, walk, _, rfl => by
    change (walk.openFold label).registry.size = _
    rw [walk.registry_openFold]
    rfl
  | .byte _, _, _, rfl | .tag _, _, _, rfl | .nonTerminal _, _, _, rfl | .beginCapture, _, _, rfl
  | .empty, _, _, rfl | .any, _, _, rfl | .byteSet _, _, _, rfl | .followedBy _, _, _, rfl
  | .notFollowedBy _, _, _, rfl => rfl

/-- Items that are accepted register a shape for each node that closes. -/
theorem visitItems_closes : ∀ (items : List Expr) {walk after : Walk},
    (visitItems rule items).run walk = .ok () after →
      after.registry.size = walk.registry.size + Expr.closesInAll items
  | [], _, _, rfl => rfl
  | item :: rest, _, _, hrun => by
    obtain ⟨last, hitem, hrest⟩ := visitItems_cons_eq_ok.mp hrun
    rw [visitItems_closes rest hrest, visit_closes item hitem, Expr.closesInAll, Nat.add_assoc]

/-- Branches that are accepted register a shape for each node that closes. -/
theorem visitBranches_closes : ∀ (branches : List Expr) {walk after : Walk}
    {sequences : List (List Element)},
    (visitBranches rule branches).run walk = .ok sequences after →
      after.registry.size = walk.registry.size + Expr.closesInAll branches
  | [], _, _, _, rfl => rfl
  | branch :: rest, _, _, _, hrun => by
    obtain ⟨scope, last, others, hbranch, hrest, rfl⟩ := visitBranches_cons_eq_ok.mp hrun
    rw [visitBranches_closes rest hrest, isolated_closes rule (visit_closes branch) hbranch,
      Expr.closesInAll, Nat.add_assoc]

end

end Builder

/-- Nodes that close in rules that are built one after the other from these next numbers on. -/
def closingsFrom (nextShape nextSite : Nat) : List Rule → List Closing
  | [] => []
  | rule :: rest => rule.closings nextShape nextSite ++ closingsFrom
      (rule.run nextShape nextSite).nextShape (rule.run nextShape nextSite).nextSite rest

/-- Nodes that close in a grammar, in the order in which they do. -/
def Grammar.closings (grammar : Grammar) : List Closing := closingsFrom 0 0 grammar.rules

/-- A shape without its name. -/
def Shape.unnamed (shape : Shape) : Shape := { shape with name := none }

/-- Naming a shape changes nothing else. -/
theorem unnamed_nameSole (name : String) (elements : List Element) (shapes : List Shape) :
    (nameSole name elements shapes).map Shape.unnamed = shapes.map Shape.unnamed := by
  rw [nameSole, List.map_map]
  apply List.map_congr_left
  intro shape _
  dsimp only [Function.comp_apply]
  split <;> rfl

/-- The shapes of nodes have no names. -/
theorem Closing.unnamed_shapes (first : ShapeId) (closings : List Closing) :
    (shapes first closings).map Shape.unnamed = shapes first closings := by
  rw [shapes, List.map_map]
  rfl

/-- The number that the run of a rule gives next counts the nodes that close in it. -/
theorem Rule.nextShape_run (rule : Rule) (nextShape nextSite : Nat) :
    (rule.run nextShape nextSite).nextShape =
      nextShape + (rule.closings nextShape nextSite).length := by
  have hknown : ∀ (steps : List Step) (assembly : Assembly),
      (Assembly.run steps assembly).known = assembly.known := by
    intro steps
    induction steps with
    | nil => exact fun _ => rfl
    | cons step rest ih =>
      exact fun assembly => (ih _).trans (Assembly.shapes_apply assembly [] step).1
  rw [Assembly.nextShape, rule.shapes_run, Closing.length_shapes]
  exact congrArg (· + _) (hknown rule.expr.steps _)

/-- Rules that are added register the nodes that close in them. -/
theorem Builder.unnamed_addRules {rules : List Rule} {builder after : Builder}
    (hadd : builder.addRules rules = (.ok (), after)) :
    after.registry.shapes.map Shape.unnamed = builder.registry.shapes.map Shape.unnamed ++
      Closing.shapes builder.registry.size
        (closingsFrom builder.registry.size builder.nextSite rules) := by
  induction rules generalizing builder with
  | nil =>
    cases hadd
    exact (List.append_nil _).symm
  | cons rule rest ih =>
    obtain ⟨middle, hrule, hrest⟩ := addRules_cons.mp hadd
    have hadds := adds_of_addRule hrule
    rw [ih hrest, hadds.size, hadds.nextSite, closingsFrom, Closing.shapes_append, hadds.registry,
      ← rule.nextShape_run, Registry.extend, Yield.named, List.map_append, unnamed_nameSole,
      Rule.yield, rule.shapes_run, Closing.unnamed_shapes, List.append_assoc]

/-- The nodes that close in rules are what their runs come to. -/
theorem sound_closingsFrom {rules : List Rule} {nextShape nextSite position : Nat}
    {closing : Closing}
    (hclosing : (closingsFrom nextShape nextSite rules)[position]? = some closing) :
    closing.Sound (nextShape + position) := by
  induction rules generalizing nextShape nextSite position with
  | nil => cases hclosing
  | cons rule rest ih =>
    rw [closingsFrom, List.getElem?_append] at hclosing
    split at hclosing
    · exact rule.sound_closings nextShape nextSite hclosing
    · rename_i hbehind
      have hsound := ih hclosing
      rw [rule.nextShape_run] at hsound
      have hposition : nextShape + (rule.closings nextShape nextSite).length +
          (position - (rule.closings nextShape nextSite).length) = nextShape + position := by
        omega
      rwa [hposition] at hsound

/-- Rules that are added register a shape for each node that closes. -/
theorem Builder.size_addRules {rules : List Rule} {builder after : Builder}
    (hadd : builder.addRules rules = (.ok (), after)) :
    after.registry.size = builder.registry.size + (rules.map (·.expr.closes)).sum := by
  induction rules generalizing builder with
  | nil =>
    cases hadd
    rfl
  | cons rule rest ih =>
    obtain ⟨middle, hrule, hrest⟩ := addRules_cons.mp hadd
    obtain ⟨walk, hrun, hmiddle⟩ := registry_addRule hrule
    rw [ih hrest, hmiddle, Registry.size_registerRule, visit_closes rule.name rule.expr hrun,
      List.map_cons, List.sum_cons, ← Nat.add_assoc]
    rfl

/-- Whether exactly those shapes are named that make up the whole body of a rule, each with
the name of that rule. -/
def Registry.NamesBodies (registry : Registry) : Prop :=
  ∀ id shape, registry.shape? id = some shape → ∀ name,
    shape.name = some name ↔
      ∃ body, registry.body? name = some body ∧ body.elements = [.captured id]

/-- Whether the bodies in a registry belong to these rules and capture only registered shapes. -/
structure Registry.Covers (registry : Registry) (rules : List Rule) : Prop where
  /-- Only these rules have bodies. -/
  names : ∀ {name body}, registry.body? name = some body → name ∈ rules.map (·.name)
  /-- Only registered shapes are captured. -/
  captures : ∀ body ∈ registry.rules, ∀ id ∈ capturesOf body.elements, id < registry.size
  /-- If no two rules go by one name, they name the shapes that make up their bodies. -/
  named : (rules.map (·.name)).Nodup → registry.NamesBodies

namespace Builder.Adds

variable {builder after : Builder} {rule : Rule} (hadds : builder.Adds rule after)

include hadds

/-- A rule that is added defines its name and no other one. -/
theorem body? (name : String) :
    after.registry.body? name =
      if rule.name = name then
        some ⟨rule.name, (rule.yield builder.registry.size builder.nextSite).elements⟩
      else builder.registry.body? name := by
  rw [hadds.registry]
  exact Registry.find?_putBody _ builder.registry.rules name

/-- No shape is taken back. -/
theorem size_le : builder.registry.size ≤ after.registry.size := by
  rw [hadds.size, rule.nextShape_run]
  exact Nat.le_add_right _ _

/-- The shape at a position is an earlier one or one of the rule. -/
theorem shape?_eq_some {id : ShapeId} {shape : Shape}
    (hshape : after.registry.shape? id = some shape) :
    (id < builder.registry.size ∧ builder.registry.shape? id = some shape) ∨
      (builder.registry.size ≤ id ∧ ∀ name, shape.name = some name ↔ rule.name = name ∧
        (rule.yield builder.registry.size builder.nextSite).elements = [.captured id]) := by
  rw [hadds.registry, Registry.shape?, Registry.extend] at hshape
  rcases Nat.lt_or_ge id builder.registry.size with hlt | hge
  · rw [List.getElem?_append_left hlt] at hshape
    exact Or.inl ⟨hlt, hshape⟩
  · refine Or.inr ⟨hge, fun name => ?_⟩
    rw [List.getElem?_append_right hge, Yield.named, nameSole, List.getElem?_map] at hshape
    obtain ⟨plain, hplain, rfl⟩ := Option.map_eq_some_iff.mp hshape
    rw [Rule.yield, rule.shapes_run] at hplain
    obtain ⟨hid, hnone⟩ := Closing.getElem?_id_shapes hplain
    have hsame : plain.id = id := hid.trans (Nat.add_sub_cancel' hge)
    rw [hsame, ← Registry.soleCapture_eq_some_iff]
    split
    · rename_i hsole
      rw [Shape.nameOnce, hnone]
      simp [hsole]
    · rename_i hsole
      rw [hnone]
      simp [hsole]

/-- Under a new name a rule names the shape that makes up its body. -/
theorem namesBodies {rules : List Rule} (hcovers : builder.registry.Covers rules)
    (hnodup : ((rules ++ [rule]).map (·.name)).Nodup) : after.registry.NamesBodies := by
  rw [List.map_append, List.nodup_append] at hnodup
  have hnames := hcovers.named hnodup.1
  have hnew : rule.name ∉ rules.map (·.name) := fun hold =>
    hnodup.2.2 _ hold _ (List.mem_singleton.mpr rfl) rfl
  intro id shape hshape name
  rw [hadds.body?]
  rcases hadds.shape?_eq_some hshape with ⟨hlt, hold⟩ | ⟨hge, hname⟩
  · rw [hnames id shape hold name]
    split
    · rename_i hrule
      subst hrule
      constructor
      · rintro ⟨body, hbody, _⟩
        exact absurd (hcovers.names hbody) hnew
      · rintro ⟨body, hbody, hsole⟩
        obtain rfl := Option.some.inj hbody
        have hid := (hadds.captures id (mem_capturesOf_of_sole hsole)).1
        exact absurd hlt (Nat.not_lt.mpr hid)
    · rfl
  · rw [hname]
    split
    · rename_i hrule
      constructor
      · exact fun hsole => ⟨_, rfl, hsole.2⟩
      · rintro ⟨body, hbody, hsole⟩
        obtain rfl := Option.some.inj hbody
        exact ⟨hrule, hsole⟩
    · rename_i hother
      constructor
      · exact fun hsole => absurd hsole.1 hother
      · rintro ⟨body, hbody, hsole⟩
        have hid := hcovers.captures body (Registry.mem_rules_of_body? hbody).1 id
          (mem_capturesOf_of_sole hsole)
        exact absurd hid (Nat.not_lt.mpr hge)

/-- The bodies after a rule belong to the rules before and to that rule. -/
theorem covers {rules : List Rule} (hcovers : builder.registry.Covers rules) :
    after.registry.Covers (rules ++ [rule]) := by
  refine ⟨?_, ?_, hadds.namesBodies hcovers⟩
  · intro name body hbody
    rw [hadds.body?] at hbody
    rw [List.map_append, List.mem_append]
    split at hbody
    · rename_i hname
      exact Or.inr (List.mem_singleton.mpr hname.symm)
    · exact Or.inl (hcovers.names hbody)
  · intro body hbody id hid
    rw [hadds.registry] at hbody
    rcases Registry.mem_putBody hbody with rfl | hold
    · exact (hadds.captures id hid).2
    · exact Nat.lt_of_lt_of_le (hcovers.captures body hold id hid) hadds.size_le

end Builder.Adds

/-- The registry of a grammar covers its rules. -/
theorem Grammar.build_covers {grammar : Grammar} {registry : Registry}
    (hbuild : grammar.build = .ok registry) : registry.Covers grammar.rules := by
  have hfresh : Builder.fresh.registry.Covers [] :=
    ⟨fun hbody => (nomatch hbody), fun _ hbody => (nomatch hbody),
      fun _ _ _ hshape => (nomatch hshape)⟩
  obtain ⟨builder, rfl, hcovers⟩ := build_stepwise
    (motive := fun added builder => builder.registry.Covers added) hfresh
    (fun hcovers hadds => hadds.covers hcovers) hbuild
  exact hcovers

namespace Closing

/-- Whether the link that its own fold has put first still stands first in a node. -/
def Headed (closing : Closing) : Prop :=
  ∃ label inner rest, closing.lead = some (.linked label inner) ∧
    closing.scope.elements = .linked label inner :: rest

/-- Whether a node is tied to the round before by another link than the one of its fold. -/
def Strays (closing : Closing) : Prop := closing.Tied ∧ closing.lead = none

/-- A node that is tied begins with the link of its own fold, or it strays. -/
theorem Sound.headed_iff {closing : Closing} {id : ShapeId} (hsound : closing.Sound id) :
    (closing.Tied → closing.Headed) ↔ ¬ closing.Strays := by
  constructor
  · rintro hheaded ⟨htied, hnone⟩
    obtain ⟨label, inner, rest, hlead, _⟩ := hheaded htied
    rw [hnone] at hlead
    cases hlead
  · intro hstays htied
    cases hlead : closing.lead with
    | none => exact absurd ⟨htied, hlead⟩ hstays
    | some link =>
      obtain ⟨_, ⟨label, inner, rfl⟩, hfirst⟩ := hsound.lead link hlead
      obtain ⟨rest, hrest⟩ := List.head?_eq_some_iff.mp hfirst
      exact ⟨label, inner, rest, hlead, hrest⟩

end Closing

/-- Whether a registry is closed: its shapes are these nodes in their order, and they capture
no later shapes. -/
structure Registry.ClosedBy (registry : Registry) (closings : List Closing) : Prop where
  /-- There is one shape for each node. -/
  size : registry.size = closings.length
  /-- The shape at a position carries its number, and is the node that closes there. -/
  shapes : ∀ {id shape}, registry.shape? id = some shape → shape.id = id ∧
    ∃ closing, closings[id]? = some closing ∧ shape.elements = (closing.shape id).elements
  /-- Bodies of rules capture shapes that are there. -/
  bodies : ∀ body ∈ registry.rules, ∀ id ∈ capturesOf body.elements, id < registry.size
  /-- Shapes capture earlier shapes or themselves. -/
  captures : ∀ {id shape}, registry.shape? id = some shape →
    ∀ other ∈ capturesOf shape.elements, other ≤ id
  /-- Behind their first element shapes capture earlier shapes only. -/
  tails : ∀ {id shape}, registry.shape? id = some shape →
    ∀ other ∈ capturesOf shape.elements.tail, other < id
  /-- A shape that captures itself begins with the link of its own fold unless it strays. -/
  heads : ∀ {id shape closing}, registry.shape? id = some shape → closings[id]? = some closing →
    ((id ∈ capturesOf shape.elements → closing.Headed) ↔ ¬ closing.Strays)

section Nodes

variable {registry : Registry} {closings : List Closing}
  (hshapes : registry.shapes.map Shape.unnamed = Closing.shapes 0 closings)
  (hsound : ∀ {id : ShapeId} {closing : Closing},
    closings[id]? = some closing → closing.Sound id)

include hshapes hsound

/-- In a registry of nodes the shape at a position is the node that closes there. -/
theorem Registry.exists_closing {id : ShapeId} {shape : Shape}
    (hshape : registry.shape? id = some shape) :
    ∃ closing, closings[id]? = some closing ∧ closing.Sound id ∧ shape.id = id ∧
      shape.elements = (closing.shape id).elements := by
  have hunnamed : (registry.shapes.map Shape.unnamed)[id]? = some shape.unnamed := by
    rw [List.getElem?_map]
    exact congrArg (Option.map Shape.unnamed) hshape
  rw [hshapes, Closing.getElem?_shapes, Nat.zero_add] at hunnamed
  obtain ⟨closing, hclosing, hsame⟩ := Option.map_eq_some_iff.mp hunnamed
  exact ⟨closing, hclosing, hsound hclosing, (congrArg Shape.id hsame).symm,
    (congrArg Shape.elements hsame).symm⟩

/-- A registry of nodes is closed if its bodies capture registered shapes. -/
theorem Registry.closedBy (hbodies : ∀ body ∈ registry.rules, ∀ id ∈ capturesOf body.elements,
    id < registry.size) : registry.ClosedBy closings := by
  refine ⟨?_, ?_, hbodies, ?_, ?_, ?_⟩
  · have hlength := congrArg List.length hshapes
    rwa [List.length_map, Closing.length_shapes] at hlength
  · intro id shape hshape
    obtain ⟨closing, hclosing, _, hid, helements⟩ := exists_closing hshapes hsound hshape
    exact ⟨hid, closing, hclosing, helements⟩
  · intro id shape hshape other hother
    obtain ⟨closing, _, hnode, _, helements⟩ := exists_closing hshapes hsound hshape
    rw [helements] at hother
    exact hnode.captures_le hother
  · intro id shape hshape other hother
    obtain ⟨closing, _, hnode, _, helements⟩ := exists_closing hshapes hsound hshape
    rw [helements] at hother
    exact hnode.captures_tail_lt hother
  · intro id shape closing hshape hclosing
    obtain ⟨found, hfound, hnode, _, helements⟩ := exists_closing hshapes hsound hshape
    obtain rfl := Option.some.inj (hfound.symm.trans hclosing)
    rw [helements, hnode.self_iff]
    exact hnode.headed_iff

end Nodes

/-- The registry of a grammar is closed, with one shape for each node of the grammar in the
order in which they close, and correctly named if no two rules go by one name. -/
theorem Grammar.build_closed {grammar : Grammar} {registry : Registry}
    (hbuild : grammar.build = .ok registry) :
    registry.size = grammar.closes ∧ registry.ClosedBy grammar.closings ∧
      ((grammar.rules.map (·.name)).Nodup → registry.NamesBodies) := by
  have hcovers := build_covers hbuild
  obtain ⟨builder, hadd, rfl⟩ := build_eq_ok.mp hbuild
  have hshapes : builder.registry.shapes.map Shape.unnamed = Closing.shapes 0 grammar.closings :=
    Builder.unnamed_addRules hadd
  have hsize : builder.registry.size = grammar.closes :=
    (Builder.size_addRules hadd).trans (Nat.zero_add _)
  have hsound : ∀ {id : ShapeId} {closing : Closing},
      grammar.closings[id]? = some closing → closing.Sound id := by
    intro id closing hclosing
    have hnode := sound_closingsFrom hclosing
    rwa [Nat.zero_add] at hnode
  exact ⟨hsize, Registry.closedBy hshapes hsound hcovers.captures, hcovers.named⟩

/-- A fold in a repetition: its node is tied to the round before by the link of the fold, and
the rule whose body is that node alone gives it its name. -/
theorem Grammar.build_closed_fold :
    let grammar : Grammar := ⟨[⟨"sum", .sequence [.byte 97, .oneOrMore (.sequence
      [.fold (some "left"), .byte 43, .endCapture])]⟩, ⟨"word", .capture [.byte 97]⟩]⟩
    let registry : Registry :=
      ⟨[⟨0, some "sum", [.linked (some "left") [.choice [[.captured 0], [.byte 97]]], .byte 43]⟩,
        ⟨1, some "word", [.byte 97]⟩],
        [⟨"sum", [.captured 0]⟩, ⟨"word", [.captured 1]⟩]⟩
    grammar.build = .ok registry ∧ registry.size = grammar.closes ∧
      registry.ClosedBy grammar.closings ∧ registry.NamesBodies := by
  intro grammar registry
  have hbuild : grammar.build = .ok registry := rfl
  obtain ⟨hsize, hclosed, hnames⟩ := build_closed hbuild
  exact ⟨hbuild, hsize, hclosed, hnames (by decide)⟩

/-- A fold in a link takes the link that the fold around it has put first. So the node of the
outer fold begins with the other link when it closes, and is tied by that. -/
theorem Grammar.build_strays :
    let grammar : Grammar := ⟨[⟨"sum", .sequence [.byte 97, .zeroOrMore (.sequence
      [.fold (some "left"), .link (some "item") (.sequence [.fold (some "inner"), .endCapture]),
        .endCapture])]⟩]⟩
    let registry : Registry :=
      ⟨[⟨0, none, [.linked (some "inner") [.linked (some "left") [.byte 97]]]⟩,
        ⟨1, none, [.linked (some "item") [.choice [[.captured 1], [.captured 0]]]]⟩],
        [⟨"sum", [.choice [[.captured 1], [.byte 97]]]⟩]⟩
    grammar.build = .ok registry ∧
      ¬ ∀ id shape closing, registry.shape? id = some shape →
        grammar.closings[id]? = some closing → id ∈ capturesOf shape.elements →
          closing.Headed := by
  intro grammar registry
  refine ⟨rfl, fun hheaded => ?_⟩
  have hshape : registry.shape? 1 =
      some ⟨1, none, [.linked (some "item") [.choice [[.captured 1], [.captured 0]]]]⟩ := rfl
  have hclosing : grammar.closings[1]? = some
      ⟨⟨.foldCapture, [.linked (some "item") [.captured 0]], none⟩,
        ⟨.repeated, [], some ⟨some (.byte 97)⟩⟩, none⟩ := rfl
  obtain ⟨_, _, _, hlead, _⟩ := hheaded 1 _ _ hshape hclosing (by decide)
  cases hlead

end PegTemplates
