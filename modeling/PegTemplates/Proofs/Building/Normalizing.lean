import PegTemplates.Proofs.Building.Running

/-!
# Normal forms of grammars

How deep a sequence is nested, and what only steers parsing, leaves no trace in what is built.
An expression is brought into a normal form without both: items of nested sequences stand in the
outermost one, items that are silent in a walk are left out, and a silent expression anywhere
else is the one that always matches. The walk through the normal form is shown to be the walk
through the expression itself, step for step, so a grammar and its normal form are built alike.
-/

namespace PegTemplates

namespace Expr

/-- Whether the walk through an expression passes over it: it only steers parsing. -/
def isSilent : Expr → Bool
  | empty | any | byteSet _ | followedBy _ | notFollowedBy _ => true
  | _ => false

/-- The items that an expression in normal form puts into a sequence around it. -/
def spliced : Expr → List Expr
  | sequence items => items
  | empty => []
  | expr => [expr]

/-- The sequence of the items, or the expression that always matches if there is none. -/
def ofItems : List Expr → Expr
  | [] => empty
  | items => sequence items

mutual

/-- The normal form of an expression. -/
def normalized : Expr → Expr
  | sequence items => ofItems (normalizedItems items)
  | choice branches => choice (normalizedEach branches)
  | optional inner => optional inner.normalized
  | zeroOrMore inner => zeroOrMore inner.normalized
  | oneOrMore inner => oneOrMore inner.normalized
  | link label inner => link label inner.normalized
  | byte value => byte value
  | nonTerminal name => nonTerminal name
  | tag name => tag name
  | fold label => fold label
  | beginCapture => beginCapture
  | endCapture => endCapture
  | empty | any | byteSet _ | followedBy _ | notFollowedBy _ => empty

/-- The items of a sequence in normal form. -/
def normalizedItems : List Expr → List Expr
  | [] => []
  | item :: rest => item.normalized.spliced ++ normalizedItems rest

/-- The normal forms of several expressions. -/
def normalizedEach : List Expr → List Expr
  | [] => []
  | expr :: rest => expr.normalized :: normalizedEach rest

end

/-- Whether an expression can be an item of a sequence in normal form. -/
def isItem : Expr → Bool
  | sequence _ => false
  | expr => !expr.isSilent

mutual

/-- Whether an expression is in normal form. -/
def isNormal : Expr → Bool
  | sequence items => !items.isEmpty && items.all isItem && allNormal items
  | choice branches => allNormal branches
  | optional inner | zeroOrMore inner | oneOrMore inner | link _ inner => inner.isNormal
  | any | byteSet _ | followedBy _ | notFollowedBy _ => false
  | empty | byte _ | nonTerminal _ | tag _ | fold _ | beginCapture | endCapture => true

/-- Whether expressions are all in normal form. -/
def allNormal : List Expr → Bool
  | [] => true
  | expr :: rest => expr.isNormal && allNormal rest

end

/-- Items of two lists are in normal form if those of each are. -/
theorem allNormal_append (items rest : List Expr) :
    allNormal (items ++ rest) = (allNormal items && allNormal rest) := by
  induction items with
  | nil => rfl
  | cons item items ih => rw [List.cons_append, allNormal, allNormal, ih, Bool.and_assoc]

/-- An expression in normal form puts items in normal form into the sequence around it. -/
theorem spliced_normal {expr : Expr} (hnormal : expr.isNormal = true) :
    expr.spliced.all isItem = true ∧ allNormal expr.spliced = true := by
  cases expr with
  | sequence items =>
    simp only [isNormal, Bool.and_eq_true] at hnormal
    exact ⟨hnormal.1.2, hnormal.2⟩
  | empty => exact ⟨rfl, rfl⟩
  | any | byteSet bytes | followedBy inner | notFollowedBy inner => cases hnormal
  | _ => exact ⟨rfl, (Bool.and_true _).trans hnormal⟩

/-- Items in normal form make an expression in normal form. -/
theorem isNormal_ofItems {items : List Expr} (hitems : items.all isItem = true)
    (hnormal : allNormal items = true) : (ofItems items).isNormal = true := by
  cases items with
  | nil => rfl
  | cons item rest =>
    rw [ofItems, isNormal, hitems, hnormal]
    · rfl
    · exact List.cons_ne_nil item rest

mutual

/-- The normal form of an expression is in normal form. -/
theorem isNormal_normalized : ∀ expr : Expr, expr.normalized.isNormal = true
  | sequence items => by
    obtain ⟨hitems, hnormal⟩ := normalizedItems_normal items
    exact isNormal_ofItems hitems hnormal
  | choice branches => allNormal_normalizedEach branches
  | optional inner | zeroOrMore inner | oneOrMore inner | link _ inner => isNormal_normalized inner
  | byte _ | nonTerminal _ | tag _ | fold _ | beginCapture | endCapture | empty | any | byteSet _
  | followedBy _ | notFollowedBy _ => rfl

/-- The items of a sequence in normal form are such items. -/
theorem normalizedItems_normal : ∀ items : List Expr,
    (normalizedItems items).all isItem = true ∧ allNormal (normalizedItems items) = true
  | [] => ⟨rfl, rfl⟩
  | item :: rest => by
    obtain ⟨hitem, hnormal⟩ := spliced_normal (isNormal_normalized item)
    obtain ⟨hrest, hlater⟩ := normalizedItems_normal rest
    rw [normalizedItems, List.all_append, hitem, hrest, allNormal_append, hnormal, hlater]
    exact ⟨rfl, rfl⟩

/-- Normal forms of several expressions are in normal form. -/
theorem allNormal_normalizedEach : ∀ exprs : List Expr, allNormal (normalizedEach exprs) = true
  | [] => rfl
  | expr :: rest => by
    rw [normalizedEach, allNormal, isNormal_normalized expr, allNormal_normalizedEach rest]
    rfl

end

end Expr

namespace Builder

variable (rule : String)

/-- Two lists of items are walked through one after the other. -/
theorem visitItems_append (items rest : List Expr) :
    visitItems rule (items ++ rest) = visitItems rule items >>= fun _ => visitItems rule rest := by
  funext walk
  exact (run_visitItems_append rule items rest walk).trans (run_bind _ _ walk).symm

/-- What an expression puts into a sequence is walked through as the expression. -/
theorem visitItems_spliced (expr : Expr) : visitItems rule expr.spliced = visit rule expr := by
  have hsingle : visitItems rule [expr] = visit rule expr := bind_pure (visit rule expr)
  cases expr with
  | sequence items => rfl
  | empty => rfl
  | _ => exact hsingle

/-- The sequence of the items is walked through as the items. -/
theorem visit_ofItems (items : List Expr) :
    visit rule (Expr.ofItems items) = visitItems rule items := by
  cases items <;> rfl

mutual

/-- The walk through the normal form of an expression is the walk through the expression. -/
theorem visit_normalized : ∀ expr : Expr, visit rule expr.normalized = visit rule expr
  | .sequence items => (visit_ofItems rule _).trans (visitItems_normalized items)
  | .choice branches => by
    rw [Expr.normalized, visit, visit, visitBranches_normalized branches]
  | .optional inner => by rw [Expr.normalized, visit, visit, visit_normalized inner]
  | .zeroOrMore inner => by rw [Expr.normalized, visit, visit, visit_normalized inner]
  | .oneOrMore inner => by rw [Expr.normalized, visit, visit, visit_normalized inner]
  | .link label inner => by rw [Expr.normalized, visit, visit, visit_normalized inner]
  | .byte _ | .nonTerminal _ | .tag _ | .fold _ | .beginCapture | .endCapture | .empty | .any
  | .byteSet _ | .followedBy _ | .notFollowedBy _ => rfl

/-- The walk through items in normal form is the walk through the items. -/
theorem visitItems_normalized : ∀ items : List Expr,
    visitItems rule (Expr.normalizedItems items) = visitItems rule items
  | [] => rfl
  | item :: rest => by
    rw [Expr.normalizedItems, visitItems_append, visitItems_spliced, visit_normalized item,
      visitItems_normalized rest, visitItems]

/-- The walk through branches in normal form is the walk through the branches. -/
theorem visitBranches_normalized : ∀ branches : List Expr,
    visitBranches rule (Expr.normalizedEach branches) = visitBranches rule branches
  | [] => rfl
  | branch :: rest => by
    rw [Expr.normalizedEach, visitBranches, visitBranches, visit_normalized branch,
      visitBranches_normalized rest]

end

end Builder

/-- A rule with its body in normal form. -/
def Rule.normalized (rule : Rule) : Rule := ⟨rule.name, rule.expr.normalized⟩

/-- A grammar with all bodies in normal form. -/
def Grammar.normalized (grammar : Grammar) : Grammar := ⟨grammar.rules.map Rule.normalized⟩

/-- Whether all bodies of a grammar are in normal form. -/
def Grammar.isNormal (grammar : Grammar) : Bool := grammar.rules.all (·.expr.isNormal)

namespace Builder

/-- A rule is built as its normal form, behind any other rules. -/
theorem buildRule_normalized (builder : Builder) (rule : Rule) :
    builder.buildRule rule.normalized = builder.buildRule rule := by
  unfold buildRule
  rw [Rule.normalized, visit_normalized]

/-- Rules are added as their normal forms. -/
theorem addRules_normalized (builder : Builder) (rules : List Rule) :
    builder.addRules (rules.map Rule.normalized) = builder.addRules rules := by
  induction rules generalizing builder with
  | nil => rfl
  | cons rule rest ih =>
    have hrule : builder.addRule rule.normalized = builder.addRule rule := by
      unfold addRule
      rw [buildRule_normalized]
      rfl
    rw [List.map_cons, addRules, addRules, hrule]
    cases builder.addRule rule with
    | mk outcome after =>
      cases outcome with
      | ok _ => exact ih after
      | error reason => rfl

end Builder

/-- Building only depends on the normal form of a grammar. Every grammar is built as its normal
form: with the same error, or into the same registry of rules and shapes, with the same names,
numbers and sites, and with the same events on the way. Its normal form is one: no sequence in it
is empty, stands directly in another sequence or has a silent item, and nothing silent is left
but the expression that always matches. -/
theorem Grammar.build_normalized (grammar : Grammar) :
    grammar.normalized.build = grammar.build ∧
      grammar.normalized.buildEvents = grammar.buildEvents ∧
      grammar.normalized.isNormal = true := by
  have hadd : Builder.fresh.addRules grammar.normalized.rules =
      Builder.fresh.addRules grammar.rules :=
    Builder.addRules_normalized .fresh grammar.rules
  refine ⟨?_, ?_, ?_⟩
  · unfold build
    rw [hadd]
  · unfold buildEvents
    rw [hadd]
  · rw [isNormal, normalized, List.all_map]
    exact List.all_eq_true.mpr fun rule _ => rule.expr.isNormal_normalized

-- the delimiters of the node come from different depths
example : (Expr.sequence [.sequence [.beginCapture, .any], .optional (.sequence [.empty]),
    .sequence [.sequence [], .tag "Sum", .endCapture]]).normalized =
      .sequence [.beginCapture, .optional .empty, .tag "Sum", .endCapture] := rfl

end PegTemplates
