import PegTemplates.Proofs.Binding.Decisions

/-!
# Decisions that the digits of an index take

An index is cut into digits, one for every node, and each digit takes a decision. The decisions
are collected along the digits here, without any list of combinations. What a layout resolves to
under an index is what these decisions write, whatever the index.
-/

namespace PegTemplates

mutual

/-- The decision that a digit takes at a node. -/
def Node.decisionAt (digit : Nat) : Node → Decision
  | .text value => .text value
  | .link target =>
    match target.inners[digit]? with
    | some inner => .bound target.label digit inner
    | none => .unbound target.label
  | .choice branches => branchDecisionAt 0 digit branches
  | .optional body =>
    if digit + 1 < (Node.optional body).rate then .present (decisionsAt digit body) else .absent
  | .zeroOrMore body =>
    if digit + 1 < (Node.zeroOrMore body).rate then .repeated (decisionsAt digit body)
    else .absent
  | .oneOrMore body => .repeated (decisionsAt digit body)

/-- The decisions that an index takes in a layout. -/
def decisionsAt (index : Nat) : List Node → List Decision
  | [] => []
  | node :: rest => node.decisionAt (index % node.rate) :: decisionsAt (index / node.rate) rest

/-- The decision that a digit takes at a choice, when the first of the branches has that
position. -/
def branchDecisionAt (position digit : Nat) : List (List Node) → Decision
  | [] => .absent
  | branch :: rest =>
    if hasLinks branch then
      if digit < rateOf branch then .branch position (decisionsAt digit branch)
      else branchDecisionAt (position + 1) (digit - rateOf branch) rest
    else branchDecisionAt (position + 1) digit rest

end

section Written

variable (tags : TagTable)

mutual

/-- Under a digit a node resolves to what the decision writes that the digit takes. -/
theorem Node.resolve_eq_decisionAt : ∀ (node : Node) (repeated : Bool) (digit : Nat),
    node.resolve tags repeated digit = (node.decisionAt digit).resolved tags repeated
  | .text _, _, _ => rfl
  | .link target, repeated, digit => by
    rw [Node.resolve, Node.decisionAt, Link.resolve]
    cases target.inners[digit]? <;> rfl
  | .choice branches, repeated, digit => resolveBranches_eq_decisionAt 0 branches repeated digit
  | .optional body, repeated, digit => by
    rw [Node.resolve, Node.decisionAt]
    split
    · exact resolveLayout_eq_decisionsAt body repeated digit
    · rfl
  | .zeroOrMore body, repeated, digit => by
    rw [Node.resolve, Node.decisionAt]
    split
    · exact congrArg Resolved.looped (resolveLayout_eq_decisionsAt body true digit)
    · rfl
  | .oneOrMore body, repeated, digit =>
    congrArg Resolved.looped (resolveLayout_eq_decisionsAt body true digit)

/-- Under an index a layout resolves to what the decisions write that the index takes. -/
theorem resolveLayout_eq_decisionsAt : ∀ (nodes : List Node) (repeated : Bool) (index : Nat),
    resolveLayout tags repeated index nodes = resolvedOf tags repeated (decisionsAt index nodes)
  | [], _, _ => rfl
  | node :: rest, repeated, index => by
    rw [resolveLayout, decisionsAt, resolvedOf, node.resolve_eq_decisionAt,
      resolveLayout_eq_decisionsAt rest]

/-- Under a digit the branches of a choice resolve to what the decision writes that the digit
takes. -/
theorem resolveBranches_eq_decisionAt : ∀ (position : Nat) (branches : List (List Node))
    (repeated : Bool) (digit : Nat), resolveBranches tags repeated digit branches =
      (branchDecisionAt position digit branches).resolved tags repeated
  | _, [], _, _ => rfl
  | position, branch :: rest, repeated, digit => by
    rw [resolveBranches, branchDecisionAt]
    split
    · split
      · exact resolveLayout_eq_decisionsAt branch repeated digit
      · exact resolveBranches_eq_decisionAt (position + 1) rest repeated _
    · exact resolveBranches_eq_decisionAt (position + 1) rest repeated digit

end

end Written

end PegTemplates
