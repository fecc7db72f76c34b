import PegTemplates.Proofs.Binding.MixedRadix

/-!
# Resolving without faults

A layout is resolved here step by step, in numbers that end at the largest rate. One number is
cut down digit by digit, a nested layout puts an index of its own in its place until it has been
walked, and a repetition sets a mark that is taken back behind it. Every step checks what it
relies on: that no digit is taken by zero, that no sum is too large and no difference negative,
that a link has the capture that is asked for, and that a nested layout is entered with an index
below its rate. No check ever fails, also where rates are saturated, and the steps come to the
binding of the layout.
-/

namespace PegTemplates

/-- What a step of a walk may find wrong. -/
inductive ResolverFault where
  /-- A digit is taken by the radix zero. -/
  | zeroRadix
  /-- A sum is above the largest number. -/
  | sumTooLarge
  /-- A difference is below zero. -/
  | differenceNegative
  /-- A link has no capture of that position. -/
  | noSuchInner
  /-- A layout is entered with an index that is not below its rate. -/
  | indexTooLarge
  deriving DecidableEq, Repr

/-- What a walk through a layout carries along. -/
structure Resolver where
  /-- What is left of the index. -/
  index : Nat
  /-- Label entries of the links bound so far. -/
  labels : List String
  /-- Whether the walk is in a repetition. -/
  repeated : Bool

/-- A step of a walk, which may find a fault. -/
abbrev Resolving := StateT Resolver (Except ResolverFault)

namespace Resolving

/-- Takes the next digit of the index, which goes on with the quotient. -/
def takeDigit (radix : Nat) : Resolving Nat := fun resolver =>
  if radix = 0 then .error .zeroRadix
  else .ok (resolver.index % radix, { resolver with index := resolver.index / radix })

/-- The sum of two numbers. -/
def sum (first next : Nat) : Resolving Nat := fun resolver =>
  if first + next ≤ maxRate then .ok (first + next, resolver) else .error .sumTooLarge

/-- The difference of two numbers. -/
def difference (first next : Nat) : Resolving Nat := fun resolver =>
  if next ≤ first then .ok (first - next, resolver) else .error .differenceNegative

/-- Walks through a layout of the given rate under an index of its own, and then goes on with
what was left of the index. -/
def nested (rate index : Nat) (step : Resolving (List Slot)) : Resolving (List Slot) := do
  let outer ← get
  if index < rate then
    set { outer with index := index }
    let slots ← step
    modify fun inner => { inner with index := outer.index }
    return slots
  else throw .indexTooLarge

/-- Walks through a repeated layout, marked as such. -/
def repetition (rate index : Nat) (step : Resolving (List Slot)) : Resolving (List Slot) := do
  let outer ← get
  set { outer with repeated := true }
  let slots ← nested rate index step
  modify fun inner => { inner with repeated := outer.repeated }
  return [.loop slots]

/-- Binds a link that reaches captures to the one of the next digit. -/
def link (tags : TagTable) (target : Link) : Resolving (List Slot) := do
  if target.inners.isEmpty then return [.placeholder target.label "" ""]
  else
    let position ← takeDigit target.inners.length
    match target.inners[position]? with
    | none => throw .noSuchInner
    | some inner =>
      modify fun resolver =>
        { resolver with
          labels := resolver.labels ++ [labelEntry tags resolver.repeated target.label inner] }
      return [.placeholder target.label inner.before inner.after]

end Resolving

open Resolving

mutual

/-- Walks through a node. -/
def Node.walk (tags : TagTable) : Node → Resolving (List Slot)
  | .text value => return [.text value]
  | .link target => Resolving.link tags target
  | .choice branches => do
    let digit ← takeDigit (Node.choice branches).rate
    walkBranches tags digit branches
  | .optional body => do
    let digit ← takeDigit (Node.optional body).rate
    let next ← sum digit 1
    if next < (Node.optional body).rate then nested (rateOf body) digit (walkLayout tags body)
    else return []
  | .zeroOrMore body => do
    let digit ← takeDigit (Node.zeroOrMore body).rate
    let next ← sum digit 1
    if next < (Node.zeroOrMore body).rate then
      repetition (rateOf body) digit (walkLayout tags body)
    else return []
  | .oneOrMore body => do
    let digit ← takeDigit (Node.oneOrMore body).rate
    repetition (rateOf body) digit (walkLayout tags body)

/-- Walks through a layout, node by node. -/
def walkLayout (tags : TagTable) : List Node → Resolving (List Slot)
  | [] => return []
  | node :: rest => do
    let first ← node.walk tags
    let next ← walkLayout tags rest
    return first ++ next

/-- Walks through the branch of a choice that a digit picks among those that hold a link. -/
def walkBranches (tags : TagTable) (digit : Nat) : List (List Node) → Resolving (List Slot)
  | [] => return []
  | branch :: rest =>
    if hasLinks branch then
      if digit < rateOf branch then nested (rateOf branch) digit (walkLayout tags branch)
      else do
        let behind ← difference digit (rateOf branch)
        walkBranches tags behind rest
    else walkBranches tags digit rest

end

/-- The binding of a layout that an index picks, found by a walk that checks every step. -/
def checkedResolve (tags : TagTable) (nodes : List Node) (index : Nat) :
    Except ResolverFault (Option Binding) :=
  if index < rateOf nodes then do
    let (slots, last) ← (walkLayout tags nodes).run ⟨index, [], false⟩
    return some ⟨index, last.labels, slots⟩
  else return none

/-- Every node has a binding. -/
theorem Node.rate_pos (node : Node) : 0 < node.rate := by
  have hlarge := two_lt_maxRate
  cases node with
  | text value => exact Nat.one_pos
  | link target => exact Nat.lt_of_lt_of_le Nat.one_pos (Nat.le_max_right _ _)
  | choice branches => exact Nat.lt_of_lt_of_le Nat.one_pos (Nat.le_max_right _ _)
  | optional body | zeroOrMore body =>
    rw [Node.rate, saturate]
    split <;> omega
  | oneOrMore body => exact rateOf_pos body

/-- Behind a digit of a part that may be left out there is a number. -/
theorem digit_succ_le (body : List Node) (index : Nat) :
    index % (if hasLinks body then saturate (rateOf body + 1) else 1) + 1 ≤ maxRate := by
  have hlarge := two_lt_maxRate
  have hrate : 0 < saturate (rateOf body + 1) := by
    unfold saturate
    omega
  split
  · have hdigit := Nat.mod_lt index hrate
    unfold saturate at hdigit ⊢
    omega
  · omega

namespace Resolving

/-- What follows a step without a fault goes on with its value. -/
theorem bind_of_ok {α β : Type} {step : Resolving α} {next : α → Resolving β}
    {resolver after : Resolver} {value : α} (hstep : step resolver = .ok (value, after)) :
    (step >>= next) resolver = next value after := by
  have hbind : (step >>= next) resolver =
      (step resolver >>= fun taken => next taken.1 taken.2) := rfl
  rw [hbind, hstep]
  rfl

/-- Looking at what is carried along changes nothing. -/
theorem get_eq (resolver : Resolver) :
    (get : Resolving Resolver) resolver = .ok (resolver, resolver) := rfl

/-- What is carried along can be put in place of what was there. -/
theorem set_eq (resolver after : Resolver) :
    (set after : Resolving PUnit) resolver = .ok (⟨⟩, after) := rfl

/-- Whether a step finds no fault, gives what is resolved and leaves an index. -/
def Gives (step : Resolving (List Slot)) (resolver : Resolver) (resolved : Resolved)
    (left : Nat) : Prop :=
  step resolver =
    .ok (resolved.slots, ⟨left, resolver.labels ++ resolved.labels, resolver.repeated⟩)

section Steps

variable {resolver : Resolver} {resolved : Resolved} {left : Nat}

/-- Slots alone are given without a label. -/
theorem gives_slots (resolver : Resolver) (slots : List Slot) :
    Gives (pure slots) resolver ⟨[], slots⟩ resolver.index := by
  rw [Gives, List.append_nil]
  rfl

/-- A digit can be taken by a positive radix. -/
theorem Gives.takeDigit {radix : Nat} {next : Nat → Resolving (List Slot)} (hradix : 0 < radix)
    (hnext : (next (resolver.index % radix)).Gives
      { resolver with index := resolver.index / radix } resolved left) :
    (Resolving.takeDigit radix >>= next).Gives resolver resolved left := by
  have htaken : Resolving.takeDigit radix resolver =
      .ok (resolver.index % radix, { resolver with index := resolver.index / radix }) :=
    if_neg (Nat.ne_of_gt hradix)
  rw [Gives, bind_of_ok htaken]
  exact hnext

/-- A sum can be taken if it is not too large. -/
theorem Gives.sum {first second : Nat} {next : Nat → Resolving (List Slot)}
    (hsum : first + second ≤ maxRate)
    (hnext : (next (first + second)).Gives resolver resolved left) :
    (Resolving.sum first second >>= next).Gives resolver resolved left := by
  have htaken : Resolving.sum first second resolver = .ok (first + second, resolver) := if_pos hsum
  rw [Gives, bind_of_ok htaken]
  exact hnext

/-- A difference can be taken if it is not negative. -/
theorem Gives.difference {first second : Nat} {next : Nat → Resolving (List Slot)}
    (hle : second ≤ first) (hnext : (next (first - second)).Gives resolver resolved left) :
    (Resolving.difference first second >>= next).Gives resolver resolved left := by
  have htaken : Resolving.difference first second resolver = .ok (first - second, resolver) :=
    if_pos hle
  rw [Gives, bind_of_ok htaken]
  exact hnext

/-- A nested layout can be entered with an index below its rate, and the index from before goes
on behind it. -/
theorem Gives.nested {rate index : Nat} {step : Resolving (List Slot)} (hindex : index < rate)
    (hstep : step.Gives { resolver with index := index } resolved left) :
    (Resolving.nested rate index step).Gives resolver resolved resolver.index := by
  rw [Gives, Resolving.nested, bind_of_ok (get_eq _), if_pos hindex, bind_of_ok (set_eq _ _),
    bind_of_ok hstep]
  rfl

/-- A repeated layout is walked through with the mark of a repetition, and the mark from before
goes on behind it. -/
theorem Gives.repetition {rate index : Nat} {step : Resolving (List Slot)} (hindex : index < rate)
    (hstep : step.Gives ⟨index, resolver.labels, true⟩ resolved left) :
    (Resolving.repetition rate index step).Gives resolver resolved.looped resolver.index := by
  have hbody : (Resolving.nested rate index step).Gives { resolver with repeated := true }
      resolved resolver.index := Gives.nested hindex hstep
  rw [Gives, Resolving.repetition, bind_of_ok (get_eq _), bind_of_ok (set_eq _ _),
    bind_of_ok hbody]
  rfl

/-- Two steps give what they give one after the other. -/
theorem Gives.append {first next : Resolving (List Slot)} {other : Resolved} {rest : Nat}
    (hfirst : first.Gives resolver resolved left)
    (hnext : next.Gives ⟨left, resolver.labels ++ resolved.labels, resolver.repeated⟩ other rest) :
    Gives (do let slots ← first; let others ← next; return slots ++ others) resolver
      (resolved.append other) rest := by
  rw [Gives, bind_of_ok hfirst, bind_of_ok hnext, Resolved.append, ← List.append_assoc]
  rfl

/-- A link gives what the next digit binds it to. The digit is a position among the captures. -/
theorem link_gives (tags : TagTable) (target : Link) (resolver : Resolver) :
    (link tags target).Gives resolver
      (target.resolve tags resolver.repeated (resolver.index % (Node.link target).rate))
      (resolver.index / (Node.link target).rate) := by
  rw [Node.rate, Resolving.link, Link.resolve]
  cases hinners : target.inners with
  | nil =>
    have hindex : resolver.index / max 0 1 = resolver.index := Nat.div_one _
    rw [List.length_nil, hindex]
    exact gives_slots resolver _
  | cons inner rest =>
    have hlength : max (inner :: rest).length 1 = (inner :: rest).length :=
      Nat.max_eq_left (Nat.succ_pos _)
    have hpos : 0 < (inner :: rest).length := Nat.succ_pos _
    have hposition := Nat.mod_lt resolver.index hpos
    rw [hlength, List.getElem?_eq_getElem hposition]
    refine Gives.takeDigit hpos ?_
    rw [List.getElem?_eq_getElem hposition]
    rfl

end Steps

end Resolving

section Walk

variable (tags : TagTable)

-- The induction is on the layout. Where a body is entered, the test in front of it bounds the
-- digit by the rate of the body, so that no radix identity is needed and rates may be saturated.
mutual

/-- Without a fault a node gives what it resolves to under its digit, and leaves the quotient. -/
theorem Node.walk_gives : ∀ (node : Node) (resolver : Resolver), (node.walk tags).Gives resolver
    (node.resolve tags resolver.repeated (resolver.index % node.rate))
    (resolver.index / node.rate)
  | .text value, resolver => by
    have hindex : resolver.index / (Node.text value).rate = resolver.index := Nat.div_one _
    rw [hindex]
    exact gives_slots resolver _
  | .link target, resolver => link_gives tags target resolver
  | .choice branches, resolver =>
    .takeDigit (Node.rate_pos _) (walkBranches_gives branches _ _)
  | .optional body, resolver => by
    rw [Node.walk, Node.resolve]
    refine .takeDigit (Node.rate_pos _) (.sum (digit_succ_le body resolver.index) ?_)
    split
    · rename_i hthere
      have hdigit := (lt_rateOf_of_there hthere).2
      obtain ⟨left, hbody⟩ := walkLayout_gives body
        ⟨resolver.index % (Node.optional body).rate, resolver.labels, resolver.repeated⟩
      exact .nested hdigit hbody
    · exact gives_slots _ _
  | .zeroOrMore body, resolver => by
    rw [Node.walk, Node.resolve]
    refine .takeDigit (Node.rate_pos _) (.sum (digit_succ_le body resolver.index) ?_)
    split
    · rename_i hthere
      have hdigit := (lt_rateOf_of_there hthere).2
      obtain ⟨left, hbody⟩ := walkLayout_gives body
        ⟨resolver.index % (Node.zeroOrMore body).rate, resolver.labels, true⟩
      exact .repetition hdigit hbody
    · exact gives_slots _ _
  | .oneOrMore body, resolver => by
    have hdigit : resolver.index % (Node.oneOrMore body).rate < rateOf body :=
      Nat.mod_lt _ (rateOf_pos body)
    obtain ⟨left, hbody⟩ := walkLayout_gives body
      ⟨resolver.index % (Node.oneOrMore body).rate, resolver.labels, true⟩
    exact .takeDigit (Node.rate_pos _) (.repetition hdigit hbody)

/-- Without a fault a layout gives what it resolves to under the index. What it leaves of the
index is not used behind it. -/
theorem walkLayout_gives : ∀ (nodes : List Node) (resolver : Resolver), ∃ left,
    (walkLayout tags nodes).Gives resolver
      (resolveLayout tags resolver.repeated resolver.index nodes) left
  | [], resolver => ⟨resolver.index, gives_slots resolver []⟩
  | node :: rest, resolver => by
    have hfirst := node.walk_gives resolver
    obtain ⟨left, hrest⟩ := walkLayout_gives rest
      ⟨resolver.index / node.rate, resolver.labels ++
        (node.resolve tags resolver.repeated (resolver.index % node.rate)).labels,
        resolver.repeated⟩
    exact ⟨left, hfirst.append hrest⟩

/-- Without a fault the branches of a choice give what they resolve to under the digit. -/
theorem walkBranches_gives : ∀ (branches : List (List Node)) (digit : Nat) (resolver : Resolver),
    (walkBranches tags digit branches).Gives resolver
      (resolveBranches tags resolver.repeated digit branches) resolver.index
  | [], _, resolver => gives_slots resolver []
  | branch :: rest, digit, resolver => by
    rw [walkBranches, resolveBranches]
    split
    · split
      · rename_i hdigit
        obtain ⟨left, hbranch⟩ := walkLayout_gives branch
          ⟨digit, resolver.labels, resolver.repeated⟩
        exact .nested hdigit hbranch
      · rename_i hdigit
        exact .difference (Nat.le_of_not_lt hdigit) (walkBranches_gives rest _ resolver)
    · exact walkBranches_gives rest digit resolver

end

end Walk

/-- A walk that checks every step finds no fault, whatever the layout, the tags and the index,
and comes to the binding that the index picks. -/
theorem checkedResolve_eq (tags : TagTable) (nodes : List Node) (index : Nat) :
    checkedResolve tags nodes index = .ok (resolve tags nodes index) := by
  unfold checkedResolve resolve
  split
  · obtain ⟨left, hwalk⟩ := walkLayout_gives tags nodes ⟨index, [], false⟩
    rw [StateT.run, hwalk]
    rfl
  · rfl

-- The rate of sixty-five links with two captures each is saturated, in an option as well, and the
-- last index below it is walked through.
example :
    let links := List.replicate 65 (Node.link ⟨none, [.ofCapture 0, .ofCapture 1]⟩)
    rateOf links = maxRate ∧ rateOf [.optional links] = maxRate ∧
      ((checkedResolve [] [.optional links] (maxRate - 1)).map Option.isSome).toOption =
        some true := by
  decide +kernel

end PegTemplates
