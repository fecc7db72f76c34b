import PegTemplates.Proofs.Binding.MixedRadix

/-!
# Links as a combination of decisions reads them

A combination of decisions passes over some links of a layout and reads the others, each bound
to one of the captures that it reaches if there is any. What becomes of the links is listed
occurrence by occurrence, in the order in which the layout holds them. What the combination
writes is shown to have a placeholder for every link that is read and a label entry for every
link that is bound, in the same order and with the same capture.
-/

namespace PegTemplates

/-- A place for a linked child in a resolved layout. -/
structure Placeholder where
  /-- Label of the link. -/
  label : Option String
  /-- Text in front of the child. -/
  before : String
  /-- Text behind the child. -/
  after : String
  /-- Whether the place is inside a loop. -/
  looped : Bool
  deriving DecidableEq

mutual

/-- The placeholders of a slot that stands inside a loop or not, depth first. -/
def Slot.placeholders (looped : Bool) : Slot → List Placeholder
  | .text _ => []
  | .placeholder label before after => [⟨label, before, after, looped⟩]
  | .loop body => placeholdersOf true body

/-- The placeholders of slots that stand inside a loop or not, left to right. -/
def placeholdersOf (looped : Bool) : List Slot → List Placeholder
  | [] => []
  | slot :: rest => slot.placeholders looped ++ placeholdersOf looped rest

end

/-- The placeholders of two parts are those of each, one behind the other. -/
theorem placeholdersOf_append (looped : Bool) (first next : List Slot) :
    placeholdersOf looped (first ++ next) =
      placeholdersOf looped first ++ placeholdersOf looped next := by
  induction first with
  | nil => rfl
  | cons slot rest ih =>
    rw [List.cons_append, placeholdersOf, placeholdersOf, ih, List.append_assoc]

/-- A link of a layout as an index binds it. -/
structure BoundLink where
  /-- Label of the link. -/
  label : Option String
  /-- Whether the link stands in a repetition. -/
  repeated : Bool
  /-- The capture that the link is bound to, with the text around it. -/
  inner : LinkedInner

namespace BoundLink

/-- Tags of the capture that the link is bound to. -/
def tags (table : TagTable) (bound : BoundLink) : List String :=
  (bound.inner.capture.bind fun id => table[id]?).getD []

/-- Entry of the link in a label list: the label, a mark for a repetition, and the tags of the
capture if it has any. -/
def entry (table : TagTable) (bound : BoundLink) : String :=
  bound.label.getD unlabeled ++ (if bound.repeated then "[]" else "") ++
    match bound.tags table with
    | [] => ""
    | names => ": " ++ " / ".intercalate (names.map fun name => s!"#{name}")

/-- Label entries are those of the links bound. -/
theorem labelEntry_eq (table : TagTable) (bound : BoundLink) :
    labelEntry table bound.repeated bound.label bound.inner = bound.entry table := by
  unfold labelEntry entry tags
  cases bound.inner.capture.bind fun id => table[id]? with
  | none => simp
  | some names => cases names <;> simp [String.append_assoc]

end BoundLink

/-- The placeholder of a link that is bound. -/
def BoundLink.placeholder (bound : BoundLink) : Placeholder :=
  ⟨bound.label, bound.inner.before, bound.inner.after, bound.repeated⟩

/-- What becomes of one link of a layout. -/
inductive LinkReading where
  /-- It is passed over. -/
  | passed (target : Link)
  /-- It is read, in a repetition or not, and reaches no capture. -/
  | unbound (target : Link) (repeated : Bool)
  /-- It is read, in a repetition or not, and bound to the capture at that position. -/
  | bound (target : Link) (repeated : Bool) (position : Nat)
  deriving DecidableEq

namespace LinkReading

/-- The link. -/
def target : LinkReading → Link
  | passed target | unbound target _ | bound target _ _ => target

/-- The link with its capture, if it is bound to one. -/
def bound? : LinkReading → Option BoundLink
  | passed _ | unbound _ _ => none
  | bound target repeated position =>
    target.inners[position]?.map fun inner => ⟨target.label, repeated, inner⟩

/-- The placeholder of the link, if it is read. Without a capture there is no text around it. -/
def place? : LinkReading → Option Placeholder
  | passed _ => none
  | unbound target repeated => some ⟨target.label, "", "", repeated⟩
  | bound target repeated position =>
    (bound target repeated position).bound?.map BoundLink.placeholder

/-- Whether a link that reaches captures is bound to one of them. -/
def Sound : LinkReading → Prop
  | passed _ => True
  | unbound target _ => target.inners = []
  | bound target _ position => position < target.inners.length

/-- Links that are all passed over. -/
def passedOver (targets : List Link) : List LinkReading := targets.map passed

end LinkReading

mutual

/-- What a decision about a node makes of its links, one by one. -/
def Node.linkReadings (repeated : Bool) : Node → Decision → List LinkReading
  | .text _, _ => []
  | .link target, decision =>
    [match decision with
      | .bound _ position _ => .bound target repeated position
      | .unbound _ => .unbound target repeated
      | _ => .passed target]
  | .choice branches, decision =>
    match decision with
    | .branch position taken => linkReadingsOfBranches repeated branches position taken
    | _ => LinkReading.passedOver (linksOfBranches branches)
  | .optional body, decision =>
    match decision with
    | .present taken => linkReadingsOf repeated body taken
    | _ => LinkReading.passedOver (linksOf body)
  | .zeroOrMore body, decision | .oneOrMore body, decision =>
    match decision with
    | .repeated taken => linkReadingsOf true body taken
    | _ => LinkReading.passedOver (linksOf body)

/-- What decisions about a layout make of its links, one by one. -/
def linkReadingsOf (repeated : Bool) : List Node → List Decision → List LinkReading
  | [], _ => []
  | node :: rest, taken =>
    match taken with
    | decision :: later => node.linkReadings repeated decision ++ linkReadingsOf repeated rest later
    | [] => LinkReading.passedOver (linksOf (node :: rest))

/-- What reading the branch at a position makes of the links of all branches, one by one. -/
def linkReadingsOfBranches (repeated : Bool) :
    List (List Node) → Nat → List Decision → List LinkReading
  | [], _, _ => []
  | branch :: rest, position, taken =>
    match position with
    | 0 => linkReadingsOf repeated branch taken ++ LinkReading.passedOver (linksOfBranches rest)
    | position + 1 =>
      LinkReading.passedOver (linksOf branch) ++ linkReadingsOfBranches repeated rest position taken

end

namespace LinkReading

/-- A link that is bound has the capture at the position. -/
theorem bound?_eq {target : Link} {position : Nat} {inner : LinkedInner} (repeated : Bool)
    (hinner : target.inners[position]? = some inner) :
    (bound target repeated position).bound? = some ⟨target.label, repeated, inner⟩ := by
  rw [bound?, hinner]
  rfl

/-- A link that is bound has the placeholder of the capture at the position. -/
theorem place?_eq {target : Link} {position : Nat} {inner : LinkedInner} (repeated : Bool)
    (hinner : target.inners[position]? = some inner) :
    (bound target repeated position).place? =
      some (BoundLink.placeholder ⟨target.label, repeated, inner⟩) := by
  rw [place?, bound?_eq repeated hinner]
  rfl

/-- Links that are passed over are those links. -/
theorem targets_passedOver (targets : List Link) :
    (passedOver targets).map target = targets := by
  rw [passedOver, List.map_map]
  exact List.map_id targets

/-- Links that are passed over are as many as these links. -/
theorem length_passedOver (targets : List Link) :
    (passedOver targets).length = targets.length := List.length_map passed

/-- Nothing is collected from links that are passed over. -/
theorem filterMap_passedOver {α : Type} {collect : LinkReading → Option α}
    (hpassed : ∀ target, collect (passed target) = none) (targets : List Link) :
    (passedOver targets).filterMap collect = [] := by
  simp [passedOver, hpassed]

end LinkReading

mutual

/-- Every link of a node is accounted for, in order. -/
theorem Node.targets_linkReadings (repeated : Bool) : ∀ (node : Node) (decision : Decision),
    (node.linkReadings repeated decision).map LinkReading.target = node.links
  | .text _, _ => rfl
  | .link target, decision => by cases decision <;> rfl
  | .choice branches, decision => by
    cases decision with
    | branch position taken => exact targets_linkReadingsOfBranches repeated branches position taken
    | _ => exact LinkReading.targets_passedOver (linksOfBranches branches)
  | .optional body, decision => by
    cases decision with
    | present taken => exact targets_linkReadingsOf repeated body taken
    | _ => exact LinkReading.targets_passedOver (linksOf body)
  | .zeroOrMore body, decision | .oneOrMore body, decision => by
    cases decision with
    | repeated taken => exact targets_linkReadingsOf true body taken
    | _ => exact LinkReading.targets_passedOver (linksOf body)

/-- Every link of a layout is accounted for, in order. -/
theorem targets_linkReadingsOf (repeated : Bool) : ∀ (nodes : List Node) (taken : List Decision),
    (linkReadingsOf repeated nodes taken).map LinkReading.target = linksOf nodes
  | [], _ => rfl
  | node :: rest, [] => LinkReading.targets_passedOver (linksOf (node :: rest))
  | node :: rest, decision :: taken => by
    rw [linkReadingsOf, List.map_append, node.targets_linkReadings,
      targets_linkReadingsOf repeated rest, linksOf]

/-- Every link of the branches is accounted for, in order. -/
theorem targets_linkReadingsOfBranches (repeated : Bool) : ∀ (branches : List (List Node))
    (position : Nat) (taken : List Decision),
    (linkReadingsOfBranches repeated branches position taken).map LinkReading.target =
      linksOfBranches branches
  | [], _, _ => rfl
  | branch :: rest, 0, taken => by
    rw [linkReadingsOfBranches, List.map_append, targets_linkReadingsOf repeated branch,
      LinkReading.targets_passedOver, linksOfBranches]
  | branch :: rest, position + 1, taken => by
    rw [linkReadingsOfBranches, List.map_append, LinkReading.targets_passedOver,
      targets_linkReadingsOfBranches repeated rest, linksOfBranches]

end

/-- A node has as many links read or passed over as it holds. -/
theorem Node.length_linkReadings (repeated : Bool) (node : Node) (decision : Decision) :
    (node.linkReadings repeated decision).length = node.links.length := by
  rw [← node.targets_linkReadings repeated decision, List.length_map]

/-- A layout has as many links read or passed over as it holds. -/
theorem length_linkReadingsOf (repeated : Bool) (nodes : List Node) (taken : List Decision) :
    (linkReadingsOf repeated nodes taken).length = (linksOf nodes).length := by
  rw [← targets_linkReadingsOf repeated nodes taken, List.length_map]

/-- The links of the branches around the one that is read are passed over. -/
theorem linkReadingsOfBranches_eq (repeated : Bool) {branches : List (List Node)} {position : Nat}
    {body : List Node} (hbody : branches[position]? = some body) (taken : List Decision) :
    ∃ before behind, linkReadingsOfBranches repeated branches position taken =
      LinkReading.passedOver before ++ linkReadingsOf repeated body taken ++
        LinkReading.passedOver behind := by
  induction branches generalizing position with
  | nil => cases hbody
  | cons branch rest ih =>
    cases position with
    | zero =>
      obtain rfl : branch = body := Option.some.inj hbody
      exact ⟨[], linksOfBranches rest, rfl⟩
    | succ position =>
      obtain ⟨before, behind, hrest⟩ := ih hbody
      refine ⟨linksOf branch ++ before, behind, ?_⟩
      simp only [linkReadingsOfBranches, hrest, LinkReading.passedOver, List.map_append,
        List.append_assoc]

/-- Whether a part that is written in a repetition or not has a placeholder for every link that is
read, and a label entry for every link that is bound. -/
structure Resolved.Lists (tags : TagTable) (repeated : Bool) (readings : List LinkReading)
    (resolved : Resolved) : Prop where
  /-- The links that are read have placeholders, in order. -/
  places : placeholdersOf repeated resolved.slots = readings.filterMap LinkReading.place?
  /-- The links that are bound have label entries, in order. -/
  labels : resolved.labels = (readings.filterMap LinkReading.bound?).map (BoundLink.entry tags)
  /-- Links that reach captures are bound to them. -/
  sound : ∀ reading ∈ readings, reading.Sound

namespace Resolved.Lists

variable {tags : TagTable} {repeated : Bool}

/-- A part that writes nothing passes over all of its links. -/
theorem nothing (targets : List Link) :
    Lists tags repeated (LinkReading.passedOver targets) .nothing := by
  refine ⟨?_, ?_, ?_⟩
  · rw [LinkReading.filterMap_passedOver fun _ => rfl]
    rfl
  · rw [LinkReading.filterMap_passedOver fun _ => rfl]
    rfl
  · intro reading hreading
    obtain ⟨target, _, rfl⟩ := List.mem_map.mp hreading
    trivial

/-- Two parts list their links one behind the other. -/
theorem append {first next : List LinkReading} {resolved other : Resolved}
    (hfirst : Lists tags repeated first resolved) (hnext : Lists tags repeated next other) :
    Lists tags repeated (first ++ next) (resolved.append other) := by
  refine ⟨?_, ?_, ?_⟩
  · rw [List.filterMap_append, ← hfirst.places, ← hnext.places]
    exact placeholdersOf_append repeated resolved.slots other.slots
  · rw [List.filterMap_append, List.map_append, ← hfirst.labels, ← hnext.labels]
    rfl
  · intro reading hreading
    exact (List.mem_append.mp hreading).elim (hfirst.sound reading) (hnext.sound reading)

/-- A part lists the same links when it is written as a loop. -/
theorem looped {readings : List LinkReading} {body : Resolved}
    (hbody : Lists tags true readings body) : Lists tags repeated readings body.looped :=
  ⟨(List.append_nil _).trans hbody.places, hbody.labels, hbody.sound⟩

/-- A choice lists the links of the branch that is read. -/
theorem branch {branches : List (List Node)} {position : Nat} {body : List Node}
    (hposition : branches[position]? = some body) {taken : List Decision} {resolved : Resolved}
    (hbody : Lists tags repeated (linkReadingsOf repeated body taken) resolved) :
    Lists tags repeated (linkReadingsOfBranches repeated branches position taken) resolved := by
  obtain ⟨before, behind, hreadings⟩ := linkReadingsOfBranches_eq repeated hposition taken
  have hall := ((nothing before).append hbody).append (nothing behind)
  have hsame : (Resolved.nothing.append resolved).append .nothing = resolved := by
    simp [Resolved.append, Resolved.nothing]
  rw [hreadings, ← hsame]
  exact hall

/-- A link that is bound has a placeholder and a label entry. -/
theorem bound {target : Link} {position : Nat} {inner : LinkedInner}
    (hinner : target.inners[position]? = some inner) :
    Lists tags repeated [.bound target repeated position]
      ⟨[labelEntry tags repeated target.label inner],
        [.placeholder target.label inner.before inner.after]⟩ := by
  refine ⟨?_, ?_, ?_⟩
  · rw [List.filterMap_cons_some (LinkReading.place?_eq repeated hinner)]
    rfl
  · rw [List.filterMap_cons_some (LinkReading.bound?_eq repeated hinner)]
    exact congrArg (fun entry => [entry])
      (BoundLink.labelEntry_eq tags ⟨target.label, repeated, inner⟩)
  · intro reading hreading
    obtain rfl := List.mem_singleton.mp hreading
    exact (List.getElem?_eq_some_iff.mp hinner).1

/-- A link that reaches no capture has a placeholder alone. -/
theorem unbound {target : Link} (hnone : target.inners = []) :
    Lists tags repeated [.unbound target repeated] ⟨[], [.placeholder target.label "" ""]⟩ := by
  refine ⟨rfl, rfl, ?_⟩
  intro reading hreading
  obtain rfl := List.mem_singleton.mp hreading
  exact hnone

end Resolved.Lists

section Written

variable (tags : TagTable)

mutual

/-- A decision that a node admits writes what it makes of the links. -/
theorem Node.Admits.lists : ∀ {node : Node} {decision : Decision}, node.Admits decision →
    ∀ repeated, (decision.resolved tags repeated).Lists tags repeated
      (node.linkReadings repeated decision)
  | _, _, .text, _ => ⟨rfl, rfl, fun _ hreading => nomatch hreading⟩
  | _, _, .bound hinner, _ => .bound hinner
  | _, _, .unbound hnone, _ => .unbound hnone
  | _, _, .branch hbody _ hall, repeated => (hall.lists repeated).branch hbody
  | _, _, .unlinked _, _ | _, _, .leftOut, _ | _, _, .none, _ => .nothing _
  | _, _, .present _ hall, repeated => hall.lists repeated
  | _, _, .some _ hall, _ | _, _, .always hall, _ => (hall.lists true).looped

/-- A combination that a layout admits writes what it makes of the links. -/
theorem AdmitsAll.lists : ∀ {nodes : List Node} {taken : List Decision}, AdmitsAll nodes taken →
    ∀ repeated, (resolvedOf tags repeated taken).Lists tags repeated
      (linkReadingsOf repeated nodes taken)
  | _, _, .nil, _ => .nothing []
  | _, _, .cons hnode hrest, repeated => (hnode.lists repeated).append (hrest.lists repeated)

end

end Written

/-- What an index makes of the links of a layout, one by one. -/
def linkReadingsAt (nodes : List Node) (index : Nat) : List LinkReading :=
  linkReadingsOf false nodes (decisionsAt index nodes)

/-- The links of a layout that an index binds, in reading order. -/
def boundAt (nodes : List Node) (index : Nat) : List BoundLink :=
  (linkReadingsAt nodes index).filterMap LinkReading.bound?

/-- Every link of a layout is accounted for under every index, in order. -/
theorem targets_linkReadingsAt (nodes : List Node) (index : Nat) :
    (linkReadingsAt nodes index).map LinkReading.target = linksOf nodes :=
  targets_linkReadingsOf false nodes (decisionsAt index nodes)

/-- Below its rate a layout resolves to something that lists the links as the index reads them. -/
theorem lists_linkReadingsAt (tags : TagTable) {nodes : List Node} {index : Nat}
    (hindex : index < rateOf nodes) :
    (resolveLayout tags false index nodes).Lists tags false (linkReadingsAt nodes index) := by
  rw [resolveLayout_eq_decisionsAt]
  exact (admits_decisionsAt nodes hindex).lists tags false

end PegTemplates
