import PegTemplates.Proofs.Building.Sites
import PegTemplates.Proofs.Expanding.Layouts
import PegTemplates.Proofs.Searching.References

/-!
# What a layout covers

Every sequence of the registry of a grammar, and every alternative for one of its tags,
holds references whose sites tell them apart. The layout of such a sequence is shown to
exist exactly if all rules that can be met are defined and the body of every link that can
be met gives its captures. It then holds the bytes and the links of the sequence and, once
for each reference that can be met, those of the body of its rule. Links are not looked into.
-/

namespace PegTemplates

namespace Registry

/-- The sequences of a registry, and the alternatives for their tags. -/
inductive Sequence (registry : Registry) : List Element → Prop where
  /-- The body of a rule. -/
  | rule {body : RuleBody} : body ∈ registry.rules → Sequence registry body.elements
  /-- What stands in a shape. -/
  | shape {shape : Shape} : shape ∈ registry.shapes → Sequence registry shape.elements
  /-- What a cursor hands out for a tag of another sequence. -/
  | alternative {elements : List Element} {calls : Nat} {found : TagAlternative} :
    Sequence registry elements →
    (TagCursor.start elements).item registry calls = some (.ok found) →
    Sequence registry found.elements

/-- Whether the references that can be met from a sequence are told apart by their sites. -/
def ToldApart (registry : Registry) (elements : List Element) : Prop :=
  ∀ first next, registry.Reaches elements first → registry.Reaches elements next →
    first.site = next.site → first = next

variable {registry : Registry} {elements : List Element} {reference : Reference}

/-- From a named sequence only named references can be met. -/
theorem Named.refers {names : List String} (hnamed : registry.Named names)
    (helements : NamedBy names elements) (hrefers : registry.Refers elements reference) :
    names[reference.site.index]? = some reference.name := by
  cases hrefers with
  | own hmentioned => exact helements reference hmentioned
  | inner _ hbody hmentioned =>
    exact hnamed.rules _ (mem_rules_of_body? hbody).1 reference hmentioned

/-- From a sequence of a named registry only named references can be met. -/
theorem Sequence.named {names : List String} (hsequence : registry.Sequence elements)
    (hnamed : registry.Named names) (hrefers : registry.Refers elements reference) :
    names[reference.site.index]? = some reference.name := by
  induction hsequence with
  | rule hbody => exact hnamed.refers (hnamed.rules _ hbody) hrefers
  | shape hshape => exact hnamed.refers (hnamed.shapes _ hshape) hrefers
  | alternative _ hitem ih => exact ih ((TagCursor.item_fixes _ _ hitem).refers hrefers)

/-- In the registry of a grammar sites tell references apart. -/
theorem Sequence.toldApart {grammar : Grammar} (hbuild : grammar.build = .ok registry)
    (hsequence : registry.Sequence elements) : registry.ToldApart elements := by
  have hnamed := Grammar.build_named hbuild
  rintro ⟨firstName, firstSite⟩ ⟨nextName, nextSite⟩ hfirst hnext hsite
  obtain rfl : firstSite = nextSite := hsite
  have hfirstName := hsequence.named hnamed hfirst.refers
  have hnextName := hsequence.named hnamed hnext.refers
  obtain rfl : firstName = nextName := Option.some.inj (hfirstName.symm.trans hnextName)
  rfl

section Tour

variable (htold : registry.ToldApart elements)
  (hended : (registry.tour Reference.site [] elements).stopped = none)

include htold hended

/-- A tour that comes to its end has followed what can be met, if sites tell that apart. -/
theorem mem_followed_iff : reference ∈ (registry.tour Reference.site [] elements).followed ↔
    registry.Reaches elements reference := by
  have hwithin := registry.tour_staysWithin Reference.site [] elements
  refine ⟨hwithin.followed reference, fun hreaches => ?_⟩
  have hsame := registry.key_mem_followed Reference.site
    (fun first next hfirst hnext hsite => congrArg _ (htold first next hfirst hnext hsite))
    hended hreaches
  obtain ⟨entered, hentered, hsite⟩ := List.mem_map.mp hsame
  rwa [← htold entered reference (hwithin.followed entered hentered) hreaches hsite]

/-- A tour that comes to its end has read the leaves that can be met, if sites tell apart what
can be met. -/
theorem mem_leaves_iff {leaf : Element} :
    leaf ∈ (registry.tour Reference.site [] elements).leaves ↔ registry.Gathers elements leaf := by
  rw [(registry.leaves_perm Reference.site [] elements hended).mem_iff, List.mem_append,
    List.mem_flatMap]
  refine or_congr_right (exists_congr fun reference => and_congr_left fun _ => ?_)
  exact mem_followed_iff htold hended

/-- A tour that comes to its end has met defined rules only, if sites tell apart what can be
met. -/
theorem defined_of_ended (hreaches : registry.Reaches elements reference) :
    ∃ body, registry.body? reference.name = some body := by
  obtain ⟨_, hbodies⟩ := registry.tour_closed Reference.site [] elements hended
  obtain ⟨body, hbody, _⟩ := hbodies reference ((mem_followed_iff htold hended).mpr hreaches)
  exact ⟨body, hbody⟩

end Tour

/-- There is a layout exactly if all that can be met is defined and all links that can be met
have captures, if sites tell apart what can be met. -/
theorem layout_isOk_iff (htold : registry.ToldApart elements) :
    (∃ nodes, registry.layout elements = .ok nodes) ↔
      (∀ reference, registry.Reaches elements reference →
        ∃ body, registry.body? reference.name = some body) ∧
      ∀ label inner, registry.Gathers elements (.linked label inner) →
        ∃ inners, registry.linkedInners inner = .ok inners := by
  constructor
  · rintro ⟨nodes, hlayout⟩
    obtain ⟨hended, hshows⟩ := layout_eq_ok hlayout
    refine ⟨fun _ => defined_of_ended htold hended, fun label inner hgathers => ?_⟩
    cases hinners : registry.linkedInners inner with
    | ok inners => exact ⟨inners, rfl⟩
    | error reason =>
      have hfailure := error_mem_linksAmong.mpr
        ⟨label, inner, (mem_leaves_iff htold hended).mpr hgathers, hinners⟩
      rw [← hshows.links] at hfailure
      obtain ⟨link, _, hlink⟩ := List.mem_map.mp hfailure
      cases hlink
  · rintro ⟨hdefined, hlinks⟩
    have hended := registry.tour_ended Reference.site hdefined
    cases hlayout : registry.layout elements with
    | ok nodes => exact ⟨nodes, rfl⟩
    | error reason =>
      rcases layout_eq_error hlayout with ⟨name, hstopped⟩ | ⟨failure, hfailure⟩
      · rw [hended] at hstopped
        cases hstopped
      · obtain ⟨label, inner, hleaf, hinners⟩ := error_mem_linksAmong.mp hfailure
        obtain ⟨inners, hok⟩ := hlinks label inner ((mem_leaves_iff htold hended).mp hleaf)
        rw [hok] at hinners
        cases hinners

/-- A layout holds the bytes and links of the sequence and of every rule that the tour has
followed a reference to. -/
theorem Shows.perm {nodes : List Node}
    (hended : (registry.tour Reference.site [] elements).stopped = none)
    (hshows : registry.Shows (registry.tour Reference.site [] elements).leaves nodes) :
    (textsOf nodes).Perm (bytesAmong (leavesOf elements) ++
        (registry.tour Reference.site [] elements).followed.flatMap fun reference =>
          bytesAmong (registry.ruleLeaves reference.name)) ∧
      ((linksOf nodes).map .ok).Perm (registry.linksAmong (leavesOf elements) ++
        (registry.tour Reference.site [] elements).followed.flatMap fun reference =>
          registry.linksAmong (registry.ruleLeaves reference.name)) := by
  have hread := registry.leaves_perm Reference.site [] elements hended
  rw [hshows.texts, hshows.links]
  unfold bytesAmong linksAmong
  rw [← List.filterMap_flatMap, ← List.filterMap_flatMap, ← List.filterMap_append,
    ← List.filterMap_append]
  exact ⟨hread.filterMap _, hread.filterMap _⟩

end Registry

/-- For a sequence of the registry of a grammar there is a layout exactly if all rules that can
be met are defined and all links that can be met have captures. It holds the bytes and the links
of the sequence and, once for every reference that can be met, those of the body of its rule. -/
theorem Grammar.layout_covers {grammar : Grammar} {registry : Registry} {elements : List Element}
    (hbuild : grammar.build = .ok registry) (hsequence : registry.Sequence elements) :
    ((∃ nodes, registry.layout elements = .ok nodes) ↔
      (∀ reference, registry.Reaches elements reference →
        ∃ body, registry.body? reference.name = some body) ∧
      ∀ label inner, registry.Gathers elements (.linked label inner) →
        ∃ inners, registry.linkedInners inner = .ok inners) ∧
    ∀ nodes, registry.layout elements = .ok nodes → ∃ followed : List Reference,
      (followed.map Reference.site).Nodup ∧
      (∀ reference, reference ∈ followed ↔ registry.Reaches elements reference) ∧
      (textsOf nodes).Perm (bytesAmong (leavesOf elements) ++
        followed.flatMap fun reference => bytesAmong (registry.ruleLeaves reference.name)) ∧
      ((linksOf nodes).map .ok).Perm (registry.linksAmong (leavesOf elements) ++
        followed.flatMap fun reference =>
          registry.linksAmong (registry.ruleLeaves reference.name)) := by
  have htold := hsequence.toldApart hbuild
  refine ⟨Registry.layout_isOk_iff htold, fun nodes hlayout => ?_⟩
  obtain ⟨hended, hshows⟩ := Registry.layout_eq_ok hlayout
  exact ⟨(registry.tour Reference.site [] elements).followed,
    (registry.tour_nodup Reference.site [] elements).1,
    fun _ => Registry.mem_followed_iff htold hended, hshows.perm hended⟩

/-- The second alternative of a shape with a fold, which holds a rule that refers to itself. -/
theorem Grammar.layout_covers_fold :
    let grammar : Grammar := ⟨[
      ⟨"sum", .sequence [.nonTerminal "number", .fold (some "left"), .nonTerminal "sign",
        .link (some "right") (.nonTerminal "number"), .endCapture]⟩,
      ⟨"sign", .choice [.sequence [.byte 43, .tag "Add"],
        .sequence [.byte 45, .tag "Subtract", .nonTerminal "sign"]]⟩,
      ⟨"number", .sequence [.beginCapture, .byte 49, .tag "Number", .endCapture]⟩]⟩
    let left : Element := .linked (some "left") [.nonTerminal "number" ⟨0⟩]
    let right : Element := .linked (some "right") [.nonTerminal "number" ⟨2⟩]
    let registry : Registry := ⟨
      [⟨0, some "sum", [left, .nonTerminal "sign" ⟨1⟩, right]⟩,
        ⟨1, some "number", [.byte 49, .tag "Number"]⟩],
      [⟨"sum", [.captured 0]⟩,
        ⟨"sign", [.choice [[.byte 43, .tag "Add"],
          [.byte 45, .tag "Subtract", .nonTerminal "sign" ⟨3⟩]]]⟩,
        ⟨"number", [.captured 1]⟩]⟩
    let elements : List Element :=
      [left, .byte 45, .tag "Subtract", .nonTerminal "sign" ⟨3⟩, right]
    grammar.build = .ok registry ∧ registry.Sequence elements ∧
    ((∃ nodes, registry.layout elements = .ok nodes) ↔
      (∀ reference, registry.Reaches elements reference →
        ∃ body, registry.body? reference.name = some body) ∧
      ∀ label inner, registry.Gathers elements (.linked label inner) →
        ∃ inners, registry.linkedInners inner = .ok inners) ∧
    ∀ nodes, registry.layout elements = .ok nodes → ∃ followed : List Reference,
      (followed.map Reference.site).Nodup ∧
      (∀ reference, reference ∈ followed ↔ registry.Reaches elements reference) ∧
      (textsOf nodes).Perm (bytesAmong (leavesOf elements) ++
        followed.flatMap fun reference => bytesAmong (registry.ruleLeaves reference.name)) ∧
      ((linksOf nodes).map .ok).Perm (registry.linksAmong (leavesOf elements) ++
        followed.flatMap fun reference =>
          registry.linksAmong (registry.ruleLeaves reference.name)) := by
  intro grammar left right registry elements
  have hbuild : grammar.build = .ok registry := by rfl
  have hshape : Shape.mk 0 (some "sum") [left, .nonTerminal "sign" ⟨1⟩, right] ∈
      registry.shapes := List.mem_cons_self
  have hitem : (TagCursor.start [left, .nonTerminal "sign" ⟨1⟩, right]).item registry 1 =
      some (.ok ⟨"Subtract", elements⟩) := by rfl
  have hsequence : registry.Sequence elements := .alternative (.shape hshape) hitem
  exact ⟨hbuild, hsequence, layout_covers hbuild hsequence⟩

end PegTemplates
