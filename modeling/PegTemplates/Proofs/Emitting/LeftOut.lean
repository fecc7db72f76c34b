import PegTemplates.Proofs.Emitting.Shapes
import PegTemplates.Proofs.Expanding.Covering
import PegTemplates.Proofs.Expanding.Undefined

/-!
# Shapes that are left out

A shape is left out where its own references, the search for its tags or the layout of one of
its alternatives meets an undefined rule. None of the three is shown to meet a reference that
cannot be met from the shape, and the references of a built registry are those of its grammar.
So the report names undefined rules only, each within reach of its shape, and a grammar that
defines whatever it refers to has all of its shapes written. A shape that is left out only when
an alternative is laid out may have been cut off under the tags of earlier alternatives, and
then the report keeps both.
-/

namespace PegTemplates

namespace Registry

variable {registry : Registry} {shape : Shape} {reason : AnalysisError}

/-- A shape has no alternatives to be written under only because of an undefined rule that can
be met from it. -/
theorem blames_of_written (hwritten : registry.written shape = .error reason) :
    registry.Blames shape.elements reason := by
  unfold written at hwritten
  split at hwritten
  · rename_i hfound
    obtain rfl := Except.error.inj hwritten
    exact blames_of_firstUndefined? hfound
  · split at hwritten
    · cases hwritten
    · exact blames_of_tagAlternatives hwritten

/-- From an alternative that a shape is written under nothing can be met that cannot be met from
the shape. -/
theorem refers_of_written {alternatives : List TagAlternative} {alternative : TagAlternative}
    {reference : Reference} (hwritten : registry.written shape = .ok alternatives)
    (halternative : alternative ∈ alternatives)
    (hrefers : registry.Refers alternative.elements reference) :
    registry.Refers shape.elements reference := by
  unfold written at hwritten
  split at hwritten
  · cases hwritten
  · split at hwritten
    · obtain rfl := Except.ok.inj hwritten
      unfold Shape.fallback at halternative
      split at halternative
      · obtain rfl := List.mem_singleton.mp halternative
        exact hrefers
      · cases halternative
    · exact (fixes_of_tagAlternatives hwritten alternative halternative).refers hrefers

/-- A layout is missing only because one of the alternatives has none. -/
theorem exists_of_failure {alternatives : List TagAlternative}
    (hfailure : (registry.layouts alternatives).failure = some reason) :
    ∃ alternative ∈ alternatives, registry.layout alternative.elements = .error reason := by
  induction alternatives with
  | nil => cases hfailure
  | cons alternative rest ih =>
    rw [layouts] at hfailure
    cases hlayout : registry.layout alternative.elements with
    | error other =>
      rw [hlayout] at hfailure
      obtain rfl := Option.some.inj hfailure
      exact ⟨alternative, List.mem_cons_self, hlayout⟩
    | ok nodes =>
      rw [hlayout] at hfailure
      obtain ⟨later, hlater, hmissing⟩ := ih hfailure
      exact ⟨later, List.mem_cons_of_mem _ hlater, hmissing⟩

/-- A layout of a shape is missing only because of an undefined rule that can be met from it. -/
theorem blames_of_failure (hfailure : (registry.layoutsOf shape).failure = some reason) :
    registry.Blames shape.elements reason := by
  unfold layoutsOf at hfailure
  split at hfailure
  · rename_i hwritten
    obtain rfl := Option.some.inj hfailure
    exact blames_of_written hwritten
  · rename_i alternatives hwritten
    obtain ⟨alternative, halternative, hlayout⟩ := exists_of_failure hfailure
    obtain ⟨reference, hrefers, hundefined⟩ := blames_of_layout hlayout
    exact ⟨reference, refers_of_written hwritten halternative hrefers, hundefined⟩

/-- A shape that refers to an undefined rule itself has no layouts. -/
theorem exists_failure_of_mentioned {reference : Reference}
    (hmentioned : reference ∈ mentionsOf true shape.elements)
    (hundefined : registry.body? reference.name = none) :
    ∃ reason, (registry.layoutsOf shape).failure = some reason := by
  cases hfound : registry.firstUndefined? shape.elements with
  | none =>
    obtain ⟨body, hbody⟩ := firstUndefined?_eq_none_iff.mp hfound reference hmentioned
    rw [hundefined] at hbody
    cases hbody
  | some reason =>
    refine ⟨reason, ?_⟩
    rw [layoutsOf, written, hfound]

/-- The shapes left out are listed in order of their numbers. -/
theorem Numbered.skipped_ascending (hnumbered : registry.Numbered) (limit : Nat) :
    ((registry.emission limit).report.skipped.map Prod.fst).Pairwise (· < ·) := by
  have hids : (registry.shapes.map Shape.id).Pairwise (· < ·) :=
    hnumbered ▸ List.pairwise_lt_range
  -- the entries keep the order of the shapes, and with it that of their numbers
  rw [report_skipped, List.pairwise_map, List.pairwise_filterMap]
  refine (List.pairwise_map.mp hids).imp fun hlt => ?_
  rintro ⟨firstId, _⟩ hfirst ⟨nextId, _⟩ hnext
  obtain ⟨_, _, hfirst⟩ := Option.map_eq_some_iff.mp hfirst
  obtain ⟨_, _, hnext⟩ := Option.map_eq_some_iff.mp hnext
  obtain ⟨rfl, _⟩ := Prod.mk.inj hfirst
  obtain ⟨rfl, _⟩ := Prod.mk.inj hnext
  exact hlt

end Registry

/-- Whether shapes are left out for undefined rules and for nothing else. -/
structure Grammar.LeavesOutUndefined (grammar : Grammar) (registry : Registry) (limit : Nat) :
    Prop where
  /-- The shapes left out are listed in order of their numbers. -/
  ascending : ((registry.emission limit).report.skipped.map Prod.fst).Pairwise (· < ·)
  /-- The reason is a rule that the grammar does not have, and a reference to it can be met from
  the shape. -/
  reason : ∀ id reason, (id, reason) ∈ (registry.emission limit).report.skipped →
    ∃ shape reference, registry.shape? id = some shape ∧
      registry.Refers shape.elements reference ∧ reason = .undefinedRule reference.name ∧
      ∀ rule ∈ grammar.rules, rule.name ≠ reference.name
  /-- A shape in which a reference to such a rule stands, be it in a link, is left out. -/
  direct : ∀ shape ∈ registry.shapes, ∀ reference ∈ mentionsOf true shape.elements,
    (∀ rule ∈ grammar.rules, rule.name ≠ reference.name) →
      ∃ reason, (shape.id, reason) ∈ (registry.emission limit).report.skipped
  /-- No block is written for a shape that is left out. -/
  unwritten : ∀ id reason, (id, reason) ∈ (registry.emission limit).report.skipped →
    (registry.emission limit).blocksOf id = []
  /-- No shape is left out if the grammar has a rule for every name that its rules refer to. -/
  complete : (∀ rule ∈ grammar.rules, ∀ name ∈ rule.expr.references,
      ∃ target ∈ grammar.rules, target.name = name) →
    (registry.emission limit).report.skipped = []

/-- From a shape of a built grammar only names can be met that its rules refer to. -/
theorem Grammar.exists_rule_of_refers {grammar : Grammar} {registry : Registry}
    (hbuild : grammar.build = .ok registry) {shape : Shape} (hshape : shape ∈ registry.shapes)
    {reference : Reference} (hrefers : registry.Refers shape.elements reference) :
    ∃ rule ∈ grammar.rules, reference.name ∈ rule.expr.references := by
  have hnamed := build_named hbuild
  have hname := hnamed.refers (hnamed.shapes shape hshape) hrefers
  exact List.mem_flatMap.mp (List.mem_of_getElem? hname)

/-- Shapes of a grammar are left out for undefined rules and for nothing else. -/
theorem Grammar.leavesOutUndefined {grammar : Grammar} {registry : Registry}
    (hbuild : grammar.build = .ok registry) (limit : Nat) :
    grammar.LeavesOutUndefined registry limit := by
  have hnumbered := build_numbered hbuild
  refine ⟨hnumbered.skipped_ascending limit, ?_, ?_, ?_, ?_⟩
  · intro id reason hskipped
    obtain ⟨shape, hshape, rfl, hfailure⟩ := Registry.exists_of_skipped hskipped
    obtain ⟨reference, hrefers, hbody, hname⟩ := Registry.blames_of_failure hfailure
    exact ⟨shape, reference, hnumbered.shape?_id hshape, hrefers, hname,
      (body?_eq_none_iff hbuild _).mp hbody⟩
  · intro shape hshape reference hmentioned hundefined
    obtain ⟨reason, hfailure⟩ := Registry.exists_failure_of_mentioned hmentioned
      ((body?_eq_none_iff hbuild _).mpr hundefined)
    exact ⟨reason, (hnumbered.mem_skipped_iff hshape limit).mpr hfailure⟩
  · intro id reason hskipped
    obtain ⟨shape, hshape, rfl, hfailure⟩ := Registry.exists_of_skipped hskipped
    rw [hnumbered.blocksOf_eq hshape, ShapeLayouts.kept, hfailure]
    rfl
  · intro hclosed
    refine List.eq_nil_iff_forall_not_mem.mpr ?_
    rintro ⟨id, reason⟩ hskipped
    obtain ⟨shape, hshape, rfl, hfailure⟩ := Registry.exists_of_skipped hskipped
    obtain ⟨reference, hrefers, hbody, _⟩ := Registry.blames_of_failure hfailure
    obtain ⟨rule, hrule, hreference⟩ := exists_rule_of_refers hbuild hshape hrefers
    obtain ⟨target, htarget, hname⟩ := hclosed rule hrule reference.name hreference
    exact (body?_eq_none_iff hbuild _).mp hbody target htarget hname

/-- Three shapes are left out, one for a reference in its own link, one for a reference met in
the search for its tags, and one for a reference behind its link. -/
theorem Grammar.leavesOutUndefined_each_way :
    let grammar : Grammar := ⟨[
      ⟨"A", .capture [.tag "A", .link none (.optional (.nonTerminal "X"))]⟩,
      ⟨"B", .capture [.choice [.tag "B", .nonTerminal "D"]]⟩,
      ⟨"C", .capture [.tag "C", .link none (.nonTerminal "D")]⟩,
      ⟨"D", .nonTerminal "Y"⟩]⟩
    let registry : Registry := ⟨
      [⟨0, some "A", [.tag "A", .linked none [.optional [.nonTerminal "X" ⟨0⟩]]]⟩,
        ⟨1, some "B", [.choice [[.tag "B"], [.nonTerminal "D" ⟨1⟩]]]⟩,
        ⟨2, some "C", [.tag "C", .linked none [.nonTerminal "D" ⟨2⟩]]⟩],
      [⟨"A", [.captured 0]⟩, ⟨"B", [.captured 1]⟩, ⟨"C", [.captured 2]⟩,
        ⟨"D", [.nonTerminal "Y" ⟨3⟩]⟩]⟩
    grammar.build = .ok registry ∧ grammar.LeavesOutUndefined registry 1 ∧
      (registry.emission 1).report.skipped = [(0, .undefinedRule "X"),
        (1, .undefinedRule "Y"), (2, .undefinedRule "Y")] := by
  intro grammar registry
  have hbuild : grammar.build = .ok registry := by rfl
  refine ⟨hbuild, Grammar.leavesOutUndefined hbuild 1, ?_⟩
  rw [Registry.report_skipped]
  rfl

/-- No shape is both left out and cut off exactly if no shape of which a layout is missing has
an earlier layout with too many bindings. -/
theorem Registry.Recorded.left_out_uncut_iff {registry : Registry} (hrecorded : registry.Recorded)
    (limit : Nat) :
    (∀ id ∈ (registry.emission limit).report.skipped.map Prod.fst,
        id ∉ (registry.emission limit).report.truncated.map Prod.fst) ↔
      ∀ shape ∈ registry.shapes, (registry.layoutsOf shape).failure.isSome →
        ∀ layout ∈ (registry.layoutsOf shape).found, rateOf layout.nodes ≤ limit := by
  have hnumbered := hrecorded.numbered
  constructor
  · intro huncut shape hshape hmissing layout hfound
    obtain ⟨reason, hfailure⟩ := Option.isSome_iff_exists.mp hmissing
    have hskipped := (hnumbered.mem_skipped_iff hshape limit).mpr hfailure
    refine Nat.le_of_not_lt fun hmany => ?_
    have hcut := (hnumbered.mem_truncated_iff hshape limit).mpr ⟨layout, hfound, hmany, rfl⟩
    exact huncut shape.id (List.mem_map_of_mem hskipped) (List.mem_map_of_mem hcut)
  · intro hfew id hid hcutId
    obtain ⟨⟨_, reason⟩, hskipped, rfl⟩ := List.mem_map.mp hid
    obtain ⟨⟨_, tag⟩, hcut, hsame⟩ := List.mem_map.mp hcutId
    obtain ⟨shape, hshape, rfl, hfailure⟩ := exists_of_skipped hskipped
    obtain rfl : _ = shape.id := hsame
    obtain ⟨layout, hfound, hmany, _⟩ := (hnumbered.mem_truncated_iff hshape limit).mp hcut
    have hrate := hfew shape hshape (by rw [hfailure]; rfl) layout hfound
    exact absurd hmany (Nat.not_lt_of_le hrate)

/-- A shape with two bindings under its first tag is left out behind the second one. With two
bindings looked at it is not cut off. -/
theorem Registry.left_out_uncut :
    let registry : Registry := (((Registry.empty.register [.tag "Left"] none).register
        [.tag "Right"] none).register [.choice [
          [.tag "Pair", .linked none [.choice [[.captured 0], [.captured 1]]]],
          [.tag "Step", .nonTerminal "step" ⟨0⟩]]] none).registerRule "step"
      [.linked none [.nonTerminal "missing" ⟨1⟩]]
    registry.Recorded ∧
    ((∀ id ∈ (registry.emission 2).report.skipped.map Prod.fst,
        id ∉ (registry.emission 2).report.truncated.map Prod.fst) ↔
      ∀ shape ∈ registry.shapes, (registry.layoutsOf shape).failure.isSome →
        ∀ layout ∈ (registry.layoutsOf shape).found, rateOf layout.nodes ≤ 2) ∧
    (registry.emission 2).report.skipped = [(2, .undefinedRule "missing")] ∧
    (registry.emission 2).report.truncated = [] := by
  intro registry
  have hrecorded : registry.Recorded :=
    .registerRule _ _ (.register _ _ (.register _ _ (.register _ _ .empty)))
  refine ⟨hrecorded, hrecorded.left_out_uncut_iff 2, ?_, ?_⟩
  · rw [report_skipped]
    rfl
  · rw [report_truncated]
    decide +kernel

/-- A shape is left out behind its second tag, and has been cut off under the first one. -/
theorem Grammar.left_out_and_cut :
    let grammar : Grammar := ⟨[
      ⟨"S", .capture [.choice [
        .sequence [.tag "A", .link (some "x") (.choice [.nonTerminal "X", .nonTerminal "Y"])],
        .sequence [.tag "B", .nonTerminal "R"]]]⟩,
      ⟨"X", .capture [.tag "X"]⟩, ⟨"Y", .capture [.tag "Y"]⟩,
      ⟨"R", .link none (.nonTerminal "Missing")⟩]⟩
    let registry : Registry := ⟨
      [⟨0, some "S", [.choice [
          [.tag "A", .linked (some "x") [.choice [[.nonTerminal "X" ⟨0⟩], [.nonTerminal "Y" ⟨1⟩]]]],
          [.tag "B", .nonTerminal "R" ⟨2⟩]]]⟩,
        ⟨1, some "X", [.tag "X"]⟩, ⟨2, some "Y", [.tag "Y"]⟩],
      [⟨"S", [.captured 0]⟩, ⟨"X", [.captured 1]⟩, ⟨"Y", [.captured 2]⟩,
        ⟨"R", [.linked none [.nonTerminal "Missing" ⟨3⟩]]⟩]⟩
    grammar.build = .ok registry ∧
    (registry.emission 1).report.skipped = [(0, .undefinedRule "Missing")] ∧
    (registry.emission 1).report.truncated = [(0, "A")] ∧
    ¬ ∀ id ∈ (registry.emission 1).report.skipped.map Prod.fst,
      id ∉ (registry.emission 1).report.truncated.map Prod.fst := by
  intro grammar registry
  have hskipped : (registry.emission 1).report.skipped = [(0, .undefinedRule "Missing")] := by
    rw [Registry.report_skipped]
    rfl
  have hcut : (registry.emission 1).report.truncated = [(0, "A")] := by
    rw [Registry.report_truncated]
    decide +kernel
  refine ⟨by rfl, hskipped, hcut, ?_⟩
  rw [hskipped, hcut]
  decide

end PegTemplates
