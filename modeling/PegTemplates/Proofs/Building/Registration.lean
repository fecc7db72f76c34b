import PegTemplates.Proofs.Building.Running

/-!
# What registration keeps

Whatever happens in the walk through a rule, its registry only grows by shapes, each
registered when its capture closes, and behind the walk by the body of the rule. What
these two steps keep is shown to hold of every registry that is built. So shapes carry
the numbers of their positions, and exactly the rules of the grammar have bodies.
-/

namespace PegTemplates

namespace Registry

/-- The registries that registrations can give, whatever is registered. -/
inductive Recorded : Registry → Prop where
  /-- Nothing is registered at first. -/
  | empty : Recorded .empty
  /-- A shape may be registered. -/
  | register {registry : Registry} (elements : List Element) (name : Option String) :
    Recorded registry → Recorded (registry.register elements name)
  /-- The body of a rule may be registered. -/
  | registerRule {registry : Registry} (name : String) (elements : List Element) :
    Recorded registry → Recorded (registry.registerRule name elements)

/-- Whether every shape carries the number of its position. -/
def Numbered (registry : Registry) : Prop :=
  registry.shapes.map Shape.id = List.range registry.size

/-- Giving a shape a name changes no number. -/
theorem ids_modify (shapes : List Shape) (id : ShapeId) (name : String) :
    (shapes.modify id (Shape.nameOnce name)).map Shape.id = shapes.map Shape.id := by
  induction shapes generalizing id with
  | nil => rw [List.modify_nil]
  | cons shape rest ih =>
    cases id with
    | zero => rfl
    | succ id => rw [List.modify_succ_cons, List.map_cons, ih, List.map_cons]

/-- A registration keeps the numbers of the shapes before and numbers the new one. -/
theorem Recorded.numbered {registry : Registry} (hrecorded : registry.Recorded) :
    registry.Numbered := by
  induction hrecorded with
  | empty => rfl
  | @register registry elements name _ ih =>
    have hsize : (registry.register elements name).size = registry.size + 1 := by
      simp [Registry.register, size]
    rw [Numbered, hsize, List.range_succ, ← ih]
    exact List.map_append
  | @registerRule registry name elements _ ih =>
    rw [Numbered, size_registerRule, ← ih]
    unfold Registry.registerRule
    dsimp only
    split
    · exact ids_modify _ _ _
    · rfl

section Numbered

variable {registry : Registry} {shape other : Shape} {id : ShapeId}

/-- The shape at a position carries its number. -/
theorem Numbered.id_of_shape? (hnumbered : registry.Numbered)
    (hshape : registry.shape? id = some shape) : shape.id = id := by
  obtain ⟨hlt, hsame⟩ := List.getElem?_eq_some_iff.mp hshape
  have hid : (registry.shapes.map Shape.id)[id]? = some shape.id := by
    rw [List.getElem?_map, List.getElem?_eq_getElem hlt, hsame, Option.map_some]
  have hsize : id < registry.size := hlt
  rw [hnumbered, List.getElem?_range hsize] at hid
  exact (Option.some.inj hid).symm

/-- A shape stands at the position of its number. -/
theorem Numbered.shape?_id (hnumbered : registry.Numbered) (hshape : shape ∈ registry.shapes) :
    registry.shape? shape.id = some shape := by
  obtain ⟨position, hposition⟩ := List.mem_iff_getElem?.mp hshape
  rw [hnumbered.id_of_shape? hposition]
  exact hposition

/-- Shapes of one number are one shape. -/
theorem Numbered.eq_of_id_eq (hnumbered : registry.Numbered) (hshape : shape ∈ registry.shapes)
    (hother : other ∈ registry.shapes) (hid : shape.id = other.id) : shape = other := by
  have hsame := hnumbered.shape?_id hshape
  rw [hid, hnumbered.shape?_id hother] at hsame
  exact (Option.some.inj hsame).symm

end Numbered

/-- A sequence is made up by one shape if it consists of its capture. -/
theorem soleCapture_eq_some_iff {elements : List Element} {id : ShapeId} :
    soleCapture elements = some id ↔ elements = [.captured id] := by
  unfold soleCapture
  split
  · simp
  · rename_i hother
    simpa using hother id

/-- A body that is put among others is the one that is found by its name from then on. -/
theorem find?_putBody (body : RuleBody) (rules : List RuleBody) (name : String) :
    (putBody body rules).find? (·.name == name) =
      if body.name = name then some body else rules.find? (·.name == name) := by
  induction rules with
  | nil => by_cases hname : body.name = name <;> simp [putBody, hname]
  | cons first rest ih =>
    rw [putBody]
    by_cases hfirst : first.name = body.name
    · rw [if_pos hfirst]
      by_cases hname : body.name = name <;> simp [hfirst, hname]
    · rw [if_neg hfirst, List.find?_cons, ih, List.find?_cons]
      by_cases hname : first.name = name
      · have hother : ¬ body.name = name := fun hbody => hfirst (hname.trans hbody.symm)
        simp [hname, hother]
      · rw [beq_eq_false_iff_ne.mpr hname]

/-- Registering the body of a rule defines that rule and no other one. -/
theorem body?_registerRule (registry : Registry) (name other : String) (elements : List Element) :
    (registry.registerRule name elements).body? other =
      if name = other then some ⟨name, elements⟩ else registry.body? other :=
  find?_putBody ⟨name, elements⟩ registry.rules other

end Registry

/-- Where duplicates are dropped nothing stands twice. -/
theorem nodup_eraseDups {α : Type} [BEq α] [LawfulBEq α] :
    ∀ items : List α, items.eraseDups.Nodup
  | [] => List.nodup_nil
  | item :: rest => by
    rw [List.eraseDups_cons, List.nodup_cons]
    refine ⟨fun hagain => ?_, nodup_eraseDups _⟩
    rw [List.mem_eraseDups, List.mem_filter] at hagain
    simp at hagain
termination_by items => items.length
decreasing_by
  have := List.length_filter_le (fun other => !other == item) rest
  simp only [List.length_cons]
  omega

/-- Among bodies of distinct names one is found by its name exactly if it is there. -/
theorem find?_name_eq_some_iff {rules : List RuleBody} (hnodup : (rules.map (·.name)).Nodup)
    {name : String} {body : RuleBody} :
    rules.find? (·.name == name) = some body ↔ body ∈ rules ∧ body.name = name := by
  induction rules with
  | nil => simp
  | cons first rest ih =>
    rw [List.map_cons, List.nodup_cons] at hnodup
    by_cases hname : first.name = name
    · rw [List.find?_cons_of_pos (by simp [hname]), Option.some.injEq, List.mem_cons]
      constructor
      · rintro rfl
        exact ⟨Or.inl rfl, hname⟩
      · rintro ⟨rfl | hrest, hsame⟩
        · rfl
        · exact absurd (List.mem_map.mpr ⟨body, hrest, hsame.trans hname.symm⟩) hnodup.1
    · rw [List.find?_cons_of_neg (by simp [hname]), ih hnodup.2, List.mem_cons]
      constructor
      · exact fun hfound => ⟨Or.inr hfound.1, hfound.2⟩
      · rintro ⟨rfl | hrest, hsame⟩
        · exact absurd hsame hname
        · exact ⟨hrest, hsame⟩

section Walks

variable {kept : Registry → Prop}

/-- The end of a capture registers a shape. -/
theorem Builder.closeCapture_keeps
    (hregister : ∀ registry elements, kept registry → kept (registry.register elements none))
    {rule : String} {walk after : Walk} (hkept : kept walk.registry)
    (hrun : (closeCapture rule).run walk = .ok () after) : kept after.registry := by
  obtain ⟨_, _, _, _, rfl⟩ := closeCapture_eq_ok.mp hrun
  exact hregister _ _ hkept

/-- A step in a scope of its own leaves the registry that the step leaves. -/
theorem Builder.isolated_keeps {rule : String} {kind : ScopeKind} {step : WalkM Unit}
    (hstep : ∀ {walk inner : Walk}, kept walk.registry → step.run walk = .ok () inner →
      kept inner.registry) {walk after : Walk} {scope : Scope} (hkept : kept walk.registry)
    (hrun : (isolated rule kind step).run walk = .ok scope after) : kept after.registry := by
  have hentered : kept (walk.enter (.opened kind)).registry := hkept
  have hleft : kept (after.enter scope).registry := hstep hentered (isolated_eq_ok.mp hrun).1
  exact hleft

/-- A wrapper leaves the registry that its body leaves. -/
theorem Builder.visit_wrapper_keeps {rule : String} (wrapper : Wrapper) {inner : Expr}
    (hinner : ∀ {walk after : Walk}, kept walk.registry →
      (visit rule inner).run walk = .ok () after → kept after.registry)
    {walk after : Walk} (hkept : kept walk.registry)
    (hrun : (visit rule (wrapper.expr inner)).run walk = .ok () after) : kept after.registry := by
  obtain ⟨scope, last, hisolated, rfl⟩ := visit_wrapper_eq_ok.mp hrun
  have hleft : kept last.registry := isolated_keeps hinner hkept hisolated
  exact hleft

/-- A fold registers nothing. -/
theorem Walk.registry_openFold (walk : Walk) (label : Option String) :
    (walk.openFold label).registry = walk.registry :=
  congrArg Builder.registry walk.takeHead_eq.2.1

variable (rule : String)

mutual

/-- A visit that is accepted keeps what the registration of shapes keeps. -/
theorem Builder.visit_keeps
    (hregister : ∀ registry elements, kept registry → kept (registry.register elements none)) :
    ∀ (expr : Expr) {walk after : Walk}, kept walk.registry →
      (visit rule expr).run walk = .ok () after → kept after.registry
  | .sequence items, _, _, hkept, hrun => visitItems_keeps hregister items hkept hrun
  | .choice branches, _, _, hkept, hrun => by
    obtain ⟨sequences, last, hbranches, rfl⟩ := visit_choice_eq_ok.mp hrun
    have hleft : kept last.registry := visitBranches_keeps hregister branches hkept hbranches
    exact hleft
  | .optional inner, _, _, hkept, hrun =>
    visit_wrapper_keeps .optional (visit_keeps hregister inner) hkept hrun
  | .zeroOrMore inner, _, _, hkept, hrun =>
    visit_wrapper_keeps .zeroOrMore (visit_keeps hregister inner) hkept hrun
  | .oneOrMore inner, _, _, hkept, hrun =>
    visit_wrapper_keeps .oneOrMore (visit_keeps hregister inner) hkept hrun
  | .link label inner, _, _, hkept, hrun =>
    visit_wrapper_keeps (.link label) (visit_keeps hregister inner) hkept hrun
  | .endCapture, _, _, hkept, hrun => closeCapture_keeps hregister hkept hrun
  | .fold label, walk, _, hkept, rfl => by
    change kept (walk.openFold label).registry
    rwa [walk.registry_openFold]
  | .byte _, _, _, hkept, rfl | .tag _, _, _, hkept, rfl | .nonTerminal _, _, _, hkept, rfl
  | .beginCapture, _, _, hkept, rfl | .empty, _, _, hkept, rfl | .any, _, _, hkept, rfl
  | .byteSet _, _, _, hkept, rfl | .followedBy _, _, _, hkept, rfl
  | .notFollowedBy _, _, _, hkept, rfl => hkept

/-- Items that are accepted keep what the registration of shapes keeps. -/
theorem Builder.visitItems_keeps
    (hregister : ∀ registry elements, kept registry → kept (registry.register elements none)) :
    ∀ (items : List Expr) {walk after : Walk}, kept walk.registry →
      (visitItems rule items).run walk = .ok () after → kept after.registry
  | [], _, _, hkept, rfl => hkept
  | item :: rest, _, _, hkept, hrun => by
    obtain ⟨last, hitem, hrest⟩ := visitItems_cons_eq_ok.mp hrun
    exact visitItems_keeps hregister rest (visit_keeps hregister item hkept hitem) hrest

/-- Branches that are accepted keep what the registration of shapes keeps. -/
theorem Builder.visitBranches_keeps
    (hregister : ∀ registry elements, kept registry → kept (registry.register elements none)) :
    ∀ (branches : List Expr) {walk after : Walk}
      {sequences : List (List Element)}, kept walk.registry →
      (visitBranches rule branches).run walk = .ok sequences after → kept after.registry
  | [], _, _, _, hkept, rfl => hkept
  | branch :: rest, _, _, _, hkept, hrun => by
    obtain ⟨scope, last, others, hbranch, hrest, rfl⟩ := visitBranches_cons_eq_ok.mp hrun
    exact visitBranches_keeps hregister rest
      (isolated_keeps (visit_keeps hregister branch) hkept hbranch) hrest

end

end Walks

/-- A rule that is added leaves the registry of its walk with its body. -/
theorem Builder.registry_addRule {builder after : Builder} {rule : Rule}
    (hadd : builder.addRule rule = (.ok (), after)) :
    ∃ walk, (visit rule.name rule.expr).run (.start builder) = .ok () walk ∧
      after.registry = walk.registry.registerRule rule.name walk.current.elements := by
  unfold addRule at hadd
  split at hadd
  · rename_i elements last hbuild
    cases hadd
    obtain ⟨walk, hrun, _, rfl, rfl⟩ := buildRule_eq_ok.mp hbuild
    refine ⟨walk, hrun, ?_⟩
    rfl
  · cases hadd

/-- Rules that are added keep what the registration of shapes and of the bodies of the rules
added so far keeps. -/
theorem Builder.addRules_keeps {kept : List Rule → Registry → Prop}
    (hregister : ∀ added registry elements, kept added registry →
      kept added (registry.register elements none))
    (hregisterRule : ∀ added (rule : Rule) registry elements, kept added registry →
      kept (added ++ [rule]) (registry.registerRule rule.name elements))
    {builder after : Builder} {added rules : List Rule} (hkept : kept added builder.registry)
    (hadd : builder.addRules rules = (.ok (), after)) : kept (added ++ rules) after.registry := by
  induction rules generalizing builder added with
  | nil =>
    cases hadd
    rwa [List.append_nil]
  | cons rule rest ih =>
    unfold addRules at hadd
    split at hadd
    · rename_i hfirst
      obtain ⟨walk, hrun, hafter⟩ := registry_addRule hfirst
      have hstart : kept added (Walk.start builder).registry := hkept
      have hwalk := visit_keeps rule.name (hregister added) rule.expr hstart hrun
      have hrule := hregisterRule added rule _ walk.current.elements hwalk
      rw [← hafter] at hrule
      have hall := ih hrule hadd
      rwa [List.append_assoc] at hall
    · cases hadd

/-- Induction along the registrations that building a grammar makes: what they keep is true
of its rules and its registry. -/
theorem Grammar.build_induction {motive : List Rule → Registry → Prop}
    (empty : motive [] .empty)
    (register : ∀ added registry elements, motive added registry →
      motive added (registry.register elements none))
    (registerRule : ∀ added (rule : Rule) registry elements, motive added registry →
      motive (added ++ [rule]) (registry.registerRule rule.name elements))
    {grammar : Grammar} {registry : Registry} (hbuild : grammar.build = .ok registry) :
    motive grammar.rules registry := by
  unfold Grammar.build at hbuild
  split at hbuild
  · rename_i hadd
    cases hbuild
    have hfresh : motive [] Builder.fresh.registry := empty
    exact Builder.addRules_keeps register registerRule hfresh hadd
  · cases hbuild

section Build

variable {grammar : Grammar} {registry : Registry} (hbuild : grammar.build = .ok registry)

include hbuild

/-- The registry of a grammar comes from registrations. -/
theorem Grammar.build_recorded : registry.Recorded := by
  refine build_induction (motive := fun _ registry => registry.Recorded) .empty ?_ ?_ hbuild
  · exact fun _ _ elements hrecorded => .register elements none hrecorded
  · exact fun _ rule _ elements hrecorded => .registerRule rule.name elements hrecorded

/-- In the registry of a grammar shapes carry the numbers of their positions. -/
theorem Grammar.build_numbered : registry.Numbered := (build_recorded hbuild).numbered

/-- In the registry of a grammar a rule is undefined exactly if the grammar has none of its
name. -/
theorem Grammar.body?_eq_none_iff (name : String) :
    registry.body? name = none ↔ ∀ rule ∈ grammar.rules, rule.name ≠ name := by
  refine build_induction (motive := fun added registry =>
    registry.body? name = none ↔ ∀ rule ∈ added, rule.name ≠ name) ?_ ?_ ?_ hbuild
  · exact ⟨fun _ _ hrule => absurd hrule List.not_mem_nil, fun _ => rfl⟩
  · exact fun _ _ _ hnames => hnames
  · intro added rule registry elements hnames
    rw [Registry.body?_registerRule, List.forall_mem_append, ← hnames, List.forall_mem_singleton]
    by_cases hname : rule.name = name <;> simp [hname]

end Build

end PegTemplates
