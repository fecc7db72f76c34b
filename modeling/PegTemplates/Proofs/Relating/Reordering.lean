import PegTemplates.Proofs.Building.Choosing
import PegTemplates.Proofs.Relating.Adding

/-!
# Rules in another order

How many numbers a rule hands out depends on the rule alone. So two rules that change places
exchange the two blocks of numbers that they hand out, and nothing else is different: the same
shapes and the same bodies are registered under other numbers, in another order. Under distinct
names this is carried from two neighbours to all orders of the rules.
-/

namespace PegTemplates

/-- Numbers of the first block move on by the length of the next one. -/
theorem moveBlock_forth {start middle last number : Nat} (hfrom : start ≤ number)
    (hmiddle : number < middle) :
    moveBlock start (middle - start) (last - middle) number = number + (last - middle) := by
  unfold moveBlock
  split_ifs <;> omega

/-- Numbers behind the blocks stay. -/
theorem moveBlock_of_ge {start middle last number : Nat} (hmiddle : start ≤ middle)
    (hlast : middle ≤ last) (hnumber : last ≤ number) :
    moveBlock start (middle - start) (last - middle) number = number := by
  unfold moveBlock
  split_ifs <;> omega

/-- A rule hands out as many numbers wherever it starts. -/
theorem Rule.numbers_run (rule : Rule) (nextShape nextSite otherShape otherSite : Nat) :
    (rule.run otherShape otherSite).nextShape + nextShape =
        (rule.run nextShape nextSite).nextShape + otherShape ∧
      (rule.run otherShape otherSite).nextSite + nextSite =
        (rule.run nextShape nextSite).nextSite + otherSite := by
  let numbers : Renumbering :=
    ⟨fun id => id + otherShape - nextShape, fun site => site + otherSite - nextSite⟩
  have hmoved : ∀ {number first next : Nat}, first ≤ number →
      number + next - first + first = number + next :=
    fun hfrom => Nat.sub_add_cancel (Nat.le_add_right_of_le hfrom)
  have hrun : Assembly.Renumbered numbers _ _ (rule.run nextShape nextSite)
      (rule.run otherShape otherSite) :=
    rule.run_renumbered (fun _ hfrom _ => hmoved hfrom) fun _ hfrom _ => hmoved hfrom
  exact ⟨hrun.nextShape, hrun.nextSite⟩

section AndThen

variable (first next : Renumbering)

/-- Two renumberings of a body are one. -/
theorem RuleBody.renumber_andThen (body : RuleBody) :
    (body.renumber first).renumber next = body.renumber (first.andThen next) := by
  simp only [RuleBody.renumber, renumberSequence_andThen]

end AndThen

namespace Builder

/-- Whether a builder has come to the same as another one, under new numbers and in another
order. -/
structure Reordered (numbers : Renumbering) (builder other : Builder) : Prop where
  /-- No numbers fall together, and none is left over. -/
  bijective : numbers.Bijective
  /-- Numbers of shapes that have not been handed out stay. -/
  capture : ∀ id, builder.registry.size ≤ id → numbers.capture id = id
  /-- Sites that have not been handed out stay. -/
  site : ∀ site, builder.nextSite ≤ site → numbers.site site = site
  /-- As many shapes are registered. -/
  size : other.registry.size = builder.registry.size
  /-- As many sites are handed out. -/
  nextSite : other.nextSite = builder.nextSite
  /-- The same shapes are registered. -/
  shapes : other.registry.shapes.Perm (builder.registry.shapes.map (·.renumber numbers))
  /-- The same bodies are registered. -/
  rules : other.registry.rules.Perm (builder.registry.rules.map (·.renumber numbers))

/-- Names of the rules that a builder has registered. -/
def names (builder : Builder) : List String := builder.registry.rules.map (·.name)

variable {builder other after otherAfter : Builder} {rule : Rule} {rules : List Rule}

/-- Under a new name a rule adds its name. -/
theorem Adds.names (hadds : builder.Adds rule after) (hnew : rule.name ∉ builder.names) :
    after.names = builder.names ++ [rule.name] := by
  rw [Builder.names, hadds.rules hnew, List.map_append]
  rfl

/-- Of rules with new and distinct names the first is new, and so are the others behind it. -/
theorem nodup_names_cons (hnodup : (builder.names ++ (rule :: rules).map (·.name)).Nodup)
    (hadds : builder.Adds rule after) :
    rule.name ∉ builder.names ∧ (after.names ++ rules.map (·.name)).Nodup := by
  have hnew : rule.name ∉ builder.names := fun hname =>
    (List.nodup_append.mp hnodup).2.2 _ hname _ List.mem_cons_self rfl
  refine ⟨hnew, ?_⟩
  rw [hadds.names hnew, List.append_assoc]
  exact hnodup

/-- Rules of new and distinct names add their names. -/
theorem names_addRules (hnodup : (builder.names ++ rules.map (·.name)).Nodup)
    (hadd : builder.addRules rules = (.ok (), after)) :
    after.names = builder.names ++ rules.map (·.name) := by
  induction rules generalizing builder with
  | nil =>
    cases hadd
    exact (List.append_nil _).symm
  | cons rule rest ih =>
    obtain ⟨middle, hrule, hrest⟩ := addRules_cons.mp hadd
    have hadds := adds_of_addRule hrule
    obtain ⟨hnew, hnodupRest⟩ := nodup_names_cons hnodup hadds
    rw [ih hnodupRest hrest, hadds.names hnew, List.append_assoc]
    rfl

/-- A rule hands out as many numbers to any builder. -/
theorem Adds.numbers (hadds : builder.Adds rule after) (hother : other.Adds rule otherAfter) :
    otherAfter.registry.size + builder.registry.size =
        after.registry.size + other.registry.size ∧
      otherAfter.nextSite + builder.nextSite = after.nextSite + other.nextSite := by
  rw [hadds.size, hadds.nextSite, hother.size, hother.nextSite]
  exact rule.numbers_run _ _ _ _

/-- A rule that one builder can add can be added by any other one. -/
theorem exists_addRule (hadd : builder.addRule rule = (.ok (), after)) (other : Builder) :
    ∃ otherAfter, other.addRule rule = (.ok (), otherAfter) := by
  obtain ⟨elements, built, hbuild, _⟩ := builds_of_addRule hadd
  have houtcome := buildRule_fst builder rule
  have houtcomeOther := buildRule_fst other rule
  rw [hbuild] at houtcome
  cases hword : offenceIn rule.name .rule 0 rule.expr.word with
  | some reason =>
    rw [hword] at houtcome
    cases houtcome
  | none =>
    rw [hword] at houtcomeOther
    obtain ⟨elements, helements⟩ := houtcomeOther
    unfold addRule
    rcases hrule : other.buildRule rule with ⟨outcome, otherBuilt⟩
    rw [hrule] at helements
    obtain rfl : outcome = .ok elements := helements
    exact ⟨_, rfl⟩

namespace Reordered

/-- A builder has come to the same as itself. -/
theorem refl (builder : Builder) : Reordered .id builder builder := by
  have hshape : (fun shape : Shape => shape.renumber .id) = id := by
    funext shape
    simp only [Shape.renumber, renumberSequence_id]
    rfl
  have hbody : (fun body : RuleBody => body.renumber .id) = id := by
    funext body
    simp only [RuleBody.renumber, renumberSequence_id]
    rfl
  refine ⟨⟨Function.bijective_id, Function.bijective_id⟩, fun _ _ => rfl, fun _ _ => rfl, rfl, rfl,
    ?_, ?_⟩
  · rw [hshape, List.map_id]
  · rw [hbody, List.map_id]

/-- Orders can be changed one after the other. -/
theorem trans {first next : Renumbering} {last : Builder} (hfirst : Reordered first builder other)
    (hnext : Reordered next other last) : Reordered (first.andThen next) builder last := by
  refine ⟨⟨hnext.bijective.1.comp hfirst.bijective.1, hnext.bijective.2.comp hfirst.bijective.2⟩,
    ?_, ?_, hnext.size.trans hfirst.size, hnext.nextSite.trans hfirst.nextSite, ?_, ?_⟩
  · intro id hid
    change next.capture (first.capture id) = id
    rw [hfirst.capture id hid, hnext.capture id (hfirst.size ▸ hid)]
  · intro site hsite
    change next.site (first.site site) = site
    rw [hfirst.site site hsite, hnext.site site (hfirst.nextSite ▸ hsite)]
  · have hshapes := hnext.shapes.trans (hfirst.shapes.map (·.renumber next))
    rw [List.map_map] at hshapes
    exact hshapes.trans (.of_eq (List.map_congr_left fun shape _ =>
      shape.renumber_andThen first next))
  · have hbodies := hnext.rules.trans (hfirst.rules.map (·.renumber next))
    rw [List.map_map] at hbodies
    exact hbodies.trans (.of_eq (List.map_congr_left fun body _ =>
      body.renumber_andThen first next))

variable {numbers : Renumbering}

/-- Both builders have registered rules of the same names. -/
theorem names (hsame : Reordered numbers builder other) : other.names.Perm builder.names := by
  have hnames := hsame.rules.map (·.name)
  rw [List.map_map] at hnames
  exact hnames

/-- A rule under a new name comes to the same in both builders. -/
theorem adds (hsame : Reordered numbers builder other) (hadds : builder.Adds rule after)
    (hother : other.Adds rule otherAfter) (hnew : rule.name ∉ builder.names) :
    Reordered numbers after otherAfter := by
  obtain ⟨hsize, hsites⟩ := hadds.numbers hother
  rw [hsame.size] at hsize
  rw [hsame.nextSite] at hsites
  have hnewOther : rule.name ∉ other.names := fun hname => hnew (hsame.names.mem_iff.mp hname)
  have hkept := hadds.yield_kept hsame.bijective.1.1 (fun id hfrom _ => hsame.capture id hfrom)
    (fun site hfrom _ => hsame.site site hfrom)
  refine ⟨hsame.bijective, fun id hid => hsame.capture id (Nat.le_trans hadds.size_le hid),
    fun site hsite => hsame.site site (Nat.le_trans hadds.nextSite_le hsite),
    Nat.add_right_cancel hsize, Nat.add_right_cancel hsites, ?_, ?_⟩
  · have hshapes := congrArg Yield.shapes hkept
    rw [hadds.shapes, hother.shapes, hsame.size, hsame.nextSite, List.map_append]
    exact hsame.shapes.append (.of_eq hshapes.symm)
  · have helements := congrArg Yield.elements hkept
    rw [hadds.rules hnew, hother.rules hnewOther, hsame.size, hsame.nextSite, List.map_append]
    exact hsame.rules.append (.of_eq (congrArg (fun elements => [RuleBody.mk rule.name elements])
      helements.symm))

/-- Rules of new and distinct names come to the same in both builders. -/
theorem addRules (hsame : Reordered numbers builder other)
    (hnodup : (builder.names ++ rules.map (·.name)).Nodup)
    (hadd : builder.addRules rules = (.ok (), after)) :
    ∃ otherAfter, other.addRules rules = (.ok (), otherAfter) ∧
      Reordered numbers after otherAfter := by
  induction rules generalizing builder other with
  | nil =>
    cases hadd
    exact ⟨other, rfl, hsame⟩
  | cons rule rest ih =>
    obtain ⟨middle, hrule, hrest⟩ := addRules_cons.mp hadd
    obtain ⟨otherMiddle, hruleOther⟩ := exists_addRule hrule other
    obtain ⟨hnew, hnodupRest⟩ := nodup_names_cons hnodup (adds_of_addRule hrule)
    obtain ⟨otherAfter, hlast, hafter⟩ :=
      ih (hsame.adds (adds_of_addRule hrule) (adds_of_addRule hruleOther) hnew) hnodupRest hrest
    exact ⟨otherAfter, addRules_cons.mpr ⟨otherMiddle, hruleOther, hlast⟩, hafter⟩

/-- The numbers that the first rule hands out change places with those of the next one. -/
def swap (builder middle after : Builder) : Renumbering where
  capture := moveBlock builder.registry.size (middle.registry.size - builder.registry.size)
    (after.registry.size - middle.registry.size)
  site := moveBlock builder.nextSite (middle.nextSite - builder.nextSite)
    (after.nextSite - middle.nextSite)

section Swap

variable {first next : Rule} {middle otherMiddle : Builder} (hfirst : builder.Adds first middle)
  (hnext : middle.Adds next after)

include hfirst hnext

/-- The next rule yields the same in place of the first one. -/
theorem swap_yield_next : (next.yield builder.registry.size builder.nextSite).named next.name =
    ((next.yield middle.registry.size middle.nextSite).named next.name).renumber
      (swap builder middle after) :=
  hnext.yield_renumber (moveBlock_bijective _ _ _).1
    (fun _ hfrom hlast => moveBlock_back hfirst.size_le hfrom hlast)
    fun _ hfrom hlast => moveBlock_back hfirst.nextSite_le hfrom hlast

variable (hnextOther : builder.Adds next otherMiddle)

include hnextOther

/-- The first rule yields the same behind the next one. -/
theorem swap_yield_first :
    (first.yield otherMiddle.registry.size otherMiddle.nextSite).named first.name =
      ((first.yield builder.registry.size builder.nextSite).named first.name).renumber
        (swap builder middle after) := by
  obtain ⟨hsize, hsites⟩ := hnext.numbers hnextOther
  have hsizeLe := hnext.size_le
  have hsitesLe := hnext.nextSite_le
  apply hfirst.yield_renumber (moveBlock_bijective _ _ _).1
  · intro id hfrom hlast
    change moveBlock _ _ _ id + _ = _
    rw [moveBlock_forth hfrom hlast]
    omega
  · intro site hfrom hlast
    change moveBlock _ _ _ site + _ = _
    rw [moveBlock_forth hfrom hlast]
    omega

/-- Two rules of new and distinct names can change places. -/
theorem of_swap (hsettled : builder.Settled) (hfirstOther : otherMiddle.Adds first otherAfter)
    (hfirstNew : first.name ∉ builder.names) (hnextNew : next.name ∉ builder.names)
    (hdistinct : first.name ≠ next.name) :
    Reordered (swap builder middle after) after otherAfter := by
  obtain ⟨hsizeFirst, hsitesFirst⟩ := hfirst.numbers hfirstOther
  obtain ⟨hsizeNext, hsitesNext⟩ := hnext.numbers hnextOther
  have hyieldFirst := swap_yield_first hfirst hnext hnextOther
  have hyieldNext := swap_yield_next hfirst hnext
  -- what was registered before both rules holds none of the numbers that change places
  obtain ⟨hshapes, hbodies⟩ := hsettled (swap builder middle after) (moveBlock_bijective _ _ _).1
    (fun _ hid => moveBlock_of_lt hid _ _) fun _ hsite => moveBlock_of_lt hsite _ _
  have hnextLast : next.name ∉ middle.names := by
    rw [hfirst.names hfirstNew, List.mem_append, List.mem_singleton]
    exact not_or.mpr ⟨hnextNew, hdistinct.symm⟩
  have hfirstLast : first.name ∉ otherMiddle.names := by
    rw [hnextOther.names hnextNew, List.mem_append, List.mem_singleton]
    exact not_or.mpr ⟨hfirstNew, hdistinct⟩
  refine ⟨⟨moveBlock_bijective _ _ _, moveBlock_bijective _ _ _⟩,
    fun _ hid => moveBlock_of_ge hfirst.size_le hnext.size_le hid,
    fun _ hsite => moveBlock_of_ge hfirst.nextSite_le hnext.nextSite_le hsite, by omega, by omega,
    ?_, ?_⟩
  · rw [hnext.shapes, hfirst.shapes, hfirstOther.shapes, hnextOther.shapes, hyieldFirst,
      hyieldNext, List.map_append, List.map_append, List.map_congr_left hshapes, List.map_id',
      List.append_assoc, List.append_assoc]
    exact List.perm_append_comm.append_left _
  · have helementsFirst := congrArg Yield.elements hyieldFirst
    have helementsNext := congrArg Yield.elements hyieldNext
    rw [hnext.rules hnextLast, hfirst.rules hfirstNew, hfirstOther.rules hfirstLast,
      hnextOther.rules hnextNew, List.map_append, List.map_append, List.map_congr_left hbodies,
      List.map_id', List.append_assoc, List.append_assoc]
    refine List.Perm.append_left _ ?_
    exact (List.Perm.swap _ _ []).trans (.of_eq (congrArg₂
      (fun body other => [RuleBody.mk first.name body, RuleBody.mk next.name other])
      helementsFirst helementsNext))

end Swap

/-- Rules of new and distinct names come to the same in any order. -/
theorem of_perm {others : List Rule} (hperm : rules.Perm others) (hsettled : builder.Settled)
    (hnodup : (builder.names ++ rules.map (·.name)).Nodup)
    (hadd : builder.addRules rules = (.ok (), after)) :
    ∃ numbers otherAfter, builder.addRules others = (.ok (), otherAfter) ∧
      Reordered numbers after otherAfter := by
  induction hperm generalizing builder after with
  | nil => exact ⟨.id, after, hadd, refl after⟩
  | cons rule _ ih =>
    obtain ⟨middle, hrule, hrest⟩ := addRules_cons.mp hadd
    have hadds := adds_of_addRule hrule
    obtain ⟨_, hnodupRest⟩ := nodup_names_cons hnodup hadds
    obtain ⟨numbers, otherAfter, hlast, hafter⟩ := ih (hadds.settled hsettled) hnodupRest hrest
    exact ⟨numbers, otherAfter, addRules_cons.mpr ⟨middle, hrule, hlast⟩, hafter⟩
  | swap next first rest =>
    -- behind the two rules the builders differ, but all further rules come to the same in both
    obtain ⟨middle, hfirst, hbehind⟩ := addRules_cons.mp hadd
    obtain ⟨last, hnext, hrest⟩ := addRules_cons.mp hbehind
    obtain ⟨otherMiddle, hnextOther⟩ := exists_addRule hnext builder
    obtain ⟨otherLast, hfirstOther⟩ := exists_addRule hfirst otherMiddle
    have hadds := adds_of_addRule hfirst
    obtain ⟨hfirstNew, hnodupMiddle⟩ := nodup_names_cons hnodup hadds
    obtain ⟨hnextNew, hnodupLast⟩ := nodup_names_cons hnodupMiddle (adds_of_addRule hnext)
    rw [hadds.names hfirstNew, List.mem_append, List.mem_singleton, not_or] at hnextNew
    obtain ⟨otherAfter, hlast, hafter⟩ := (of_swap hadds (adds_of_addRule hnext)
      (adds_of_addRule hnextOther) hsettled (adds_of_addRule hfirstOther) hfirstNew hnextNew.1
      (Ne.symm hnextNew.2)).addRules hnodupLast hrest
    refine ⟨_, otherAfter, ?_, hafter⟩
    exact addRules_cons.mpr ⟨otherMiddle, hnextOther, addRules_cons.mpr ⟨otherLast, hfirstOther,
      hlast⟩⟩
  | trans hfirst _ ihFirst ihNext =>
    obtain ⟨numbersFirst, middle, hmiddle, hreordered⟩ := ihFirst hsettled hnodup hadd
    have hnodupMiddle := (((hfirst.map (·.name)).append_left builder.names).nodup_iff).mp hnodup
    obtain ⟨numbersNext, last, hlast, hnext⟩ := ihNext hsettled hnodupMiddle hmiddle
    exact ⟨_, last, hlast, hreordered.trans hnext⟩

end Reordered

end Builder

end PegTemplates
