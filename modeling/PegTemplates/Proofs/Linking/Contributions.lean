import PegTemplates.Proofs.Expanding.Reports
import PegTemplates.Proofs.Linking.Readings

/-!
# What a link body contributes

The parts found for a link body are shown to be what its readings give, if the full expansion
of the body comes to an end and meets no site twice. A branch in which nothing can be read is
dropped beside one in which something can be, so only the readings that do not take such
branches count.
-/

namespace PegTemplates

/-- What is found for two parts in a row is found for the first and joined to what is found for
the second. Where nothing is found, the empty part stands. -/
theorem Expansion.mem_joinParts_iff {found others : Option (List LinkedInner)}
    {part : LinkedInner} (hwell : ∀ first ∈ found.getD [.empty], first.WellFormed) :
    part ∈ (joinParts found others).getD [.empty] ↔
      ∃ first ∈ found.getD [.empty], ∃ next ∈ others.getD [.empty], part = first.join next := by
  cases found with
  | none => simp [joinParts, LinkedInner.empty_join]
  | some parts =>
    cases others with
    | none =>
      simp only [joinParts, Option.getD_some, Option.getD_none, List.mem_singleton,
        exists_eq_left]
      constructor
      · exact fun hmem => ⟨part, hmem, (LinkedInner.join_empty (hwell part hmem)).symm⟩
      · rintro ⟨first, hfirst, rfl⟩
        rwa [LinkedInner.join_empty (hwell first hfirst)]
    | some more => simp [joinParts, eq_comm]

namespace Registry

/-- Whether the parts found for a sequence are what its readings give. -/
structure Contributes (registry : Registry) (elements : List Element)
    (found : Option (List LinkedInner)) : Prop where
  /-- There is a reading. -/
  reads : ∃ word, registry.LinkReads registry.speakingBranch elements word
  /-- Nothing at all is found exactly if nothing can be read. -/
  silent : found = none ↔ registry.Silent elements
  /-- Every part is what a reading gives, and every reading gives a part. -/
  parts : ∀ part, part ∈ found.getD [.empty] ↔
    ∃ word, registry.LinkReads registry.speakingBranch elements word ∧ part = .ofWord word

/-- Whether the parts found for some branches of a choice are what the readings of those
branches give in which something can be read. -/
structure ContributesAmong (registry : Registry) (branches : List (List Element))
    (found : Option (List LinkedInner)) : Prop where
  /-- Every branch has a reading. -/
  reads : ∀ branch ∈ branches, ∃ word, registry.LinkReads registry.speakingBranch branch word
  /-- Nothing at all is found exactly if nothing can be read in any branch. -/
  silent : found = none ↔ ∀ branch ∈ branches, registry.Silent branch
  /-- Every part is what a reading of such a branch gives, and every one gives a part. -/
  parts : ∀ part, part ∈ found.getD [] ↔ ∃ branch ∈ branches, ¬ registry.Silent branch ∧
    ∃ word, registry.LinkReads registry.speakingBranch branch word ∧ part = .ofWord word

variable {registry : Registry} {first next branch : List Element} {element : Element}
  {branches : List (List Element)} {found others : Option (List LinkedInner)}

/-- Where nothing can be read, the empty word is read under every rule that leaves a reading. -/
theorem Silent.reads_iff {allowed : BranchRule} {word : List LinkAtom}
    (hsilent : registry.Silent first) (hreads : ∃ word, registry.LinkReads allowed first word) :
    registry.LinkReads allowed first word ↔ word = [] := by
  constructor
  · exact fun hword => hsilent word hword.any
  · rintro rfl
    obtain ⟨word, hword⟩ := hreads
    exact hsilent word hword.any ▸ hword

/-- An empty sequence contributes nothing. -/
theorem contributes_nil : registry.Contributes [] none := by
  have hreads : ∃ word, registry.LinkReads registry.speakingBranch [] word := ⟨[], .nil⟩
  have hsilent : registry.Silent [] := by
    rintro word ⟨⟩
    rfl
  refine ⟨hreads, ⟨fun _ => hsilent, fun _ => rfl⟩, fun part => ?_⟩
  simp only [hsilent.reads_iff hreads, exists_eq_left]
  exact List.mem_singleton

/-- An element that is read as one word contributes what that word gives. -/
theorem contributes_of_word (atom : LinkAtom)
    (hword : ∀ (allowed : BranchRule) (word : List LinkAtom),
      registry.LinkReadsElement allowed element word ↔ word = [atom]) :
    registry.Contributes [element] (some [.ofAtom atom]) := by
  have hreads : ∀ (allowed : BranchRule) (word : List LinkAtom),
      registry.LinkReads allowed [element] word ↔ word = [atom] := by
    intro allowed word
    rw [LinkReads.singleton_iff, hword]
  refine ⟨⟨[atom], (hreads _ _).mpr rfl⟩, ⟨fun hnone => (by cases hnone), fun hsilent => ?_⟩, ?_⟩
  · exact nomatch hsilent [atom] ((hreads _ _).mpr rfl)
  · intro part
    have hgives : LinkedInner.ofWord [atom] = .ofAtom atom :=
      LinkedInner.join_empty (by cases atom <;> simp [LinkedInner.WellFormed,
        LinkedInner.ofAtom, LinkedInner.ofByte, LinkedInner.ofCapture])
    simp only [hreads, exists_eq_left, hgives]
    exact List.mem_singleton

/-- A byte contributes itself as text. -/
theorem contributes_byte (value : UInt8) :
    registry.Contributes [.byte value] (some [.ofByte value]) := by
  refine contributes_of_word (.byte value) fun allowed word => ⟨fun hword => ?_, ?_⟩
  · cases hword with
    | byte => rfl
    | passedOver hpassed => cases hpassed
  · rintro rfl
    exact .byte

/-- A capture contributes itself. -/
theorem contributes_captured (id : ShapeId) :
    registry.Contributes [.captured id] (some [.ofCapture id]) := by
  refine contributes_of_word (.captured id) fun allowed word => ⟨fun hword => ?_, ?_⟩
  · cases hword with
    | captured => rfl
    | passedOver hpassed => cases hpassed
  · rintro rfl
    exact .captured

/-- An element that is passed over contributes nothing. -/
theorem contributes_of_passedOver (hpassed : element.isPassedOver = true) :
    registry.Contributes [element] none := by
  have hreads : ∃ word, registry.LinkReads registry.speakingBranch [element] word :=
    ⟨[], LinkReads.singleton_iff.mpr (.passedOver hpassed)⟩
  have hsilent : registry.Silent [element] := by
    intro word hword
    cases LinkReads.singleton_iff.mp hword with
    | passedOver _ => rfl
    | noBranch => rfl
    | _ => cases hpassed
  refine ⟨hreads, ⟨fun _ => hsilent, fun _ => rfl⟩, fun part => ?_⟩
  simp only [hsilent.reads_iff hreads, exists_eq_left]
  exact List.mem_singleton

/-- A reference contributes what the body of its rule does. -/
theorem Contributes.nonTerminal {name : String} {body : RuleBody}
    (hbody : registry.body? name = some body) (hfound : registry.Contributes body.elements found)
    (site : Site) : registry.Contributes [.nonTerminal name site] found := by
  have hreads : ∀ word, registry.LinkReads registry.speakingBranch [.nonTerminal name site] word ↔
      registry.LinkReads registry.speakingBranch body.elements word := by
    intro word
    rw [LinkReads.singleton_iff]
    constructor
    · intro hword
      cases hword with
      | nonTerminal hother hword =>
        obtain rfl := Option.some.inj (hbody.symm.trans hother)
        exact hword
      | passedOver hpassed => cases hpassed
    · exact .nonTerminal hbody
  refine ⟨?_, ?_, ?_⟩
  · simpa only [hreads] using hfound.reads
  · rw [silent_nonTerminal_iff hbody]
    exact hfound.silent
  · simpa only [hreads] using hfound.parts

/-- What two sequences contribute is joined. -/
theorem Contributes.append (hfirst : registry.Contributes first found)
    (hnext : registry.Contributes next others) :
    registry.Contributes (first ++ next) (Expansion.joinParts found others) := by
  obtain ⟨before, hbefore⟩ := hfirst.reads
  obtain ⟨behind, hbehind⟩ := hnext.reads
  refine ⟨⟨_, LinkReads.append_iff.mpr ⟨before, behind, hbefore, hbehind, rfl⟩⟩, ?_, ?_⟩
  · rw [silent_append_iff ⟨before, hbefore.any⟩ ⟨behind, hbehind.any⟩, ← hfirst.silent,
      ← hnext.silent]
    cases found <;> cases others <;> simp [Expansion.joinParts]
  · intro part
    have hwell : ∀ first ∈ found.getD [.empty], first.WellFormed := by
      intro first hmem
      obtain ⟨word, _, rfl⟩ := (hfirst.parts first).mp hmem
      exact LinkedInner.wellFormed_ofWord word
    rw [Expansion.mem_joinParts_iff hwell]
    constructor
    · rintro ⟨left, hleft, right, hright, rfl⟩
      obtain ⟨word, hword, rfl⟩ := (hfirst.parts left).mp hleft
      obtain ⟨more, hmore, rfl⟩ := (hnext.parts right).mp hright
      exact ⟨word ++ more, LinkReads.append_iff.mpr ⟨word, more, hword, hmore, rfl⟩,
        (LinkedInner.ofWord_append word more).symm⟩
    · rintro ⟨_, hreads, rfl⟩
      obtain ⟨word, more, hword, hmore, rfl⟩ := LinkReads.append_iff.mp hreads
      exact ⟨_, (hfirst.parts _).mpr ⟨word, hword, rfl⟩, _, (hnext.parts _).mpr ⟨more, hmore, rfl⟩,
        LinkedInner.ofWord_append word more⟩

/-- Without branches nothing is contributed. -/
theorem contributesAmong_nil : registry.ContributesAmong [] none :=
  ⟨fun _ hmem => absurd hmem List.not_mem_nil,
    ⟨fun _ _ hmem => absurd hmem List.not_mem_nil, fun _ => rfl⟩,
    fun _ => ⟨fun hmem => absurd hmem List.not_mem_nil,
      fun ⟨_, hmem, _⟩ => absurd hmem List.not_mem_nil⟩⟩

/-- What a branch contributes in which something can be read is listed behind what the branches
before it contribute. -/
theorem ContributesAmong.append (hfound : registry.ContributesAmong branches found)
    (hbranch : registry.Contributes branch others) :
    registry.ContributesAmong (branches ++ [branch]) (Expansion.unionParts found others) := by
  have hlisted : ∀ part, part ∈ (Expansion.unionParts found others).getD [] ↔
      part ∈ found.getD [] ∨ part ∈ others.getD [] := by
    intro part
    cases found <;> cases others <;> simp [Expansion.unionParts]
  have hspoken : ∀ part, part ∈ others.getD [] ↔ ¬ registry.Silent branch ∧
      ∃ word, registry.LinkReads registry.speakingBranch branch word ∧ part = .ofWord word := by
    intro part
    rw [← hbranch.silent, ← hbranch.parts part]
    cases others <;> simp
  refine ⟨?_, ?_, ?_⟩
  · intro other hmem
    rcases List.mem_append.mp hmem with hearlier | hlast
    · exact hfound.reads other hearlier
    · obtain rfl := List.mem_singleton.mp hlast
      exact hbranch.reads
  · rw [List.forall_mem_append, ← hfound.silent, List.forall_mem_singleton, ← hbranch.silent]
    cases found <;> cases others <;> simp [Expansion.unionParts]
  · intro part
    rw [hlisted, hfound.parts, hspoken]
    simp only [List.mem_append, List.mem_singleton, or_and_right, exists_or, exists_eq_left]

/-- A choice contributes what its branches do in which something can be read. -/
theorem ContributesAmong.choice (hfound : registry.ContributesAmong branches found) :
    registry.Contributes [.choice branches] found := by
  by_cases hsilent : registry.Silent [.choice branches]
  · -- nothing can be read in any branch, so any of them may be taken
    have hnone : found = none := hfound.silent.mpr (silent_choice_iff.mp hsilent)
    have hreads : ∃ word, registry.LinkReads registry.speakingBranch [.choice branches] word := by
      cases branches with
      | nil => exact ⟨[], LinkReads.singleton_iff.mpr .noBranch⟩
      | cons branch rest =>
        obtain ⟨word, hword⟩ := hfound.reads branch List.mem_cons_self
        exact ⟨word, LinkReads.singleton_iff.mpr
          (.choice List.mem_cons_self (fun _ => silent_choice_iff.mp hsilent) hword)⟩
    refine ⟨hreads, ⟨fun _ => hsilent, fun _ => hnone⟩, fun part => ?_⟩
    simp only [hnone, hsilent.reads_iff hreads, exists_eq_left]
    exact List.mem_singleton
  · -- something can be read in some branch, so only such branches may be taken
    have hreads : ∀ word, registry.LinkReads registry.speakingBranch [.choice branches] word ↔
        ∃ branch ∈ branches, ¬ registry.Silent branch ∧
          registry.LinkReads registry.speakingBranch branch word := by
      intro word
      rw [LinkReads.singleton_iff]
      constructor
      · intro hword
        cases hword with
        | choice hbranch hmay hword =>
          exact ⟨_, hbranch, fun hbranchSilent =>
            hsilent (silent_choice_iff.mpr (hmay hbranchSilent)), hword⟩
        | noBranch =>
          exact absurd (silent_choice_iff.mpr fun _ hmem => absurd hmem List.not_mem_nil) hsilent
        | passedOver hpassed => cases hpassed
      · rintro ⟨branch, hbranch, hspeaks, hword⟩
        exact .choice hbranch (fun hbranchSilent => absurd hbranchSilent hspeaks) hword
    have hsome : found ≠ none := fun hnone =>
      hsilent (silent_choice_iff.mpr (hfound.silent.mp hnone))
    obtain ⟨parts, rfl⟩ := Option.ne_none_iff_exists'.mp hsome
    refine ⟨?_, ⟨fun hnone => absurd hnone hsome, fun hother => absurd hother hsilent⟩, ?_⟩
    · have hspeaks : ∃ branch ∈ branches, ¬ registry.Silent branch := by
        by_contra hnone
        push Not at hnone
        exact hsilent (silent_choice_iff.mpr hnone)
      obtain ⟨branch, hbranch, hspeaks⟩ := hspeaks
      obtain ⟨word, hword⟩ := hfound.reads branch hbranch
      exact ⟨word, (hreads word).mpr ⟨branch, hbranch, hspeaks, hword⟩⟩
    · intro part
      refine (hfound.parts part).trans ?_
      simp only [hreads]
      constructor
      · rintro ⟨branch, hbranch, hspeaks, word, hword, rfl⟩
        exact ⟨word, ⟨branch, hbranch, hspeaks, hword⟩, rfl⟩
      · rintro ⟨word, ⟨branch, hbranch, hspeaks, hword⟩, rfl⟩
        exact ⟨branch, hbranch, hspeaks, word, hword, rfl⟩

end Registry

namespace Expansion

variable {registry : Registry} {depth : Nat} {elements : List Element} {sites : List Site}

/-- What is done at a reference in a link body, through at most that many further ones. -/
def enterLink (registry : Registry) (depth : Nat) :
    String → Site → ExpandM (Option (List LinkedInner)) :=
  follow registry .repeatedReferenceInLink none (fun enter => innersOfSequence enter none) depth

/-- Whether a step finds these sites new, expands them, and comes to a result that is as said. -/
def Finds (sites : List Site) (holds : Option (List LinkedInner) → Prop)
    (step : ExpandM (Option (List LinkedInner))) : Prop :=
  ∀ before : Progress, (∀ site ∈ sites, site ∉ before.expanded) →
    ∃ found after, step.run before = .ok found after ∧
      after.expanded = sites.reverse ++ before.expanded ∧ holds found

variable {holds other : Option (List LinkedInner) → Prop}
  {step : ExpandM (Option (List LinkedInner))}

/-- A step that only gives a result expands no site. -/
theorem Finds.pure {found : Option (List LinkedInner)} (hfound : holds found) :
    Finds [] holds (pure found) :=
  fun before _ => ⟨found, before, rfl, rfl, hfound⟩

/-- What a step finds is also as anything says that follows from it. -/
theorem Finds.imp (hstep : Finds sites other step) (himp : ∀ {found}, other found → holds found) :
    Finds sites holds step := by
  intro before hnew
  obtain ⟨found, after, hrun, hexpanded, hfound⟩ := hstep before hnew
  exact ⟨found, after, hrun, hexpanded, himp hfound⟩

/-- A step expands its sites and then the next one those behind them, if none is met twice. -/
theorem Finds.bind {next : Option (List LinkedInner) → ExpandM (Option (List LinkedInner))}
    {first sites : List Site} (honce : (first ++ sites).Nodup) (hstep : Finds first other step)
    (hnext : ∀ found, other found → Finds sites holds (next found)) :
    Finds (first ++ sites) holds (step >>= next) := by
  intro before hnew
  obtain ⟨hfirstNew, hsitesNew⟩ := List.forall_mem_append.mp hnew
  obtain ⟨found, between, hrun, hexpanded, hfound⟩ := hstep before hfirstNew
  have hstillNew : ∀ site ∈ sites, site ∉ between.expanded := by
    intro site hsite hmem
    rw [hexpanded, List.mem_append, List.mem_reverse] at hmem
    rcases hmem with hfirst | hbefore
    · exact (List.nodup_append.mp honce).2.2 site hfirst site hsite rfl
    · exact hsitesNew site hsite hbefore
  obtain ⟨result, after, hrest, hafter, hresult⟩ := hnext found hfound between hstillNew
  refine ⟨result, after, ?_, ?_, hresult⟩
  · rw [EStateM.run_bind, hrun]
    exact hrest
  · rw [hafter, hexpanded, List.reverse_append, List.append_assoc]

/-- Following a reference finds what the body of its rule contributes, if that may be followed
through one reference less. -/
theorem finds_enterLink {name : String} {site : Site} {body : RuleBody} {sites : List Site}
    {depth : Nat} (hbody : registry.body? name = some body) (honce : (site :: sites).Nodup)
    (hinner : Finds sites holds (innersOfSequence (enterLink registry depth) none body.elements)) :
    Finds (site :: sites) holds (enterLink registry (depth + 1) name site) := by
  intro before hnew
  obtain ⟨hsite, hsites⟩ := List.forall_mem_cons.mp hnew
  have hinnerNew : ∀ inner ∈ sites, inner ∉ site :: before.expanded := by
    intro inner hmem hseen
    rcases List.mem_cons.mp hseen with rfl | hbefore
    · exact (List.nodup_cons.mp honce).1 hmem
    · exact hsites inner hmem hbefore
  obtain ⟨found, after, hrun, hexpanded, hfound⟩ :=
    hinner { before with expanded := site :: before.expanded } hinnerNew
  refine ⟨found, after, ?_, ?_, hfound⟩
  · rw [enterLink, follow, run_once, if_neg hsite, hbody]
    exact hrun
  · rw [hexpanded, List.reverse_cons, List.append_assoc, List.singleton_append]

mutual

/-- What is found for an element is what it contributes. -/
theorem innersOfElement_contributes {element : Element} {sites : List Site} {depth : Nat}
    (honce : sites.Nodup) (hdepth : sites.length ≤ depth) :
    registry.LinkExpandsElement element sites →
      Finds sites (registry.Contributes [element])
        (innersOfElement (enterLink registry depth) element)
  | .byte => .pure (Registry.contributes_byte _)
  | .captured => .pure (Registry.contributes_captured _)
  | .passedOver hpassed => by
    have hnothing : innersOfElement (enterLink registry depth) element = pure none := by
      cases element <;> first | rfl | cases hpassed
    rw [hnothing]
    exact .pure (Registry.contributes_of_passedOver hpassed)
  | .nonTerminal hbody hexpands => by
    cases depth with
    | zero => cases hdepth
    | succ depth =>
      exact finds_enterLink hbody honce <|
        (innersOfSequence_contributes (List.nodup_cons.mp honce).2 (Nat.le_of_succ_le_succ hdepth)
          Registry.contributes_nil hexpands).imp fun hfound => hfound.nonTerminal hbody _
  | .choice hbranches =>
    (innersOfBranches_contributes honce hdepth Registry.contributesAmong_nil hbranches).imp
      fun hfound => hfound.choice

/-- What is found for a sequence behind another one is what both contribute. -/
theorem innersOfSequence_contributes {earlier elements : List Element} {sites : List Site}
    {depth : Nat} {found : Option (List LinkedInner)} (honce : sites.Nodup)
    (hdepth : sites.length ≤ depth) (hfound : registry.Contributes earlier found) :
    registry.LinkExpands elements sites →
      Finds sites (registry.Contributes (earlier ++ elements))
        (innersOfSequence (enterLink registry depth) found elements)
  | .nil => .pure (by rwa [List.append_nil])
  | .cons helement hrest => by
    rw [List.length_append] at hdepth
    have hfirst := innersOfElement_contributes (List.nodup_append.mp honce).1
      (Nat.le_trans (Nat.le_add_right ..) hdepth) helement
    refine .bind honce hfirst fun next hnext => ?_
    have hboth := innersOfSequence_contributes (List.nodup_append.mp honce).2.1
      (Nat.le_trans (Nat.le_add_left ..) hdepth) (hfound.append hnext) hrest
    rwa [List.append_assoc, List.singleton_append] at hboth

/-- What is found for branches behind others is what all of them contribute. -/
theorem innersOfBranches_contributes {earlier branches : List (List Element)} {sites : List Site}
    {depth : Nat} {found : Option (List LinkedInner)} (honce : sites.Nodup)
    (hdepth : sites.length ≤ depth) (hfound : registry.ContributesAmong earlier found) :
    registry.LinkExpandsBranches branches sites →
      Finds sites (registry.ContributesAmong (earlier ++ branches))
        (innersOfBranches (enterLink registry depth) found branches)
  | .nil => .pure (by rwa [List.append_nil])
  | .cons hbranch hrest => by
    rw [List.length_append] at hdepth
    have hfirst := innersOfSequence_contributes (List.nodup_append.mp honce).1
      (Nat.le_trans (Nat.le_add_right ..) hdepth) Registry.contributes_nil hbranch
    refine .bind honce hfirst fun next hnext => ?_
    have hboth := innersOfBranches_contributes (List.nodup_append.mp honce).2.1
      (Nat.le_trans (Nat.le_add_left ..) hdepth) (hfound.append hnext) hrest
    rwa [List.append_assoc, List.singleton_append] at hboth

end

end Expansion

end PegTemplates
