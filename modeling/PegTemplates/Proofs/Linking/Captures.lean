import PegTemplates.Builder
import PegTemplates.Proofs.Expanding.Layouts
import PegTemplates.Proofs.Linking.Contributions

/-!
# Captures of a link body

For a link body whose full expansion comes to an end and meets no site twice, the search for
captures is shown to succeed. What it gives are readings of the body, one for each capture,
with the text before and behind that capture. A capture is given exactly if it is the last one
of a reading that takes no branch in which nothing can be read beside one in which something
can be; so a capture can be missed that is the last one only where such a branch is taken.
-/

namespace PegTemplates

namespace Expansion

variable {seen : List ShapeId} {parts : List LinkedInner} {id : ShapeId}

/-- What is kept of some parts are parts with a capture that has not been seen. -/
theorem of_mem_distinctCaptures {inner : LinkedInner}
    (hkept : inner ∈ distinctCaptures seen parts) :
    inner ∈ parts ∧ ∃ id, inner.capture = some id ∧ id ∉ seen := by
  induction parts generalizing seen with
  | nil => cases hkept
  | cons part rest ih =>
    unfold distinctCaptures at hkept
    cases hcapture : part.capture with
    | none =>
      rw [hcapture] at hkept
      obtain ⟨hmem, hnew⟩ := ih hkept
      exact ⟨List.mem_cons_of_mem _ hmem, hnew⟩
    | some id =>
      simp only [hcapture, List.contains_eq_mem, decide_eq_true_eq] at hkept
      split at hkept
      · obtain ⟨hmem, hnew⟩ := ih hkept
        exact ⟨List.mem_cons_of_mem _ hmem, hnew⟩
      · rename_i hid
        rcases List.mem_cons.mp hkept with rfl | hlater
        · exact ⟨List.mem_cons_self, id, hcapture, hid⟩
        · obtain ⟨hmem, other, hother, hnew⟩ := ih hlater
          exact ⟨List.mem_cons_of_mem _ hmem, other, hother,
            fun hseen => hnew (List.mem_cons_of_mem _ hseen)⟩

/-- No capture is kept twice. -/
theorem nodup_distinctCaptures (seen : List ShapeId) (parts : List LinkedInner) :
    ((distinctCaptures seen parts).map (·.capture)).Nodup := by
  induction parts generalizing seen with
  | nil => exact List.nodup_nil
  | cons part rest ih =>
    unfold distinctCaptures
    cases hcapture : part.capture with
    | none => exact ih seen
    | some id =>
      dsimp only
      split
      · exact ih seen
      · rw [List.map_cons, List.nodup_cons]
        refine ⟨fun hagain => ?_, ih (id :: seen)⟩
        obtain ⟨inner, hinner, hsame⟩ := List.mem_map.mp hagain
        obtain ⟨_, other, hother, hnew⟩ := of_mem_distinctCaptures hinner
        rw [hsame, hcapture] at hother
        exact hnew (Option.some.inj hother ▸ List.mem_cons_self)

/-- The captures that are kept are those that have not been seen. -/
theorem mem_captures_distinctCaptures :
    some id ∈ (distinctCaptures seen parts).map (·.capture) ↔
      id ∉ seen ∧ some id ∈ parts.map (·.capture) := by
  induction parts generalizing seen with
  | nil => simp [distinctCaptures]
  | cons part rest ih =>
    unfold distinctCaptures
    cases hcapture : part.capture with
    | none => simpa [hcapture] using ih
    | some other =>
      by_cases hother : other ∈ seen
      · simp only [List.contains_eq_mem, hother, decide_true, if_true, ih, List.map_cons,
          hcapture, List.mem_cons, Option.some.injEq]
        refine and_congr_right fun hid => (or_iff_right ?_).symm
        rintro rfl
        exact hid hother
      · simp only [List.contains_eq_mem, hother, decide_false, Bool.false_eq_true, if_false, ih,
          List.map_cons, hcapture, List.mem_cons, Option.some.injEq, not_or]
        by_cases hsame : id = other
        · simp [hsame, hother]
        · simp [hsame]

end Expansion

namespace Registry

variable {registry : Registry}

mutual

/-- The sites that an element of a link body meets are those of references in it or in the body
of a rule. -/
theorem LinkExpandsElement.site_mentioned {element : Element} {sites : List Site} {site : Site} :
    registry.LinkExpandsElement element sites → site ∈ sites →
      site ∈ (element.mentions true ++ registry.ruleMentions true).map Reference.site
  | .byte, hmem | .captured, hmem | .passedOver _, hmem => absurd hmem List.not_mem_nil
  | .nonTerminal hbody hexpands, hmem => by
    rcases List.mem_cons.mp hmem with rfl | hinner
    · exact List.mem_cons_self
    · have hmentioned := hexpands.site_mentioned hinner
      rw [List.map_append, List.mem_append] at hmentioned ⊢
      refine Or.inr (hmentioned.elim (fun hown => ?_) id)
      obtain ⟨reference, hreference, rfl⟩ := List.mem_map.mp hown
      exact List.mem_map_of_mem (mem_ruleMentions (mem_rules_of_body? hbody).1 hreference)
  | .choice hbranches, hmem => hbranches.site_mentioned hmem

/-- The sites that a link body meets are those of references in it or in the body of a rule. -/
theorem LinkExpands.site_mentioned {elements : List Element} {sites : List Site} {site : Site} :
    registry.LinkExpands elements sites → site ∈ sites →
      site ∈ (mentionsOf true elements ++ registry.ruleMentions true).map Reference.site
  | .nil, hmem => absurd hmem List.not_mem_nil
  | .cons helement hrest, hmem => by
    have hparts := (List.mem_append.mp hmem).imp helement.site_mentioned hrest.site_mentioned
    simp only [List.map_append, List.mem_append, mentionsOf] at hparts ⊢
    tauto

/-- The sites that branches meet are those of references in them or in the body of a rule. -/
theorem LinkExpandsBranches.site_mentioned {branches : List (List Element)} {sites : List Site}
    {site : Site} : registry.LinkExpandsBranches branches sites → site ∈ sites →
      site ∈ (mentionsOfBranches true branches ++ registry.ruleMentions true).map Reference.site
  | .nil, hmem => absurd hmem List.not_mem_nil
  | .cons hbranch hrest, hmem => by
    have hparts := (List.mem_append.mp hmem).imp hbranch.site_mentioned hrest.site_mentioned
    simp only [List.map_append, List.mem_append, mentionsOfBranches] at hparts ⊢
    tauto

end

/-- A link body meets no more sites than the search may go deep, if it meets none twice. -/
theorem LinkExpands.length_le {body : List Element} {sites : List Site}
    (hexpands : registry.LinkExpands body sites) (honce : sites.Nodup) :
    sites.length ≤ registry.siteBound body := by
  rw [← Expansion.length_sitesFrom]
  exact (List.subperm_of_subset honce fun _ hsite => hexpands.site_mentioned hsite).length_le

/-- The search in a link body succeeds, and gives the parts that the body contributes, one for
each capture. -/
theorem LinkExpands.linkedInners {body : List Element} {sites : List Site}
    (hexpands : registry.LinkExpands body sites) (honce : sites.Nodup) :
    ∃ found, registry.Contributes body found ∧ registry.linkedInners body =
      .ok (Expansion.distinctCaptures [] (found.getD [])) := by
  obtain ⟨found, after, hrun, _, hfound⟩ := Expansion.innersOfSequence_contributes honce
    (hexpands.length_le honce) contributes_nil hexpands ⟨[], []⟩
    fun _ _ => List.not_mem_nil
  refine ⟨found, hfound, ?_⟩
  rw [Registry.linkedInners, Expansion.answer_eq, Expansion.outcome_run_linkedInners]
  exact congrArg _ (congrArg _ (congrArg Expansion.outcome hrun))

/-- A capture is found among the parts exactly if it is the last one of a reading. -/
theorem Contributes.mem_captures {body : List Element} {found : Option (List LinkedInner)}
    {id : ShapeId} (hfound : registry.Contributes body found) :
    some id ∈ (found.getD []).map (·.capture) ↔
      ∃ word, registry.LinkReads registry.speakingBranch body word ∧
        LinkAtom.EndsIn word id := by
  have hempty : some id ∈ (found.getD []).map (·.capture) ↔
      some id ∈ (found.getD [.empty]).map (·.capture) := by
    cases found <;> simp [LinkedInner.empty]
  rw [hempty, List.mem_map]
  constructor
  · rintro ⟨part, hpart, hcapture⟩
    obtain ⟨word, hword, rfl⟩ := (hfound.parts part).mp hpart
    exact ⟨word, hword, LinkedInner.capture_ofWord_iff.mp hcapture⟩
  · rintro ⟨word, hword, hends⟩
    exact ⟨_, (hfound.parts _).mpr ⟨word, hword, rfl⟩, LinkedInner.capture_ofWord_iff.mpr hends⟩

/-- If the full expansion of a link body comes to an end and meets no site twice, the search for
captures succeeds. It gives no capture twice, and each with the text before and behind it in a
reading of the body whose last capture it is. -/
theorem linkedInners_read {body : List Element} {sites : List Site}
    (hexpands : registry.LinkExpands body sites) (honce : sites.Nodup) :
    ∃ inners, registry.linkedInners body = .ok inners ∧ (inners.map (·.capture)).Nodup ∧
      ∀ inner ∈ inners, ∃ earlier id later,
        registry.LinkReads anyBranch body (earlier ++ .captured id :: later) ∧
        LinkAtom.Plain later ∧
        inner = ⟨some id, LinkAtom.textOf earlier, LinkAtom.textOf later⟩ := by
  obtain ⟨found, hfound, hinners⟩ := hexpands.linkedInners honce
  refine ⟨_, hinners, Expansion.nodup_distinctCaptures _ _, fun inner hinner => ?_⟩
  obtain ⟨hpart, id, hcapture, _⟩ := Expansion.of_mem_distinctCaptures hinner
  have hgiven : inner ∈ found.getD [.empty] := by
    cases found with
    | none => cases hpart
    | some parts => exact hpart
  obtain ⟨word, hword, rfl⟩ := (hfound.parts inner).mp hgiven
  obtain ⟨earlier, later, rfl, hlater⟩ := LinkedInner.capture_ofWord_iff.mp hcapture
  exact ⟨earlier, id, later, hword.any, hlater, LinkedInner.ofWord_last earlier id hlater⟩

/-- Text on both sides of a capture that stands in the body of a rule, and of one behind it. -/
theorem linkedInners_read_around :
    let registry : Registry := ⟨[], [⟨"item", [.choice [[.captured 0], [.byte 45]]]⟩]⟩
    let body : List Element := [.byte 40, .nonTerminal "item" ⟨0⟩,
      .choice [[.captured 1, .byte 44], [.tag "End", .byte 59]], .byte 41]
    registry.LinkExpands body [⟨0⟩] ∧ [Site.mk 0].Nodup ∧
    registry.linkedInners body = .ok [⟨some 1, "(", ",)"⟩, ⟨some 0, "(", ";)"⟩] ∧
    ∃ inners, registry.linkedInners body = .ok inners ∧ (inners.map (·.capture)).Nodup ∧
      ∀ inner ∈ inners, ∃ earlier id later,
        registry.LinkReads anyBranch body (earlier ++ .captured id :: later) ∧
        LinkAtom.Plain later ∧
        inner = ⟨some id, LinkAtom.textOf earlier, LinkAtom.textOf later⟩ := by
  intro registry body
  have hitem : registry.LinkExpands [.choice [[.captured 0], [.byte 45]]] [] :=
    .cons (.choice (.cons (.cons .captured .nil) (.cons (.cons .byte .nil) .nil))) .nil
  have hend : registry.LinkExpands
      [.choice [[.captured 1, .byte 44], [.tag "End", .byte 59]], .byte 41] [] :=
    .cons (.choice (.cons (.cons .captured (.cons .byte .nil))
      (.cons (.cons (.passedOver rfl) (.cons .byte .nil)) .nil))) (.cons .byte .nil)
  have hreference : registry.LinkExpandsElement (.nonTerminal "item" ⟨0⟩) [⟨0⟩] :=
    .nonTerminal rfl hitem
  have hexpands : registry.LinkExpands body ([] ++ ([⟨0⟩] ++ [])) :=
    .cons .byte (.cons hreference hend)
  exact ⟨hexpands, by decide, by decide +kernel, linkedInners_read hexpands (by decide)⟩

/-- If the full expansion of a link body comes to an end and meets no site twice, a capture is
given exactly if it is the last one of a reading that takes no branch in which nothing can be
read beside one in which something can be. -/
theorem linkedInners_captures {body : List Element} {sites : List Site}
    (hexpands : registry.LinkExpands body sites) (honce : sites.Nodup) :
    ∃ inners, registry.linkedInners body = .ok inners ∧
      ∀ id, some id ∈ inners.map (·.capture) ↔
        ∃ word, registry.LinkReads registry.speakingBranch body word ∧
          LinkAtom.EndsIn word id := by
  obtain ⟨found, hfound, hinners⟩ := hexpands.linkedInners honce
  refine ⟨_, hinners, fun id => ?_⟩
  rw [Expansion.mem_captures_distinctCaptures, hfound.mem_captures]
  exact and_iff_right List.not_mem_nil

/-- A capture is given although another one may follow, if text stands in place of that. -/
theorem linkedInners_captures_before_text :
    let registry : Registry := ⟨[], [⟨"item", [.captured 0]⟩]⟩
    let body : List Element := [.nonTerminal "item" ⟨0⟩, .choice [[.captured 1], [.byte 59]]]
    registry.LinkExpands body [⟨0⟩] ∧ [Site.mk 0].Nodup ∧
    registry.linkedInners body = .ok [⟨some 1, "", ""⟩, ⟨some 0, "", ";"⟩] ∧
    ∃ inners, registry.linkedInners body = .ok inners ∧
      ∀ id, some id ∈ inners.map (·.capture) ↔
        ∃ word, registry.LinkReads registry.speakingBranch body word ∧
          LinkAtom.EndsIn word id := by
  intro registry body
  have hitem : registry.LinkExpands [.captured 0] [] := .cons .captured .nil
  have hreference : registry.LinkExpandsElement (.nonTerminal "item" ⟨0⟩) [⟨0⟩] :=
    .nonTerminal rfl hitem
  have hend : registry.LinkExpands [.choice [[.captured 1], [.byte 59]]] [] :=
    .cons (.choice (.cons (.cons .captured .nil) (.cons (.cons .byte .nil) .nil))) .nil
  have hexpands : registry.LinkExpands body ([⟨0⟩] ++ []) := .cons hreference hend
  exact ⟨hexpands, by decide, by decide +kernel, linkedInners_captures hexpands (by decide)⟩

/-- A link to one shape that another one may follow or not: the first shape is the last capture
of a reading, and only the other one is given. -/
theorem linkedInners_miss_capture :
    let grammar : Grammar := ⟨[
      ⟨"S", .capture [.tag "S", .link (some "x")
        (.sequence [.nonTerminal "A", .choice [.nonTerminal "B", .empty]])]⟩,
      ⟨"A", .capture [.tag "A"]⟩,
      ⟨"B", .capture [.tag "B"]⟩]⟩
    let body : List Element :=
      [.nonTerminal "A" ⟨0⟩, .choice [[.nonTerminal "B" ⟨1⟩], []]]
    let registry : Registry := ⟨
      [⟨0, some "S", [.tag "S", .linked (some "x") body]⟩, ⟨1, some "A", [.tag "A"]⟩,
        ⟨2, some "B", [.tag "B"]⟩],
      [⟨"S", [.captured 0]⟩, ⟨"A", [.captured 1]⟩, ⟨"B", [.captured 2]⟩]⟩
    grammar.build = .ok registry ∧
    registry.LinkExpands body [⟨0⟩, ⟨1⟩] ∧ [Site.mk 0, Site.mk 1].Nodup ∧
    registry.LinkReads anyBranch body [.captured 1] ∧ LinkAtom.EndsIn [.captured 1] 1 ∧
    registry.linkedInners body = .ok [⟨some 2, "", ""⟩] ∧
    ¬ ∃ inners, registry.linkedInners body = .ok inners ∧
      some 1 ∈ inners.map (·.capture) := by
  intro grammar body registry
  have hbuild : grammar.build = .ok registry := by rfl
  have hA : registry.LinkExpands [.captured 1] [] := .cons .captured .nil
  have hB : registry.LinkExpands [.captured 2] [] := .cons .captured .nil
  have hfirst : registry.LinkExpandsElement (.nonTerminal "A" ⟨0⟩) [⟨0⟩] := .nonTerminal rfl hA
  have hother : registry.LinkExpandsElement (.nonTerminal "B" ⟨1⟩) [⟨1⟩] := .nonTerminal rfl hB
  have hend : registry.LinkExpands [.choice [[.nonTerminal "B" ⟨1⟩], []]] [⟨1⟩] :=
    .cons (.choice (.cons (.cons hother .nil) (.cons .nil .nil))) .nil
  have hexpands : registry.LinkExpands body ([⟨0⟩] ++ [⟨1⟩]) := .cons hfirst hend
  have hword : registry.LinkReadsElement anyBranch (.nonTerminal "A" ⟨0⟩) [.captured 1] :=
    .nonTerminal rfl (LinkReads.singleton_iff.mpr .captured)
  have hnothing : registry.LinkReads anyBranch [.choice [[.nonTerminal "B" ⟨1⟩], []]] [] :=
    LinkReads.singleton_iff.mpr
      (.choice (List.mem_cons_of_mem _ List.mem_cons_self) trivial .nil)
  have hreads : registry.LinkReads anyBranch body ([.captured 1] ++ []) := .cons hword hnothing
  have hinners : registry.linkedInners body = .ok [⟨some 2, "", ""⟩] := by decide +kernel
  refine ⟨hbuild, hexpands, by decide, hreads, ⟨[], [], rfl, LinkAtom.plain_nil⟩, hinners, ?_⟩
  rintro ⟨inners, hother, hgiven⟩
  obtain rfl := Except.ok.inj (hinners.symm.trans hother)
  exact absurd hgiven (by decide)

end Registry

end PegTemplates
