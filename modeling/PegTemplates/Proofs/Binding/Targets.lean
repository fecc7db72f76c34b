import PegTemplates.Proofs.Binding.LinkReadings

/-!
# No capture is left out

Every link of a layout and every capture that it reaches has an index under which the link is
bound to that capture, as long as all combinations are told apart. The index is built from the
link outwards: every part around the link is read, in the branch that holds the link, and all
other parts take their first decision. Conversely, nothing but a link of the layout leaves a
placeholder.
-/

namespace PegTemplates

mutual

/-- A node that lists a link holds one. -/
theorem Node.hasLinks_of_mem_links : ∀ (node : Node) {target : Link}, target ∈ node.links →
    node.hasLinks = true
  | .text _, _, hmem => nomatch hmem
  | .link _, _, _ => rfl
  | .choice branches, _, hmem => anyHasLinks_of_mem_links branches hmem
  | .optional body, _, hmem | .zeroOrMore body, _, hmem | .oneOrMore body, _, hmem =>
    hasLinks_of_mem_links body hmem

/-- A layout that lists a link holds one. -/
theorem hasLinks_of_mem_links : ∀ (nodes : List Node) {target : Link}, target ∈ linksOf nodes →
    hasLinks nodes = true
  | [], _, hmem => nomatch hmem
  | node :: rest, _, hmem => by
    rw [hasLinks, Bool.or_eq_true]
    exact (List.mem_append.mp hmem).imp node.hasLinks_of_mem_links (hasLinks_of_mem_links rest)

/-- Branches that list a link hold one. -/
theorem anyHasLinks_of_mem_links : ∀ (branches : List (List Node)) {target : Link},
    target ∈ linksOfBranches branches → anyHasLinks branches = true
  | [], _, hmem => nomatch hmem
  | branch :: rest, _, hmem => by
    rw [anyHasLinks, Bool.or_eq_true]
    exact (List.mem_append.mp hmem).imp (hasLinks_of_mem_links branch)
      (anyHasLinks_of_mem_links rest)

end

/-- A digit of a node and an index of what follows make an index of both. -/
theorem exists_index_of_digits {node : Node} {rest : List Node}
    (hfits : combinationsOf (node :: rest) ≤ maxRate) {digit later : Nat}
    (hdigit : digit < node.combinations) (hlater : later < combinationsOf rest) :
    ∃ index, index < combinationsOf (node :: rest) ∧
      decisionsAt index (node :: rest) = node.decisionAt digit :: decisionsAt later rest := by
  have hnode := node.combinations_pos
  have hindex : digit + node.combinations * later < combinationsOf (node :: rest) := by
    calc digit + node.combinations * later < node.combinations * (later + 1) := by
          rw [Nat.mul_succ]
          omega
      _ ≤ node.combinations * combinationsOf rest := Nat.mul_le_mul_left _ hlater
  obtain ⟨hmod, hdiv, _, _⟩ := digits_of_exact ⟨hindex, Or.inl hfits⟩
  refine ⟨_, hindex, ?_⟩
  rw [decisionsAt, hmod, hdiv, Nat.add_mul_mod_self_left, Nat.mod_eq_of_lt hdigit,
    Nat.add_mul_div_left _ _ hnode, Nat.div_eq_of_lt hdigit, Nat.zero_add]

/-- The factors of a product that is told apart are told apart themselves. -/
theorem combinations_le_of_cons {node : Node} {rest : List Node}
    (hfits : combinationsOf (node :: rest) ≤ maxRate) :
    node.combinations ≤ maxRate ∧ combinationsOf rest ≤ maxRate :=
  ⟨Nat.le_trans (Nat.le_mul_of_pos_right _ (combinationsOf_pos rest)) hfits,
    Nat.le_trans (Nat.le_mul_of_pos_left _ node.combinations_pos) hfits⟩

/-- A part with a link that may be left out is there under every digit of its body, and its
combinations are told apart if its own are. -/
theorem there_of_lt {body : List Node} (hlinks : hasLinks body = true)
    (hfits : (if hasLinks body then combinationsOf body + 1 else 1) ≤ maxRate) :
    combinationsOf body ≤ maxRate ∧ ∀ digit < combinationsOf body,
      digit < (if hasLinks body then combinationsOf body + 1 else 1) ∧
      digit + 1 < if hasLinks body then saturate (rateOf body + 1) else 1 := by
  have hrate := rateOf_eq body
  rw [if_pos hlinks] at hfits
  simp only [if_pos hlinks]
  unfold saturate at hrate ⊢
  refine ⟨by omega, fun digit hdigit => ?_⟩
  omega

section Steering

variable {target : Link} {position : Nat}

mutual

/-- Every link of a node is bound to every capture that it reaches, under some digit. -/
theorem Node.exists_digit_bound (hposition : position < target.inners.length) :
    ∀ (node : Node) (repeated : Bool) {occurrence : Nat}, node.links[occurrence]? = some target →
    node.combinations ≤ maxRate → ∃ digit, digit < node.combinations ∧ ∃ looped,
      (node.linkReadings repeated (node.decisionAt digit))[occurrence]? =
        some (.bound target looped position)
  | .text _, _, _, htarget, _ => nomatch htarget
  | .link _, repeated, occurrence, htarget, _ => by
    obtain ⟨rfl, rfl⟩ : occurrence = 0 ∧ _ = target := by
      simpa [Node.links, List.getElem?_singleton] using htarget
    refine ⟨position, ?_, repeated, ?_⟩
    · rw [Node.combinations]
      omega
    · rw [Node.decisionAt, List.getElem?_eq_getElem hposition]
      rfl
  | .choice branches, repeated, _, htarget, hfits => by
    rw [Node.combinations] at hfits
    obtain ⟨digit, hdigit, offset, taken, hdecision, hread⟩ :=
      exists_digit_bound_branch hposition 0 branches repeated htarget (by omega)
    refine ⟨digit, ?_, ?_⟩
    · rw [Node.combinations]
      omega
    · rw [Node.decisionAt, hdecision, Nat.zero_add]
      exact hread
  | .optional body, repeated, _, htarget, hfits => by
    obtain ⟨hbody, hthere⟩ :=
      there_of_lt (hasLinks_of_mem_links body (List.mem_of_getElem? htarget)) hfits
    obtain ⟨digit, hdigit, hread⟩ := exists_index_bound hposition body repeated htarget hbody
    obtain ⟨hlt, hreads⟩ := hthere digit hdigit
    refine ⟨digit, hlt, ?_⟩
    rw [Node.decisionAt, Node.rate, if_pos hreads]
    exact hread
  | .zeroOrMore body, _, _, htarget, hfits => by
    obtain ⟨hbody, hthere⟩ :=
      there_of_lt (hasLinks_of_mem_links body (List.mem_of_getElem? htarget)) hfits
    obtain ⟨digit, hdigit, hread⟩ := exists_index_bound hposition body true htarget hbody
    obtain ⟨hlt, hreads⟩ := hthere digit hdigit
    refine ⟨digit, hlt, ?_⟩
    rw [Node.decisionAt, Node.rate, if_pos hreads]
    exact hread
  | .oneOrMore body, _, _, htarget, hfits => exists_index_bound hposition body true htarget hfits

/-- Every link of a layout is bound to every capture that it reaches, under some index. -/
theorem exists_index_bound (hposition : position < target.inners.length) :
    ∀ (nodes : List Node) (repeated : Bool) {occurrence : Nat},
    (linksOf nodes)[occurrence]? = some target → combinationsOf nodes ≤ maxRate →
    ∃ index, index < combinationsOf nodes ∧ ∃ looped,
      (linkReadingsOf repeated nodes (decisionsAt index nodes))[occurrence]? =
        some (.bound target looped position)
  | [], _, _, htarget, _ => nomatch htarget
  | node :: rest, repeated, occurrence, htarget, hfits => by
    obtain ⟨hnode, hrest⟩ := combinations_le_of_cons hfits
    rw [linksOf] at htarget
    by_cases hfirst : occurrence < node.links.length
    -- The link is in the first node, and what follows takes the first of its combinations.
    · rw [List.getElem?_append_left hfirst] at htarget
      obtain ⟨digit, hdigit, looped, hread⟩ :=
        node.exists_digit_bound hposition repeated htarget hnode
      obtain ⟨index, hindex, hdecisions⟩ :=
        exists_index_of_digits hfits hdigit (combinationsOf_pos rest)
      refine ⟨index, hindex, looped, ?_⟩
      rw [hdecisions, linkReadingsOf,
        List.getElem?_append_left (by rwa [node.length_linkReadings])]
      exact hread
    · rw [List.getElem?_append_right (Nat.le_of_not_lt hfirst)] at htarget
      obtain ⟨later, hlater, looped, hread⟩ :=
        exists_index_bound hposition rest repeated htarget hrest
      obtain ⟨index, hindex, hdecisions⟩ :=
        exists_index_of_digits hfits node.combinations_pos hlater
      refine ⟨index, hindex, looped, ?_⟩
      rw [hdecisions, linkReadingsOf,
        List.getElem?_append_right (by rw [node.length_linkReadings]; omega),
        node.length_linkReadings]
      exact hread

/-- Every link of the branches of a choice is bound to every capture that it reaches, under some
digit that reads the branch of the link. -/
theorem exists_digit_bound_branch (hposition : position < target.inners.length) :
    ∀ (start : Nat) (branches : List (List Node)) (repeated : Bool) {occurrence : Nat},
    (linksOfBranches branches)[occurrence]? = some target →
    linkedCombinations branches ≤ maxRate →
    ∃ digit, digit < linkedCombinations branches ∧ ∃ offset taken,
      branchDecisionAt start digit branches = .branch (start + offset) taken ∧ ∃ looped,
        (linkReadingsOfBranches repeated branches offset taken)[occurrence]? =
          some (.bound target looped position)
  | _, [], _, _, htarget, _ => nomatch htarget
  | start, branch :: rest, repeated, occurrence, htarget, hfits => by
    have hrate := rateOf_eq branch
    unfold saturate at hrate
    rw [linksOfBranches] at htarget
    rw [linkedCombinations] at hfits
    by_cases hfirst : occurrence < (linksOf branch).length
    · rw [List.getElem?_append_left hfirst] at htarget
      have hlinks := hasLinks_of_mem_links branch (List.mem_of_getElem? htarget)
      rw [if_pos hlinks] at hfits
      obtain ⟨digit, hdigit, looped, hread⟩ :=
        exists_index_bound hposition branch repeated htarget (by omega)
      refine ⟨digit, ?_, 0, decisionsAt digit branch, ?_, looped, ?_⟩
      · rw [linkedCombinations, if_pos hlinks]
        omega
      · rw [branchDecisionAt, if_pos hlinks, if_pos (by omega), Nat.add_zero]
      · rw [linkReadingsOfBranches, List.getElem?_append_left (by rwa [length_linkReadingsOf])]
        exact hread
    · rw [List.getElem?_append_right (Nat.le_of_not_lt hfirst)] at htarget
      obtain ⟨digit, hdigit, offset, taken, hdecision, looped, hread⟩ :=
        exists_digit_bound_branch hposition (start + 1) rest repeated htarget (by omega)
      have hbehind : (linkReadingsOfBranches repeated (branch :: rest) (offset + 1)
          taken)[occurrence]? = some (.bound target looped position) := by
        rw [linkReadingsOfBranches, List.getElem?_append_right (by
          rw [LinkReading.length_passedOver]; omega), LinkReading.length_passedOver]
        exact hread
      have hsame : start + (offset + 1) = start + 1 + offset := by omega
      -- A branch with a link takes its share of the digits in front of the later ones.
      by_cases hlinks : hasLinks branch = true
      · rw [if_pos hlinks] at hfits
        refine ⟨rateOf branch + digit, ?_, offset + 1, taken, ?_, looped, hbehind⟩
        · rw [linkedCombinations, if_pos hlinks]
          omega
        · rw [branchDecisionAt, if_pos hlinks, if_neg (by omega), Nat.add_sub_cancel_left,
            hdecision, hsame]
      · refine ⟨digit, ?_, offset + 1, taken, ?_, looped, hbehind⟩
        · rw [linkedCombinations, if_neg hlinks, Nat.zero_add]
          exact hdigit
        · rw [branchDecisionAt, if_neg hlinks, hdecision, hsame]

end

end Steering

/-- No capture that a link reaches is left out, and nothing but links has a placeholder. If all
combinations are told apart, every occurrence of a link in the layout is bound to every capture
that it reaches, under some index below the rate. The binding at that index has the placeholder
and the label entry of this capture. Conversely, each link of the layout, in order, is passed over
or read under the index of a binding, and the placeholders are those of the links that are read,
one by one, so that each stems from an occurrence of a link. -/
theorem every_capture_bound (nodes : List Node) :
    (combinationsOf nodes ≤ maxRate →
      ∀ (occurrence : Nat) (target : Link), (linksOf nodes)[occurrence]? = some target →
      ∀ (position : Nat) (inner : LinkedInner), target.inners[position]? = some inner →
        ∃ index, index < rateOf nodes ∧ ∃ looped,
          (linkReadingsAt nodes index)[occurrence]? = some (.bound target looped position) ∧
          ∀ tags, ∃ binding, resolve tags nodes index = some binding ∧
            BoundLink.placeholder ⟨target.label, looped, inner⟩ ∈
              placeholdersOf false binding.layout ∧
            BoundLink.entry tags ⟨target.label, looped, inner⟩ ∈ binding.labels) ∧
    ∀ (tags : TagTable) (index : Nat) (binding : Binding),
      resolve tags nodes index = some binding →
        (linkReadingsAt nodes index).map LinkReading.target = linksOf nodes ∧
        placeholdersOf false binding.layout =
          (linkReadingsAt nodes index).filterMap LinkReading.place? ∧
        ∀ place ∈ placeholdersOf false binding.layout, ∃ (occurrence : Nat) (reading : LinkReading),
          (linkReadingsAt nodes index)[occurrence]? = some reading ∧
          reading.place? = some place ∧ (linksOf nodes)[occurrence]? = some reading.target := by
  constructor
  · intro hfits occurrence target htarget position inner hinner
    have hposition := (List.getElem?_eq_some_iff.mp hinner).1
    obtain ⟨index, hlt, looped, hread⟩ := exists_index_bound hposition nodes false htarget hfits
    have hindex : index < rateOf nodes := by
      rw [rateOf_eq, saturate, Nat.min_eq_left hfits]
      exact hlt
    have hmem : LinkReading.bound target looped position ∈ linkReadingsAt nodes index :=
      List.mem_of_getElem? hread
    refine ⟨index, hindex, looped, hread, fun tags => ⟨_, if_pos hindex, ?_, ?_⟩⟩
    · dsimp only
      rw [(lists_linkReadingsAt tags hindex).places]
      exact List.mem_filterMap.mpr ⟨_, hmem, LinkReading.place?_eq looped hinner⟩
    · dsimp only
      rw [(lists_linkReadingsAt tags hindex).labels]
      exact List.mem_map_of_mem
        (List.mem_filterMap.mpr ⟨_, hmem, LinkReading.bound?_eq looped hinner⟩)
  · intro tags index binding hresolve
    obtain ⟨hindex, hsame⟩ := Option.ite_none_right_eq_some.mp hresolve
    obtain rfl := Option.some.inj hsame
    have htargets := targets_linkReadingsAt nodes index
    have hplaces := (lists_linkReadingsAt tags hindex).places
    refine ⟨htargets, hplaces, fun place hplace => ?_⟩
    dsimp only at hplace
    rw [hplaces] at hplace
    obtain ⟨reading, hreading, hread⟩ := List.mem_filterMap.mp hplace
    obtain ⟨occurrence, hoccurrence⟩ := List.mem_iff_getElem?.mp hreading
    refine ⟨occurrence, reading, hoccurrence, hread, ?_⟩
    rw [← htargets, List.getElem?_map, hoccurrence]
    rfl

/-- A repetition in the last branch of a choice is read under an index that is behind the digits of
the branch in front of it, and its link is bound to the last of its captures. -/
theorem every_capture_bound_behind_branch :
    let head : Link := ⟨none, [.ofCapture 0, .ofCapture 1]⟩
    let tail : Link := ⟨some "tail", [.ofCapture 0, .ofCapture 2, ⟨some 1, "<", ">"⟩]⟩
    let nodes : List Node :=
      [.optional [.choice [[.text 44], [.link head], [.oneOrMore [.link tail]]]]]
    combinationsOf nodes ≤ maxRate ∧ (linksOf nodes)[1]? = some tail ∧
      tail.inners[2]? = some ⟨some 1, "<", ">"⟩ ∧
      (∃ index, index < rateOf nodes ∧ ∃ looped,
        (linkReadingsAt nodes index)[1]? = some (.bound tail looped 2)) ∧
      linkReadingsAt nodes 4 = [.passed head, .bound tail true 2] ∧
      ∃ binding, resolve [["Sum"], ["Number"]] nodes 4 = some binding ∧
        placeholdersOf false binding.layout = [⟨some "tail", "<", ">", true⟩] := by
  intro head tail nodes
  have hfits : combinationsOf nodes ≤ maxRate := by decide
  have htarget : (linksOf nodes)[1]? = some tail := rfl
  have hinner : tail.inners[2]? = some ⟨some 1, "<", ">"⟩ := rfl
  have hfour : 4 < rateOf nodes := by decide
  have hreadings : linkReadingsAt nodes 4 = [.passed head, .bound tail true 2] := by
    decide +kernel
  obtain ⟨hevery, honly⟩ := every_capture_bound nodes
  obtain ⟨index, hindex, looped, hread, _⟩ := hevery hfits 1 tail htarget 2 _ hinner
  refine ⟨hfits, htarget, hinner, ⟨index, hindex, looped, hread⟩, hreadings, _, if_pos hfour, ?_⟩
  rw [(honly [["Sum"], ["Number"]] 4 _ (if_pos hfour)).2.1, hreadings]
  rfl

end PegTemplates
