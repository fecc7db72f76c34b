import PegTemplates.Proofs.Binding.Digits

/-!
# The index of a binding as a mixed-radix number

Every index below the rate takes a combination that the layout admits, also where
the rate is saturated. But rates saturate, so the digits that an index is cut into
are exact only as long as the number of combinations fits, or the index stays clear
of the largest number. The saturated rate is the exact count cut off there. Under each
such index the combination taken is the one listed there, and the layout resolves to
what that writes.
-/

namespace PegTemplates

/-- There is room for more than two in a saturated count. -/
theorem two_lt_maxRate : 2 < maxRate := by decide

/-- Saturating a factor first changes nothing once the product is saturated. -/
theorem saturate_mul_saturate {factor : Nat} (hfactor : 0 < factor) (count : Nat) :
    saturate (factor * saturate count) = saturate (factor * count) := by
  unfold saturate
  rcases Nat.le_total count maxRate with hle | hge
  · rw [Nat.min_eq_left hle]
  · have hsmall : maxRate ≤ factor * maxRate := Nat.le_mul_of_pos_left maxRate hfactor
    have hlarge : maxRate ≤ factor * count :=
      Nat.le_trans hge (Nat.le_mul_of_pos_left count hfactor)
    rw [Nat.min_eq_right hge, Nat.min_eq_right hsmall, Nat.min_eq_right hlarge]

/-- Saturating a summand first changes nothing once the sum is saturated. -/
theorem saturate_add_saturate (first next : Nat) :
    saturate (saturate first + saturate next) = saturate (first + next) := by
  unfold saturate
  omega

mutual

/-- Every node admits a decision. -/
theorem Node.combinations_pos : ∀ node : Node, 0 < node.combinations
  | .text _ => Nat.one_pos
  | .link target => by
    rw [Node.combinations]
    omega
  | .choice branches => by
    have hlinked := linkedCombinations_pos branches
    rw [Node.combinations]
    split
    · omega
    · rename_i hread
      have := hlinked (by simpa using hread)
      omega
  | .optional body => by
    rw [Node.combinations]
    split <;> omega
  | .zeroOrMore body => by
    rw [Node.combinations]
    split <;> omega
  | .oneOrMore body => by
    rw [Node.combinations]
    exact combinationsOf_pos body

/-- Every layout admits a combination. -/
theorem combinationsOf_pos : ∀ nodes : List Node, 0 < combinationsOf nodes
  | [] => Nat.one_pos
  | node :: rest => by
    rw [combinationsOf]
    exact Nat.mul_pos node.combinations_pos (combinationsOf_pos rest)

/-- A choice that cannot be read without a link admits a linked decision. -/
theorem linkedCombinations_pos : ∀ branches : List (List Node),
    readsUnlinked branches = false → 0 < linkedCombinations branches
  | [], hread => by simp [readsUnlinked] at hread
  | branch :: rest, hread => by
    have hbranch := combinationsOf_pos branch
    have hlinks : hasLinks branch = true := by
      cases h : hasLinks branch with
      | true => rfl
      | false => simp [readsUnlinked, hasUnlinked, h] at hread
    rw [linkedCombinations, if_pos hlinks]
    omega

end

mutual

/-- The rate of a node and its exact count saturate alike. -/
theorem Node.saturate_rate : ∀ node : Node, saturate node.rate = saturate node.combinations
  | .text _ => rfl
  | .link target => by rw [Node.rate, Node.combinations, Nat.max_comm]
  | .choice branches => by
    have hpos := (Node.choice branches).combinations_pos
    rw [Node.combinations] at hpos
    have hlinked := linkedRate_eq branches
    have hlarge := two_lt_maxRate
    rw [Node.rate, Node.combinations, hlinked]
    cases branches with
    | nil => rfl
    | cons branch rest =>
      simp only [readsUnlinked, List.isEmpty_cons, Bool.false_or, saturate] at hpos ⊢
      omega
  | .optional body => by
    rw [Node.rate, Node.combinations, rateOf_eq]
    unfold saturate
    split <;> omega
  | .zeroOrMore body => by
    rw [Node.rate, Node.combinations, rateOf_eq]
    unfold saturate
    split <;> omega
  | .oneOrMore body => by
    rw [Node.rate, Node.combinations, rateOf_eq]
    unfold saturate
    omega

/-- The rate of a layout is its exact count, saturated. -/
theorem rateOf_eq : ∀ nodes : List Node, rateOf nodes = saturate (combinationsOf nodes)
  | [] => rfl
  | node :: rest => by
    have hnode := node.saturate_rate
    have hrest := combinationsOf_pos rest
    have hrate : 0 < node.rate := by
      have hpos := node.combinations_pos
      have hlarge := two_lt_maxRate
      unfold saturate at hnode
      omega
    calc rateOf (node :: rest) = saturate (node.rate * saturate (combinationsOf rest)) := by
          rw [rateOf, rateOf_eq rest]
      _ = saturate (combinationsOf rest * node.rate) := by
          rw [saturate_mul_saturate hrate, Nat.mul_comm]
      _ = saturate (combinationsOf rest * node.combinations) := by
          rw [← saturate_mul_saturate hrest node.rate, hnode, saturate_mul_saturate hrest]
      _ = saturate (combinationsOf (node :: rest)) := by rw [combinationsOf, Nat.mul_comm]

/-- The rate of the branches with a link is their exact count, saturated. -/
theorem linkedRate_eq : ∀ branches : List (List Node),
    linkedRate branches = saturate (linkedCombinations branches)
  | [] => rfl
  | branch :: rest => by
    rw [linkedRate, linkedCombinations, rateOf_eq branch, linkedRate_eq rest]
    split
    · exact saturate_add_saturate _ _
    · rw [Nat.zero_add]

end

/-- Every layout has a binding. -/
theorem rateOf_pos (nodes : List Node) : 0 < rateOf nodes := by
  have hpos := combinationsOf_pos nodes
  have hmax := two_lt_maxRate
  rw [rateOf_eq, saturate]
  omega

/-- A digit below the rate of a part that may be left out belongs to its body, or leaves it out. -/
theorem lt_rateOf_of_there {body : List Node} {digit : Nat}
    (hthere : digit + 1 < if hasLinks body then saturate (rateOf body + 1) else 1) :
    hasLinks body = true ∧ digit < rateOf body := by
  unfold saturate at hthere
  cases hlinks : hasLinks body with
  | false =>
    rw [hlinks] at hthere
    exact absurd hthere (by simp)
  | true =>
    rw [hlinks, if_pos rfl] at hthere
    exact ⟨rfl, by omega⟩

/-- A choice whose digit is behind those of all branches with a link can be read without one. -/
theorem readsUnlinked_of_le {branches : List (List Node)} {digit : Nat}
    (hdigit : digit < (Node.choice branches).rate) (hbehind : linkedRate branches ≤ digit) :
    readsUnlinked branches = true := by
  by_contra hnot
  have hread : readsUnlinked branches = false := Bool.eq_false_iff.mpr hnot
  have hlinked := linkedCombinations_pos branches hread
  have hrate := linkedRate_eq branches
  have hlarge := two_lt_maxRate
  have hunlinked : hasUnlinked branches = false := (Bool.or_eq_false_iff.mp hread).2
  rw [Node.rate, hunlinked] at hdigit
  simp only [saturate] at hdigit hrate
  simp at hdigit
  omega

mutual

/-- A digit below the rate of a node takes a decision that the node admits. -/
theorem Node.admits_decisionAt : ∀ (node : Node) {digit : Nat}, digit < node.rate →
    node.Admits (node.decisionAt digit)
  | .text _, _, _ => .text
  | .link target, digit, hdigit => by
    rw [Node.rate] at hdigit
    rw [Node.decisionAt]
    cases hinner : target.inners[digit]? with
    | some inner => exact .bound hinner
    | none =>
      have hout := List.getElem?_eq_none_iff.mp hinner
      exact .unbound (List.length_eq_zero_iff.mp (by omega))
  | .choice branches, digit, hdigit => by
    rw [Node.decisionAt]
    rcases branchDecisionAt_cases 0 branches digit with
      ⟨offset, body, taken, hbody, hlinks, hall, hdecision⟩ | ⟨hbehind, hdecision⟩
    · rw [hdecision, Nat.zero_add]
      exact .branch hbody hlinks hall
    · rw [hdecision]
      exact .unlinked (readsUnlinked_of_le hdigit hbehind)
  | .optional body, digit, _ => by
    rw [Node.decisionAt]
    split
    · rename_i hthere
      obtain ⟨hlinks, hlt⟩ := lt_rateOf_of_there hthere
      exact .present hlinks (admits_decisionsAt body hlt)
    · exact .leftOut
  | .zeroOrMore body, digit, _ => by
    rw [Node.decisionAt]
    split
    · rename_i hthere
      obtain ⟨hlinks, hlt⟩ := lt_rateOf_of_there hthere
      exact .some hlinks (admits_decisionsAt body hlt)
    · exact .none
  | .oneOrMore body, _, hdigit => .always (admits_decisionsAt body hdigit)

/-- An index below the rate of a layout takes a combination that the layout admits. -/
theorem admits_decisionsAt : ∀ (nodes : List Node) {index : Nat}, index < rateOf nodes →
    AdmitsAll nodes (decisionsAt index nodes)
  | [], _, _ => .nil
  | node :: rest, index, hindex => by
    rw [rateOf, saturate] at hindex
    -- The rate may be cut off, but an index below it is below the product of the two rates too.
    have hproduct : index < node.rate * rateOf rest := by omega
    have hrate : 0 < node.rate :=
      Nat.pos_of_mul_pos_right (Nat.lt_of_le_of_lt (Nat.zero_le index) hproduct)
    exact .cons (node.admits_decisionAt (Nat.mod_lt index hrate))
      (admits_decisionsAt rest (Nat.div_lt_of_lt_mul hproduct))

/-- A digit reads a branch with a link under a combination that this admits, or it is behind the
digits of all these branches and reads nothing. -/
theorem branchDecisionAt_cases : ∀ (position : Nat) (branches : List (List Node)) (digit : Nat),
    (∃ (offset : Nat) (body : List Node) (taken : List Decision),
      branches[offset]? = some body ∧ hasLinks body = true ∧ AdmitsAll body taken ∧
        branchDecisionAt position digit branches = .branch (position + offset) taken) ∨
    (linkedRate branches ≤ digit ∧ branchDecisionAt position digit branches = .absent)
  | _, [], digit => Or.inr ⟨Nat.zero_le digit, rfl⟩
  | position, branch :: rest, digit => by
    rw [branchDecisionAt, linkedRate]
    split
    · rename_i hlinks
      split
      · rename_i hdigit
        exact Or.inl ⟨0, branch, _, rfl, hlinks, admits_decisionsAt branch hdigit, rfl⟩
      · rcases branchDecisionAt_cases (position + 1) rest (digit - rateOf branch) with
          ⟨offset, body, taken, hbody, hread, hall, hdecision⟩ | ⟨hbehind, hdecision⟩
        · exact Or.inl ⟨offset + 1, body, taken, hbody, hread, hall, by
            rw [hdecision, Nat.add_assoc, Nat.add_comm 1 offset]⟩
        · refine Or.inr ⟨?_, hdecision⟩
          unfold saturate
          omega
    · rcases branchDecisionAt_cases (position + 1) rest digit with
        ⟨offset, body, taken, hbody, hread, hall, hdecision⟩ | hbehind
      · exact Or.inl ⟨offset + 1, body, taken, hbody, hread, hall, by
          rw [hdecision, Nat.add_assoc, Nat.add_comm 1 offset]⟩
      · exact Or.inr hbehind

end

/-- Whether the digits of an index are exact: it belongs to one of the counted
combinations, and either all of them are told apart or it stays clear of the
two largest numbers. -/
def Exact (count index : Nat) : Prop :=
  index < count ∧ (count ≤ maxRate ∨ index + 1 < maxRate)

/-- An exact index of a product has the exact first digit and quotient, although
the first rate is saturated. -/
theorem digits_of_exact {node : Node} {rest : List Node} {index : Nat}
    (hexact : Exact (combinationsOf (node :: rest)) index) :
    index % node.rate = index % node.combinations ∧
      index / node.rate = index / node.combinations ∧
      Exact node.combinations (index % node.combinations) ∧
      Exact (combinationsOf rest) (index / node.combinations) := by
  obtain ⟨hlt, hroom⟩ := hexact
  rw [combinationsOf] at hlt hroom
  have hnode := node.combinations_pos
  have hrest := combinationsOf_pos rest
  have hrate := node.saturate_rate
  have hleft : node.combinations ≤ node.combinations * combinationsOf rest :=
    Nat.le_mul_of_pos_right _ hrest
  have hright : combinationsOf rest ≤ node.combinations * combinationsOf rest :=
    Nat.le_mul_of_pos_left _ hnode
  have hmod := Nat.mod_lt index hnode
  have hmod_le := Nat.mod_le index node.combinations
  have hdiv := Nat.div_lt_of_lt_mul hlt
  have hdiv_le := Nat.div_le_self index node.combinations
  have hcounts : Exact node.combinations (index % node.combinations) ∧
      Exact (combinationsOf rest) (index / node.combinations) := by
    unfold Exact
    omega
  unfold saturate at hrate
  by_cases hfits : node.combinations < maxRate
  · have hsame : node.rate = node.combinations := by omega
    rw [hsame]
    exact ⟨rfl, rfl, hcounts⟩
  · have hbelow : index < node.combinations := by omega
    have hbelow_rate : index < node.rate := by omega
    refine ⟨?_, ?_, hcounts⟩
    · rw [Nat.mod_eq_of_lt hbelow_rate, Nat.mod_eq_of_lt hbelow]
    · rw [Nat.div_eq_of_lt hbelow_rate, Nat.div_eq_of_lt hbelow]

/-- Behind the digits of all branches with a link nothing is read. -/
theorem branchDecisionAt_behind (position : Nat) (branches : List (List Node)) (digit : Nat)
    (hbehind : linkedCombinations branches ≤ digit)
    (hfits : linkedCombinations branches ≤ maxRate) :
    branchDecisionAt position digit branches = .absent := by
  induction branches generalizing position digit with
  | nil => rfl
  | cons branch rest ih =>
    have hrate := rateOf_eq branch
    unfold saturate at hrate
    rw [linkedCombinations] at hbehind hfits
    rw [branchDecisionAt]
    split
    · rename_i hlinks
      rw [if_pos hlinks] at hbehind hfits
      rw [if_neg (by omega)]
      exact ih _ _ (by omega) (by omega)
    · exact ih _ _ (by omega) (by omega)

/-- An exact digit of a part that may be left out either belongs to its body or
is the one of its absence. -/
theorem digit_of_absentable {body : List Node} {digit : Nat}
    (hexact : Exact (if hasLinks body then combinationsOf body + 1 else 1) digit)
    (there : List Decision → Decision) :
    (digit + 1 < (if hasLinks body then saturate (rateOf body + 1) else 1) ∧
      Exact (combinationsOf body) digit ∧
      (thereOrAbsent there (hasLinks body) (decisionsOf body))[digit]? =
        (decisionsOf body)[digit]?.map there) ∨
    (¬digit + 1 < (if hasLinks body then saturate (rateOf body + 1) else 1) ∧
      (thereOrAbsent there (hasLinks body) (decisionsOf body))[digit]? = some .absent) := by
  obtain ⟨hlt, hroom⟩ := hexact
  have hlength := length_decisionsOf body
  have hrate := rateOf_eq body
  cases hlinks : hasLinks body with
  | false =>
    rw [hlinks] at hlt
    have hzero : digit = 0 := by simpa using hlt
    exact Or.inr ⟨by simp, by simp [thereOrAbsent, hzero]⟩
  | true =>
    simp only [hlinks, if_true] at hlt hroom
    simp only [thereOrAbsent, if_true]
    unfold saturate at hrate ⊢
    rcases Nat.lt_or_ge digit (combinationsOf body) with hin | hlast
    · left
      refine ⟨by omega, ⟨hin, by omega⟩, ?_⟩
      rw [List.getElem?_append_left (by simpa [hlength] using hin), List.getElem?_map]
    · right
      have hdigit : digit = ((decisionsOf body).map there).length := by
        rw [List.length_map]
        omega
      refine ⟨by omega, ?_⟩
      rw [hdigit, List.getElem?_concat_length]

/-- An exact digit of a link takes the decision that is listed there. -/
theorem getElem?_decisions_link (target : Link) {digit : Nat}
    (hexact : Exact (Node.link target).combinations digit) :
    (Node.link target).decisions[digit]? = some ((Node.link target).decisionAt digit) := by
  have hlt := hexact.1
  rw [Node.combinations] at hlt
  rw [Node.decisions, Node.decisionAt]
  split
  · rename_i hnone
    have hdigit : digit = 0 := by simpa [hnone] using hlt
    subst hdigit
    rw [hnone]
    rfl
  · rename_i hsome
    have hpos := List.length_pos_iff.mpr hsome
    have hin : digit < target.inners.length := by omega
    rw [List.getElem?_mapIdx, List.getElem?_eq_getElem hin, Option.map_some]

mutual

/-- An exact digit of a node takes the decision that is listed there. -/
theorem Node.getElem?_decisions : ∀ (node : Node) {digit : Nat},
    Exact node.combinations digit → node.decisions[digit]? = some (node.decisionAt digit)
  | .text _, digit, hexact => by
    have hdigit : digit = 0 := by
      have := hexact.1
      rw [Node.combinations] at this
      omega
    subst hdigit
    rfl
  | .link target, _, hexact => getElem?_decisions_link target hexact
  | .choice branches, digit, hexact => by
    have hlength := length_branchDecisions 0 branches
    rw [Node.decisions, Node.decisionAt]
    rcases Nat.lt_or_ge digit (linkedCombinations branches) with hin | hbehind
    · rw [List.getElem?_append_left (by omega)]
      refine getElem?_branchDecisions 0 branches ⟨hin, ?_⟩
      have hroom := hexact.2
      rw [Node.combinations] at hroom
      omega
    · obtain ⟨hlt, hroom⟩ := hexact
      rw [Node.combinations] at hlt hroom
      have hread : readsUnlinked branches = true := by
        by_contra hnot
        rw [if_neg hnot] at hlt
        omega
      rw [if_pos hread] at hlt hroom ⊢
      have hdigit : digit = (branchDecisions 0 branches).length := by omega
      rw [branchDecisionAt_behind 0 branches digit hbehind (by omega), hdigit,
        List.getElem?_concat_length]
  | .optional body, digit, hexact => by
    rw [Node.combinations] at hexact
    rw [Node.decisions, Node.decisionAt, Node.rate]
    rcases digit_of_absentable hexact .present with ⟨hthere, hbody, hlist⟩ | ⟨hlast, hlist⟩
    · rw [if_pos hthere, hlist, getElem?_decisionsOf body hbody, Option.map_some]
    · rw [if_neg hlast, hlist]
  | .zeroOrMore body, digit, hexact => by
    rw [Node.combinations] at hexact
    rw [Node.decisions, Node.decisionAt, Node.rate]
    rcases digit_of_absentable hexact .repeated with ⟨hthere, hbody, hlist⟩ | ⟨hlast, hlist⟩
    · rw [if_pos hthere, hlist, getElem?_decisionsOf body hbody, Option.map_some]
    · rw [if_neg hlast, hlist]
  | .oneOrMore body, digit, hexact => by
    rw [Node.combinations] at hexact
    rw [Node.decisions, Node.decisionAt, List.getElem?_map, getElem?_decisionsOf body hexact,
      Option.map_some]

/-- An exact index of a layout takes the combination that is listed there. -/
theorem getElem?_decisionsOf : ∀ (nodes : List Node) {index : Nat},
    Exact (combinationsOf nodes) index →
      (decisionsOf nodes)[index]? = some (decisionsAt index nodes)
  | [], index, hexact => by
    have hindex : index = 0 := by
      have := hexact.1
      rw [combinationsOf] at this
      omega
    subst hindex
    rfl
  | node :: rest, index, hexact => by
    obtain ⟨hdigit, hquotient, hnode, hrest⟩ := digits_of_exact hexact
    have hlength := node.length_decisions
    rw [decisionsOf, getElem?_fastestFirst (hlength ▸ node.combinations_pos), hlength,
      node.getElem?_decisions hnode, getElem?_decisionsOf rest hrest, decisionsAt, hdigit,
      hquotient]
    rfl

/-- An exact digit that belongs to a branch with a link takes the decision that is listed there. -/
theorem getElem?_branchDecisions : ∀ (position : Nat) (branches : List (List Node)) {digit : Nat},
    Exact (linkedCombinations branches) digit →
      (branchDecisions position branches)[digit]? = some (branchDecisionAt position digit branches)
  | _, [], _, hexact => absurd hexact.1 (Nat.not_lt_zero _)
  | position, branch :: rest, digit, hexact => by
    obtain ⟨hlt, hroom⟩ := hexact
    have hlength := length_decisionsOf branch
    have hrate := rateOf_eq branch
    unfold saturate at hrate
    rw [linkedCombinations] at hlt hroom
    rw [branchDecisions, branchDecisionAt]
    split
    · rename_i hlinks
      rw [if_pos hlinks] at hlt hroom
      rcases Nat.lt_or_ge digit (combinationsOf branch) with hin | hbehind
      · rw [if_pos (by omega), List.getElem?_append_left (by simpa [hlength] using hin),
          List.getElem?_map, getElem?_decisionsOf branch ⟨hin, by omega⟩, Option.map_some]
      · have hsame : rateOf branch = combinationsOf branch := by omega
        rw [if_neg (by omega), List.getElem?_append_right (by simpa [hlength] using hbehind),
          List.length_map, hlength, hsame]
        exact getElem?_branchDecisions (position + 1) rest ⟨by omega, by omega⟩
    · rename_i hnone
      rw [if_neg hnone, Nat.zero_add] at hlt hroom
      rw [List.nil_append]
      exact getElem?_branchDecisions (position + 1) rest ⟨hlt, hroom⟩

end

/-- Under an exact index a layout resolves to what the combination at that index
writes. -/
theorem resolveLayout_exact (tags : TagTable) (nodes : List Node) (repeated : Bool) (index : Nat)
    (hexact : Exact (combinationsOf nodes) index) :
    ∃ taken, (decisionsOf nodes)[index]? = some taken ∧
      resolveLayout tags repeated index nodes = resolvedOf tags repeated taken :=
  ⟨_, getElem?_decisionsOf nodes hexact, resolveLayout_eq_decisionsAt tags nodes repeated index⟩

/-- The bindings of a layout are the combinations of decisions that it admits,
listed. The rate is their exact number, cut off at the largest one; just the
indices from the rate on pick nothing. Every other index picks what the combination at that
place of the list writes, as long as all combinations are told apart or the
index is below the two largest numbers. If all are told apart, every
combination that the layout admits belongs to exactly one index. -/
theorem resolve_lists_combinations (tags : TagTable) (nodes : List Node) :
    rateOf nodes = min (combinationsOf nodes) maxRate ∧
      (decisionsOf nodes).length = combinationsOf nodes ∧
      (∀ taken, taken ∈ decisionsOf nodes ↔ AdmitsAll nodes taken) ∧
      (∀ index, resolve tags nodes index = none ↔ rateOf nodes ≤ index) ∧
      (∀ index, index < rateOf nodes →
        combinationsOf nodes ≤ maxRate ∨ index < maxRate - 1 →
        ∃ taken, (decisionsOf nodes)[index]? = some taken ∧
          resolve tags nodes index = some ⟨index, (resolvedOf tags false taken).labels,
            (resolvedOf tags false taken).slots⟩) ∧
      (combinationsOf nodes ≤ maxRate → ∀ taken, AdmitsAll nodes taken →
        ∃! index, index < rateOf nodes ∧ (decisionsOf nodes)[index]? = some taken) := by
  have hrate := rateOf_eq nodes
  have hlength := length_decisionsOf nodes
  unfold saturate at hrate
  refine ⟨hrate, hlength, mem_decisionsOf nodes, ?_, ?_, ?_⟩
  · intro index
    unfold resolve
    split
    · rename_i hin
      simp only [reduceCtorEq, false_iff]
      omega
    · rename_i hout
      simp only [true_iff]
      omega
  · intro index hin hroom
    have hexact : Exact (combinationsOf nodes) index := ⟨by omega, by omega⟩
    obtain ⟨taken, htaken, hresolve⟩ := resolveLayout_exact tags nodes false index hexact
    refine ⟨taken, htaken, ?_⟩
    rw [resolve, if_pos hin, hresolve]
  · intro hfits taken hadmits
    obtain ⟨index, htaken, honly⟩ := existsUnique_index hadmits
    obtain ⟨hindex, _⟩ := List.getElem?_eq_some_iff.mp htaken
    exact ⟨index, ⟨by omega, htaken⟩, fun other hother => honly other hother.2⟩

/-- An option around a link with two captures has three bindings, and just one
of them leaves it out. -/
theorem resolve_lists_left_out_option :
    combinationsOf [.optional [.link ⟨none, [.ofCapture 0, .ofCapture 1]⟩]] ≤ maxRate ∧
      AdmitsAll [.optional [.link ⟨none, [.ofCapture 0, .ofCapture 1]⟩]] [.absent] ∧
      ∃! index, index < rateOf [.optional [.link ⟨none, [.ofCapture 0, .ofCapture 1]⟩]] ∧
        (decisionsOf [.optional [.link ⟨none, [.ofCapture 0, .ofCapture 1]⟩]])[index]? =
          some [.absent] :=
  ⟨by decide, .cons .leftOut .nil,
    (resolve_lists_combinations [] _).2.2.2.2.2 (by decide) _ (.cons .leftOut .nil)⟩

end PegTemplates
