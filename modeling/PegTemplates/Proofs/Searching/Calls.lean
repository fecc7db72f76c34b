import Mathlib.Data.List.Flatten
import Mathlib.Data.List.Perm.Subperm
import PegTemplates.Proofs.Searching.Cursor

/-!
# Enough calls of a cursor

The alternatives of a sequence are what a cursor hands out in as many calls as there are tags in
the sequence and in all bodies of rules, and one more. A tour reads no tag twice, so by then
the cursor is exhausted, and further calls hand out nothing.
-/

namespace PegTemplates

namespace Registry

mutual

/-- The tags of an element are counted among its leaves. -/
theorem tagsIn_eq : ∀ element : Element, tagsIn element = (tagsAmong element.leaves).length
  | .nonTerminal _ _ | .captured _ | .byte _ | .tag _ | .linked _ _ => rfl
  | .choice branches => tagsInBranches_eq branches
  | .zeroOrMore body | .oneOrMore body | .optional body => tagCount_eq body

/-- The tags of a sequence are counted among its leaves. -/
theorem tagCount_eq : ∀ elements : List Element,
    tagCount elements = (tagsAmong (leavesOf elements)).length
  | [] => rfl
  | element :: rest => by
    rw [tagCount, leavesOf, tagsAmong_append, List.length_append, tagsIn_eq element,
      tagCount_eq rest]

/-- The tags of branches are counted among their leaves. -/
theorem tagsInBranches_eq : ∀ branches : List (List Element),
    tagsInBranches branches = (tagsAmong (leavesOfBranches branches)).length
  | [] => rfl
  | branch :: rest => by
    rw [tagsInBranches, leavesOfBranches, tagsAmong_append, List.length_append, tagCount_eq branch,
      tagsInBranches_eq rest]

end

variable {κ : Type} [DecidableEq κ] (registry : Registry)

/-- Wherever a tour ends, it has read no other leaves than those of its sequence and of every
body that it has entered, each once. -/
theorem leaves_subperm (key : Reference → κ) (seen : List κ) (elements : List Element) :
    (registry.tour key seen elements).leaves.Subperm (leavesOf elements ++
      (registry.tour key seen elements).followed.flatMap (registry.ruleLeaves ·.name)) := by
  induction seen, elements using tour_induction registry key with
  | nil seen => rw [tour_nil]; exact .refl _
  | leaf seen element rest hleaf ih =>
    rw [tour_leaf _ _ _ hleaf, leavesOf, (Element.of_leaf hleaf).1]
    exact (List.subperm_cons element).mpr ih
  | inner seen element rest elements hinner ih =>
    rw [tour_inner _ _ _ hinner, leavesOf, (Element.of_inner hinner).1, ← leavesOf_append]
    exact ih
  | again seen element rest reference hrule hseen ih =>
    rw [tour_seen _ _ _ hrule hseen]
    obtain rfl := Element.of_rule hrule
    exact ih
  | follow seen element rest reference hrule hseen body hbody ih =>
    rw [tour_follow _ _ _ hrule hseen hbody]
    obtain rfl := Element.of_rule hrule
    rw [leavesOf_append, List.append_assoc] at ih
    refine ih.trans (List.Perm.subperm ?_)
    -- the leaves of the body just entered stand in front of those behind the reference
    have hswap := List.perm_append_comm_assoc (leavesOf body.elements) (leavesOf rest)
      ((registry.tour key (key reference :: seen) (body.elements ++ rest)).followed.flatMap
        (registry.ruleLeaves ·.name))
    rw [← ruleLeaves_of_body? hbody] at hswap ⊢
    exact hswap
  | stop seen element rest reference hrule hseen hbody =>
    rw [tour_stop _ _ _ hrule hseen hbody]
    exact List.nil_subperm

/-- The leaves of different rules are among those of all rules. -/
theorem ruleLeaves_subperm {names : List String} (hnodup : names.Nodup) :
    (names.flatMap registry.ruleLeaves).Subperm
      (leavesOf (registry.rules.flatMap (·.elements))) := by
  have hbodies : names.flatMap registry.ruleLeaves =
      (names.filterMap registry.body?).flatMap (leavesOf ·.elements) := by
    clear hnodup
    induction names with
    | nil => rfl
    | cons name rest ih =>
      rw [List.flatMap_cons, ih, List.filterMap_cons, ruleLeaves]
      cases registry.body? name <;> rfl
  have hrules : ∀ rules : List RuleBody,
      leavesOf (rules.flatMap (·.elements)) = rules.flatMap (leavesOf ·.elements) := by
    intro rules
    induction rules with
    | nil => rfl
    | cons body rest ih => rw [List.flatMap_cons, leavesOf_append, ih, List.flatMap_cons]
  have hdistinct : (names.filterMap registry.body?).Nodup := by
    refine hnodup.filterMap fun first next body hfirst hnext => ?_
    rw [← (mem_rules_of_body? hfirst).2, ← (mem_rules_of_body? hnext).2]
  have hthere : names.filterMap registry.body? ⊆ registry.rules := by
    intro body hbody
    obtain ⟨name, _, hname⟩ := List.mem_filterMap.mp hbody
    exact (mem_rules_of_body? hname).1
  obtain ⟨middle, hperm, hsublist⟩ := List.subperm_of_subset hdistinct hthere
  rw [hbodies, hrules]
  exact ⟨_, hperm.flatMap_right _, hsublist.flatMap _⟩

/-- The tour that enters every rule once reads no more tags than the bound. -/
theorem length_tags_le (elements : List Element) :
    (registry.tour Reference.name [] elements).tags.length ≤ registry.tagBound elements := by
  have hrules := registry.ruleLeaves_subperm (registry.tour_nodup Reference.name [] elements).1
  rw [List.flatMap_map] at hrules
  have hall := (registry.leaves_subperm Reference.name [] elements).trans
    ((List.subperm_append_left _).mpr hrules)
  obtain ⟨middle, hperm, hsublist⟩ := hall
  rw [Tour.tags, tagsAmong, ← (hperm.filterMap Element.tag?).length_eq, tagBound, tagCount_eq,
    tagCount_eq, ← List.length_append, ← tagsAmong_append]
  exact (hsublist.filterMap Element.tag?).length_le

end Registry

namespace TagCursor

variable (registry : Registry) (elements : List Element)

/-- An exhausted cursor hands out nothing in any number of calls. -/
theorem take_exhausted (calls found : Nat) :
    take registry calls ⟨elements, found, true⟩ = [] := by
  cases calls with
  | zero => rfl
  | succ calls =>
    have hspent : (⟨elements, found, true⟩ : TagCursor).next registry =
        (none, ⟨elements, found, true⟩) := next_of_exhausted rfl
    rw [take, hspent]

/-- A cursor that has been called once more than there are tags left hands out nothing in further
calls. -/
theorem take_of_lt {left found calls more : Nat}
    (htags : found + left = (registry.tour Reference.name [] elements).tags.length)
    (hcalls : left < calls) (hmore : left < more) :
    take registry calls ⟨elements, found, false⟩ = take registry more ⟨elements, found, false⟩ := by
  induction left generalizing found calls more with
  | zero =>
    obtain ⟨calls, rfl⟩ := Nat.exists_eq_add_one_of_ne_zero (Nat.ne_zero_of_lt hcalls)
    obtain ⟨more, rfl⟩ := Nat.exists_eq_add_one_of_ne_zero (Nat.ne_zero_of_lt hmore)
    have hafter := (next_of_le registry elements (Nat.le.intro htags)).2
    rw [if_neg (by omega)] at hafter
    rw [take, take]
    rcases hnext : next registry ⟨elements, found, false⟩ with ⟨_ | item, after⟩
    · rfl
    · rw [hnext] at hafter
      obtain rfl : after = ⟨elements, found, true⟩ := hafter
      dsimp only
      rw [take_exhausted, take_exhausted]
  | succ left ih =>
    obtain ⟨calls, rfl⟩ := Nat.exists_eq_add_one_of_ne_zero (Nat.ne_zero_of_lt hcalls)
    obtain ⟨more, rfl⟩ := Nat.exists_eq_add_one_of_ne_zero (Nat.ne_zero_of_lt hmore)
    have hafter := (next_of_le registry elements (Nat.le.intro htags)).2
    rw [if_pos (by omega)] at hafter
    rw [take, take]
    rcases hnext : next registry ⟨elements, found, false⟩ with ⟨_ | item, after⟩
    · rfl
    · rw [hnext] at hafter
      obtain rfl : after = ⟨elements, found + 1, false⟩ := hafter
      exact congrArg (item :: ·) (ih (by omega) (by omega) (by omega))

end TagCursor

/-- The alternatives of a sequence are all that a cursor hands out. -/
theorem Registry.alternatives_eq_take (registry : Registry) (elements : List Element)
    {calls : Nat} (hcalls : (registry.tour Reference.name [] elements).tags.length < calls) :
    registry.alternatives elements = (TagCursor.start elements).take registry calls :=
  TagCursor.take_of_lt registry elements (Nat.zero_add _)
    (Nat.lt_succ_of_le (registry.length_tags_le elements)) hcalls

end PegTemplates
