import PegTemplates.Proofs.Following.Reachability
import PegTemplates.Proofs.Searching.Outcome

/-!
# Tags behind a cursor

Every call of a cursor starts a search of its own. The calls are shown to give,
one after the other, the tags of the one tour that enters every rule once, then
the undefined rule at which that tour has ended, and then nothing. If all rules
that can be met are defined, these are the tags of the sequence and, once for
every rule that can be met, the tags of its body.
-/

namespace PegTemplates

/-- What a cursor has to hand out after a tour: every tag that was read, and the
undefined rule that ended it. -/
def Tour.items (tour : Tour) : List (Except AnalysisError String) :=
  tour.tags.map .ok ++ tour.stopped.toList.map fun name => .error (.undefinedRule name)

namespace Tour

variable {tour : Tour} {position : Nat}

theorem items_of_tag {tag : String} (htag : tour.tags[position]? = some tag) :
    tour.items[position]? = some (.ok tag) := by
  have hlt := (List.getElem?_eq_some_iff.mp htag).1
  rw [items, List.getElem?_append_left (by simpa using hlt), List.getElem?_map, htag]
  rfl

theorem items_of_stopped {name : String} (hstopped : tour.stopped = some name) :
    tour.items[tour.tags.length]? = some (.error (.undefinedRule name)) := by
  simp [items, hstopped]

theorem items_of_ended (hended : tour.stopped = none) :
    tour.items[tour.tags.length]? = none := by
  simp [items, hended]

/-- Behind the tags there is at most one more item. -/
theorem items_of_lt (hlt : tour.tags.length < position) : tour.items[position]? = none := by
  have hstopped : tour.stopped.toList.length ≤ 1 := by
    cases tour.stopped <;> simp
  rw [items, List.getElem?_eq_none_iff]
  simp only [List.length_append, List.length_map]
  omega

end Tour

namespace TagSearch

/-- A search that passes over no more tags than the tour holds gives the next one, or
misses or fails as the tour has ended. -/
theorem nth_outcome (registry : Registry) (elements : List Element) {skip : Nat}
    (hskip : skip ≤ (registry.tour Reference.name [] elements).tags.length) :
    (∃ hit, nth registry elements skip = .ok (some hit) ∧ registry.Fixes elements hit ∧
      (registry.tour Reference.name [] elements).tags[skip]? = some hit.tag) ∨
    (skip = (registry.tour Reference.name [] elements).tags.length ∧
      nth registry elements skip = match (registry.tour Reference.name [] elements).stopped with
        | some name => .error (.undefinedRule name)
        | none => .ok none) := by
  have hanswer := nth_answers registry elements skip
  unfold nth
  rcases hrun : (inSequence (follow registry registry.rules.length) elements).run ⟨skip, []⟩ with
    reason | ⟨_ | hit, after⟩
  · rw [hrun] at hanswer
    obtain ⟨name, hstopped, rfl, hfew⟩ := hanswer
    refine Or.inr ⟨Nat.le_antisymm hskip hfew, ?_⟩
    rw [hstopped]
    rfl
  · rw [hrun] at hanswer
    obtain ⟨hended, _, hleft⟩ := hanswer
    have hall : skip = (registry.tour Reference.name [] elements).tags.length + after.skip := hleft
    refine Or.inr ⟨by omega, ?_⟩
    rw [hended]
    rfl
  · rw [hrun] at hanswer
    exact Or.inl ⟨hit, rfl, hanswer.2, hanswer.1⟩

end TagSearch

namespace TagCursor

/-- The cursor after that many calls. -/
def after (registry : Registry) (cursor : TagCursor) : Nat → TagCursor
  | 0 => cursor
  | calls + 1 => ((cursor.after registry calls).next registry).2

/-- What the next call gives after that many calls. -/
def item (registry : Registry) (cursor : TagCursor) (calls : Nat) :
    Option (Except AnalysisError TagAlternative) :=
  ((cursor.after registry calls).next registry).1

variable (registry : Registry) (elements : List Element)

/-- A cursor that has handed out some of the tags hands out the next item of the tour. It
is exhausted if that is no tag. -/
theorem next_of_le {found : Nat}
    (hfound : found ≤ (registry.tour Reference.name [] elements).tags.length) :
    ((next registry ⟨elements, found, false⟩).1.map (·.map TagAlternative.tag) =
      (registry.tour Reference.name [] elements).items[found]?) ∧
    (next registry ⟨elements, found, false⟩).2 =
      if found < (registry.tour Reference.name [] elements).tags.length
        then ⟨elements, found + 1, false⟩ else ⟨elements, found, true⟩ := by
  rcases TagSearch.nth_outcome registry elements hfound with
    ⟨hit, hnth, _, htag⟩ | ⟨hlast, hnth⟩
  · rw [Tour.items_of_tag htag, if_pos (List.getElem?_eq_some_iff.mp htag).1]
    simp [next, hnth, Except.map]
  · rw [if_neg (Nat.not_lt_of_le (Nat.le_of_eq hlast.symm))]
    cases hstopped : (registry.tour Reference.name [] elements).stopped with
    | none =>
      rw [hstopped] at hnth
      rw [hlast, Tour.items_of_ended hstopped, ← hlast]
      simp [next, hnth]
    | some name =>
      rw [hstopped] at hnth
      rw [hlast, Tour.items_of_stopped hstopped, ← hlast]
      simp [next, hnth, Except.map]

/-- A cursor has handed out as many tags as it was called, until it is exhausted. -/
theorem after_start (calls : Nat) :
    (start elements).after registry calls =
      if calls ≤ (registry.tour Reference.name [] elements).tags.length
        then ⟨elements, calls, false⟩
        else ⟨elements, (registry.tour Reference.name [] elements).tags.length, true⟩ := by
  induction calls with
  | zero => rfl
  | succ calls ih =>
    rw [after, ih]
    by_cases hle : calls ≤ (registry.tour Reference.name [] elements).tags.length
    · rw [if_pos hle, (next_of_le registry elements hle).2]
      by_cases hlt : calls < (registry.tour Reference.name [] elements).tags.length
      · rw [if_pos hlt, if_pos (Nat.succ_le_of_lt hlt)]
      · rw [if_neg hlt, if_neg (by omega), Nat.le_antisymm hle (Nat.le_of_not_lt hlt)]
    · rw [if_neg hle, if_neg (by omega), next_of_exhausted rfl]

/-- As long as no more calls were made than there are tags, the next call is that of a cursor
that has handed out as many. -/
theorem item_of_le {calls : Nat}
    (hle : calls ≤ (registry.tour Reference.name [] elements).tags.length) :
    (start elements).item registry calls = (next registry ⟨elements, calls, false⟩).1 := by
  rw [item, after_start, if_pos hle]

/-- Every call gives the item of that position. -/
theorem item_eq (calls : Nat) :
    ((start elements).item registry calls).map (·.map TagAlternative.tag) =
      (registry.tour Reference.name [] elements).items[calls]? := by
  by_cases hle : calls ≤ (registry.tour Reference.name [] elements).tags.length
  · rw [item_of_le registry elements hle]
    exact (next_of_le registry elements hle).1
  · rw [item, after_start, if_neg hle, next_of_exhausted rfl,
      Tour.items_of_lt (Nat.lt_of_not_le hle)]
    rfl

/-- What a cursor hands out is the sequence with the way to one of its tags fixed. -/
theorem item_fixes {calls : Nat} {found : TagAlternative}
    (hitem : (start elements).item registry calls = some (.ok found)) :
    registry.Fixes elements found := by
  by_cases hle : calls ≤ (registry.tour Reference.name [] elements).tags.length
  · rw [item_of_le registry elements hle] at hitem
    rcases TagSearch.nth_outcome registry elements hle with ⟨hit, hnth, hfixes, _⟩ | ⟨_, hnth⟩
    · simp only [next, hnth] at hitem
      cases hitem
      exact hfixes
    · cases hstopped : (registry.tour Reference.name [] elements).stopped <;>
        simp [next, hnth, hstopped] at hitem
  · rw [item, after_start, if_neg hle, next_of_exhausted rfl] at hitem
    cases hitem

/-- The calls of a cursor, one after the other, give the tags of the one tour that enters
every rule once, then the undefined rule if one has ended it, and nothing from then on. -/
theorem calls_eq_tour (calls : Nat) :
    (List.range calls).map
        (fun call => ((start elements).item registry call).map (·.map TagAlternative.tag)) =
      ((registry.tour Reference.name [] elements).items.map some).take calls ++
        List.replicate (calls - (registry.tour Reference.name [] elements).items.length) none := by
  refine List.ext_getElem ?_ ?_
  · simp only [List.length_map, List.length_range, List.length_append, List.length_take,
      List.length_replicate]
    omega
  · intro call hcall _
    rw [List.getElem_map, List.getElem_range, item_eq, List.getElem_append]
    split
    · rename_i hitem
      rw [List.getElem_take, List.getElem_map, List.getElem?_eq_getElem]
    · rename_i hnone
      rw [List.getElem_replicate, List.getElem?_eq_none_iff]
      simp only [List.length_map, List.length_range, List.length_take] at hcall hnone
      omega

/-- If every rule that can be met is defined, a cursor hands out the tags of the sequence
and, once for every rule that can be met, the tags of its body. -/
theorem tags_once_each (hdefined : ∀ reference, registry.Reaches elements reference →
      ∃ body, registry.body? reference.name = some body) :
    ∃ tags names : List String,
      (∀ calls, ((start elements).item registry calls).map (·.map TagAlternative.tag) =
        tags[calls]?.map .ok) ∧
      names.Nodup ∧
      (∀ name, name ∈ names ↔
        ∃ reference, registry.Reaches elements reference ∧ reference.name = name) ∧
      tags.Perm (tagsAmong (leavesOf elements) ++
        names.flatMap fun name => tagsAmong (registry.ruleLeaves name)) := by
  have hended := registry.tour_ended Reference.name hdefined
  refine ⟨(registry.tour Reference.name [] elements).tags,
    (registry.tour Reference.name [] elements).followed.map Reference.name,
    fun calls => ?_, (registry.tour_nodup Reference.name [] elements).1, fun name => ⟨?_, ?_⟩, ?_⟩
  · rw [item_eq, Tour.items, hended, Option.toList_none, List.map_nil, List.append_nil,
      List.getElem?_map]
  · intro hname
    obtain ⟨reference, hfollowed, rfl⟩ := List.mem_map.mp hname
    exact ⟨reference,
      (registry.tour_staysWithin Reference.name [] elements).followed reference hfollowed, rfl⟩
  · rintro ⟨reference, hreaches, rfl⟩
    exact registry.key_mem_followed Reference.name (fun _ _ _ _ hsame => hsame) hended hreaches
  · have hread := (registry.leaves_perm Reference.name [] elements hended).filterMap Element.tag?
    rw [List.filterMap_append, List.filterMap_flatMap] at hread
    rw [List.flatMap_map]
    exact hread

/-- Two rules that refer to each other and to themselves are entered once each. -/
theorem tags_once_each_in_cycle :
    let registry : Registry := ⟨[], [
      ⟨"sum", [.optional [.tag "Sum", .nonTerminal "product" ⟨0⟩], .nonTerminal "sum" ⟨1⟩]⟩,
      ⟨"product", [.choice [[.nonTerminal "sum" ⟨2⟩], [.tag "Product"]]]⟩]⟩
    let elements : List Element := [.nonTerminal "sum" ⟨3⟩, .linked none [.nonTerminal "gap" ⟨4⟩],
      .nonTerminal "product" ⟨5⟩, .tag "Root"]
    (∀ reference, registry.Reaches elements reference →
      ∃ body, registry.body? reference.name = some body) ∧
    ∃ tags names : List String,
      (∀ calls, ((start elements).item registry calls).map (·.map TagAlternative.tag) =
        tags[calls]?.map .ok) ∧
      names.Nodup ∧
      (∀ name, name ∈ names ↔
        ∃ reference, registry.Reaches elements reference ∧ reference.name = name) ∧
      tags.Perm (tagsAmong (leavesOf elements) ++
        names.flatMap fun name => tagsAmong (registry.ruleLeaves name)) := by
  intro registry elements
  have hdefined : ∀ reference, registry.Reaches elements reference →
      ∃ body, registry.body? reference.name = some body :=
    fun _ hreaches => hreaches.defined (by decide)
  exact ⟨hdefined, tags_once_each registry elements hdefined⟩

end TagCursor

end PegTemplates
