import Mathlib.Data.List.Forall2
import PegTemplates.Json.Record
import PegTemplates.Proofs.Reading.Steps

/-!
# Arrays and objects as texts

The texts of the values of an array stand between brackets with commas between them, those of the
members of an object between braces. Blanks may stand at every seam. A reader of elements gives
the values one by one; it needs no more rounds than there are bytes.
-/

namespace PegTemplates.Json

/-- Whether a text holds the given items with a comma in front of each. -/
inductive Following : List Bytes → Bytes → Prop where
  /-- Nothing follows. -/
  | nil : Following [] []
  /-- An item follows, then the others. -/
  | cons {before behind item more : Bytes} {items : List Bytes} (hbefore : Blanks before)
      (hbehind : Blanks behind) (hmore : Following items more) :
      Following (item :: items) (before ++ comma :: (behind ++ (item ++ more)))

/-- Whether a text holds the given items with commas between them. -/
inductive Separated : List Bytes → Bytes → Prop where
  /-- There are no items. -/
  | nil : Separated [] []
  /-- The first item, and what follows. -/
  | cons {item more : Bytes} {items : List Bytes} (hmore : Following items more) :
      Separated (item :: items) (item ++ more)

/-- Whether a text is an opening, blanks, what stands inside, blanks and a closing. -/
def Enclosed (opening closing : UInt8) (inside text : Bytes) : Prop :=
  ∃ lead trail, Blanks lead ∧ Blanks trail ∧
    text = opening :: (lead ++ (inside ++ (trail ++ [closing])))

/-- Whether a text is an array of values with the given texts. -/
def ArrayText (values : List Bytes) (text : Bytes) : Prop :=
  ∃ inside, Separated values inside ∧ Enclosed openBracket closeBracket inside text

/-- Whether a text is a spelling of a key, a colon and the text of a value with blanks between
them. -/
def MemberText {κ : Type} (spells : κ → Bytes → Prop) (member : κ × Bytes) (text : Bytes) : Prop :=
  ∃ key before behind, spells member.1 key ∧ Blanks before ∧ Blanks behind ∧
    text = key ++ (before ++ colon :: (behind ++ member.2))

/-- Whether a text is an object with members that have the given keys and texts of values. -/
def ObjectText {κ : Type} (spells : κ → Bytes → Prop) (members : List (κ × Bytes))
    (text : Bytes) : Prop :=
  ∃ items inside, List.Forall₂ (MemberText spells) members items ∧ Separated items inside ∧
    Enclosed openBrace closeBrace inside text

/-- What stands on the right of pairs has something on the left. -/
theorem exists_left_of_mem {α β : Type} {pairs : α → β → Prop} {left : List α} {right : List β}
    (hpairs : List.Forall₂ pairs left right) {item : β} (hitem : item ∈ right) :
    ∃ value ∈ left, pairs value item := by
  induction hpairs with
  | nil => cases hitem
  | cons hpair hmore ih =>
    rcases List.mem_cons.mp hitem with rfl | htail
    · exact ⟨_, List.mem_cons_self, hpair⟩
    · obtain ⟨value, hvalue, hpair⟩ := ih htail
      exact ⟨value, List.mem_cons_of_mem _ hvalue, hpair⟩

section Lengths

variable {items : List Bytes} {item text : Bytes}

/-- No more items follow than there are bytes. -/
theorem Following.length_le (hfollowing : Following items text) : items.length ≤ text.length := by
  induction hfollowing with
  | nil => exact Nat.le_refl _
  | cons hbefore hbehind hmore ih =>
    simp only [List.length_cons, List.length_append]
    omega

/-- An item that follows is no longer than the text. -/
theorem Following.item_length_le (hfollowing : Following items text) (hitem : item ∈ items) :
    item.length ≤ text.length := by
  induction hfollowing with
  | nil => cases hitem
  | cons hbefore hbehind hmore ih =>
    simp only [List.length_cons, List.length_append]
    rcases List.mem_cons.mp hitem with rfl | htail
    · omega
    · have hle := ih htail
      omega

/-- At most one item more stands in a text than there are bytes. -/
theorem Separated.length_le (hseparated : Separated items text) :
    items.length ≤ text.length + 1 := by
  cases hseparated with
  | nil => exact Nat.zero_le _
  | cons hmore =>
    have hlength := hmore.length_le
    simp only [List.length_cons, List.length_append]
    omega

/-- An item is no longer than the text it stands in. -/
theorem Separated.item_length_le (hseparated : Separated items text) (hitem : item ∈ items) :
    item.length ≤ text.length := by
  cases hseparated with
  | nil => cases hitem
  | cons hmore =>
    simp only [List.length_append]
    rcases List.mem_cons.mp hitem with rfl | htail
    · omega
    · have hle := hmore.item_length_le htail
      omega

/-- Delimiters take two bytes. -/
theorem Enclosed.length_le {opening closing : UInt8} {inside : Bytes}
    (henclosed : Enclosed opening closing inside text) : inside.length + 2 ≤ text.length := by
  obtain ⟨lead, trail, _, _, rfl⟩ := henclosed
  simp only [List.length_cons, List.length_append, List.length_nil]
  omega

end Lengths

section Separating

variable {b : UInt8} {lead before behind rest : Bytes}

/-- An array ends at its bracket. -/
theorem hasNextElement_end (first : Bool) (hlead : Blanks lead) :
    Gives (hasNextElement first) (lead ++ closeBracket :: rest) false (closeBracket :: rest) :=
  (peek_gives hlead (by decide)).bind (.ite_pos rfl (.pure _ _))

/-- An array begins with its first element. -/
theorem hasNextElement_first {item : Bytes} (hlead : Blanks lead) (hstarts : Starts item) :
    Gives (hasNextElement true) (lead ++ (item ++ rest)) true (item ++ rest) := by
  obtain ⟨b, more, rfl, hblank, hclose, _⟩ := hstarts
  exact (peek_gives hlead hblank).bind (.ite_neg hclose (.ite_pos rfl (.pure _ _)))

/-- An array goes on behind a comma. -/
theorem hasNextElement_next {item : Bytes} (hbefore : Blanks before) (hbehind : Blanks behind)
    (hstarts : Starts item) :
    Gives (hasNextElement false) (before ++ comma :: (behind ++ (item ++ rest))) true
      (item ++ rest) := by
  obtain ⟨b, more, rfl, hblank, hclose, _⟩ := hstarts
  have hcomma : comma ≠ closeBracket := by decide
  refine (peek_gives hbefore (by decide)).bind ?_
  dsimp only
  rw [if_neg hcomma, if_neg Bool.false_ne_true, if_pos rfl]
  refine (advance_gives _ _).bind ((peek_gives hbehind hblank).bind ?_)
  exact .ite_neg hclose (.pure _ _)

/-- The end of an array is taken. -/
theorem endList_gives (hlead : Blanks lead) (rest : Bytes) :
    Gives endList (lead ++ closeBracket :: rest) () rest :=
  (peek_gives hlead (by decide)).bind (.ite_pos rfl (advance_gives _ _))

/-- An object ends at its brace. -/
theorem hasNextKey_end (first : Bool) (hlead : Blanks lead) :
    Gives (hasNextKey first) (lead ++ closeBrace :: rest) false (closeBrace :: rest) :=
  (peek_gives hlead (by decide)).bind (.ite_pos rfl (.pure _ _))

/-- An object begins with its first key. -/
theorem hasNextKey_first {item : Bytes} (hlead : Blanks lead)
    (hquoted : ∃ more, item = quote :: more) :
    Gives (hasNextKey true) (lead ++ (item ++ rest)) true (item ++ rest) := by
  obtain ⟨more, rfl⟩ := hquoted
  exact (peek_gives hlead (by decide)).bind
    (.ite_neg (by decide) (.ite_pos rfl (.ite_pos rfl (.pure _ _))))

/-- An object goes on behind a comma. -/
theorem hasNextKey_next {item : Bytes} (hbefore : Blanks before) (hbehind : Blanks behind)
    (hquoted : ∃ more, item = quote :: more) :
    Gives (hasNextKey false) (before ++ comma :: (behind ++ (item ++ rest))) true
      (item ++ rest) := by
  obtain ⟨more, rfl⟩ := hquoted
  have hcomma : comma ≠ closeBrace := by decide
  refine (peek_gives hbefore (by decide)).bind ?_
  dsimp only
  rw [if_neg hcomma, if_neg Bool.false_ne_true, if_pos rfl]
  refine (advance_gives _ _).bind ((peek_gives hbehind (by decide)).bind ?_)
  exact .ite_pos rfl (.pure _ _)

/-- The end of an object is taken. -/
theorem endObject_gives (rest : Bytes) : Gives endObject (closeBrace :: rest) () rest :=
  (peek_gives Blanks.nil (by decide)).bind (.ite_pos rfl (advance_gives _ _))

/-- The colon behind a key is taken. -/
theorem readColon_gives (hlead : Blanks lead) :
    Gives readColon (lead ++ colon :: rest) () rest :=
  (peek_gives hlead (by decide)).bind (.ite_pos rfl (advance_gives _ _))

end Separating

section Elements

variable {α : Type} {read : ReadM α} {items : List Bytes} {values : List α} {text trail : Bytes}

/-- A number ends in front of a comma or a closing, whatever blanks stand in between. -/
theorem Follows.close {b : UInt8} (htrail : Blanks trail) (rest : Bytes)
    (hb : b = comma ∨ b = closeBracket ∨ b = closeBrace) : Follows (trail ++ b :: rest) := by
  refine Follows.blanks htrail fun c hc => ?_
  obtain rfl : b = c := Option.some.inj hc
  rcases hb with rfl | rfl | rfl <;> decide

/-- A number ends in front of what follows in an array or object. -/
theorem Following.follows {b : UInt8} (hfollowing : Following items text)
    (htrail : Blanks trail) (rest : Bytes) (hb : b = comma ∨ b = closeBracket ∨ b = closeBrace) :
    Follows (text ++ (trail ++ b :: rest)) := by
  cases hfollowing with
  | nil => exact Follows.close htrail rest hb
  | cons hbefore =>
    rw [List.append_assoc, List.cons_append]
    exact Follows.close hbefore _ (.inl rfl)

/-- One element is read, and then the others. -/
theorem elements_cons {before after rest item : Bytes} {value : α} {bound index : Nat}
    (hnext : Gives (hasNextElement (index = 0)) before true (item ++ after))
    (hitem : Takes read item value) (hafter : Follows after)
    (hmore : Gives (elements read bound (index + 1)) after values rest) :
    Gives (elements read (bound + 1) index) before (value :: values) rest :=
  hnext.bind (.ite_pos rfl (((hitem.gives Blanks.nil hafter).within _).bind
    (hmore.bind (.pure _ _))))

/-- No elements are read at the end of an array. -/
theorem elements_end (bound index : Nat) (htrail : Blanks trail) (rest : Bytes) :
    Gives (elements read (bound + 1) index) (trail ++ closeBracket :: rest) []
      (closeBracket :: rest) :=
  (hasNextElement_end _ htrail).bind (.pure _ _)

/-- The elements that follow are read up to the end of the array. -/
theorem elements_following (hfollowing : Following items text)
    (htakes : List.Forall₂ (Takes read) items values) (htrail : Blanks trail) (rest : Bytes)
    {bound : Nat} (hbound : items.length < bound) (index : Nat) :
    Gives (elements read bound (index + 1)) (text ++ (trail ++ closeBracket :: rest)) values
      (closeBracket :: rest) := by
  induction hfollowing generalizing values bound index with
  | nil =>
    cases htakes
    obtain ⟨bound, rfl⟩ : ∃ less, bound = less + 1 := ⟨bound - 1, by omega⟩
    exact elements_end bound (index + 1) htrail rest
  | cons hbefore hbehind hmore ih =>
    obtain _ | ⟨hitem, hitems⟩ := htakes
    obtain ⟨bound, rfl⟩ : ∃ less, bound = less + 1 := ⟨bound - 1, by omega⟩
    have hafter := hmore.follows htrail rest (.inr (.inl rfl))
    simp only [List.append_assoc, List.cons_append]
    exact elements_cons (hasNextElement_next hbefore hbehind hitem.starts) hitem hafter
      (ih hitems (Nat.lt_of_succ_lt_succ hbound) (index + 1))

/-- The elements of an array are read up to its end. -/
theorem elements_gives {lead : Bytes} (hseparated : Separated items text)
    (htakes : List.Forall₂ (Takes read) items values) (hlead : Blanks lead)
    (htrail : Blanks trail) (rest : Bytes) {bound : Nat} (hbound : items.length < bound) :
    Gives (elements read bound 0) (lead ++ (text ++ (trail ++ closeBracket :: rest))) values
      (closeBracket :: rest) := by
  obtain ⟨bound, rfl⟩ : ∃ less, bound = less + 1 := ⟨bound - 1, by omega⟩
  cases hseparated with
  | nil =>
    cases htakes
    rw [List.nil_append, ← List.append_assoc]
    exact elements_end bound 0 (hlead.append htrail) rest
  | cons hmore =>
    obtain _ | ⟨hitem, hitems⟩ := htakes
    have hafter := hmore.follows htrail rest (.inr (.inl rfl))
    rw [List.append_assoc]
    exact elements_cons (hasNextElement_first hlead hitem.starts) hitem hafter
      (elements_following hmore hitems htrail rest (Nat.lt_of_succ_lt_succ hbound) 0)

/-- An array is read as the list of its values. -/
theorem readList_gives {lead : Bytes} (harray : ArrayText items text)
    (htakes : List.Forall₂ (Takes read) items values) {bound : Nat} (hbound : text.length ≤ bound)
    (hlead : Blanks lead) (rest : Bytes) :
    Gives (readList bound (some read)) (lead ++ (text ++ rest)) values rest := by
  obtain ⟨inside, hseparated, henclosed⟩ := harray
  have hitems := hseparated.length_le
  have hinside := henclosed.length_le
  obtain ⟨blanks, trail, hblanks, htrail, rfl⟩ := henclosed
  simp only [List.append_assoc, List.cons_append, List.nil_append]
  refine (firstByte_gives hlead (by decide)).bind (.ite_pos rfl ((advance_gives _ _).bind ?_))
  refine (elements_gives hseparated htakes hblanks htrail rest (by omega)).bind ?_
  exact (endList_gives Blanks.nil rest).bind (.pure _ _)

end Elements

end PegTemplates.Json
