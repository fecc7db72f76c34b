import PegTemplates.Proofs.Reading.Records

/-!
# Readers that stop

A reader stops at a text if it comes to the same fault whatever blanks stand in front of the text
and wherever the text goes on behind it. What stands in an array in front of an element at which
the reader of elements stops is read first, and then the array stops at the position of that
element. An object stops in the same way at the field of a member.
-/

namespace PegTemplates.Json

/-- Whether a reader stops with a fault in the middle of a text. -/
def Faults {α : Type} (read : ReadM α) (before : Bytes) (fault : Fault) : Prop :=
  read before = .error fault

/-- Whether a reader stops at a text, whatever blanks stand in front of it and wherever the text
goes on behind it. -/
structure Stops {α : Type} (read : ReadM α) (text : Bytes) (fault : Fault) : Prop where
  /-- The text begins as a value does. -/
  starts : Starts text
  /-- The reader comes to the fault. -/
  faults : ∀ {lead : Bytes} (rest : Bytes), Blanks lead →
    Faults read (lead ++ (text ++ rest)) fault

section Steps

variable {α β : Type} {read : ReadM α} {next : α → ReadM β} {before middle text : Bytes}
  {value : α} {fault : Fault}

/-- Nothing is read behind a fault. -/
theorem Faults.bind (next : α → ReadM β) (hread : Faults read before fault) :
    Faults (read >>= next) before fault := by
  change Except.bind (read before) (fun pair => next pair.1 pair.2) = _
  rw [hread]
  rfl

/-- A fault one level further down is met there. -/
theorem Faults.within (segment : Segment) (hread : Faults read before fault) :
    Faults (Json.within segment read) before (fault.within segment) := by
  rw [Faults, Json.within, hread]

/-- A fault is met behind what has been read. -/
theorem Gives.faults (hread : Gives read before value middle)
    (hnext : Faults (next value) middle fault) : Faults (read >>= next) before fault :=
  hread.run_bind.trans hnext

/-- Nothing is read behind a text at which a reader stops. -/
theorem Stops.bind (next : α → ReadM β) (hread : Stops read text fault) :
    Stops (read >>= next) text fault :=
  ⟨hread.starts, fun rest hlead => (hread.faults rest hlead).bind next⟩

end Steps

section Arrays

variable {α : Type} {read : ReadM α} {before after text bad : Bytes} {front back items : List Bytes}
  {values : List α} {fault : Fault} {bound index : Nat}

/-- A number ends in front of items that follow. -/
theorem Following.follows_of_ne_nil (hfollowing : Following items text) (hitems : items ≠ [])
    (rest : Bytes) : Follows (text ++ rest) := by
  cases hfollowing with
  | nil => exact absurd rfl hitems
  | cons hbefore =>
    rw [List.append_assoc, List.cons_append]
    exact Follows.close hbefore _ (.inl rfl)

/-- A fault in an element is met at its position. -/
theorem elements_faults (hnext : Gives (hasNextElement (index = 0)) before true (bad ++ after))
    (hstops : Stops read bad fault) :
    Faults (elements read (bound + 1) index) before (fault.within (.position index)) := by
  rw [elements]
  refine hnext.faults ?_
  rw [if_pos rfl]
  exact ((hstops.faults after Blanks.nil).within _).bind _

/-- A fault behind an element is met behind it. -/
theorem elements_cons_faults {item : Bytes} {value : α}
    (hnext : Gives (hasNextElement (index = 0)) before true (item ++ after))
    (hitem : Takes read item value) (hafter : Follows after)
    (hmore : Faults (elements read bound (index + 1)) after fault) :
    Faults (elements read (bound + 1) index) before fault := by
  rw [elements]
  refine hnext.faults ?_
  rw [if_pos rfl]
  exact ((hitem.gives Blanks.nil hafter).within _).faults (hmore.bind _)

/-- The elements that follow are read up to the one at which their reader stops. -/
theorem elements_following_faults (hfollowing : Following (front ++ bad :: back) text)
    (htakes : List.Forall₂ (Takes read) front values) (hstops : Stops read bad fault)
    (rest : Bytes) (hbound : front.length < bound) (index : Nat) :
    Faults (elements read bound (index + 1)) (text ++ rest)
      (fault.within (.position (index + 1 + front.length))) := by
  induction front generalizing values text bound index with
  | nil =>
    obtain ⟨bound, rfl⟩ : ∃ less, bound = less + 1 := ⟨bound - 1, by omega⟩
    cases hfollowing with
    | cons hbefore hbehind hmore =>
      simp only [List.append_assoc, List.cons_append]
      exact elements_faults (hasNextElement_next hbefore hbehind hstops.starts) hstops
  | cons item front ih =>
    obtain _ | ⟨hitem, hitems⟩ := htakes
    obtain ⟨bound, rfl⟩ : ∃ less, bound = less + 1 := ⟨bound - 1, by omega⟩
    cases hfollowing with
    | cons hbefore hbehind hmore =>
      have hfaults := ih hmore hitems (Nat.lt_of_succ_lt_succ hbound) (index + 1)
      simp only [List.append_assoc, List.cons_append, List.length_cons] at hfaults ⊢
      rw [Nat.add_comm front.length, ← Nat.add_assoc]
      exact elements_cons_faults (hasNextElement_next hbefore hbehind hitem.starts) hitem
        (hmore.follows_of_ne_nil (by simp) rest) hfaults

/-- Separated elements are read up to the one at which their reader stops. -/
theorem elements_separated_faults (hseparated : Separated (front ++ bad :: back) text)
    (htakes : List.Forall₂ (Takes read) front values) (hstops : Stops read bad fault)
    {blanks : Bytes} (hblanks : Blanks blanks) (rest : Bytes) (hbound : front.length < bound) :
    Faults (elements read bound 0) (blanks ++ (text ++ rest))
      (fault.within (.position front.length)) := by
  obtain ⟨bound, rfl⟩ : ∃ less, bound = less + 1 := ⟨bound - 1, by omega⟩
  cases front with
  | nil =>
    cases hseparated with
    | cons hmore =>
      rw [List.append_assoc]
      exact elements_faults (hasNextElement_first hblanks hstops.starts) hstops
  | cons item front =>
    obtain _ | ⟨hitem, hitems⟩ := htakes
    cases hseparated with
    | cons hmore =>
      have hrest := elements_following_faults hmore hitems hstops rest
        (Nat.lt_of_succ_lt_succ hbound) 0
      rw [Nat.zero_add, Nat.add_comm] at hrest
      rw [List.append_assoc]
      exact elements_cons_faults (hasNextElement_first hblanks hitem.starts) hitem
        (hmore.follows_of_ne_nil (by simp) rest) hrest

/-- An array is read up to the element at which their reader stops. -/
theorem readList_stops (harray : ArrayText (front ++ bad :: back) text)
    (htakes : List.Forall₂ (Takes read) front values) (hstops : Stops read bad fault)
    (hbound : text.length ≤ bound) :
    Stops (readList bound (some read)) text (fault.within (.position front.length)) := by
  refine ⟨harray.starts, fun {lead} rest hlead => ?_⟩
  obtain ⟨inside, hseparated, henclosed⟩ := harray
  have hmany := hseparated.length_le
  have hinside := henclosed.length_le
  obtain ⟨blanks, trail, hblanks, _, rfl⟩ := henclosed
  rw [List.length_append, List.length_cons] at hmany
  have hroom : front.length < bound := by omega
  have hfaults := elements_separated_faults hseparated htakes hstops hblanks
    (trail ++ closeBracket :: rest) hroom
  simp only [List.append_assoc, List.cons_append, List.nil_append]
  refine (firstByte_gives hlead (by decide)).faults ?_
  rw [if_pos rfl]
  exact (advance_gives _ _).faults (hfaults.bind _)

end Arrays

section Objects

variable {σ α : Type} {before after text bad item : Bytes} {back members : List (String × Bytes)}
  {fault : Fault} {field : Field σ} {state next last : σ} {name : String} {bound : Nat}
  {first : Bool}

/-- Whether members are read one after the other as fields of a record, from one state of the
record to another one. -/
inductive ReadsMembers (fields : List (Field σ)) : σ → List (String × Bytes) → σ → Prop where
  /-- Nothing is read. -/
  | nil (state : σ) : ReadsMembers fields state [] state
  /-- A field that has not been read is read, and then the others. -/
  | cons {state next last : σ} {field : Field σ} {name : String} {text : Bytes}
      {members : List (String × Bytes)} (hfind : fields.find? (·.name == name) = some field)
      (hfilled : field.filled state = false) (htakes : Takes (field.read state) text next)
      (hmore : ReadsMembers fields next members last) :
      ReadsMembers fields state ((name, text) :: members) last

/-- A fault in the value of a field is met at the field. -/
theorem objectFields_faults {fields : List (Field σ)} (whole : Nat)
    (hfind : fields.find? (·.name == name) = some field) (hfilled : field.filled state = false)
    (hstops : Stops (field.read state) bad fault)
    (hitem : MemberText StringText (name, bad) item)
    (hnext : Gives (hasNextKey first) before true (item ++ after)) :
    Faults (objectFields whole fields (bound + 1) first state) before
      (fault.within (.field name)) := by
  have hsame : field.name = name := by simpa using List.find?_some hfind
  obtain ⟨behind, hbehind, hread⟩ := objectFields_key whole bound hfind hfilled hitem hnext
  rw [Faults, hread, ← hsame]
  exact ((hstops.faults after hbehind).within _).bind _

/-- A fault behind a field is met behind it. -/
theorem objectFields_cons_faults {fields : List (Field σ)} {whole : Nat}
    (hfind : fields.find? (·.name == name) = some field) (hfilled : field.filled state = false)
    (htakes : Takes (field.read state) text next)
    (hitem : MemberText StringText (name, text) item)
    (hnext : Gives (hasNextKey first) before true (item ++ after)) (hafter : Follows after)
    (hmore : Faults (objectFields whole fields bound false next) after fault) :
    Faults (objectFields whole fields (bound + 1) first state) before fault := by
  obtain ⟨behind, hbehind, hread⟩ := objectFields_key whole bound hfind hfilled hitem hnext
  rw [Faults, hread]
  exact ((htakes.gives hbehind hafter).within _).faults hmore

/-- The members that follow are read up to the field at which its reader stops. -/
theorem objectFields_following_faults {fields : List (Field σ)} {whole : Nat} {items : List Bytes}
    (hreads : ReadsMembers fields state members last)
    (hfind : fields.find? (·.name == name) = some field) (hfilled : field.filled last = false)
    (hstops : Stops (field.read last) bad fault) (hfollowing : Following items text)
    (hitems : List.Forall₂ (MemberText StringText) (members ++ (name, bad) :: back) items)
    (rest : Bytes) (hbound : members.length < bound) :
    Faults (objectFields whole fields bound false state) (text ++ rest)
      (fault.within (.field name)) := by
  induction hreads generalizing text bound items with
  | nil state =>
    obtain ⟨bound, rfl⟩ : ∃ less, bound = less + 1 := ⟨bound - 1, by omega⟩
    obtain _ | ⟨hitem, hitems⟩ := hitems
    cases hfollowing with
    | cons hbefore hbehind hmore =>
      simp only [List.append_assoc, List.cons_append]
      exact objectFields_faults whole hfind hfilled hstops hitem
        (hasNextKey_next hbefore hbehind hitem.quoted)
  | cons hfirst hnew htakes hmembers ih =>
    obtain ⟨bound, rfl⟩ : ∃ less, bound = less + 1 := ⟨bound - 1, by omega⟩
    obtain _ | ⟨hitem, hitems⟩ := hitems
    cases hfollowing with
    | cons hbefore hbehind hmore =>
      have hlength := hitems.length_eq
      simp only [List.append_assoc, List.cons_append]
      exact objectFields_cons_faults hfirst hnew htakes hitem
        (hasNextKey_next hbefore hbehind hitem.quoted)
        (hmore.follows_of_ne_nil (by rintro rfl; simp at hlength) rest)
        (ih hfilled hstops hmore hitems (Nat.lt_of_succ_lt_succ hbound))

/-- Separated members are read up to the field at which its reader stops. -/
theorem objectFields_separated_faults {fields : List (Field σ)} (whole : Nat) {items : List Bytes}
    (hreads : ReadsMembers fields state members last)
    (hfind : fields.find? (·.name == name) = some field) (hfilled : field.filled last = false)
    (hstops : Stops (field.read last) bad fault) (hseparated : Separated items text)
    (hitems : List.Forall₂ (MemberText StringText) (members ++ (name, bad) :: back) items)
    {blanks : Bytes} (hblanks : Blanks blanks) (rest : Bytes) (hbound : members.length < bound) :
    Faults (objectFields whole fields bound true state) (blanks ++ (text ++ rest))
      (fault.within (.field name)) := by
  obtain ⟨bound, rfl⟩ : ∃ less, bound = less + 1 := ⟨bound - 1, by omega⟩
  cases hreads with
  | nil =>
    obtain _ | ⟨hitem, hitems⟩ := hitems
    cases hseparated with
    | cons hmore =>
      rw [List.append_assoc]
      exact objectFields_faults whole hfind hfilled hstops hitem
        (hasNextKey_first hblanks hitem.quoted)
  | cons hfirst hnew htakes hmembers =>
    obtain _ | ⟨hitem, hitems⟩ := hitems
    have hothers := hitems.length_eq
    cases hseparated with
    | cons hmore =>
      rw [List.append_assoc]
      exact objectFields_cons_faults hfirst hnew htakes hitem
        (hasNextKey_first hblanks hitem.quoted)
        (hmore.follows_of_ne_nil (by rintro rfl; simp at hothers) rest)
        (objectFields_following_faults hmembers hfind hfilled hstops hmore hitems rest
          (Nat.lt_of_succ_lt_succ hbound))

/-- A record is read up to the field at which its reader stops. -/
theorem readRecord_stops {format : RecordFormat σ α}
    (hreads : ReadsMembers format.fields format.start members last)
    (hfind : format.fields.find? (·.name == name) = some field)
    (hfilled : field.filled last = false) (hstops : Stops (field.read last) bad fault)
    (hobject : ObjectText StringText (members ++ (name, bad) :: back) text) (expected : String)
    (hbound : text.length ≤ bound) :
    Stops (readRecord bound expected (some format)) text (fault.within (.field name)) := by
  refine ⟨hobject.starts, fun {lead} rest hlead => ?_⟩
  obtain ⟨items, inside, hitems, hseparated, henclosed⟩ := hobject
  have hmany := hseparated.length_le
  have hinside := henclosed.length_le
  obtain ⟨blanks, trail, hblanks, _, rfl⟩ := henclosed
  rw [← hitems.length_eq, List.length_append, List.length_cons] at hmany
  have hroom : members.length < bound := by omega
  have hfaults := objectFields_separated_faults bound hreads hfind hfilled hstops hseparated hitems
    hblanks (trail ++ closeBrace :: rest) hroom
  simp only [List.append_assoc, List.cons_append, List.nil_append]
  refine (firstByte_gives hlead (by decide)).faults ?_
  rw [if_neg (by decide), if_pos rfl]
  exact (advance_gives _ _).faults (hfaults.bind _)

end Objects

end PegTemplates.Json
