import PegTemplates.Proofs.Linking.Joining

/-!
# Words of a link body

What is read in a link body is a word of literal bytes and captures. Such a word is one way
of reaching its last capture, with the bytes before and behind that capture as text. What it gives
is a run of parts that are joined, and joining puts words one behind the other.
-/

namespace PegTemplates

/-- One part of a word that is read in a link body. -/
inductive LinkAtom where
  /-- One literal byte. -/
  | byte (value : UInt8)
  /-- A whole captured shape. -/
  | captured (id : ShapeId)
  deriving DecidableEq, Repr

namespace LinkAtom

/-- The literal bytes of a word as text, each as the character of that code. -/
def textOf : List LinkAtom → String
  | [] => ""
  | .byte value :: rest => String.singleton (Char.ofUInt8 value) ++ textOf rest
  | .captured _ :: rest => textOf rest

/-- Whether a word holds no capture. -/
def Plain (word : List LinkAtom) : Prop := ∀ id, .captured id ∉ word

/-- Whether a capture is the last one of a word. -/
def EndsIn (word : List LinkAtom) (id : ShapeId) : Prop :=
  ∃ earlier later, word = earlier ++ .captured id :: later ∧ Plain later

theorem plain_nil : Plain [] := fun _ => List.not_mem_nil

theorem Plain.byte {word : List LinkAtom} (hplain : Plain word) (value : UInt8) :
    Plain (.byte value :: word) := by
  intro id hmem
  rcases List.mem_cons.mp hmem with heq | hrest
  · cases heq
  · exact hplain id hrest

/-- A word has no capture at all or a last one. -/
theorem plain_or_endsIn (word : List LinkAtom) : Plain word ∨ ∃ id, EndsIn word id := by
  induction word with
  | nil => exact Or.inl plain_nil
  | cons atom rest ih =>
    rcases ih with hplain | ⟨id, earlier, later, rfl, hlater⟩
    · cases atom with
      | byte value => exact Or.inl (hplain.byte value)
      | captured id => exact Or.inr ⟨id, [], rest, rfl, hplain⟩
    · exact Or.inr ⟨id, atom :: earlier, later, rfl, hlater⟩

end LinkAtom

namespace LinkedInner

/-- One part of a word as a way of reaching a capture. -/
def ofAtom : LinkAtom → LinkedInner
  | .byte value => ofByte value
  | .captured id => ofCapture id

/-- A word as a way of reaching its last capture. -/
def ofWord : List LinkAtom → LinkedInner
  | [] => empty
  | atom :: rest => (ofAtom atom).join (ofWord rest)

/-- What a part of a word gives is well-formed. -/
theorem wellFormed_ofAtom (atom : LinkAtom) : (ofAtom atom).WellFormed := by
  cases atom with
  | byte value => exact wellFormed_ofByte value
  | captured id => exact wellFormed_ofCapture id

/-- What the parts of a word give is well-formed. -/
theorem wellFormed_map_ofAtom (word : List LinkAtom) :
    ∀ part ∈ word.map ofAtom, part.WellFormed :=
  List.forall_mem_map.mpr fun atom _ => wellFormed_ofAtom atom

/-- What a word gives is well-formed. -/
theorem wellFormed_ofWord (word : List LinkAtom) : (ofWord word).WellFormed := by
  induction word with
  | nil => exact wellFormed_empty
  | cons atom rest ih => exact ih.join (ofAtom atom)

/-- A word behind another one is joined to it. -/
theorem ofWord_append (first next : List LinkAtom) :
    ofWord (first ++ next) = (ofWord first).join (ofWord next) := by
  induction first with
  | nil => exact (empty_join _).symm
  | cons atom rest ih =>
    rw [List.cons_append, ofWord, ih, ofWord, join_assoc _ _ (wellFormed_ofWord rest)]

/-- A word gives what its parts give when they are joined one after the other. -/
theorem ofWord_eq_joinOnto (word : List LinkAtom) :
    ofWord word = empty.joinOnto (word.map ofAtom) := by
  induction word with
  | nil => rfl
  | cons atom rest ih =>
    rw [ofWord, ih, ← joinOnto_eq_join (wellFormed_ofAtom atom) (wellFormed_map_ofAtom rest),
      List.map_cons, empty_joinOnto]

/-- The text of what the parts of a word give is that of the word. -/
theorem textOfAll_map_ofAtom (word : List LinkAtom) :
    textOfAll (word.map ofAtom) = LinkAtom.textOf word := by
  induction word with
  | nil => rfl
  | cons atom rest ih =>
    rw [List.map_cons, textOfAll, List.map_cons, String.join_cons, ← textOfAll, ih]
    cases atom <;> simp [ofAtom, ofByte, ofCapture, allText, LinkAtom.textOf]

/-- No part of a word without a capture gives one. -/
theorem capture_of_plain {word : List LinkAtom} (hplain : LinkAtom.Plain word) :
    ∀ part ∈ word.map ofAtom, part.capture = none := by
  refine List.forall_mem_map.mpr fun atom hatom => ?_
  cases atom with
  | byte value => rfl
  | captured id => exact absurd hatom (hplain id)

/-- A word without a capture is all text. -/
theorem ofWord_plain {word : List LinkAtom} (hplain : LinkAtom.Plain word) :
    ofWord word = ⟨none, LinkAtom.textOf word, ""⟩ := by
  rw [ofWord_eq_joinOnto, joinOnto_eq_text (wellFormed_map_ofAtom word) (capture_of_plain hplain),
    textOfAll_map_ofAtom]

/-- A word reaches its last capture with the bytes before it and those behind it. -/
theorem ofWord_last (earlier : List LinkAtom) (id : ShapeId) {later : List LinkAtom}
    (hlater : LinkAtom.Plain later) :
    ofWord (earlier ++ .captured id :: later) =
      ⟨some id, LinkAtom.textOf earlier, LinkAtom.textOf later⟩ := by
  have hparts := wellFormed_map_ofAtom (earlier ++ .captured id :: later)
  rw [List.map_append, List.map_cons, ofAtom] at hparts
  rw [ofWord_eq_joinOnto, List.map_append, List.map_cons, ofAtom,
    joinOnto_last hparts rfl (capture_of_plain hlater), textOfAll_map_ofAtom, textOfAll_map_ofAtom]
  simp [ofCapture]

/-- The capture that a word reaches is its last one. -/
theorem capture_ofWord_iff {word : List LinkAtom} {id : ShapeId} :
    (ofWord word).capture = some id ↔ LinkAtom.EndsIn word id := by
  constructor
  · intro hcapture
    rcases LinkAtom.plain_or_endsIn word with hplain | ⟨last, earlier, later, rfl, hlater⟩
    · rw [ofWord_plain hplain] at hcapture
      cases hcapture
    · rw [ofWord_last earlier last hlater] at hcapture
      obtain rfl := Option.some.inj hcapture
      exact ⟨earlier, later, rfl, hlater⟩
  · rintro ⟨earlier, later, rfl, hlater⟩
    rw [ofWord_last earlier id hlater]

end LinkedInner

end PegTemplates
