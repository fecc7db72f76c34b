import PegTemplates.Layout

/-!
# Joining the parts of a link body

Well-formed parts of a link body form a monoid: joining keeps them well-formed, it does not matter
which neighbours are joined first, and the empty part changes nothing. A run of parts that are
joined from left to right keeps the order in which they are read. It reaches the capture of its
last part that carries one; all text in front of that part is read before the capture, and all
text behind it is read after the capture.
-/

namespace PegTemplates.LinkedInner

/-- Whether nothing is said to be read after a capture that is not there. -/
def WellFormed (part : LinkedInner) : Prop := part.capture = none → part.after = ""

/-- All text of a part, in the order in which it is read. -/
def allText (part : LinkedInner) : String := part.before ++ part.after

/-- All text of some parts, in the order in which it is read. -/
def textOfAll (parts : List LinkedInner) : String := String.join (parts.map allText)

/-- Parts in a row, joined from left to right to what stands in front of them. -/
def joinOnto (first : LinkedInner) (rest : List LinkedInner) : LinkedInner := rest.foldl join first

variable {first next part carrier : LinkedInner} {rest parts earlier later : List LinkedInner}
  {id : ShapeId}

/-- The empty part is well-formed. -/
theorem wellFormed_empty : empty.WellFormed := fun _ => rfl

/-- A capture alone is well-formed. -/
theorem wellFormed_ofCapture (id : ShapeId) : (ofCapture id).WellFormed := nofun

/-- A byte alone is well-formed. -/
theorem wellFormed_ofByte (value : UInt8) : (ofByte value).WellFormed := fun _ => rfl

/-- Parts that are joined are well-formed if the later one is. -/
theorem WellFormed.join (first : LinkedInner) (hnext : next.WellFormed) :
    (first.join next).WellFormed := by
  obtain ⟨firstCapture, _, _⟩ := first
  obtain ⟨nextCapture, _, _⟩ := next
  cases firstCapture with
  | none => exact hnext
  | some id =>
    intro hnone
    cases nextCapture <;> cases hnone

/-- A join of three parts does not depend on which two are joined first, if the middle one is
well-formed. -/
theorem join_assoc (first last : LinkedInner) {middle : LinkedInner} (hmiddle : middle.WellFormed) :
    (first.join middle).join last = first.join (middle.join last) := by
  obtain ⟨firstCapture, _, _⟩ := first
  obtain ⟨middleCapture, _, middleAfter⟩ := middle
  obtain ⟨lastCapture, _, _⟩ := last
  cases middleCapture with
  | none =>
    obtain rfl : middleAfter = "" := hmiddle rfl
    cases firstCapture <;> cases lastCapture <;> simp [join, String.append_assoc]
  | some id => cases firstCapture <;> cases lastCapture <;> simp [join, String.append_assoc]

/-- A well-formed part stays as it is when it is joined with nothing. -/
theorem join_empty {part : LinkedInner} (hpart : part.WellFormed) : part.join empty = part := by
  obtain ⟨capture, before, after⟩ := part
  cases capture with
  | none =>
    obtain rfl : after = "" := hpart rfl
    simp [join, empty]
  | some id => simp [join, empty]

/-- No text is lost when parts are joined, and none changes its place. -/
theorem allText_join (hfirst : first.WellFormed) (next : LinkedInner) :
    (first.join next).allText = first.allText ++ next.allText := by
  obtain ⟨firstCapture, _, firstAfter⟩ := first
  obtain ⟨nextCapture, _, _⟩ := next
  cases firstCapture with
  | none =>
    obtain rfl : firstAfter = "" := hfirst rfl
    simp [LinkedInner.join, allText, String.append_assoc]
  | some id => cases nextCapture <;> simp [LinkedInner.join, allText, String.append_assoc]

/-- Everything in front of a part with a capture is read before that capture. -/
theorem join_carrier (hfirst : first.WellFormed) (hcarrier : carrier.capture = some id) :
    first.join carrier = ⟨some id, first.allText ++ carrier.before, carrier.after⟩ := by
  obtain ⟨firstCapture, _, firstAfter⟩ := first
  cases firstCapture with
  | none =>
    obtain rfl : firstAfter = "" := hfirst rfl
    simp [LinkedInner.join, allText, hcarrier]
  | some other => simp [LinkedInner.join, allText, hcarrier]

/-- A well-formed part without a capture is nothing but text. -/
theorem eq_text (hpart : part.WellFormed) (hplain : part.capture = none) :
    part = ⟨none, part.allText, ""⟩ := by
  obtain ⟨capture, before, after⟩ := part
  obtain rfl : capture = none := hplain
  obtain rfl : after = "" := hpart rfl
  simp [allText]

/-- A run of well-formed parts is well-formed. -/
theorem WellFormed.joinOnto (hfirst : first.WellFormed) (hrest : ∀ part ∈ rest, part.WellFormed) :
    (first.joinOnto rest).WellFormed := by
  induction rest generalizing first with
  | nil => exact hfirst
  | cons part rest ih =>
    obtain ⟨hpart, hrest⟩ := List.forall_mem_cons.mp hrest
    exact ih (hpart.join first) hrest

/-- No text is lost in a run, and none changes its place. -/
theorem allText_joinOnto (hfirst : first.WellFormed) (hrest : ∀ part ∈ rest, part.WellFormed) :
    (first.joinOnto rest).allText = first.allText ++ textOfAll rest := by
  induction rest generalizing first with
  | nil => exact String.append_empty.symm
  | cons part rest ih =>
    obtain ⟨hpart, hrest⟩ := List.forall_mem_cons.mp hrest
    calc (first.joinOnto (part :: rest)).allText
        = (first.join part).allText ++ textOfAll rest := ih (hpart.join first) hrest
      _ = first.allText ++ part.allText ++ textOfAll rest := by rw [allText_join hfirst]
      _ = first.allText ++ textOfAll (part :: rest) := by
        rw [textOfAll, textOfAll, List.map_cons, String.join_cons, String.append_assoc]

/-- A run may start with the empty part. -/
theorem empty_joinOnto (first : LinkedInner) (rest : List LinkedInner) :
    empty.joinOnto (first :: rest) = first.joinOnto rest := by
  rw [joinOnto, List.foldl_cons, empty_join, joinOnto]

/-- What a run is joined to may be joined to the whole of it. -/
theorem joinOnto_eq_join (hfirst : first.WellFormed) (hrest : ∀ part ∈ rest, part.WellFormed) :
    first.joinOnto rest = first.join (empty.joinOnto rest) := by
  induction rest generalizing first with
  | nil => exact (join_empty hfirst).symm
  | cons part rest ih =>
    obtain ⟨hpart, hrest⟩ := List.forall_mem_cons.mp hrest
    calc first.joinOnto (part :: rest)
        = (first.join part).join (empty.joinOnto rest) := ih (hpart.join first) hrest
      _ = first.join (part.join (empty.joinOnto rest)) := join_assoc _ _ hpart
      _ = first.join (part.joinOnto rest) := by rw [ih hpart hrest]
      _ = first.join (empty.joinOnto (part :: rest)) := by rw [empty_joinOnto]

/-- A run without captures is all text. -/
theorem joinOnto_eq_text (hparts : ∀ part ∈ parts, part.WellFormed)
    (hplain : ∀ part ∈ parts, part.capture = none) :
    empty.joinOnto parts = ⟨none, textOfAll parts, ""⟩ := by
  induction parts with
  | nil => rfl
  | cons part parts ih =>
    obtain ⟨hpart, hparts⟩ := List.forall_mem_cons.mp hparts
    obtain ⟨hnone, hplain⟩ := List.forall_mem_cons.mp hplain
    rw [empty_joinOnto, joinOnto_eq_join hpart hparts, ih hparts hplain, eq_text hpart hnone,
      LinkedInner.join, textOfAll, textOfAll, List.map_cons, String.join_cons]
    simp [allText]

/-- A run reaches the capture of its last part that carries one. -/
theorem joinOnto_last (hparts : ∀ part ∈ earlier ++ carrier :: later, part.WellFormed)
    (hcarrier : carrier.capture = some id) (hlater : ∀ part ∈ later, part.capture = none) :
    empty.joinOnto (earlier ++ carrier :: later) =
      ⟨some id, textOfAll earlier ++ carrier.before, carrier.after ++ textOfAll later⟩ := by
  obtain ⟨hearlier, hbehind⟩ := List.forall_mem_append.mp hparts
  obtain ⟨hwell, hwells⟩ := List.forall_mem_cons.mp hbehind
  have hfront : (empty.joinOnto earlier).WellFormed := wellFormed_empty.joinOnto hearlier
  have htext : (empty.joinOnto earlier).allText = textOfAll earlier := by
    rw [allText_joinOnto wellFormed_empty hearlier]
    exact String.empty_append
  calc empty.joinOnto (earlier ++ carrier :: later)
      = ((empty.joinOnto earlier).join carrier).joinOnto later := by
        rw [joinOnto, List.foldl_append, List.foldl_cons, joinOnto, joinOnto]
    _ = ((empty.joinOnto earlier).join carrier).join (empty.joinOnto later) :=
        joinOnto_eq_join (hwell.join _) hwells
    _ = ((empty.joinOnto earlier).join carrier).join ⟨none, textOfAll later, ""⟩ := by
        rw [joinOnto_eq_text hwells hlater]
    _ = _ := by
        rw [join_carrier hfront hcarrier, htext, LinkedInner.join]
        simp

/-- What captures and bytes make is well-formed, and joining keeps it so. On well-formed parts
joining is associative and the empty part is neutral. A run of well-formed parts reaches the
capture of the last part that carries one: before it stands all text of the earlier parts and
then what that part has before it, after it what that part has after it and then all text of the
later parts. Without any capture, all text of the run stands before. -/
theorem joining_keeps_order :
    ((∀ id, (ofCapture id).WellFormed) ∧ (∀ value, (ofByte value).WellFormed) ∧
      empty.WellFormed ∧
      ∀ first next : LinkedInner, first.WellFormed → next.WellFormed →
        (first.join next).WellFormed) ∧
    (∀ first middle last : LinkedInner,
      first.WellFormed → middle.WellFormed → last.WellFormed →
        (first.join middle).join last = first.join (middle.join last)) ∧
    (∀ part : LinkedInner, part.WellFormed → empty.join part = part ∧ part.join empty = part) ∧
    ∀ (first : LinkedInner) (rest : List LinkedInner),
      (∀ part ∈ first :: rest, part.WellFormed) →
        (∀ earlier carrier later id, first :: rest = earlier ++ carrier :: later →
          carrier.capture = some id → (∀ part ∈ later, part.capture = none) →
            first.joinOnto rest =
              ⟨some id, textOfAll earlier ++ carrier.before,
                carrier.after ++ textOfAll later⟩) ∧
        ((∀ part ∈ first :: rest, part.capture = none) →
          first.joinOnto rest = ⟨none, textOfAll (first :: rest), ""⟩) := by
  refine ⟨⟨wellFormed_ofCapture, wellFormed_ofByte, wellFormed_empty,
    fun first _ _ hnext => hnext.join first⟩, fun first _ last _ hmiddle _ => ?_,
    fun part hpart => ⟨empty_join part, join_empty hpart⟩, fun first rest hparts => ⟨?_, ?_⟩⟩
  · exact join_assoc first last hmiddle
  · intro earlier carrier later id hsplit hcarrier hlater
    rw [← empty_joinOnto, hsplit]
    exact joinOnto_last (hsplit ▸ hparts) hcarrier hlater
  · intro hplain
    rw [← empty_joinOnto]
    exact joinOnto_eq_text hparts hplain

/-- Of two captures with text around them and a byte on either side, the later one is reached, and
all that stands around the earlier one is read before it. -/
theorem joining_keeps_order_of_two :
    (∀ part ∈ [ofByte 0x61, ⟨some 3, "(", ")"⟩, ⟨some 4, "[", "]"⟩, ofByte 0x62],
        part.WellFormed) ∧
      (ofByte 0x61).joinOnto [⟨some 3, "(", ")"⟩, ⟨some 4, "[", "]"⟩, ofByte 0x62] =
        ⟨some 4, "a()[", "]b"⟩ := by
  have hparts : ∀ part ∈ [ofByte 0x61, ⟨some 3, "(", ")"⟩, ⟨some 4, "[", "]"⟩, ofByte 0x62],
      part.WellFormed := by
    simp [WellFormed, ofByte]
  refine ⟨hparts, ((joining_keeps_order.2.2.2 _ _ hparts).1
    [ofByte 0x61, ⟨some 3, "(", ")"⟩] ⟨some 4, "[", "]"⟩ [ofByte 0x62] 4 rfl rfl ?_).trans ?_⟩
  · simp [ofByte]
  · decide +kernel

end PegTemplates.LinkedInner
