import PegTemplates.Proofs.Binding.LinkReadings
import PegTemplates.Proofs.Rendering.Escaping

/-!
# Text of a layout, piece by piece

A renderer puts out a layout from left to right and counts the placeholders that it meets. At a
loop it starts with nothing put out, and frames what has come together behind the loop, unless
that is nothing; the count runs on. What it puts out is shown to be the texts of the pieces one
behind the other. So a layout has no text exactly if it holds nothing but loops, however deep,
and an unnamed shape has no template exactly if there is no placeholder among them.
-/

namespace PegTemplates

/-- What has been put out, and how many placeholders have been met. -/
structure Renderer where
  /-- The text put out so far. -/
  out : String
  /-- Number of placeholders met so far. -/
  placeholders : Nat

namespace Renderer

/-- Nothing has been put out. -/
def start : Renderer := ⟨"", 0⟩

/-- Puts out one more text. -/
def push (renderer : Renderer) (text : String) : Renderer :=
  { renderer with out := renderer.out ++ text }

/-- Puts out the escaped form of a text, character by character. -/
def pushEscaped (renderer : Renderer) (text : String) : Renderer :=
  text.toList.foldl (fun before c => before.push (escapeChar c)) renderer

/-- Counts one more placeholder. -/
def count (renderer : Renderer) : Renderer :=
  { renderer with placeholders := renderer.placeholders + 1 }

/-- Frames what has come together inside a loop and puts it out behind what was there before. -/
def frame (inner : Renderer) (outer : String) : Renderer :=
  if inner.out.isEmpty then { inner with out := outer }
  else { inner with out := outer ++ "\nwhile(true)\x7b\n" ++ inner.out ++ "\n\x7d\n" }

/-- The template that has been put out, for a named or an unnamed shape. -/
def template (named : Bool) (renderer : Renderer) : Option String :=
  if renderer.out.isEmpty || (!named && renderer.placeholders == 0) then none
  else some renderer.out

end Renderer

mutual

/-- Puts out one piece. -/
def Slot.renderOnto : Slot → Renderer → Renderer
  | .text value, renderer => renderer.push (escapeByte value)
  | .placeholder label before after, renderer =>
    (((renderer.pushEscaped before).push (placeholder label)).pushEscaped after).count
  | .loop body, renderer =>
    (renderOnto body { renderer with out := "" }).frame renderer.out

/-- Puts out a layout, piece by piece. -/
def renderOnto : List Slot → Renderer → Renderer
  | [], renderer => renderer
  | slot :: rest, renderer => renderOnto rest (slot.renderOnto renderer)

end

namespace Renderer

/-- An escaped text is put out behind what was there before. -/
theorem pushEscaped_eq (renderer : Renderer) (text : String) :
    renderer.pushEscaped text = renderer.push (escapeText text) := by
  have hchars : ∀ (chars : List Char) (before : Renderer),
      chars.foldl (fun before c => before.push (escapeChar c)) before =
        before.push (String.join (chars.map escapeChar)) := by
    intro chars
    induction chars with
    | nil =>
      intro before
      exact congrArg (Renderer.mk · before.placeholders) (String.append_empty).symm
    | cons c rest ih =>
      intro before
      rw [List.foldl_cons, ih, List.map_cons, String.join_cons]
      exact congrArg (Renderer.mk · before.placeholders) (String.append_assoc)
  exact hchars text.toList renderer

/-- What has come together inside a loop is put out in its frame. -/
theorem frame_eq (inner : Renderer) (outer : String) :
    inner.frame outer = ⟨outer ++ loopFrame inner.out, inner.placeholders⟩ := by
  unfold frame loopFrame
  split
  · rw [String.append_empty]
  · rw [String.append_assoc, String.append_assoc, String.append_assoc]

end Renderer

-- The text and the count are carried together: at a loop the text starts afresh and the count
-- does not. Neither depends on whether the placeholders are marked as repeated.
mutual

/-- A piece is put out behind what was there before, and its placeholders are counted. -/
theorem Slot.renderOnto_eq : ∀ (slot : Slot) (looped : Bool) (renderer : Renderer),
    slot.renderOnto renderer = ⟨renderer.out ++ slot.template,
      renderer.placeholders + (slot.placeholders looped).length⟩
  | .text value, _, _ => rfl
  | .placeholder label before after, _, renderer => by
    rw [Slot.renderOnto, Renderer.pushEscaped_eq, Renderer.pushEscaped_eq, Slot.template,
      ← String.append_assoc, ← String.append_assoc]
    rfl
  | .loop body, looped, renderer => by
    rw [Slot.renderOnto, renderOnto_eq body true, Renderer.frame_eq, Slot.template,
      String.empty_append]
    rfl

/-- A layout is put out behind what was there before, and its placeholders are counted. -/
theorem renderOnto_eq : ∀ (layout : List Slot) (looped : Bool) (renderer : Renderer),
    renderOnto layout renderer = ⟨renderer.out ++ layoutText layout,
      renderer.placeholders + (placeholdersOf looped layout).length⟩
  | [], _, renderer =>
    congrArg (Renderer.mk · renderer.placeholders) (String.append_empty).symm
  | slot :: rest, looped, renderer => by
    rw [renderOnto, slot.renderOnto_eq looped, renderOnto_eq rest looped, layoutText,
      placeholdersOf, List.length_append, String.append_assoc, Nat.add_assoc]

end

/-- The text of a layout is that of its pieces, one behind the other. -/
theorem layoutText_eq_join (layout : List Slot) :
    layoutText layout = String.join (layout.map Slot.template) := by
  induction layout with
  | nil => rfl
  | cons slot rest ih => rw [layoutText, ih, List.map_cons, String.join_cons]

/-- A piece stands in a layout, among its pieces or in a loop at any depth. -/
inductive Slot.StandsIn (piece : Slot) : List Slot → Prop where
  /-- It is one of the pieces of the layout. -/
  | member {layout : List Slot} : piece ∈ layout → piece.StandsIn layout
  /-- It stands in the body of a loop. -/
  | inside {layout body : List Slot} : .loop body ∈ layout → piece.StandsIn body →
    piece.StandsIn layout

namespace Slot

/-- In a layout without pieces nothing stands. -/
theorem not_standsIn_nil (piece : Slot) : ¬ piece.StandsIn [] := by
  intro hstands
  cases hstands with
  | member hmember => exact List.not_mem_nil hmember
  | inside hloop _ => exact List.not_mem_nil hloop

/-- In a layout stands its first piece, what stands in this if it is a loop, and what stands in
the rest. -/
theorem standsIn_cons_iff {piece first : Slot} {rest : List Slot} :
    piece.StandsIn (first :: rest) ↔
      (piece = first ∨ ∃ body, first = .loop body ∧ piece.StandsIn body) ∨
        piece.StandsIn rest := by
  constructor
  · intro hstands
    cases hstands with
    | member hmember =>
      rcases List.mem_cons.mp hmember with hfirst | hrest
      · exact Or.inl (Or.inl hfirst)
      · exact Or.inr (.member hrest)
    | inside hloop hbody =>
      rcases List.mem_cons.mp hloop with hfirst | hrest
      · exact Or.inl (Or.inr ⟨_, hfirst.symm, hbody⟩)
      · exact Or.inr (.inside hrest hbody)
  · rintro ((rfl | ⟨body, rfl, hbody⟩) | hrest)
    · exact .member List.mem_cons_self
    · exact .inside List.mem_cons_self hbody
    · cases hrest with
      | member hmember => exact .member (List.mem_cons_of_mem _ hmember)
      | inside hloop hbody => exact .inside (List.mem_cons_of_mem _ hloop) hbody

end Slot

/-- Whether nothing but loops stands in a layout, however deep. -/
def OnlyLoops (layout : List Slot) : Prop :=
  ∀ piece : Slot, piece.StandsIn layout → ∃ body, piece = .loop body

/-- Nothing but loops stands in a layout if its first piece is a loop of which that is true, and
if it is true of the rest. -/
theorem onlyLoops_cons_iff {first : Slot} {rest : List Slot} :
    OnlyLoops (first :: rest) ↔ (∃ body, first = .loop body ∧ OnlyLoops body) ∧ OnlyLoops rest := by
  constructor
  · intro honly
    have hrest : OnlyLoops rest := fun piece hpiece =>
      honly piece (Slot.standsIn_cons_iff.mpr (Or.inr hpiece))
    obtain ⟨body, hbody⟩ := honly first (.member List.mem_cons_self)
    have hinner : OnlyLoops body := fun piece hpiece =>
      honly piece (Slot.standsIn_cons_iff.mpr (Or.inl (Or.inr ⟨body, hbody, hpiece⟩)))
    exact ⟨⟨body, hbody, hinner⟩, hrest⟩
  · rintro ⟨⟨body, rfl, hinner⟩, hrest⟩ piece hpiece
    rcases Slot.standsIn_cons_iff.mp hpiece with (hfirst | ⟨other, hother, hinside⟩) | hbehind
    · exact ⟨body, hfirst⟩
    · cases hother
      exact hinner piece hinside
    · exact hrest piece hbehind

/-- The escaped form of a character is not empty. -/
theorem escapeChar_ne_empty (c : Char) : escapeChar c ≠ "" := by
  intro hempty
  rcases escapeChar_cases c with ⟨_, _, hform⟩ | ⟨_, hform⟩ <;> simp [hempty] at hform

/-- A placeholder is not empty. -/
theorem placeholder_ne_empty (label : Option String) : placeholder label ≠ "" := by
  cases label with
  | none => decide
  | some name => simp [placeholder, String.append_eq_empty_iff]

/-- The frame of a loop is empty exactly if there is nothing in it. -/
theorem loopFrame_eq_empty_iff (body : String) : loopFrame body = "" ↔ body = "" := by
  unfold loopFrame
  split
  · rename_i hempty
    exact iff_of_true rfl (String.isEmpty_iff.mp hempty)
  · rename_i hfull
    have hframe : "\nwhile(true)\x7b\n" ++ body ++ "\n\x7d\n" ≠ "" := by
      simp [String.append_eq_empty_iff]
    exact iff_of_false hframe fun hempty => hfull (String.isEmpty_iff.mpr hempty)

mutual

/-- A piece has no text exactly if it is a loop in which nothing but loops stands. -/
theorem Slot.template_eq_empty_iff : ∀ slot : Slot,
    slot.template = "" ↔ ∃ body, slot = .loop body ∧ OnlyLoops body
  | .text value => by
    have htext : (Slot.text value).template ≠ "" := escapeChar_ne_empty _
    simp [htext]
  | .placeholder label before after => by
    have hmark := placeholder_ne_empty label
    rw [Slot.template, String.append_eq_empty_iff, String.append_eq_empty_iff]
    simp [hmark]
  | .loop body => by
    rw [Slot.template, loopFrame_eq_empty_iff, layoutText_eq_empty_iff body]
    simp

/-- A layout has no text exactly if nothing but loops stands in it. -/
theorem layoutText_eq_empty_iff : ∀ layout : List Slot, layoutText layout = "" ↔ OnlyLoops layout
  | [] => iff_of_true rfl fun piece hpiece => absurd hpiece piece.not_standsIn_nil
  | slot :: rest => by
    rw [layoutText, String.append_eq_empty_iff, slot.template_eq_empty_iff,
      layoutText_eq_empty_iff rest, onlyLoops_cons_iff]

end

mutual

/-- A piece holds a placeholder exactly if some are collected from it. -/
theorem Slot.hasPlaceholder_iff : ∀ (slot : Slot) (looped : Bool),
    slot.hasPlaceholder = true ↔ slot.placeholders looped ≠ []
  | .text _, _ => by simp [Slot.hasPlaceholder, Slot.placeholders]
  | .placeholder _ _ _, _ => by simp [Slot.hasPlaceholder, Slot.placeholders]
  | .loop body, _ => hasPlaceholder_iff body true

/-- A layout holds a placeholder exactly if some are collected from it. -/
theorem hasPlaceholder_iff : ∀ (layout : List Slot) (looped : Bool),
    hasPlaceholder layout = true ↔ placeholdersOf looped layout ≠ []
  | [], _ => by simp [hasPlaceholder, placeholdersOf]
  | slot :: rest, looped => by
    rw [hasPlaceholder, placeholdersOf, Bool.or_eq_true, slot.hasPlaceholder_iff looped,
      hasPlaceholder_iff rest looped, ne_eq, ne_eq, ne_eq, List.append_eq_nil_iff, not_and_or]

end

mutual

/-- A piece holds a placeholder exactly if it is one or is a loop in which one stands. -/
theorem Slot.hasPlaceholder_iff_exists : ∀ slot : Slot,
    slot.hasPlaceholder = true ↔ ∃ label before after,
      slot = .placeholder label before after ∨
        ∃ body, slot = .loop body ∧ (Slot.placeholder label before after).StandsIn body
  | .text _ => by simp [Slot.hasPlaceholder]
  | .placeholder label before after => by simp [Slot.hasPlaceholder]
  | .loop body => by
    rw [Slot.hasPlaceholder, hasPlaceholder_iff_exists body]
    simp

/-- A layout holds a placeholder exactly if one stands in it. -/
theorem hasPlaceholder_iff_exists : ∀ layout : List Slot,
    hasPlaceholder layout = true ↔
      ∃ label before after, (Slot.placeholder label before after).StandsIn layout
  | [] => by simp [hasPlaceholder, Slot.not_standsIn_nil]
  | slot :: rest => by
    rw [hasPlaceholder, Bool.or_eq_true, slot.hasPlaceholder_iff_exists,
      hasPlaceholder_iff_exists rest]
    simp only [Slot.standsIn_cons_iff, exists_or, eq_comm]

end

/-- The template of a layout is what the renderer has put out behind it. -/
theorem render_eq_template (named : Bool) (layout : List Slot) :
    render named layout = (renderOnto layout .start).template named := by
  have hrendered := renderOnto_eq layout false .start
  have hout : Renderer.start.out ++ layoutText layout = layoutText layout := String.empty_append
  have hcount : (Renderer.start.placeholders + (placeholdersOf false layout).length == 0) =
      !hasPlaceholder layout := by
    have hholds := hasPlaceholder_iff layout false
    rw [Bool.eq_iff_iff, beq_iff_eq, Bool.not_eq_true', Bool.eq_false_iff, ne_eq, hholds, not_not,
      Renderer.start, Nat.zero_add, List.length_eq_zero_iff]
  rw [hrendered, hout, Renderer.template, hcount]
  rfl

/-- The template of a layout is its text if there is a template. -/
theorem render_eq_none_or (named : Bool) (layout : List Slot) :
    render named layout = none ∨ render named layout = some (layoutText layout) := by
  unfold render
  dsimp only
  split
  · exact Or.inl rfl
  · exact Or.inr rfl

/-- A named shape has no template exactly if nothing but loops stands in its layout. -/
theorem render_named_eq_none_iff (layout : List Slot) :
    render true layout = none ↔ OnlyLoops layout := by
  rw [← layoutText_eq_empty_iff]
  simp [render]

/-- An unnamed shape has no template exactly if no placeholder stands in its layout. A layout
with a placeholder has a text. -/
theorem render_unnamed_eq_none_iff (layout : List Slot) :
    render false layout = none ↔
      ∀ label before after, ¬ (Slot.placeholder label before after).StandsIn layout := by
  have hholds := hasPlaceholder_iff_exists layout
  -- A placeholder is no loop, so the test for an empty text adds nothing to the test of the count.
  have htext : hasPlaceholder layout = true → layoutText layout ≠ "" := by
    intro hplace hempty
    obtain ⟨label, before, after, hstands⟩ := hholds.mp hplace
    obtain ⟨body, hloop⟩ := (layoutText_eq_empty_iff layout).mp hempty _ hstands
    cases hloop
  have hnone : render false layout = none ↔ hasPlaceholder layout = false := by
    cases hplace : hasPlaceholder layout with
    | true => simp [render, hplace, htext hplace]
    | false => simp [render, hplace]
  rw [hnone, Bool.eq_false_iff, ne_eq, hholds]
  simp only [not_exists]

/-- What a renderer puts out for a layout is the texts of the pieces, one behind the other: a
byte as its escaped character, a placeholder by its label or position between the escaped texts
around it, and a loop in its frame, or as nothing if its pieces have no text. A named shape has
no template exactly if no byte and no placeholder stands in the layout, in whatever depth, and an
unnamed one exactly if no placeholder does. A template is always that text. -/
theorem render_composes (layout : List Slot) :
    (renderOnto layout .start).out = String.join (layout.map Slot.template) ∧
      (∀ value, (Slot.text value).template = escapeChar (Char.ofUInt8 value)) ∧
      (∀ label before after, (Slot.placeholder label before after).template =
        String.join (before.toList.map escapeChar) ++
          (match label with
            | some name => "$\x7b" ++ name ++ "\x7d"
            | none => "$\x7bthis.get(i)\x7d") ++
          String.join (after.toList.map escapeChar)) ∧
      (∀ body, (Slot.loop body).template =
        if String.join (body.map Slot.template) = "" then ""
        else "\nwhile(true)\x7b\n" ++ String.join (body.map Slot.template) ++ "\n\x7d\n") ∧
      (∀ named, render named layout = (renderOnto layout .start).template named) ∧
      (render true layout = none ↔ ∀ piece : Slot, piece.StandsIn layout →
        ∃ body, piece = .loop body) ∧
      (render false layout = none ↔ ∀ label before after,
        ¬ (Slot.placeholder label before after).StandsIn layout) ∧
      (∀ named, render named layout = none ∨
        render named layout = some (String.join (layout.map Slot.template))) := by
  have hout : (renderOnto layout .start).out = String.join (layout.map Slot.template) := by
    rw [renderOnto_eq layout false, ← layoutText_eq_join]
    exact String.empty_append
  have hloop : ∀ body, (Slot.loop body).template =
      if String.join (body.map Slot.template) = "" then ""
      else "\nwhile(true)\x7b\n" ++ String.join (body.map Slot.template) ++ "\n\x7d\n" := by
    intro body
    rw [Slot.template, layoutText_eq_join, loopFrame]
    simp only [String.isEmpty_iff]
  refine ⟨hout, fun _ => rfl, ?_, hloop, fun named => render_eq_template named layout,
    render_named_eq_none_iff layout, render_unnamed_eq_none_iff layout, ?_⟩
  · intro label before after
    cases label <;> rfl
  · intro named
    rw [← layoutText_eq_join]
    exact render_eq_none_or named layout

end PegTemplates
