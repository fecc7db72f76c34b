import PegTemplates.Emission
import PegTemplates.Proofs.Rendering.Escaping

/-!
# Where a block ends

A block ends with a backtick and an empty line. Backticks are not escaped, and the frame of a
loop has line feeds of its own, but a body never writes two line feeds behind a backtick: an
escaped text has no line feed at all, and in a frame every line feed follows a brace or stands
before a letter or a brace. So the end of a block is found where it first occurs, the blocks can be
read off the text, and there are as many as there are ends.
-/

namespace PegTemplates

/-- Number of positions of a text at which a pattern begins. -/
def occurrences (pattern : List Char) : List Char → Nat
  | [] => 0
  | c :: rest => occurrences pattern rest + if pattern <+: c :: rest then 1 else 0

/-- What ends a block: a backtick and an empty line. -/
def blockEnd : List Char := ['\x60', '\n', '\n']

/-- Whether a text has neither a line feed nor a backtick. -/
def Plain (text : String) : Prop := ∀ c ∈ text.toList, c ≠ '\n' ∧ c ≠ '\x60'

instance (text : String) : Decidable (Plain text) :=
  List.decidableBAll (fun c => c ≠ '\n' ∧ c ≠ '\x60') text.toList

mutual

/-- Labels of the placeholders of a piece. -/
def Slot.labels : Slot → List String
  | .text _ => []
  | .placeholder label _ _ => label.toList
  | .loop body => labelsOf body

/-- Labels of the placeholders of a layout, those inside loops included. -/
def labelsOf : List Slot → List String
  | [] => []
  | slot :: rest => slot.labels ++ labelsOf rest

end

/-- A block as it may be written: a tag and a label list on one line each, without backticks, and
either the default body or the template of a layout whose labels are of that kind as well. What is
literal in the body is arbitrary. -/
structure Block.Framed (block : Block) : Prop where
  /-- The tag is plain. -/
  tag : Plain block.tag
  /-- The label list is plain. -/
  labels : Plain block.labels
  /-- The body is a template or the default body. -/
  body : block.body = defaultBody ∨ ∃ named layout,
    render named layout = some block.body ∧ ∀ label ∈ labelsOf layout, Plain label

/-- Text of blocks, one after the other. -/
def blocksText (blocks : List Block) : String := String.join (blocks.map Block.text)

/-- An emission writes the text of its blocks. -/
theorem Emission.text_eq (emission : Emission) : emission.text = blocksText emission.blocks := by
  rw [Emission.text, Emission.writes, blocksText]
  induction emission.blocks with
  | nil => rfl
  | cons block rest ih =>
    apply String.toList_injective
    have hrest := congrArg String.toList ih
    simp only [String.toList_join, List.flatMap_cons, List.flatMap_append, List.map_cons] at hrest ⊢
    rw [hrest, Block.text, String.toList_join]

/-- A property of all characters of a text is decided along the text. -/
theorem forall_mem_of_all {chars : List Char} {property : Char → Prop} [DecidablePred property]
    (hall : chars.all (fun c => decide (property c)) = true) : ∀ c ∈ chars, property c :=
  fun c hc => of_decide_eq_true (List.all_eq_true.mp hall c hc)

section Occurrences

/-- No block ends at a character other than a backtick. -/
theorem occurrences_of_ne {c : Char} (hc : c ≠ '\x60') (rest : List Char) :
    occurrences blockEnd (c :: rest) = occurrences blockEnd rest := by
  rw [occurrences, if_neg]
  · rfl
  · rw [blockEnd, List.cons_prefix_cons]
    exact fun hbegins => hc hbegins.1.symm

/-- No block ends in a text without backticks. -/
theorem occurrences_of_forall_ne {text : List Char} (htext : ∀ c ∈ text, c ≠ '\x60')
    (rest : List Char) :
    occurrences blockEnd (text ++ rest) = occurrences blockEnd rest := by
  induction text with
  | nil => rfl
  | cons c text ih =>
    obtain ⟨hc, htext⟩ := List.forall_mem_cons.mp htext
    rw [List.cons_append, occurrences_of_ne hc, ih htext]

/-- Whether a text does not begin with an empty line. -/
def StartsLine (text : List Char) : Prop := ¬ ['\n', '\n'] <+: text

/-- The end of a block begins with its backtick. -/
theorem startsLine_blockEnd (rest : List Char) : StartsLine (blockEnd ++ rest) := by
  rw [StartsLine, blockEnd, List.cons_append, List.cons_prefix_cons]
  exact fun hbegins => absurd hbegins.1 (by decide)

/-- No block ends at a backtick that is not before an empty line. -/
theorem occurrences_backtick {rest : List Char} (hrest : StartsLine rest) :
    occurrences blockEnd ('\x60' :: rest) = occurrences blockEnd rest := by
  rw [occurrences, if_neg]
  · rfl
  · rw [blockEnd, List.cons_prefix_cons]
    exact fun hbegins => hrest hbegins.2

/-- A block ends once in the end of a block. -/
theorem occurrences_blockEnd (rest : List Char) :
    occurrences blockEnd (blockEnd ++ rest) = occurrences blockEnd rest + 1 := by
  have hlines : occurrences blockEnd ('\n' :: '\n' :: rest) = occurrences blockEnd rest := by
    rw [occurrences_of_ne (by decide), occurrences_of_ne (by decide)]
  have hbegins : blockEnd <+: '\x60' :: '\n' :: '\n' :: rest := List.prefix_append blockEnd rest
  calc occurrences blockEnd ('\x60' :: '\n' :: '\n' :: rest)
      = occurrences blockEnd ('\n' :: '\n' :: rest) + 1 := by rw [occurrences, if_pos hbegins]
    _ = occurrences blockEnd rest + 1 := by rw [hlines]

/-- Fewer blocks end in what stands behind. -/
theorem occurrences_le_append (text rest : List Char) :
    occurrences blockEnd rest ≤ occurrences blockEnd (text ++ rest) := by
  induction text with
  | nil => exact Nat.le_refl _
  | cons c text ih => exact Nat.le_trans ih (Nat.le_add_right _ _)

/-- Where as many blocks end behind two ends of a block, nothing stands before one of them that does
not stand before the other. -/
theorem eq_nil_of_blockEnd {middle first next : List Char}
    (hcount : occurrences blockEnd first = occurrences blockEnd next)
    (hsame : blockEnd ++ first = middle ++ (blockEnd ++ next)) : middle = [] := by
  match middle with
  | [] => rfl
  | [_] => exact absurd (List.cons.inj (List.cons.inj hsame).2).1 (by decide)
  | [_, _] =>
    exact absurd (List.cons.inj (List.cons.inj (List.cons.inj hsame).2).2).1 (by decide)
  | _ :: _ :: _ :: middle =>
    -- the second end would be one more behind the first
    have hfirst : first = middle ++ (blockEnd ++ next) :=
      (List.cons.inj (List.cons.inj (List.cons.inj hsame).2).2).2
    have hmore := occurrences_le_append middle (blockEnd ++ next)
    rw [← hfirst, occurrences_blockEnd, hcount] at hmore
    exact absurd hmore (Nat.not_succ_le_self _)

end Occurrences

/-- Whether no block ends in a text, provided that the text behind it does not begin with an empty
line; and neither does the text with what is behind it. -/
structure Inert (text : List Char) : Prop where
  /-- No empty line is begun. -/
  starts : ∀ {rest}, StartsLine rest → StartsLine (text ++ rest)
  /-- No block ends. -/
  silent : ∀ {rest}, StartsLine rest →
    occurrences blockEnd (text ++ rest) = occurrences blockEnd rest

namespace Inert

/-- Nothing ends in an empty text. -/
theorem nil : Inert [] := ⟨id, fun _ => rfl⟩

/-- Inert texts can be written one after the other. -/
theorem append {first next : List Char} (hfirst : Inert first) (hnext : Inert next) :
    Inert (first ++ next) where
  starts hrest := by
    rw [List.append_assoc]
    exact hfirst.starts (hnext.starts hrest)
  silent hrest := by
    rw [List.append_assoc, hfirst.silent (hnext.starts hrest), hnext.silent hrest]

/-- A character other than a line feed is inert, be it a backtick. -/
theorem char {c : Char} (hc : c ≠ '\n') : Inert [c] where
  starts _ := by
    rw [StartsLine, List.singleton_append, List.cons_prefix_cons]
    exact fun hbegins => hc hbegins.1.symm
  silent {rest} hrest := by
    by_cases hbacktick : c = '\x60'
    · rw [hbacktick]
      exact occurrences_backtick hrest
    · exact occurrences_of_ne hbacktick rest

/-- A text without line feeds is inert. -/
theorem of_forall_ne {text : List Char} (htext : ∀ c ∈ text, c ≠ '\n') : Inert text := by
  induction text with
  | nil => exact nil
  | cons c text ih =>
    obtain ⟨hc, htext⟩ := List.forall_mem_cons.mp htext
    exact (char hc).append (ih htext)

/-- A line feed before another character and a text without backticks is inert. -/
theorem line {c : Char} {text : List Char} (hc : c ≠ '\n') (htext : ∀ d ∈ c :: text, d ≠ '\x60') :
    Inert ('\n' :: c :: text) where
  starts _ := by
    rw [StartsLine, List.cons_append, List.cons_append, List.cons_prefix_cons,
      List.cons_prefix_cons]
    exact fun hbegins => hc hbegins.2.1.symm
  silent {rest} _ := by
    have hline : ∀ d ∈ '\n' :: c :: text, d ≠ '\x60' :=
      List.forall_mem_cons.mpr ⟨by decide, htext⟩
    exact occurrences_of_forall_ne hline rest

/-- Behind an inert text the end of a block is found where it first occurs. -/
theorem append_blockEnd_inj {first next firstRest nextRest : List Char} (hfirst : Inert first)
    (hnext : Inert next)
    (hsame : first ++ (blockEnd ++ firstRest) = next ++ (blockEnd ++ nextRest)) :
    first = next ∧ firstRest = nextRest := by
  -- as many blocks end behind the first end on both sides, so neither end is inside the other text
  have hcount : occurrences blockEnd firstRest = occurrences blockEnd nextRest := by
    have hboth := congrArg (occurrences blockEnd) hsame
    rw [hfirst.silent (startsLine_blockEnd _), hnext.silent (startsLine_blockEnd _),
      occurrences_blockEnd, occurrences_blockEnd] at hboth
    exact Nat.succ.inj hboth
  obtain ⟨middle, hnextText, hbehind⟩ | ⟨middle, hfirstText, hbehind⟩ :=
    List.append_eq_append_iff.mp hsame
  · obtain rfl := eq_nil_of_blockEnd hcount hbehind
    rw [List.append_nil] at hnextText
    exact ⟨hnextText.symm, List.append_cancel_left hbehind⟩
  · obtain rfl := eq_nil_of_blockEnd hcount.symm hbehind
    rw [List.append_nil] at hfirstText
    exact ⟨hfirstText, (List.append_cancel_left hbehind).symm⟩

end Inert

section Bodies

/-- The escaped form of a character has no line feed. -/
theorem escapeChar_ne {c d : Char} (hd : d ∈ (escapeChar c).toList) : d ≠ '\n' := by
  rintro rfl
  exact not_control_of_mem hd (by decide)

/-- An escaped text is inert, whatever the text is. -/
theorem inert_escapeText (text : String) : Inert (escapeText text).toList := by
  refine Inert.of_forall_ne fun d hd => ?_
  rw [toList_escapeText] at hd
  obtain ⟨c, _, hd⟩ := List.mem_flatMap.mp hd
  exact escapeChar_ne hd

/-- A placeholder is inert if its label is plain. -/
theorem inert_placeholder {label : Option String} (hlabel : ∀ name ∈ label.toList, Plain name) :
    Inert (placeholder label).toList := by
  refine Inert.of_forall_ne ?_
  cases label with
  | none => exact forall_mem_of_all (by decide)
  | some name =>
    have hname : ∀ d ∈ name.toList, d ≠ '\n' := fun d hd =>
      (hlabel name (List.mem_singleton_self _) d hd).1
    simp only [placeholder, String.toList_append, List.forall_mem_append]
    exact ⟨⟨forall_mem_of_all (by decide), hname⟩, forall_mem_of_all (by decide)⟩

/-- The frame of a loop around an inert text is inert. -/
theorem inert_loopFrame {body : String} (hbody : Inert body.toList) :
    Inert (loopFrame body).toList := by
  unfold loopFrame
  split
  · exact Inert.nil
  · rw [String.toList_append, String.toList_append]
    exact ((Inert.line (by decide) (forall_mem_of_all (by decide))).append hbody).append
      (Inert.line (by decide) (forall_mem_of_all (by decide)))

mutual

/-- The text of a piece whose labels are plain is inert. -/
theorem Slot.inert_template : ∀ slot : Slot, (∀ label ∈ slot.labels, Plain label) →
    Inert slot.template.toList
  | .text value, _ => Inert.of_forall_ne fun _ hd => escapeChar_ne hd
  | .placeholder label before after, hlabels => by
    rw [Slot.template, String.toList_append, String.toList_append]
    exact ((inert_escapeText before).append (inert_placeholder hlabels)).append
      (inert_escapeText after)
  | .loop body, hlabels => inert_loopFrame (inert_layoutText body hlabels)

/-- The text of a layout whose labels are plain is inert. -/
theorem inert_layoutText : ∀ layout : List Slot, (∀ label ∈ labelsOf layout, Plain label) →
    Inert (layoutText layout).toList
  | [], _ => Inert.nil
  | slot :: rest, hlabels => by
    obtain ⟨hslot, hrest⟩ := List.forall_mem_append.mp hlabels
    rw [layoutText, String.toList_append]
    exact (slot.inert_template hslot).append (inert_layoutText rest hrest)

end

/-- The body of a block is inert. -/
theorem Block.Framed.inert {block : Block} (hframed : block.Framed) : Inert block.body.toList := by
  obtain hbody | ⟨named, layout, hrender, hlabels⟩ := hframed.body
  · rw [hbody]
    exact Inert.of_forall_ne (forall_mem_of_all (by decide))
  · have hbody : layoutText layout = block.body := by
      unfold render at hrender
      dsimp only at hrender
      split at hrender
      · cases hrender
      · exact Option.some.inj hrender
    exact hbody ▸ inert_layoutText layout hlabels

end Bodies

section Blocks

/-- A separator is found where it first occurs. -/
theorem append_cons_inj {separator : Char} {first next firstRest nextRest : List Char}
    (hfirst : ∀ c ∈ first, c ≠ separator) (hnext : ∀ c ∈ next, c ≠ separator)
    (hsame : first ++ separator :: firstRest = next ++ separator :: nextRest) :
    first = next ∧ firstRest = nextRest := by
  induction first generalizing next with
  | nil =>
    cases next with
    | nil => exact ⟨rfl, (List.cons.inj hsame).2⟩
    | cons c next => exact absurd (List.cons.inj hsame).1.symm (hnext c List.mem_cons_self)
  | cons c first ih =>
    obtain ⟨hc, hfirst⟩ := List.forall_mem_cons.mp hfirst
    cases next with
    | nil => exact absurd (List.cons.inj hsame).1 hc
    | cons d next =>
      obtain ⟨rfl, hbehind⟩ := List.cons.inj hsame
      obtain ⟨rfl, hrest⟩ := ih hfirst (List.forall_mem_cons.mp hnext).2 hbehind
      exact ⟨rfl, hrest⟩

/-- Text of a block in front of others. -/
theorem toList_blocksText_cons (block : Block) (rest : List Block) :
    (blocksText (block :: rest)).toList =
      ("format #".toList ++ block.tag.toList) ++ '\n' :: (('(' :: block.labels.toList ++ [')']) ++
        '\x60' :: (block.body.toList ++ (blockEnd ++ (blocksText rest).toList))) := by
  have hends : "`".toList ++ "\n".toList ++ "".toList ++ "\n".toList = blockEnd := rfl
  simp only [blocksText, Block.text, Block.writes, String.toList_join, List.map_cons,
    List.flatMap_cons, List.flatMap_nil, ← hends]
  simp [toString, List.append_assoc]

/-- As many blocks end as are written. -/
theorem occurrences_blocksText {blocks : List Block} (hframed : ∀ block ∈ blocks, block.Framed) :
    occurrences blockEnd (blocksText blocks).toList = blocks.length := by
  induction blocks with
  | nil => rfl
  | cons block rest ih =>
    obtain ⟨hblock, hrest⟩ := List.forall_mem_cons.mp hframed
    have htag : ∀ c ∈ "format #".toList ++ block.tag.toList, c ≠ '\x60' :=
      List.forall_mem_append.mpr ⟨forall_mem_of_all (by decide), fun c hc => (hblock.tag c hc).2⟩
    have hlabels : ∀ c ∈ '(' :: block.labels.toList ++ [')'], c ≠ '\x60' :=
      List.forall_mem_append.mpr ⟨List.forall_mem_cons.mpr
        ⟨by decide, fun c hc => (hblock.labels c hc).2⟩, List.forall_mem_singleton.mpr (by decide)⟩
    -- the backtick in front of the body ends no block, and neither does the body
    have hend := startsLine_blockEnd (blocksText rest).toList
    rw [toList_blocksText_cons, occurrences_of_forall_ne htag, occurrences_of_ne (by decide),
      occurrences_of_forall_ne hlabels, occurrences_backtick (hblock.inert.starts hend),
      hblock.inert.silent hend, occurrences_blockEnd, ih hrest, List.length_cons]

/-- Blocks can be read off their text. -/
theorem blocksText_inj {first next : List Block} (hfirst : ∀ block ∈ first, block.Framed)
    (hnext : ∀ block ∈ next, block.Framed) (hsame : blocksText first = blocksText next) :
    first = next := by
  induction first generalizing next with
  | nil =>
    have hcount := occurrences_blocksText hnext
    rw [← hsame] at hcount
    exact (List.eq_nil_of_length_eq_zero hcount.symm).symm
  | cons block rest ih =>
    cases next with
    | nil =>
      have hcount := occurrences_blocksText hfirst
      rw [hsame] at hcount
      cases hcount
    | cons other others =>
      obtain ⟨hblock, hrest⟩ := List.forall_mem_cons.mp hfirst
      obtain ⟨hother, hothers⟩ := List.forall_mem_cons.mp hnext
      have htext := congrArg String.toList hsame
      rw [toList_blocksText_cons, toList_blocksText_cons] at htext
      have hhead : ∀ each : Block, each.Framed →
          ∀ c ∈ "format #".toList ++ each.tag.toList, c ≠ '\n' := fun each heach =>
        List.forall_mem_append.mpr ⟨forall_mem_of_all (by decide), fun c hc => (heach.tag c hc).1⟩
      have hlist : ∀ each : Block, each.Framed →
          ∀ c ∈ '(' :: each.labels.toList ++ [')'], c ≠ '\x60' := fun each heach =>
        List.forall_mem_append.mpr ⟨List.forall_mem_cons.mpr
          ⟨by decide, fun c hc => (heach.labels c hc).2⟩, List.forall_mem_singleton.mpr (by decide)⟩
      obtain ⟨htag, htext⟩ := append_cons_inj (hhead _ hblock) (hhead _ hother) htext
      obtain ⟨hlabels, htext⟩ := append_cons_inj (hlist _ hblock) (hlist _ hother) htext
      obtain ⟨hbody, htext⟩ := hblock.inert.append_blockEnd_inj hother.inert htext
      have hrestSame : rest = others := ih hrest hothers (String.toList_injective htext)
      have hblockSame : block = other := by
        cases block
        cases other
        simp only [Block.mk.injEq]
        exact ⟨String.toList_injective (List.append_cancel_left htag), String.toList_injective
          (List.append_cancel_right (List.cons.inj hlabels).2), String.toList_injective hbody⟩
      rw [hblockSame, hrestSame]

/-- An emission writes its blocks one after the other, and the framing of blocks is unambiguous:
the blocks can be read off the text, and there are as many as ends of a block occur in it. -/
theorem blocksText_unambiguous :
    (∀ emission : Emission, emission.text = blocksText emission.blocks) ∧
    (∀ first next : List Block, (∀ block ∈ first, block.Framed) → (∀ block ∈ next, block.Framed) →
      blocksText first = blocksText next → first = next) ∧
    ∀ blocks : List Block, (∀ block ∈ blocks, block.Framed) →
      occurrences blockEnd (blocksText blocks).toList = blocks.length :=
  ⟨Emission.text_eq, fun _ _ hfirst hnext => blocksText_inj hfirst hnext,
    fun _ hframed => occurrences_blocksText hframed⟩

/-- A block whose body has the look of an end and of another block, in literal text and around a
loop, ends once. -/
theorem blocksText_unambiguous_backticks :
    let layout : List Slot := [.text 0x60, .text 0x0a, .text 0x0a, .text 0x60,
      .loop [.text 0x60, .loop [.placeholder (some "x") "`\n\nformat #B\n()`" "`"]], .text 0x60]
    let block : Block := ⟨"A", "x[]: #B", (render false layout).getD defaultBody⟩
    block.Framed ∧
    block.body = "`\\n\\n`\nwhile(true)\x7b\n`\nwhile(true)\x7b\n" ++
      "`\\n\\nformat #B\\n()`${x}`\n\x7d\n\n\x7d\n`" ∧
    (∀ next : List Block, (∀ other ∈ next, other.Framed) →
      blocksText [block, block] = blocksText next → [block, block] = next) ∧
    occurrences blockEnd (blocksText [block, block]).toList = 2 := by
  intro layout block
  have hframed : block.Framed := by
    exact ⟨by decide, by decide, Or.inr ⟨false, layout, by decide, by decide⟩⟩
  have hboth : ∀ each ∈ [block, block], each.Framed := by
    intro each heach
    simp only [List.mem_cons, List.not_mem_nil, or_false, or_self] at heach
    exact heach ▸ hframed
  obtain ⟨_, hinj, hcount⟩ := blocksText_unambiguous
  exact ⟨hframed, by decide, fun next hnext => hinj _ next hboth hnext, hcount _ hboth⟩

end Blocks

end PegTemplates
