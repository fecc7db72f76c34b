import PegTemplates.Proofs.Emitting.Framing
import PegTemplates.Proofs.Emitting.Shapes
import PegTemplates.Sink

/-!
# Emission to sinks that fail

Shapes are written one by one, and a report grows along. A whole run is shown to write the
pieces of the emission in order and to come to its report, as if everything had been put together
before the first piece is written. So the calls that a failing sink sees are those of a whole
run, cut off behind the call that fails, and its failure is what the run comes to. The order of
the blocks is said over the tags as the search discovers them.
-/

namespace PegTemplates

/-- The report after one more shape. -/
def Report.add (report : Report) (emission : ShapeEmission) : Report where
  shapes := report.shapes
  blocks := report.blocks + emission.blocks.length
  skipped := report.skipped ++ emission.skipped?.toList
  truncated := report.truncated ++ emission.truncated.map (emission.shape.id, ·)

/-- The report after some more shapes has everything that is reported of them. -/
theorem Report.foldl_add (emissions : List ShapeEmission) (report : Report) :
    emissions.foldl add report =
      { shapes := report.shapes
        blocks := report.blocks + (emissions.flatMap (·.blocks)).length
        skipped := report.skipped ++ emissions.filterMap (·.skipped?)
        truncated := report.truncated ++
          emissions.flatMap fun each => each.truncated.map (each.shape.id, ·) } := by
  induction emissions generalizing report with
  | nil => simp
  | cons emission rest ih =>
    have hskipped : (emission :: rest).filterMap (·.skipped?) =
        emission.skipped?.toList ++ rest.filterMap (·.skipped?) := by
      cases hskip : emission.skipped? <;> simp [hskip]
    rw [List.foldl_cons, ih, hskipped, List.flatMap_cons, List.flatMap_cons, List.length_append]
    simp only [add, List.append_assoc, Nat.add_assoc]

section Interleaved

variable {ε σ : Type} (sink : Sink ε σ)

/-- A block is written in its pieces. -/
theorem Sink.writeBlock_eq (block : Block) : sink.writeBlock block = block.writes.forM sink := by
  simp only [writeBlock, writeLine, Block.writes, List.forM_eq_forM, List.forM_cons, List.forM_nil,
    bind_assoc, bind_pure_unit]

/-- Blocks are written in the pieces of all of them. -/
theorem Sink.forM_writeBlock (blocks : List Block) :
    blocks.forM sink.writeBlock = (blocks.flatMap Block.writes).forM sink := by
  induction blocks with
  | nil => rfl
  | cons block rest ih =>
    rw [List.forM_eq_forM] at ih ⊢
    rw [List.forM_cons, ih, sink.writeBlock_eq, List.flatMap_cons]
    simp only [List.forM_eq_forM, List.forM_append]

/-- A shape is written in the pieces of its blocks and added to the report. -/
theorem Sink.writeShape_eq (report : Report) (emission : ShapeEmission) :
    sink.writeShape report emission = (do
      (emission.blocks.flatMap Block.writes).forM sink
      return report.add emission) := by
  unfold writeShape Report.add ShapeEmission.blocks ShapeEmission.skipped?
  cases emission.outcome with
  | error reason => simp
  | ok blocks => simp [← sink.forM_writeBlock]

/-- Shapes are written in the pieces of all blocks and added to the report one by one. -/
theorem Sink.foldlM_writeShape (emissions : List ShapeEmission) (report : Report) :
    emissions.foldlM sink.writeShape report = (do
      ((emissions.flatMap (·.blocks)).flatMap Block.writes).forM sink
      return emissions.foldl Report.add report) := by
  induction emissions generalizing report with
  | nil => simp
  | cons emission rest ih =>
    simp only [List.foldlM_cons, List.flatMap_cons, List.flatMap_append, List.foldl_cons,
      sink.writeShape_eq, ih, List.forM_eq_forM, List.forM_append, bind_assoc, pure_bind]

/-- Writing shape by shape is writing the pieces of the whole emission. -/
theorem Registry.emit_eq (registry : Registry) (limit : Nat) :
    registry.emit sink limit = (registry.emission limit).writeTo sink := by
  have hemissions : registry.emit sink limit =
      (registry.emission limit).shapes.foldlM sink.writeShape (.start registry.size) :=
    List.foldlM_map.symm
  have hreport : (registry.emission limit).shapes.foldl Report.add (.start registry.size) =
      (registry.emission limit).report := by
    rw [Report.foldl_add]
    simp [Report.start, Emission.report, Emission.blocks, emission, size]
  rw [hemissions, sink.foldlM_writeShape, hreport]
  rfl

end Interleaved

/-- What has been asked of a sink, and the state that it is in. -/
structure Observed (σ : Type) where
  /-- The calls made, in order, with the one that failed. -/
  calls : List String
  /-- The state of the sink. -/
  state : σ

namespace Sink

variable {ε σ : Type}

/-- A sink of which every call is noted, whether or not it fails. -/
def observed (sink : Sink ε σ) : Sink ε (Observed σ) := fun piece seen =>
  match sink piece seen.state with
  | .ok _ after => .ok ⟨⟩ ⟨seen.calls ++ [piece], after⟩
  | .error failure after => .error failure ⟨seen.calls ++ [piece], after⟩

/-- A sink that never fails. -/
def accepting : Sink ε Unit := fun _ => pure ⟨⟩

/-- A sink that fails the call of that number. Its state is the number of calls made. -/
def failing (number : Nat) (failure : ε) : Sink ε Nat := fun _ made =>
  if made = number then .error failure (made + 1) else .ok ⟨⟩ (made + 1)

/-- Whether a sink takes all pieces, which leaves it in another state. -/
def Takes (sink : Sink ε σ) (state : σ) (pieces : List String) (after : σ) : Prop :=
  (pieces.forM sink).run state = .ok ⟨⟩ after

/-- Whether a sink takes the pieces before the one of that number and fails at that one. -/
def FailsAt (sink : Sink ε σ) (state : σ) (pieces : List String) (number : Nat) (failure : ε)
    (after : σ) : Prop :=
  ∃ piece before, pieces[number]? = some piece ∧ sink.Takes state (pieces.take number) before ∧
    (sink piece).run before = .error failure after

section Cons

variable {sink : Sink ε σ} {state after : σ} {piece : String}

/-- Behind a call that is taken the other pieces are written. -/
theorem run_forM_of_ok (htaken : (sink piece).run state = .ok ⟨⟩ after) (rest : List String) :
    ((piece :: rest).forM sink).run state = (rest.forM sink).run after := by
  have hcons : (piece :: rest).forM sink = (sink piece >>= fun _ => rest.forM sink) := rfl
  rw [hcons, EStateM.run_bind, htaken]

/-- Behind a call that fails nothing is written. -/
theorem run_forM_of_error {failure : ε} (hfails : (sink piece).run state = .error failure after)
    (rest : List String) : ((piece :: rest).forM sink).run state = .error failure after := by
  have hcons : (piece :: rest).forM sink = (sink piece >>= fun _ => rest.forM sink) := rfl
  rw [hcons, EStateM.run_bind, hfails]

end Cons

/-- The pieces are all asked of a sink if it takes them, and up to the one at which it fails. -/
theorem run_observed (sink : Sink ε σ) (pieces calls : List String) (state : σ) :
    (∃ after, sink.Takes state pieces after ∧
      (pieces.forM sink.observed).run ⟨calls, state⟩ = .ok ⟨⟩ ⟨calls ++ pieces, after⟩) ∨
    (∃ number failure after, sink.FailsAt state pieces number failure after ∧
      (pieces.forM sink.observed).run ⟨calls, state⟩ =
        .error failure ⟨calls ++ pieces.take (number + 1), after⟩) := by
  -- The calls already made and the state are those behind the pieces in front.
  induction pieces generalizing calls state with
  | nil =>
    refine Or.inl ⟨state, rfl, ?_⟩
    rw [List.append_nil]
    rfl
  | cons piece rest ih =>
    cases hpiece : (sink piece).run state with
    | error failure after =>
      have hseen : (sink.observed piece).run ⟨calls, state⟩ =
          .error failure ⟨calls ++ [piece], after⟩ := by
        have hcall : sink piece state = .error failure after := hpiece
        simp only [EStateM.run, observed, hcall]
      exact Or.inr ⟨0, failure, after, ⟨piece, state, rfl, rfl, hpiece⟩,
        run_forM_of_error hseen rest⟩
    | ok _ middle =>
      have hseen : (sink.observed piece).run ⟨calls, state⟩ =
          .ok ⟨⟩ ⟨calls ++ [piece], middle⟩ := by
        have hcall : sink piece state = .ok ⟨⟩ middle := hpiece
        simp only [EStateM.run, observed, hcall]
      rcases ih (calls ++ [piece]) middle with
        ⟨after, htakes, hrun⟩ | ⟨number, failure, after, hfails, hrun⟩
      · refine Or.inl ⟨after, (run_forM_of_ok hpiece rest).trans htakes, ?_⟩
        rw [run_forM_of_ok hseen, hrun, List.append_assoc]
        rfl
      · obtain ⟨other, before, hother, htakes, hcall⟩ := hfails
        refine Or.inr ⟨number + 1, failure, after, ⟨other, before, hother, ?_, hcall⟩, ?_⟩
        · exact (run_forM_of_ok hpiece _).trans htakes
        · rw [run_forM_of_ok hseen, hrun, List.append_assoc]
          rfl

/-- A sink that never fails takes all pieces. -/
theorem run_accepting (pieces calls : List String) :
    (pieces.forM (accepting : Sink ε Unit).observed).run ⟨calls, ⟨⟩⟩ =
      .ok ⟨⟩ ⟨calls ++ pieces, ⟨⟩⟩ := by
  induction pieces generalizing calls with
  | nil =>
    rw [List.append_nil]
    rfl
  | cons piece rest ih =>
    have hseen : ((accepting : Sink ε Unit).observed piece).run ⟨calls, ⟨⟩⟩ =
        .ok ⟨⟩ ⟨calls ++ [piece], ⟨⟩⟩ := rfl
    rw [run_forM_of_ok hseen, ih, List.append_assoc]
    rfl

/-- A sink that fails one call takes pieces exactly if that call is not among them, and counts
them. -/
theorem takes_failing_iff {number made after : Nat} {failure : ε} {pieces : List String} :
    (failing number failure).Takes made pieces after ↔
      (number < made ∨ made + pieces.length ≤ number) ∧ after = made + pieces.length := by
  induction pieces generalizing made with
  | nil =>
    have hnil : (failing number failure).Takes made [] after ↔ made = after := by
      constructor
      · intro htakes
        exact (EStateM.Result.ok.inj htakes).2
      · rintro rfl
        rfl
    rw [hnil, List.length_nil]
    omega
  | cons piece rest ih =>
    rw [List.length_cons]
    by_cases hmade : made = number
    · have hcall : (failing number failure piece).run made = .error failure (made + 1) :=
        if_pos hmade
      rw [Takes, run_forM_of_error hcall]
      constructor
      · intro hwrong
        cases hwrong
      · intro hright
        omega
    · have hcall : (failing number failure piece).run made = .ok ⟨⟩ (made + 1) := if_neg hmade
      rw [Takes, run_forM_of_ok hcall]
      refine ih.trans ?_
      omega

/-- A sink that fails one call fails at the piece of that number. -/
theorem number_of_failsAt {number position after : Nat} {failure other : ε}
    {pieces : List String}
    (hfails : (failing number failure).FailsAt 0 pieces position other after) :
    position = number ∧ position < pieces.length ∧ other = failure ∧ after = number + 1 := by
  obtain ⟨piece, before, hpiece, htakes, hcall⟩ := hfails
  have hposition : position < pieces.length := (List.getElem?_eq_some_iff.mp hpiece).1
  have hbefore := (takes_failing_iff.mp htakes).2
  rw [List.length_take, Nat.min_eq_left (Nat.le_of_lt hposition), Nat.zero_add] at hbefore
  have hnumber : before = number := by
    by_contra hother
    have htaken : (failing number failure piece).run before = .ok ⟨⟩ (before + 1) := if_neg hother
    rw [htaken] at hcall
    cases hcall
  have hfailed : (failing number failure piece).run before = .error failure (before + 1) :=
    if_pos hnumber
  rw [hfailed] at hcall
  obtain ⟨hfailure, hafter⟩ := EStateM.Result.error.inj hcall
  exact ⟨hbefore.symm.trans hnumber, hposition, hfailure.symm, hafter.symm.trans (by rw [hnumber])⟩

end Sink

namespace Registry

section Runs

variable {ε σ : Type} {sink : Sink ε σ} {state after : σ} {registry : Registry} {limit : Nat}

/-- A run whose pieces are all taken comes to the report. -/
theorem run_emit_of_ok
    (htaken : ((registry.emission limit).writes.forM sink).run state = .ok ⟨⟩ after) :
    (registry.emit sink limit).run state = .ok (registry.emission limit).report after := by
  rw [registry.emit_eq, Emission.writeTo, EStateM.run_bind, htaken]
  rfl

/-- A run comes to the failure of its sink. -/
theorem run_emit_of_error {failure : ε}
    (hfails : ((registry.emission limit).writes.forM sink).run state = .error failure after) :
    (registry.emit sink limit).run state = .error failure after := by
  rw [registry.emit_eq, Emission.writeTo, EStateM.run_bind, hfails]

end Runs

section Discovery

variable (registry : Registry)

/-- The alternatives of a shape in the order in which its tags are discovered. A shape without
tags has its fallback. There are none if a rule that the shape refers to is undefined, or if the
search for tags comes to an error. -/
def discovered (shape : Shape) : List TagAlternative :=
  match registry.firstUndefined? shape.elements with
  | some _ => []
  | none =>
    match registry.tagAlternatives shape.elements with
    | .error _ => []
    | .ok found => if found.isEmpty then shape.fallback else found

/-- The tags discovered of every shape. -/
def discoveredTags : TagTable :=
  registry.shapes.map fun shape => (registry.discovered shape).map (·.tag)

/-- An alternative with its tag kept and its sequence laid out. -/
def tagLayout (alternative : TagAlternative) : Except AnalysisError TagLayout :=
  (registry.layout alternative.elements).map (TagLayout.mk alternative.tag)

/-- The layouts of the alternatives of a shape in the order in which its tags are discovered, none
if any alternative has no layout. -/
def laidOut (shape : Shape) : List TagLayout :=
  match (registry.discovered shape).mapM registry.tagLayout with
  | .error _ => []
  | .ok layouts => layouts

/-- The blocks of the shape of that number, in order of discovery of the tags and, for each tag,
of the first index that gives the block. -/
def blocksOf (limit : Nat) (id : ShapeId) : List Block :=
  (registry.shape? id).toList.flatMap fun shape =>
    (registry.laidOut shape).flatMap (·.blocks registry.discoveredTags shape.name.isSome limit)

/-- A shape is written from the alternatives discovered, if it has any. -/
theorem discovered_eq (shape : Shape) :
    registry.discovered shape =
      match registry.written shape with
      | .error _ => []
      | .ok alternatives => alternatives := by
  unfold discovered written
  cases registry.firstUndefined? shape.elements with
  | some reason => rfl
  | none =>
    cases registry.tagAlternatives shape.elements with
    | error reason => rfl
    | ok found => cases found <;> rfl

/-- Link labels name the tags discovered. -/
theorem tagTable_eq : registry.tagTable = registry.discoveredTags := by
  refine List.map_congr_left fun shape _ => ?_
  rw [discovered_eq]
  cases registry.written shape <;> rfl

/-- Alternatives have layouts, or there is a first one that has none. -/
theorem mapM_tagLayout (alternatives : List TagAlternative) :
    alternatives.mapM registry.tagLayout =
      match (registry.layouts alternatives).failure with
      | some reason => .error reason
      | none => .ok (registry.layouts alternatives).found := by
  induction alternatives with
  | nil => rfl
  | cons alternative rest ih =>
    rw [List.mapM_cons, ih, tagLayout, layouts]
    cases registry.layout alternative.elements with
    | error reason => rfl
    | ok nodes => cases (registry.layouts rest).failure <;> rfl

/-- A shape is written from the layouts of the alternatives discovered. -/
theorem laidOut_eq (shape : Shape) : registry.laidOut shape = (registry.layoutsOf shape).kept := by
  rw [laidOut, discovered_eq, layoutsOf, ShapeLayouts.kept]
  cases registry.written shape with
  | error reason => rfl
  | ok alternatives =>
    dsimp only
    rw [mapM_tagLayout]
    cases (registry.layouts alternatives).failure <;> rfl

end Discovery

/-- The shapes of all numbers are those registered. -/
theorem map_shape?_range (registry : Registry) :
    (List.range registry.size).map registry.shape? = registry.shapes.map some := by
  apply List.ext_getElem?
  intro position
  rw [List.getElem?_map, List.getElem?_map]
  rcases Nat.lt_or_ge position registry.size with hlt | hge
  · have hshape : registry.shapes[position]? = some registry.shapes[position] :=
      List.getElem?_eq_getElem hlt
    rw [List.getElem?_range hlt, Option.map_some, shape?, hshape, Option.map_some]
  · have hshape : registry.shapes[position]? = none := List.getElem?_eq_none hge
    have hnumber : (List.range registry.size)[position]? = none :=
      List.getElem?_eq_none (by rwa [List.length_range])
    rw [hshape, hnumber, Option.map_none, Option.map_none]

/-- The blocks of an emission are those of the shapes in order of their numbers. -/
theorem emission_blocks_eq (registry : Registry) (limit : Nat) :
    (registry.emission limit).blocks =
      (List.range registry.size).flatMap (registry.blocksOf limit) := by
  have hnumbers : (List.range registry.size).flatMap (registry.blocksOf limit) =
      ((List.range registry.size).map registry.shape?).flatMap fun found =>
        found.toList.flatMap fun shape => (registry.laidOut shape).flatMap
          (·.blocks registry.discoveredTags shape.name.isSome limit) := by
    rw [List.flatMap_map]
    rfl
  rw [hnumbers, map_shape?_range, List.flatMap_map, emission_blocks, tagTable_eq]
  simp only [Option.toList_some, List.flatMap_singleton, laidOut_eq]

/-- What a run makes of the calls of its sink. A run to a sink that never fails calls it with the
pieces of the blocks in order of shape numbers, of discovery of the tags and of the first index
that gives a block, so that their texts come one behind the other, and reports the number of
blocks. A run to a sink that fails one call makes the calls of that run up to and with the one
that fails and comes to the failure, or else makes all of them and comes to the same report. The
same is true of a sink that decides in any way of its own, by its state and the pieces, at which
calls it fails. -/
theorem emit_calls (registry : Registry) (limit : Nat) :
    let blocks := (List.range registry.size).flatMap (registry.blocksOf limit)
    let calls := blocks.flatMap Block.writes
    ∃ report : Report,
      (∀ ε : Type, (registry.emit (Sink.accepting : Sink ε Unit).observed limit).run ⟨[], ⟨⟩⟩ =
        .ok report ⟨calls, ⟨⟩⟩) ∧
      String.join calls = blocksText blocks ∧
      report.blocks = blocks.length ∧
      (∀ {ε : Type} (number : Nat) (failure : ε),
        (registry.emit (Sink.failing number failure).observed limit).run ⟨[], 0⟩ =
          if number < calls.length then .error failure ⟨calls.take (number + 1), number + 1⟩
          else .ok report ⟨calls, calls.length⟩) ∧
      ∀ {ε σ : Type} (sink : Sink ε σ) (state : σ),
        (∃ after, sink.Takes state calls after ∧
          (registry.emit sink.observed limit).run ⟨[], state⟩ = .ok report ⟨calls, after⟩) ∨
        (∃ number failure after, sink.FailsAt state calls number failure after ∧
          (registry.emit sink.observed limit).run ⟨[], state⟩ =
            .error failure ⟨calls.take (number + 1), after⟩) := by
  intro blocks calls
  -- Only what the sink does with these calls decides how the run goes on.
  have hblocks : (registry.emission limit).blocks = blocks := registry.emission_blocks_eq limit
  have hcalls : (registry.emission limit).writes = calls :=
    congrArg (·.flatMap Block.writes) hblocks
  have htext : String.join calls = blocksText blocks := by
    have hwhole := (registry.emission limit).text_eq
    rwa [Emission.text, hcalls, hblocks] at hwhole
  have hany : ∀ {ε σ : Type} (sink : Sink ε σ) (state : σ),
      (∃ after, sink.Takes state calls after ∧
        (registry.emit sink.observed limit).run ⟨[], state⟩ =
          .ok (registry.emission limit).report ⟨calls, after⟩) ∨
      (∃ number failure after, sink.FailsAt state calls number failure after ∧
        (registry.emit sink.observed limit).run ⟨[], state⟩ =
          .error failure ⟨calls.take (number + 1), after⟩) := by
    intro ε σ sink state
    rw [← hcalls]
    rcases sink.run_observed (registry.emission limit).writes [] state with
      ⟨after, htakes, hrun⟩ | ⟨number, failure, after, hfails, hrun⟩
    · exact Or.inl ⟨after, htakes, run_emit_of_ok hrun⟩
    · exact Or.inr ⟨number, failure, after, hfails, run_emit_of_error hrun⟩
  refine ⟨(registry.emission limit).report, ?_, htext, congrArg List.length hblocks, ?_, hany⟩
  · intro ε
    rw [← hcalls]
    exact run_emit_of_ok (Sink.run_accepting _ [])
  · intro ε number failure
    rcases hany (Sink.failing number failure) 0 with
      ⟨after, htakes, hrun⟩ | ⟨position, other, after, hfails, hrun⟩
    · obtain ⟨hbehind, hafter⟩ := Sink.takes_failing_iff.mp htakes
      rw [hrun, if_neg (by omega), hafter, Nat.zero_add]
    · obtain ⟨rfl, hposition, rfl, rfl⟩ := Sink.number_of_failsAt hfails
      rw [hrun, if_pos hposition]

/-- A shape has two tags, the second of which is discovered in another branch, and a sink fails
at the end of the head line under the second one. -/
theorem emit_calls_two_tags :
    let grammar : Grammar := ⟨[
      ⟨"S", .capture [.choice [
        .sequence [.tag "B", .link (some "x") (.nonTerminal "C")], .tag "A"]]⟩,
      ⟨"C", .capture [.tag "C"]⟩]⟩
    let shape : Shape := ⟨0, some "S",
      [.choice [[.tag "B", .linked (some "x") [.nonTerminal "C" ⟨0⟩]], [.tag "A"]]]⟩
    let registry : Registry :=
      ⟨[shape, ⟨1, some "C", [.tag "C"]⟩], [⟨"S", [.captured 0]⟩, ⟨"C", [.captured 1]⟩]⟩
    grammar.build = .ok registry ∧
    (registry.discovered shape).map (·.tag) = ["B", "A"] ∧
    registry.blocksOf 3 0 = [⟨"B", "x: #C", "${x}"⟩, ⟨"A", "", defaultBody⟩] ∧
    (registry.emit (Sink.failing 9 "full").observed 3).run ⟨[], 0⟩ =
      .error "full" ⟨["format #B", "\n", "(x: #C)`", "${x}", "`", "\n", "", "\n",
        "format #A", "\n"], 10⟩ := by
  intro grammar shape registry
  have hbuild : grammar.build = .ok registry := by rfl
  have htags : (registry.discovered shape).map (·.tag) = ["B", "A"] := by decide +kernel
  have hblocks : registry.blocksOf 3 0 = [⟨"B", "x: #C", "${x}"⟩, ⟨"A", "", defaultBody⟩] := by
    decide +kernel
  have hcalls : (((List.range registry.size).flatMap (registry.blocksOf 3)).flatMap
      Block.writes).take 10 = ["format #B", "\n", "(x: #C)`", "${x}", "`", "\n", "", "\n",
        "format #A", "\n"] := by
    decide +kernel
  have hnine : 9 < (((List.range registry.size).flatMap (registry.blocksOf 3)).flatMap
      Block.writes).length := by
    decide +kernel
  obtain ⟨_, _, _, _, hfailing, _⟩ := registry.emit_calls 3
  have hrun := hfailing 9 "full"
  rw [if_pos hnine, hcalls] at hrun
  exact ⟨hbuild, htags, hblocks, hrun⟩

end Registry

end PegTemplates
