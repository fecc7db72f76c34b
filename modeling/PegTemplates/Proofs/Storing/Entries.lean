import Mathlib.Control.Monad.Basic
import PegTemplates.Proofs.Storing.Outputs
import PegTemplates.Sink

/-!
# The ways to generate

Templates are generated into memory, into a file, or only counted. The ways are shown to agree:
on a grammar that cannot be built all of them fail with the same error and no file is touched,
and on any other one they give the same report, the file holding the text that a run into memory
gives.
-/

namespace PegTemplates

open Files

variable {log : List Event → StateM Machine Unit} {machine : Machine} {grammar : Grammar}
  {directory : Path} {limit : Nat} {registry : Registry} {reason : AnalysisError}

/-- A run into memory fails exactly as the building of the grammar does. -/
theorem generateText_of_error (hbad : grammar.build = .error reason) :
    grammar.generateText limit = .error reason := by
  rw [Grammar.generateText, Grammar.generate, hbad]
  rfl

/-- A run into memory gives the text of the emission with the report on it. -/
theorem generateText_of_ok (hgood : grammar.build = .ok registry) :
    grammar.generateText limit =
      .ok ((registry.emission limit).text, (registry.emission limit).report) := by
  rw [← Emission.collected_eq, Grammar.generateText, Grammar.generate, hgood]
  rfl

/-- Two things that are logged change no file. -/
theorem log_log_files (hlog : ∀ events, Ensures SameFiles (log events)) (first next : List Event)
    {α : Type} (value : α) : Ensures SameFiles (do log first; log next; return value) :=
  SameFiles.composed.bind (hlog first) fun _ =>
    SameFiles.composed.bind (hlog next) fun _ => SameFiles.composed.pure value

/-- All ways to generate agree. With a grammar that cannot be built each of them gives the error
of the building, and no file is touched. With any other grammar each of them gives the report
that a run into memory gives; without a file name no file is touched, and with a name with which
the templates can be stored, the file holds the text of the run into memory and all other files
are kept. Generation from a file does the same with the grammar that is found in it; when none is
found, nothing is touched either. -/
theorem ways_to_generate_agree (hlog : ∀ events, Ensures SameFiles (log events))
    (hgrounded : machine.files.Grounded) (grammar : Grammar) (directory : Path) (limit : Nat) :
    (∀ reason, grammar.build = .error reason →
      grammar.generateText limit = .error reason ∧
      ∀ fileName, Ends (generateTemplates machineHost log ⟨directory, fileName, limit⟩ grammar)
        machine (.error (.analysis reason)) machine.files) ∧
    (∀ registry, grammar.build = .ok registry → ∃ text report,
      grammar.generateText limit = .ok (text, report) ∧
      Ends (generateTemplates machineHost log ⟨directory, none, limit⟩ grammar)
        machine (.ok report) machine.files ∧
      ∀ name after,
        Stores machine.files directory (directory.join (name ++ ".txt")) (utf8 text) after →
        Ends (generateTemplates machineHost log ⟨directory, some name, limit⟩ grammar)
          machine (.ok report) after ∧
        after.read (directory.join (name ++ ".txt")) = .ok (utf8 text) ∧
        ∃ place, after.filePlace (directory.join (name ++ ".txt")) = .ok place ∧
          machine.files.Keeps after [place]) ∧
    (∀ options source,
      (machine.files.HoldsGrammar source grammar →
        (generateFromFile machineHost log options source).run machine =
          (generateTemplates machineHost log options grammar).run machine) ∧
      ((¬ ∃ other, machine.files.HoldsGrammar source other) →
        ∃ error, (generateFromFile machineHost log options source).run machine =
          (.error (.load error), machine))) := by
  refine ⟨fun reason hbad => ⟨generateText_of_error hbad, fun fileName => ?_⟩,
    fun registry hgood => ?_,
    fun _ _ => ⟨run_generateFromFile, run_generateFromFile_of_not_found⟩⟩
  · have hgenerate : grammar.generate limit = .error reason := by
      rw [Grammar.generate, hbad]
      rfl
    rw [generateTemplates_of_error machineHost log hgenerate]
    exact ⟨rfl, hlog _ machine⟩
  · have hgenerate : grammar.generate limit = .ok (registry.emission limit) := by
      rw [Grammar.generate, hgood]
      rfl
    refine ⟨_, _, generateText_of_ok hgood, ?_, fun name after hstores => ?_⟩
    · rw [generateTemplates_of_unnamed machineHost log rfl hgenerate]
      exact ⟨rfl, log_log_files hlog _ _ _ machine⟩
    · obtain ⟨place, hplace, hkeeps, _⟩ := hstores.keeps hgrounded
      exact ⟨(generateTemplates_ok_iff hlog rfl).mpr ⟨_, hgenerate, rfl, hstores⟩,
        hstores.read hgrounded, place, hplace, hkeeps⟩

/-- The templates of a grammar of one tag, stored in a directory that is not there before; and
what becomes of the same run when the grammar does not close its node. -/
theorem ways_to_generate_agree_one_tag :
    let machine : Machine := .withFiles (.withDirectory ["work"])
    let silent : List Event → StateM Machine Unit := fun _ => pure ⟨⟩
    let text := "format #A\n()`${this.toText()}`\n\n"
    let grammar : Grammar := ⟨[⟨"A", .sequence [.beginCapture, .tag "A", .endCapture]⟩]⟩
    let unclosed : Grammar := ⟨[⟨"A", .sequence [.beginCapture, .tag "A"]⟩]⟩
    let options : GenerationOptions := ⟨"out", some "t", 4096⟩
    ∃ after report reason,
      grammar.generateText 4096 = .ok (text, report) ∧
      Ends (generateTemplates machineHost silent options grammar) machine (.ok report) after ∧
      after.read "out/t.txt" = .ok (utf8 text) ∧
      Ends (generateTemplates machineHost silent options unclosed) machine
        (.error (.analysis reason)) machine.files ∧
      ∃ error, (generateFromFile machineHost silent options "g.json").run machine =
        (.error (.load error), machine) := by
  intro machine silent text grammar unclosed options
  have hgrounded : machine.files.Grounded := by rfl
  have hlog : ∀ events, Ensures SameFiles (silent events) := fun _ _ => rfl
  have hmissing : ¬ ∃ other, machine.files.HoldsGrammar "g.json" other := by
    rintro ⟨_, content, hread, _⟩
    cases hread
  obtain ⟨_, hgood, hnothing⟩ := ways_to_generate_agree hlog hgrounded grammar "out" 4096
  obtain ⟨hbad, _⟩ := ways_to_generate_agree hlog hgrounded unclosed "out" 4096
  obtain ⟨registry, hbuild⟩ : ∃ registry, grammar.build = .ok registry := ⟨_, rfl⟩
  obtain ⟨reason, hunbuilt⟩ : ∃ reason, unclosed.build = .error reason := ⟨_, rfl⟩
  obtain ⟨given, report, htext, _, hstored⟩ := hgood registry hbuild
  have hgiven : grammar.generateText 4096 = .ok (text, ⟨1, 1, [], []⟩) := by decide +kernel
  obtain ⟨rfl, rfl⟩ := Prod.mk.inj (Except.ok.inj (htext.symm.trans hgiven))
  have hstores : Stores machine.files "out" (Path.join "out" ("t" ++ ".txt")) (utf8 text)
      ⟨["work"], .directory "work" (.directory "out" (.file "t.txt" (utf8 text) .empty) .empty)
        .empty⟩ := ⟨by rfl, by decide +kernel⟩
  obtain ⟨hends, hread, _⟩ := hstored "t" _ hstores
  exact ⟨_, _, reason, htext, hends, hread, (hbad reason hunbuilt).2 (some "t"),
    (hnothing options "g.json").2 hmissing⟩

end PegTemplates
