import PegTemplates.Generation
import PegTemplates.Proofs.Storing.Keeping

/-!
# What generation stores

Generation with a file name makes the directory and writes the file, in this order, once the
grammar is built. It is shown to succeed exactly if each of these does, whatever is logged on
the way. The file is then at the place that its path names, and all others are kept.
-/

namespace PegTemplates

open Files

/-- Whether a step gives a value on a machine and leaves those files. -/
def Files.Ends {α : Type} (step : StateM Machine α) (machine : Machine) (value : α)
    (files : Tree) : Prop :=
  (step.run machine).1 = value ∧ (step.run machine).2.files = files

/-- A step that leaves files leaves a machine with them. -/
theorem Files.Ends.exists_machine {α : Type} {step : StateM Machine α} {machine : Machine}
    {value : α} {files : Tree} (hends : Ends step machine value files) :
    ∃ after, step.run machine = (value, after) ∧ after.files = files :=
  ⟨(step.run machine).2, Prod.ext hends.1 rfl, hends.2⟩

/-- What comes of making a directory in a tree, and the tree with all that was made. -/
def Files.Tree.withDirectories (tree : Tree) (path : Path) : Except Failure Unit × Tree :=
  let (result, machine) := (makeDirectories machineHost path).run (.withFiles tree)
  (result, machine.files)

/-- Whether a directory can be made in a tree and a file be written behind it, and the tree that
comes of it. -/
structure Stores (before : Tree) (directory path : Path) (content : Content) (after : Tree) :
    Prop where
  /-- The directory can be made. -/
  made : (before.withDirectories directory).1 = .ok ()
  /-- The file can be written then. -/
  written : (before.withDirectories directory).2.write path content = .ok after

variable {log : List Event → StateM Machine Unit} {machine : Machine} {before after : Tree}
  {directory path source : Path} {content : Content} {emission : Emission} {report : Report}
  {options : GenerationOptions} {grammar : Grammar}

/-- A stored file is at the place that its path names, and all other files are kept. -/
theorem Stores.keeps (hstores : Stores before directory path content after)
    (hgrounded : before.Grounded) :
    ∃ place, after.filePlace path = .ok place ∧ before.Keeps after [place] ∧
      after.at? place = some (.file content) := by
  have hadded : before.Keeps (before.withDirectories directory).2 [] :=
    makeDirectories_addsDirectories directory (.withFiles before) hgrounded
  have hmiddle := hadded.grounded hgrounded
  obtain ⟨place, hplace, hkeeps, hthere⟩ := Tree.write_keeps hmiddle hstores.written
  exact ⟨place, hkeeps.filePlace hmiddle hplace, hadded.trans hkeeps, hthere⟩

/-- What is stored under a path can be read under it. -/
theorem Stores.read (hstores : Stores before directory path content after)
    (hgrounded : before.Grounded) : after.read path = .ok content := by
  obtain ⟨place, hplace, hkeeps, hthere⟩ := hstores.keeps hgrounded
  exact (Tree.read_iff_at? (hkeeps.grounded hgrounded) hplace).mpr hthere

/-- Writing an emission succeeds exactly if its text can be stored. -/
theorem writeEmission_ok_iff (hlog : ∀ events, Ensures SameFiles (log events)) :
    Ends (writeEmission machineHost log directory path emission) machine (.ok report) after ↔
      report = emission.report ∧
        Stores machine.files directory path (utf8 emission.text) after := by
  obtain ⟨hresult, hfiles⟩ : _ ∧ _ := makeDirectories_ofFiles directory
    ((log [.generating path]).run machine).2 (.withFiles machine.files) (hlog _ machine)
  -- what is logged first leaves the files, and the directory is made from these alone
  change _ = (machine.files.withDirectories directory).1 at hresult
  change _ = (machine.files.withDirectories directory).2 at hfiles
  rw [Ends, writeEmission, run_bind, run_bind]
  generalize (makeDirectories machineHost directory).run _ = made at hresult hfiles
  obtain ⟨result, middle⟩ := made
  dsimp only at hresult hfiles
  subst hresult
  cases hmade : (machine.files.withDirectories directory).1 with
  | error failure =>
    exact iff_of_false (fun ⟨hfailed, _⟩ => nomatch hfailed)
      fun ⟨_, hstores⟩ => nomatch hmade.symm.trans hstores.made
  | ok _ =>
    have hwritten : (machineHost.write path (utf8 emission.text)).run middle =
        (changeFiles (·.write path (utf8 emission.text))).run middle := rfl
    dsimp only
    rw [run_bind, hwritten, run_changeFiles, hfiles]
    cases hwrite : (machine.files.withDirectories directory).2.write path
        (utf8 emission.text) with
    | error failure =>
      exact iff_of_false (fun ⟨hfailed, _⟩ => nomatch hfailed)
        fun ⟨_, hstores⟩ => nomatch hwrite.symm.trans hstores.written
    | ok stored =>
      have hlogged := hlog emission.events { middle with files := stored }
      constructor
      · rintro ⟨hreport, hafter⟩
        have hstored : stored = after := hlogged.symm.trans hafter
        exact ⟨(Except.ok.inj hreport).symm, hmade, hwrite.trans (congrArg _ hstored)⟩
      · rintro ⟨rfl, hstores⟩
        obtain rfl := Except.ok.inj (hwrite.symm.trans hstores.written)
        exact ⟨rfl, hlogged⟩

/-- A grammar that cannot be built ends generation before anything is asked of the host. -/
theorem generateTemplates_of_error {m : Type → Type} [Monad m] (host : Host m)
    (log : List Event → m Unit) {reason : AnalysisError}
    (hbad : grammar.generate options.maxAlternatives = .error reason) :
    generateTemplates host log options grammar =
      (do log grammar.buildEvents; return .error (.analysis reason)) := by
  rw [generateTemplates, hbad]

/-- Without a file name generation asks nothing of the host. -/
theorem generateTemplates_of_unnamed {m : Type → Type} [Monad m] (host : Host m)
    (log : List Event → m Unit) (hunnamed : options.outputPath? = none)
    (hgood : grammar.generate options.maxAlternatives = .ok emission) :
    generateTemplates host log options grammar =
      (do log grammar.buildEvents; log emission.events; return .ok emission.report) := by
  rw [generateTemplates, hgood, hunnamed]

/-- Generation with a file name succeeds exactly if the grammar can be built and its templates can
be stored. -/
theorem generateTemplates_ok_iff (hlog : ∀ events, Ensures SameFiles (log events))
    (hpath : options.outputPath? = some path) :
    Ends (generateTemplates machineHost log options grammar) machine (.ok report) after ↔
      ∃ emission, grammar.generate options.maxAlternatives = .ok emission ∧
        report = emission.report ∧
        Stores machine.files options.directory path (utf8 emission.text) after := by
  cases hgenerate : grammar.generate options.maxAlternatives with
  | error reason =>
    rw [generateTemplates_of_error machineHost log hgenerate]
    exact iff_of_false (fun ⟨hfailed, _⟩ => nomatch hfailed) fun ⟨_, hgood, _⟩ => nomatch hgood
  | ok emission =>
    have hlogged : ((log grammar.buildEvents).run machine).2.files = machine.files :=
      hlog _ machine
    rw [generateTemplates, hgenerate, hpath, Ends, run_bind]
    dsimp only
    refine (writeEmission_ok_iff hlog).trans ?_
    rw [hlogged]
    exact ⟨fun hstores => ⟨emission, rfl, hstores⟩,
      fun ⟨_, hgood, hstores⟩ => Except.ok.inj hgood ▸ hstores⟩

/-- Whether a grammar is found under a path. -/
def Files.Tree.HoldsGrammar (tree : Tree) (source : Path) (grammar : Grammar) : Prop :=
  ∃ content, tree.read source = .ok content ∧ Document.ofBytes content = .ok grammar

/-- Loading a grammar gives the one that is found under the path. -/
theorem loadGrammar_ok_iff :
    ((loadGrammar machineHost source).run machine).1 = .ok grammar ↔
      machine.files.HoldsGrammar source grammar := by
  have hread : (machineHost.read source).run machine =
      (machine.files.read source, machine) := rfl
  rw [loadGrammar, run_bind, hread, Tree.HoldsGrammar]
  cases machine.files.read source with
  | error failure => exact iff_of_false nofun fun ⟨_, hcontent, _⟩ => nomatch hcontent
  | ok content =>
    dsimp only
    cases hdocument : Document.ofBytes content with
    | error fault =>
      refine iff_of_false nofun ?_
      rintro ⟨_, hcontent, hloaded⟩
      cases hcontent
      cases hdocument.symm.trans hloaded
    | ok loaded =>
      constructor
      · intro hloaded
        exact ⟨content, rfl, hdocument.trans (congrArg _ (Except.ok.inj hloaded))⟩
      · rintro ⟨_, hcontent, hloaded⟩
        cases hcontent
        exact congrArg _ (Except.ok.inj (hdocument.symm.trans hloaded))

/-- Loading a grammar changes nothing. -/
theorem loadGrammar_same (source : Path) : Ensures Same (loadGrammar machineHost source) := by
  refine Same.composed.bind (fun _ => rfl) fun content => ?_
  cases content with
  | error failure => exact Same.composed.pure _
  | ok bytes => dsimp only; split <;> exact Same.composed.pure _

/-- Generation from a file whose grammar is found is generation of that grammar. -/
theorem run_generateFromFile (hfound : machine.files.HoldsGrammar source grammar) :
    (generateFromFile machineHost log options source).run machine =
      (generateTemplates machineHost log options grammar).run machine := by
  have hmachine : ((loadGrammar machineHost source).run machine).2 = machine :=
    loadGrammar_same source machine
  rw [generateFromFile, run_bind, loadGrammar_ok_iff.mpr hfound, hmachine]

/-- Generation from a file in which no grammar is found fails, and nothing has changed. -/
theorem run_generateFromFile_of_not_found
    (hmissing : ¬ ∃ grammar, machine.files.HoldsGrammar source grammar) :
    ∃ error, (generateFromFile machineHost log options source).run machine =
      (.error (.load error), machine) := by
  have hmachine : ((loadGrammar machineHost source).run machine).2 = machine :=
    loadGrammar_same source machine
  cases hloaded : ((loadGrammar machineHost source).run machine).1 with
  | ok grammar => exact absurd ⟨grammar, loadGrammar_ok_iff.mp hloaded⟩ hmissing
  | error error =>
    refine ⟨error, ?_⟩
    rw [generateFromFile, run_bind, hloaded, hmachine]
    rfl

/-- Generation from a file succeeds exactly if a grammar is found in it that can be built, and the
templates of that grammar can be stored. -/
theorem generateFromFile_ok_iff (hlog : ∀ events, Ensures SameFiles (log events))
    (hpath : options.outputPath? = some path) :
    Ends (generateFromFile machineHost log options source) machine (.ok report) after ↔
      ∃ grammar emission, machine.files.HoldsGrammar source grammar ∧
        grammar.generate options.maxAlternatives = .ok emission ∧ report = emission.report ∧
        Stores machine.files options.directory path (utf8 emission.text) after := by
  by_cases hfound : ∃ grammar, machine.files.HoldsGrammar source grammar
  · obtain ⟨grammar, hgrammar⟩ := hfound
    rw [Ends, run_generateFromFile hgrammar]
    refine (generateTemplates_ok_iff hlog hpath).trans ⟨?_, ?_⟩
    · rintro ⟨emission, hstored⟩
      exact ⟨grammar, emission, hgrammar, hstored⟩
    · rintro ⟨other, emission, hother, hstored⟩
      have hsame : other = grammar := Except.ok.inj
        ((loadGrammar_ok_iff.mpr hother).symm.trans (loadGrammar_ok_iff.mpr hgrammar))
      exact ⟨emission, hsame ▸ hstored⟩
  · obtain ⟨error, hfailed⟩ := run_generateFromFile_of_not_found hfound
    constructor
    · rintro ⟨hended, _⟩
      rw [hfailed] at hended
      cases hended
    · rintro ⟨grammar, _, hgrammar, _⟩
      exact absurd ⟨grammar, hgrammar⟩ hfound

end PegTemplates
