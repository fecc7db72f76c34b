import PegTemplates.Proofs.Storing.Documents
import PegTemplates.Proofs.Storing.Expansions
import PegTemplates.Proofs.Storing.Outputs

/-!
# Inputs of a run

A run that writes templates handles its inputs one after the other. A step of it is one input:
what is read, where its templates are written, and that all else is kept. Along the steps it is
shown that every input was there from the start, that the places which outputs name hold
templates at the end, and that all other files are kept.
-/

namespace PegTemplates.CommandLine

open Files

section Succeeds

variable {α β : Type} {before after : Machine} {value : α}

/-- Whether a step of a run gives a value on a machine, and the machine that comes of it. -/
def Succeeds (step : RunM (StateM Machine) α) (before : Machine) (value : α)
    (after : Machine) : Prop :=
  step.run.run before = (.ok value, after)

/-- Two steps in a row succeed exactly if both do. -/
theorem succeeds_bind_iff {step : RunM (StateM Machine) β}
    {next : β → RunM (StateM Machine) α} :
    Succeeds (step >>= next) before value after ↔
      ∃ first middle, Succeeds step before first middle ∧
        Succeeds (next first) middle value after := by
  unfold Succeeds
  rw [ExceptT.run_bind, run_bind]
  rcases step.run.run before with ⟨result, middle⟩
  cases result with
  | error reason => exact iff_of_false nofun fun ⟨_, _, hfirst, _⟩ => nomatch hfirst
  | ok first =>
    constructor
    · exact fun hnext => ⟨first, middle, rfl, hnext⟩
    · rintro ⟨_, _, hfirst, hnext⟩
      cases hfirst
      exact hnext

/-- A step that may fail succeeds exactly if it does not. -/
theorem succeeds_attempt_iff {ε : Type} {describe : ε → RunError}
    {step : StateM Machine (Except ε α)} :
    Succeeds (attempt describe step) before value after ↔
      step.run before = (.ok value, after) := by
  have hrun : (attempt describe step).run.run before =
      ((step.run before).1.mapError describe, (step.run before).2) := rfl
  rw [Succeeds, hrun]
  rcases step.run before with ⟨result, middle⟩
  cases result with
  | error reason => exact iff_of_false nofun nofun
  | ok given =>
    constructor
    · intro hended
      cases hended
      rfl
    · intro hended
      cases hended
      rfl

end Succeeds

/-- Writing events changes no file. -/
theorem writeEvents_sameFiles (color : Bool) (verbosity : Nat) (events : List Event) :
    Ensures SameFiles (writeEvents machineHost color verbosity events) := by
  induction events with
  | nil => exact SameFiles.composed.pure _
  | cons event rest ih =>
    rw [writeEvents]
    split
    · exact SameFiles.composed.bind (fun _ => rfl) fun _ => ih
    · exact ih

/-- An input of a run, with what is read from it and what is written for it. -/
structure Job where
  /-- Path of the input. -/
  input : Path
  /-- Place of the input. -/
  source : Files.Place
  /-- Content of the input. -/
  content : Content
  /-- Path of the output. -/
  output : Path
  /-- Place of the output. -/
  target : Files.Place
  /-- The templates. -/
  text : String

/-- Whether the output and the templates are those of the input. -/
structure Job.Meets (job : Job) (request : FormatRequest) : Prop where
  /-- The output is named as requested, in the requested directory. -/
  output : ∃ name, outputName request job.input = .ok (some name) ∧
    job.output = request.directory.join (name ++ ".txt")
  /-- The templates are those of the grammar in the input. -/
  text : ∃ grammar emission, Document.ofBytes job.content = .ok grammar ∧
    grammar.generate request.maxAlternatives = .ok emission ∧ job.text = emission.text

/-- No input holds templates. -/
theorem Job.Meets.content_ne {job other : Job} {request : FormatRequest}
    (hjob : job.Meets request) (hother : other.Meets request) : job.content ≠ utf8 other.text := by
  obtain ⟨grammar, _, hload, _⟩ := hjob.text
  obtain ⟨_, emission, _, _, htext⟩ := hother.text
  intro hsame
  rw [hsame, htext] at hload
  exact templates_ne_document emission grammar hload

/-- Inputs with the same content have the same templates. -/
theorem Job.Meets.text_eq {job other : Job} {request : FormatRequest}
    (hjob : job.Meets request) (hother : other.Meets request)
    (hsame : job.content = other.content) : job.text = other.text := by
  obtain ⟨grammar, emission, hload, hgenerate, htext⟩ := hjob.text
  obtain ⟨otherGrammar, otherEmission, hotherLoad, hotherGenerate, hotherText⟩ := hother.text
  rw [hsame, hotherLoad] at hload
  obtain rfl := Except.ok.inj hload
  obtain rfl := Except.ok.inj (hotherGenerate.symm.trans hgenerate)
  rw [htext, hotherText]

/-- Whether one input has been handled. -/
structure Job.Handled (job : Job) (request : FormatRequest) (before after : Tree) : Prop where
  /-- The output and the templates are those of the input. -/
  meets : job.Meets request
  /-- The input is found at its place. -/
  source : before.filePlace job.input = .ok job.source
  /-- It is there with its content. -/
  content : before.at? job.source = some (.file job.content)
  /-- The output is found at its place then. -/
  target : after.filePlace job.output = .ok job.target
  /-- It is there with the templates. -/
  text : after.at? job.target = some (.file (utf8 job.text))
  /-- All other files are kept. -/
  keeps : before.Keeps after [job.target]

/-- Whether inputs have been handled, one after the other. -/
inductive Handled (request : FormatRequest) : Tree → List Job → Tree → Prop
  /-- No inputs. -/
  | nil (tree : Tree) : Handled request tree [] tree
  /-- An input, and then others. -/
  | cons {before middle after : Tree} {job : Job} {rest : List Job}
    (first : job.Handled request before middle) (others : Handled request middle rest after) :
    Handled request before (job :: rest) after

variable {request : FormatRequest} {color : Bool} {verbosity : Nat}

/-- Unless nothing is to be written, an output has a name. -/
theorem outputName_some {input : Path} {name : Option String} (hdry : request.dryRun = false)
    (hname : outputName request input = .ok name) : ∃ named, name = some named := by
  unfold outputName at hname
  rw [hdry, if_neg Bool.false_ne_true] at hname
  split at hname
  · exact ⟨_, (Except.ok.inj hname).symm⟩
  · split at hname
    · exact ⟨_, (Except.ok.inj hname).symm⟩
    · cases hname

/-- An input whose step succeeds has been handled. -/
theorem formatInput_handled {before after : Machine} {input : Path}
    (hdry : request.dryRun = false) (hgrounded : before.files.Grounded)
    (hrun : Succeeds (formatInput machineHost color verbosity request input) before () after) :
    ∃ job : Job, job.input = input ∧ job.Handled request before.files after.files := by
  obtain ⟨name, _, hname, hrest⟩ := succeeds_bind_iff.mp hrun
  obtain ⟨report, middle, hgenerate, hreport⟩ := succeeds_bind_iff.mp hrest
  have hnamed : (outputName request input, before) = (.ok name, _) :=
    succeeds_attempt_iff.mp hname
  have hgenerated := succeeds_attempt_iff.mp hgenerate
  obtain ⟨houtput, rfl⟩ := Prod.mk.inj hnamed
  obtain ⟨named, rfl⟩ := outputName_some hdry houtput
  have hafter : after.files = middle.files :=
    (congrArg (·.files) (Prod.mk.inj hreport).2).symm
  obtain ⟨grammar, emission, ⟨content, hread, hload⟩, hemission, _, hstores⟩ :=
    (generateFromFile_ok_iff (writeEvents_sameFiles color verbosity) rfl).mp
      ⟨congrArg Prod.fst hgenerated, congrArg (·.2.files) hgenerated⟩
  rw [← hafter] at hstores
  obtain ⟨source, hsource, hcontent⟩ := (Tree.read_eq_ok_iff hgrounded).mp hread
  obtain ⟨target, htarget, hkeeps, htext⟩ := hstores.keeps hgrounded
  exact ⟨⟨input, source, content, _, target, emission.text⟩, rfl,
    ⟨⟨named, houtput, rfl⟩, grammar, emission, hload, hemission, rfl⟩, hsource, hcontent, htarget,
    htext, hkeeps⟩

/-- Inputs whose steps succeed have been handled in order. -/
theorem formatInputs_handled {before after : Machine} {inputs : List Path}
    (hdry : request.dryRun = false) (hgrounded : before.files.Grounded)
    (hrun : Succeeds (formatInputs machineHost color verbosity request inputs) before () after) :
    ∃ jobs : List Job, jobs.map (·.input) = inputs ∧
      Handled request before.files jobs after.files := by
  induction inputs generalizing before with
  | nil =>
    obtain rfl : before = after := (Prod.mk.inj hrun).2
    exact ⟨[], rfl, .nil _⟩
  | cons input rest ih =>
    obtain ⟨_, middle, hfirst, hothers⟩ := succeeds_bind_iff.mp hrun
    obtain ⟨job, rfl, hjob⟩ := formatInput_handled hdry hgrounded hfirst
    obtain ⟨jobs, rfl, hjobs⟩ := ih (hjob.keeps.grounded hgrounded) hothers
    exact ⟨job :: jobs, rfl, .cons hjob hjobs⟩

namespace Handled

variable {before after : Tree} {jobs : List Job}

/-- All files are kept that are not at the place of an output. -/
theorem keeps (hhandled : Handled request before jobs after) :
    before.Keeps after (jobs.map (·.target)) := by
  induction hhandled with
  | nil tree => exact .refl tree
  | cons hfirst _ ih => exact hfirst.keeps.trans ih

/-- Every job meets the request. -/
theorem meets (hhandled : Handled request before jobs after) :
    ∀ job ∈ jobs, job.Meets request := by
  induction hhandled with
  | nil tree => simp
  | cons hfirst _ ih => exact List.forall_mem_cons.mpr ⟨hfirst.meets, ih⟩

/-- At the end the paths of inputs and outputs name the places at which these were. -/
theorem places (hhandled : Handled request before jobs after) (hgrounded : before.Grounded) :
    ∀ job ∈ jobs, after.filePlace job.input = .ok job.source ∧
      after.filePlace job.output = .ok job.target := by
  induction hhandled with
  | nil tree => simp
  | cons hfirst hothers ih =>
    have hmiddle := hfirst.keeps.grounded hgrounded
    refine List.forall_mem_cons.mpr ⟨⟨?_, ?_⟩, ih hmiddle⟩
    · exact hothers.keeps.filePlace hmiddle (hfirst.keeps.filePlace hgrounded hfirst.source)
    · exact hothers.keeps.filePlace hmiddle hfirst.target

/-- At the place of an output are the templates of an input whose output is there: those that
were written last. -/
theorem targets (hhandled : Handled request before jobs after) :
    ∀ job ∈ jobs, ∃ last ∈ jobs, last.target = job.target ∧
      after.at? job.target = some (.file (utf8 last.text)) := by
  induction hhandled with
  | nil tree => simp
  | @cons before middle after job rest hfirst hothers ih =>
    refine List.forall_mem_cons.mpr ⟨?_, fun each heach => ?_⟩
    · -- a later output at the same place replaces this one, any other one keeps it
      by_cases hagain : job.target ∈ rest.map (·.target)
      · obtain ⟨other, hother, hsame⟩ := List.mem_map.mp hagain
        obtain ⟨last, hlast, htarget, htext⟩ := ih other hother
        exact ⟨last, List.mem_cons_of_mem _ hlast, htarget.trans hsame, hsame ▸ htext⟩
      · exact ⟨job, List.mem_cons_self, rfl,
          (hothers.keeps.files _ hagain _).mpr hfirst.text⟩
    · obtain ⟨last, hlast, hrest⟩ := ih each heach
      exact ⟨last, List.mem_cons_of_mem _ hlast, hrest⟩

/-- Every input was there from the start: none is an output of the same run, because templates
are never loaded as a grammar. -/
theorem sources (hhandled : Handled request before jobs after) :
    ∀ job ∈ jobs, before.at? job.source = some (.file job.content) := by
  induction hhandled with
  | nil tree => simp
  | @cons before middle after job rest hfirst hothers ih =>
    refine List.forall_mem_cons.mpr ⟨hfirst.content, fun each heach => ?_⟩
    have hcontent := ih each heach
    by_cases hwritten : each.source = job.target
    · -- the step has put templates there, which the input cannot hold
      have hsame := hcontent.symm.trans (hwritten ▸ hfirst.text)
      exact absurd (Entry.file.inj (Option.some.inj hsame))
        ((hothers.meets each heach).content_ne hfirst.meets)
    · have hkept : each.source ∉ [job.target] := by simpa using hwritten
      exact (hfirst.keeps.files _ hkept _).mp hcontent

end Handled

end PegTemplates.CommandLine
