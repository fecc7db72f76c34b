import Mathlib.Control.Monad.Basic
import PegTemplates.Proofs.Reading.Writing
import PegTemplates.Proofs.Storing.Inputs

/-!
# Files of a run

A run that writes templates and succeeds has kept what it should exactly if no output is at the
place of an input and no two outputs with different templates are at one place. It does not look
for that: one name is taken for all inputs that one pattern stands for, and inputs of the same
name in different directories have one output.
-/

namespace PegTemplates.CommandLine

open Files

variable {request : FormatRequest} {color : Bool} {verbosity : Nat}

/-- Whether the templates of an input are in its output, and the input is as it was. -/
structure Job.Kept (job : Job) (files : Tree) : Prop where
  /-- The output holds the templates. -/
  output : files.read job.output = .ok (utf8 job.text)
  /-- The input holds its content. -/
  input : files.read job.input = .ok job.content

/-- Whether outputs of different inputs are at different places, and none is at the place of an
input. -/
structure Apart (jobs : List Job) : Prop where
  /-- Outputs at one place are those of one input. -/
  outputs : ∀ first ∈ jobs, ∀ next ∈ jobs, first.target = next.target → first.source = next.source
  /-- No output is at the place of an input. -/
  inputs : ∀ first ∈ jobs, ∀ next ∈ jobs, first.target ≠ next.source

namespace Handled

variable {before after : Tree} {jobs : List Job}

/-- What is kept for an input is seen at its places. -/
theorem kept_iff_at? (hhandled : Handled request before jobs after) (hgrounded : before.Grounded)
    {job : Job} (hjob : job ∈ jobs) :
    job.Kept after ↔ after.at? job.target = some (.file (utf8 job.text)) ∧
      after.at? job.source = some (.file job.content) := by
  have hafter := hhandled.keeps.grounded hgrounded
  obtain ⟨hsource, htarget⟩ := hhandled.places hgrounded job hjob
  rw [← Tree.read_iff_at? hafter hsource, ← Tree.read_iff_at? hafter htarget]
  exact ⟨fun hkept => ⟨hkept.output, hkept.input⟩, fun ⟨houtput, hinput⟩ => ⟨houtput, hinput⟩⟩

/-- Templates and inputs are kept exactly if outputs at one place have the same templates and
none is at the place of an input. -/
theorem kept_iff (hhandled : Handled request before jobs after) (hgrounded : before.Grounded) :
    (∀ job ∈ jobs, job.Kept after) ↔
      (∀ first ∈ jobs, ∀ next ∈ jobs, first.target = next.target → first.text = next.text) ∧
      ∀ first ∈ jobs, ∀ next ∈ jobs, first.target ≠ next.source := by
  constructor
  · intro hall
    have hat := fun job hjob => (hhandled.kept_iff_at? hgrounded hjob).mp (hall job hjob)
    refine ⟨fun first hfirst next hnext hsame => ?_, fun first hfirst next hnext hsame => ?_⟩
    · have hthere := (hat first hfirst).1
      rw [hsame, (hat next hnext).1] at hthere
      exact (utf8_injective (Entry.file.inj (Option.some.inj hthere))).symm
    · have hthere := (hat first hfirst).1
      rw [hsame, (hat next hnext).2] at hthere
      exact (hhandled.meets next hnext).content_ne (hhandled.meets first hfirst)
        (Entry.file.inj (Option.some.inj hthere))
  · rintro ⟨houtputs, hinputs⟩ job hjob
    refine (hhandled.kept_iff_at? hgrounded hjob).mpr ⟨?_, ?_⟩
    · obtain ⟨last, hlast, htarget, htext⟩ := hhandled.targets job hjob
      rwa [houtputs last hlast job hjob htarget] at htext
    · have hunwritten : job.source ∉ jobs.map (·.target) := by
        rintro hwritten
        obtain ⟨other, hother, hsame⟩ := List.mem_map.mp hwritten
        exact hinputs other hother job hjob hsame
      exact (hhandled.keeps.files _ hunwritten _).mpr (hhandled.sources job hjob)

/-- Templates and inputs are kept if outputs are apart. -/
theorem kept_of_apart (hhandled : Handled request before jobs after) (hgrounded : before.Grounded)
    (hapart : Apart jobs) : ∀ job ∈ jobs, job.Kept after := by
  refine (hhandled.kept_iff hgrounded).mpr ⟨fun first hfirst next hnext hsame => ?_, hapart.inputs⟩
  have hcontent := hhandled.sources first hfirst
  rw [hapart.outputs first hfirst next hnext hsame, hhandled.sources next hnext] at hcontent
  exact (hhandled.meets first hfirst).text_eq (hhandled.meets next hnext)
    (Entry.file.inj (Option.some.inj hcontent)).symm

end Handled

/-- A request for templates that succeeds has handled the inputs that are found. -/
theorem runFormat_handled {before after : Machine} (hdry : request.dryRun = false)
    (hgrounded : before.files.Grounded)
    (hrun : Succeeds (runFormat machineHost color verbosity request) before () after) :
    ∃ jobs : List Job,
      Succeeds (expandInputs machineHost request.inputs) before (jobs.map (·.input)) before ∧
      Handled request before.files jobs after.files := by
  have hexpanded : Succeeds (do
      formatInputs machineHost color verbosity request
        (← expandInputs machineHost request.inputs)) before () after := by
    unfold runFormat at hrun
    split at hrun
    · cases hrun
    · exact hrun
  obtain ⟨inputs, middle, hexpand, hinputs⟩ := succeeds_bind_iff.mp hexpanded
  have hsame : ((expandInputs machineHost request.inputs).run.run before).2 = before :=
    expandInputs_holds Same.composed request.inputs before
  obtain rfl : before = middle := hsame.symm.trans (congrArg Prod.snd hexpand)
  obtain ⟨jobs, rfl, hjobs⟩ := formatInputs_handled hdry hgrounded hinputs
  exact ⟨jobs, hexpand, hjobs⟩

/-- What has succeeded without a value is a success. -/
theorem eq_ok_of_succeeded {ε : Type} {result : Except ε Unit} (hdone : succeeded result = true) :
    result = .ok () := by
  cases result with
  | ok _ => rfl
  | error reason => cases hdone

/-- A run for templates ends well exactly if the request succeeds. -/
theorem run_success_iff {arguments : List String} {invocation : Invocation}
    {before after : Machine} (hread : Invocation.read arguments = .ok invocation)
    (hformat : invocation.request = .format request) :
    (run machineHost color arguments).run before = (.success, after) ↔
      Succeeds (runFormat machineHost color invocation.verbosity request) before () after := by
  unfold run Succeeds
  rw [hread]
  dsimp only
  rw [runRequest, hformat, run_bind]
  generalize (runFormat machineHost color invocation.verbosity request).run.run before = ended
  obtain ⟨result, middle⟩ := ended
  cases result with
  | error error =>
    refine iff_of_false (fun hended => ?_) nofun
    have hfailure : ExitStatus.failure = .success := congrArg Prod.fst hended
    cases hfailure
  | ok _ =>
    constructor
    · intro hended
      have hafter : middle = after := congrArg Prod.snd hended
      rw [hafter]
    · intro hended
      cases hended
      rfl

/-- A run for templates that succeeds has handled, one after the other, the inputs that are
found at its start. All of them were there then, and all files are kept that are not at the place
of an output. At the end the templates of each input are in its output, and every input is as it
was, exactly if outputs at one place have the same templates and none is at the place of an
input; so they are if outputs of different inputs are apart from each other and from inputs. -/
theorem run_keeps_iff {arguments : List String} {invocation : Invocation} {before after : Machine}
    (hgrounded : before.files.Grounded) (hread : Invocation.read arguments = .ok invocation)
    (hformat : invocation.request = .format request) (hdry : request.dryRun = false)
    (hrun : (run machineHost color arguments).run before = (.success, after)) :
    ∃ jobs : List Job,
      Succeeds (expandInputs machineHost request.inputs) before (jobs.map (·.input)) before ∧
      (∀ job ∈ jobs, job.Meets request ∧
        after.files.filePlace job.input = .ok job.source ∧
        after.files.filePlace job.output = .ok job.target ∧
        before.files.at? job.source = some (.file job.content)) ∧
      before.files.Keeps after.files (jobs.map (·.target)) ∧
      ((∀ job ∈ jobs, job.Kept after.files) ↔
        (∀ first ∈ jobs, ∀ next ∈ jobs, first.target = next.target → first.text = next.text) ∧
        ∀ first ∈ jobs, ∀ next ∈ jobs, first.target ≠ next.source) ∧
      (Apart jobs → ∀ job ∈ jobs, job.Kept after.files) := by
  obtain ⟨jobs, hexpand, hjobs⟩ := runFormat_handled hdry hgrounded
    ((run_success_iff hread hformat).mp hrun)
  refine ⟨jobs, hexpand, fun job hjob => ?_, hjobs.keeps, hjobs.kept_iff hgrounded,
    hjobs.kept_of_apart hgrounded⟩
  obtain ⟨hsource, htarget⟩ := hjobs.places hgrounded job hjob
  exact ⟨hjobs.meets job hjob, hsource, htarget, hjobs.sources job hjob⟩

/-- Two inputs, whose outputs are named after them. -/
theorem run_keeps_iff_two :
    let grammar : String → Grammar := fun name =>
      ⟨[⟨name, .sequence [.beginCapture, .tag name, .endCapture]⟩]⟩
    let document : String → Content := fun name => utf8 (Document.toText (grammar name))
    let before : Machine :=
      .withFiles ⟨[], .file "a.json" (document "A") (.file "b.json" (document "B") .empty)⟩
    ∃ after, ∃ jobs : List Job,
      (run machineHost false ["format", "-i", "a.json", "b.json", "--out-dir", "out"]).run before =
        (.success, after) ∧
      jobs.map (·.input) = ["a.json", "b.json"] ∧
      jobs.map (·.output) = ["out/a.txt", "out/b.txt"] ∧
      ∀ job ∈ jobs, job.Kept after.files := by
  intro grammar document before
  let arguments := ["format", "-i", "a.json", "b.json", "--out-dir", "out"]
  let request : FormatRequest := ⟨["a.json", "b.json"], "out", none, false, 4096⟩
  let written : Directory :=
    .file "a.txt" (utf8 "format #A\n()`${this.toText()}`\n\n")
      (.file "b.txt" (utf8 "format #B\n()`${this.toText()}`\n\n") .empty)
  have hread : Invocation.read arguments = .ok ⟨0, .format request⟩ := by rfl
  let stored : Tree :=
    ⟨[], .file "a.json" (document "A") (.file "b.json" (document "B")
      (.directory "out" written .empty))⟩
  have hended : Ends (run machineHost false arguments) before .success stored :=
    ⟨by decide +kernel, by decide +kernel⟩
  obtain ⟨after, hrun, hfiles⟩ := hended.exists_machine
  obtain ⟨jobs, hexpand, hjobs, _, _, hkept⟩ := run_keeps_iff (by rfl) hread rfl rfl hrun
  have hinputs : jobs.map (·.input) = ["a.json", "b.json"] :=
    (Except.ok.inj (congrArg Prod.fst hexpand)).symm
  rw [hfiles] at hjobs
  have hplaces : ∀ job ∈ jobs, ∀ input stem, job.input = input →
      outputName request input = .ok (some stem) →
      job.output = Path.join "out" (stem ++ ".txt") ∧
      stored.filePlace input = .ok job.source ∧
      stored.filePlace (Path.join "out" (stem ++ ".txt")) = .ok job.target := by
    rintro job hjob _ stem rfl hstem
    obtain ⟨⟨⟨name, hname, houtput⟩, _⟩, hsource, htarget, _⟩ := hjobs job hjob
    obtain rfl : stem = name := Option.some.inj (Except.ok.inj (hstem.symm.trans hname))
    exact ⟨houtput, hsource, houtput ▸ htarget⟩
  obtain ⟨first, rest, rfl, hfirst, hrest⟩ := List.map_eq_cons_iff.mp hinputs
  obtain ⟨next, others, rfl, hnext, hothers⟩ := List.map_eq_cons_iff.mp hrest
  obtain rfl := List.map_eq_nil_iff.mp hothers
  obtain ⟨hfirstOutput, hfirstSource, hfirstTarget⟩ :=
    hplaces first List.mem_cons_self "a.json" "a" hfirst (by rfl)
  obtain ⟨hnextOutput, hnextSource, hnextTarget⟩ :=
    hplaces next (List.mem_cons_of_mem _ List.mem_cons_self) "b.json" "b" hnext (by rfl)
  have hapart : Apart [first, next] := by
    have hsourceA : first.source = ["a.json"] := (Except.ok.inj hfirstSource).symm
    have hsourceB : next.source = ["b.json"] := (Except.ok.inj hnextSource).symm
    have htargetA : first.target = ["out", "a.txt"] := (Except.ok.inj hfirstTarget).symm
    have htargetB : next.target = ["out", "b.txt"] := (Except.ok.inj hnextTarget).symm
    constructor <;> simp [hsourceA, hsourceB, htargetA, htargetB]
  refine ⟨after, [first, next], hrun, hinputs, ?_, hkept hapart⟩
  rw [List.map_cons, List.map_singleton, hfirstOutput, hnextOutput]
  rfl

/-- One name for all inputs of one pattern: the templates of the first input are nowhere at the
end, though the run succeeds. -/
theorem run_loses_templates :
    let grammar : String → Grammar := fun name =>
      ⟨[⟨name, .sequence [.beginCapture, .tag name, .endCapture]⟩]⟩
    let document : String → Content := fun name => utf8 (Document.toText (grammar name))
    let before : Machine :=
      .withFiles ⟨[], .file "a.json" (document "A") (.file "b.json" (document "B") .empty)⟩
    ∃ after,
      (run machineHost false ["format", "-i", "*.json", "--name", "n"]).run before =
        (.success, after) ∧
      Succeeds (expandInputs machineHost ["*.json"]) before ["a.json", "b.json"] before ∧
      before.files.HoldsGrammar "a.json" (grammar "A") ∧
      ∃ emission, (grammar "A").generate defaultMaxAlternatives = .ok emission ∧
        ¬ ∃ path, after.files.read path = .ok (utf8 emission.text) := by
  intro grammar document before
  let arguments := ["format", "-i", "*.json", "--name", "n"]
  let request : FormatRequest := ⟨["*.json"], ".", some "n", false, 4096⟩
  let text : String → String := fun name => "format #" ++ name ++ "\n()`${this.toText()}`\n\n"
  let stored : Tree :=
    ⟨[], .file "a.json" (document "A") (.file "b.json" (document "B")
      (.file "n.txt" (utf8 (text "B")) .empty))⟩
  have hread : Invocation.read arguments = .ok ⟨0, .format request⟩ := by rfl
  have hlist : before.files.list here = .ok [⟨"a.json", false⟩, ⟨"b.json", false⟩] := by rfl
  -- sorting does not compute in the kernel, so the search is first taken to its sorted entries
  have hfound : ((glob machineHost "*.json").run before).1 = .ok ["a.json", "b.json"] := by
    rw [run_glob_sorted (by decide) (by decide) (by rfl) (by decide) (by decide) (by rfl) hlist
      (by decide)]
    decide +kernel
  have hglob : (glob machineHost "*.json").run before = (.ok ["a.json", "b.json"], before) :=
    Prod.ext hfound (glob_holds Same.composed "*.json" before)
  have hexpand : Succeeds (expandInputs machineHost ["*.json"]) before ["a.json", "b.json"]
      before :=
    succeeds_bind_iff.mpr ⟨_, _,
      succeeds_bind_iff.mpr ⟨_, _, succeeds_attempt_iff.mpr hglob, rfl⟩, rfl⟩
  have hdone : succeeded ((formatInputs machineHost false 0 request ["a.json", "b.json"]).run.run
      before).1 = true := by decide +kernel
  have hended : Ends (formatInputs machineHost false 0 request ["a.json", "b.json"]).run before
      (.ok ()) stored := ⟨eq_ok_of_succeeded hdone, by decide +kernel⟩
  obtain ⟨after, hinputs, hfiles⟩ := hended.exists_machine
  have hformat : Succeeds (runFormat machineHost false 0 request) before () after :=
    succeeds_bind_iff.mpr ⟨_, _, hexpand, hinputs⟩
  have hloads : Document.ofBytes (document "A") = .ok (grammar "A") :=
    Document.Spells.read ⟨[], _, [], Json.Blanks.nil,
      Document.grammarValue_spells (grammar "A") (by decide), (List.append_nil _).symm⟩
  have htemplates : ((grammar "A").generate defaultMaxAlternatives).map (·.text) =
      .ok (text "A") := by decide +kernel
  have hcontents : ∀ place content, stored.at? place = some (.file content) →
      content ∈ [document "A", document "B", utf8 (text "B")] := by
    rintro (_ | ⟨name, below⟩) content hthere
    · cases hthere
    · simp only [stored, Tree.at?, Directory.at?] at hthere
      split_ifs at hthere <;> simp_all
  refine ⟨after, (run_success_iff hread rfl).mpr hformat, hexpand,
    ⟨document "A", by rfl, hloads⟩, ?_⟩
  cases hgenerate : (grammar "A").generate defaultMaxAlternatives with
  | error reason =>
    rw [hgenerate] at htemplates
    cases htemplates
  | ok emission =>
    rw [hgenerate] at htemplates
    have htext : emission.text = text "A" := Except.ok.inj htemplates
    refine ⟨emission, rfl, ?_⟩
    rintro ⟨path, hpath⟩
    rw [hfiles, htext] at hpath
    obtain ⟨place, _, hthere⟩ := (Tree.read_eq_ok_iff (by rfl)).mp hpath
    exact absurd (hcontents place _ hthere) (by decide +kernel)

end PegTemplates.CommandLine
