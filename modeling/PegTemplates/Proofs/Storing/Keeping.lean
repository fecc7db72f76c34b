import PegTemplates.Files.Host
import PegTemplates.Proofs.Storing.Places

/-!
# What changes of files keep

Making directories and writing a file are shown to keep every directory, and every file at
another place. So a path that names a place goes on naming it, and a file that is written can
be read under its path until it is written again.
-/

namespace PegTemplates.Files

namespace Tree

/-- Whether a tree has come from another one by changes to files at some places, with
directories added. -/
structure Keeps (before after : Tree) (changed : List Place) : Prop where
  /-- The working directory stays. -/
  workingDirectory : after.workingDirectory = before.workingDirectory
  /-- Every directory is still there. -/
  directories : ∀ place, before.at? place = some .directory → after.at? place = some .directory
  /-- At all other places the files are those that were there. -/
  files : ∀ place, place ∉ changed → ∀ content,
    after.at? place = some (.file content) ↔ before.at? place = some (.file content)

variable {tree before middle after : Tree} {changed more : List Place} {place : Place}
  {path : Path} {content : Content}

/-- A tree keeps itself. -/
theorem Keeps.refl (tree : Tree) : tree.Keeps tree [] :=
  ⟨rfl, fun _ hthere => hthere, fun _ _ _ => Iff.rfl⟩

/-- Changes one after the other keep what each of them keeps. -/
theorem Keeps.trans (hfirst : before.Keeps middle changed) (hnext : middle.Keeps after more) :
    before.Keeps after (changed ++ more) where
  workingDirectory := hnext.workingDirectory.trans hfirst.workingDirectory
  directories place hthere := hnext.directories place (hfirst.directories place hthere)
  files place hother content := by
    rw [List.mem_append, not_or] at hother
    rw [hnext.files place hother.2, hfirst.files place hother.1]

/-- The working directory is still there. -/
theorem Keeps.grounded (hkeeps : before.Keeps after changed) (hgrounded : before.Grounded) :
    after.Grounded := by
  rw [Grounded, hkeeps.workingDirectory]
  exact hkeeps.directories _ hgrounded

/-- A name still leads to the directory to which it led. -/
theorem Keeps.step (hkeeps : before.Keeps after changed) {name : String} {next : Place}
    (hstep : before.step place name = .ok next) : after.step place name = .ok next := by
  unfold Tree.step at hstep ⊢
  split at hstep
  · rename_i htrivial
    rwa [if_pos htrivial]
  · rename_i htrivial
    rw [if_neg htrivial]
    split at hstep
    · rename_i hparent
      rwa [if_pos hparent]
    · rename_i hparent
      rw [if_neg hparent]
      split at hstep
      · cases hstep
      · rename_i hshort
        rw [if_neg hshort]
        split at hstep
        · rename_i hdirectory
          rw [hkeeps.directories _ hdirectory]
          exact hstep
        · cases hstep
        · cases hstep

/-- Names still lead to the directory to which they led. -/
theorem Keeps.walk (hkeeps : before.Keeps after changed) {names : List String} {last : Place}
    (hwalk : before.walk place names = .ok last) : after.walk place names = .ok last := by
  induction names generalizing place with
  | nil => exact hwalk
  | cons name rest ih =>
    obtain ⟨next, hstep, hrest⟩ := bind_eq_ok_iff.mp hwalk
    exact bind_eq_ok_iff.mpr ⟨next, hkeeps.step hstep, ih hrest⟩

/-- A path still names the place that it named. -/
theorem Keeps.filePlace (hkeeps : before.Keeps after changed) (hgrounded : before.Grounded)
    (hplace : before.filePlace path = .ok place) : after.filePlace path = .ok place := by
  obtain ⟨hchecked, above, name, hwalk, hname, hown, hshort, rfl⟩ :=
    (filePlace_eq_ok_iff hgrounded).mp hplace
  have horigin : after.origin path = before.origin path := by
    rw [origin, origin, hkeeps.workingDirectory]
  refine (filePlace_eq_ok_iff (hkeeps.grounded hgrounded)).mpr
    ⟨hchecked, above, name, ?_, hname, hown, hshort, rfl⟩
  rw [horigin]
  exact hkeeps.walk hwalk

/-- Putting a file where no directory is keeps what is at all other places. -/
theorem keeps_put_file (hfree : tree.at? place ≠ some .directory) (content : Content) :
    tree.Keeps (tree.put place (.file content)) [place] where
  workingDirectory := rfl
  directories other hthere := by
    have hother : other ≠ place := fun hsame => hfree (hsame ▸ hthere)
    rwa [at?_put_of_ne hother hfree]
  files other hother held := by
    rw [at?_put_of_ne (List.ne_of_not_mem_cons hother) hfree]

/-- Putting a directory where nothing is keeps all files. -/
theorem keeps_put_directory {above : Place} {name : String}
    (habove : tree.at? above = some .directory) (hfree : tree.at? (above ++ [name]) = none) :
    tree.Keeps (tree.put (above ++ [name]) .directory) [] := by
  have hnone : tree.at? (above ++ [name]) ≠ some .directory := by simp [hfree]
  refine ⟨rfl, fun other hthere => ?_, fun other _ content => ?_⟩
  · have hother : other ≠ above ++ [name] := fun hsame => hnone (hsame ▸ hthere)
    rwa [at?_put_of_ne hother hnone]
  · by_cases hsame : other = above ++ [name]
    · rw [hsame, at?_put habove, hfree]
      simp
    · rw [at?_put_of_ne hsame hnone]

/-- A file that has been written is at the place that its path names, and all else is kept. -/
theorem write_keeps (hgrounded : tree.Grounded) (hwrite : tree.write path content = .ok after) :
    ∃ place, tree.filePlace path = .ok place ∧ tree.Keeps after [place] ∧
      after.at? place = some (.file content) := by
  obtain ⟨place, hplace, hfree, rfl⟩ := write_eq_ok_iff.mp hwrite
  obtain ⟨above, name, rfl, habove⟩ := directory_above_newPlace hgrounded hplace
  exact ⟨_, hplace, keeps_put_file hfree content, at?_put habove _⟩

/-- Making a directory keeps all files. -/
theorem makeDirectory_keeps (hgrounded : tree.Grounded)
    (hmake : tree.makeDirectory path = .ok after) : tree.Keeps after [] := by
  obtain ⟨place, hplace, hput⟩ := bind_eq_ok_iff.mp hmake
  obtain ⟨above, name, rfl, habove⟩ := directory_above_newPlace hgrounded hplace
  cases hat : tree.at? (above ++ [name]) with
  | some entry => rw [hat] at hput; cases hput
  | none =>
    rw [hat] at hput
    obtain rfl := Except.ok.inj hput
    exact keeps_put_directory habove hat

end Tree

/-- Steps in a row: the second one starts from where the first one ends. -/
theorem run_bind {α β : Type} (step : StateM Machine α) (next : α → StateM Machine β)
    (machine : Machine) :
    (step >>= next).run machine = (next (step.run machine).1).run (step.run machine).2 := rfl

/-- Whether something holds of doing nothing, of a question about the files, and of two steps in
a row if it holds of both. -/
structure Composed (holds : ∀ {α : Type}, StateM Machine α → Prop) : Prop where
  /-- It holds of doing nothing. -/
  pure : ∀ {α : Type} (value : α), holds (pure value)
  /-- It holds of a question about the files. -/
  ask : ∀ {α : Type} (question : Tree → α), holds (askFiles question)
  /-- It holds of two steps in a row. -/
  bind : ∀ {α β : Type} {step : StateM Machine α} {next : α → StateM Machine β}, holds step →
    (∀ value, holds (next value)) → holds (step >>= next)

section Composed

variable {holds : ∀ {α : Type}, StateM Machine α → Prop}

/-- It holds of the question whether a directory is somewhere. -/
theorem Composed.isDirectory (hcomposed : Composed holds) (path : Path) :
    holds (machineHost.isDirectory path) :=
  hcomposed.ask fun files => ((machineHost.isDirectory path).run (.withFiles files)).1

/-- It holds of two steps in a row of which the first one may end the run. -/
theorem Composed.bindExcept (hcomposed : Composed holds) {ε α β : Type}
    {step : ExceptT ε (StateM Machine) α} {next : α → ExceptT ε (StateM Machine) β}
    (hstep : holds step.run) (hnext : ∀ value, holds (next value).run) :
    holds (step >>= next).run := by
  rw [ExceptT.run_bind]
  refine hcomposed.bind hstep fun result => ?_
  cases result with
  | ok value => exact hnext value
  | error reason => exact hcomposed.pure _

/-- What holds of making one directory holds of making several. -/
theorem makeEach_holds (hcomposed : Composed holds)
    (hmake : ∀ path, holds (machineHost.makeDirectory path)) (paths : List Path) :
    holds (makeEach machineHost paths) := by
  induction paths with
  | nil => exact hcomposed.pure _
  | cons path rest ih =>
    refine hcomposed.bind (hmake path) fun result => ?_
    cases result with
    | ok _ => exact ih
    | error failure =>
      refine hcomposed.bind (hcomposed.isDirectory path) fun found => ?_
      split
      · exact ih
      · exact hcomposed.pure _

/-- What holds of making one directory holds of making directories upward. -/
theorem makeUpward_holds (hcomposed : Composed holds)
    (hmake : ∀ path, holds (machineHost.makeDirectory path)) (below above : List Path) :
    holds (makeUpward machineHost below above) := by
  have heach := makeEach_holds hcomposed hmake
  induction above generalizing below with
  | nil => exact heach below
  | cons path rest ih =>
    unfold makeUpward
    split
    · exact heach below
    · refine hcomposed.bind (hmake path) fun result => ?_
      split
      · exact heach below
      · exact ih (path :: below)
      · refine hcomposed.bind (hcomposed.isDirectory path) fun found => ?_
        split
        · exact heach below
        · exact hcomposed.pure _

/-- What holds of making one directory holds of making a directory with those above it. -/
theorem makeDirectories_holds (hcomposed : Composed holds)
    (hmake : ∀ path, holds (machineHost.makeDirectory path)) (path : Path) :
    holds (makeDirectories machineHost path) :=
  makeUpward_holds hcomposed hmake [] _

end Composed

section Ensures

variable {holds : Machine → Machine → Prop}

/-- Whether a step always leads to a machine that is related to the one before it. -/
def Ensures (holds : Machine → Machine → Prop) {α : Type} (step : StateM Machine α) : Prop :=
  ∀ machine, holds machine (step.run machine).2

/-- Steps that lead to related machines can be composed if machines are related to themselves,
and to those to which two steps lead. -/
theorem Ensures.composed (hrefl : ∀ machine, holds machine machine)
    (htrans : ∀ {first next last}, holds first next → holds next last → holds first last) :
    Composed (Ensures holds) where
  pure _ := hrefl
  ask _ := hrefl
  bind hstep hnext machine := htrans (hstep machine) (hnext _ _)

end Ensures

/-- Whether nothing has changed on a machine. -/
def Same (before after : Machine) : Prop := after = before

/-- Whether no file and no directory has changed. -/
def SameFiles (before after : Machine) : Prop := after.files = before.files

/-- Whether no file has changed and every directory is still there. -/
def AddsDirectories (before after : Machine) : Prop :=
  before.files.Grounded → before.files.Keeps after.files []

/-- Steps that change nothing can be composed. -/
theorem Same.composed : Composed (Ensures Same) :=
  Ensures.composed (fun _ => rfl) fun hfirst hnext => Eq.trans hnext hfirst

/-- Steps that leave the files as they are can be composed. -/
theorem SameFiles.composed : Composed (Ensures SameFiles) :=
  Ensures.composed (fun _ => rfl) fun hfirst hnext => Eq.trans hnext hfirst

/-- Steps that change no file can be composed. -/
theorem AddsDirectories.composed : Composed (Ensures AddsDirectories) :=
  Ensures.composed (fun machine _ => .refl machine.files) fun hfirst hnext hgrounded =>
    (hfirst hgrounded).trans (hnext ((hfirst hgrounded).grounded hgrounded))

/-- Whether a step reads and changes nothing but files. -/
def OfFiles {α : Type} (step : StateM Machine α) : Prop :=
  ∀ machine other : Machine, machine.files = other.files →
    (step.run machine).1 = (step.run other).1 ∧
      (step.run machine).2.files = (step.run other).2.files

/-- Steps that read and change nothing but files can be composed. -/
theorem OfFiles.composed : Composed OfFiles where
  pure _ _ _ hsame := ⟨rfl, hsame⟩
  ask question _ _ hsame := ⟨congrArg question hsame, hsame⟩
  bind {_ _ step next} hstep hnext machine other hsame := by
    obtain ⟨hvalue, hfiles⟩ := hstep machine other hsame
    rw [run_bind, run_bind, ← hvalue]
    exact hnext _ _ _ hfiles

/-- A change of the files gives the changed files, or leaves them as they are. -/
theorem run_changeFiles (step : Tree → Except Failure Tree) (machine : Machine) :
    (changeFiles step).run machine =
      match step machine.files with
      | .ok files => (.ok (), { machine with files := files })
      | .error failure => (.error failure, machine) := rfl

/-- Making directories changes no file. -/
theorem makeDirectories_addsDirectories (path : Path) :
    Ensures AddsDirectories (makeDirectories machineHost path) := by
  refine makeDirectories_holds AddsDirectories.composed (fun path machine hgrounded => ?_) path
  change machine.files.Keeps ((changeFiles _).run machine).2.files []
  rw [run_changeFiles]
  cases hmake : machine.files.makeDirectory path with
  | error failure => exact .refl _
  | ok files => exact Tree.makeDirectory_keeps hgrounded hmake

/-- What comes of making directories depends on the files alone. -/
theorem makeDirectories_ofFiles (path : Path) : OfFiles (makeDirectories machineHost path) := by
  refine makeDirectories_holds OfFiles.composed (fun path machine other hsame => ?_) path
  change ((changeFiles _).run machine).1 = ((changeFiles _).run other).1 ∧
    ((changeFiles _).run machine).2.files = ((changeFiles _).run other).2.files
  rw [run_changeFiles, run_changeFiles, hsame]
  cases other.files.makeDirectory path with
  | error failure => exact ⟨rfl, hsame⟩
  | ok files => exact ⟨rfl, rfl⟩

end PegTemplates.Files
