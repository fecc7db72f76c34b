import PegTemplates.CommandLine.Run
import PegTemplates.Proofs.Storing.Keeping

/-!
# Expansion of inputs

The search for the paths that inputs stand for asks about files and does nothing else. So what
holds of questions, and of two steps in a row if it holds of both, holds of the whole search; in
particular the search leaves the machine as it is.
-/

namespace PegTemplates

open Files CommandLine

section Composed

variable {holds : ∀ {α : Type}, StateM Machine α → Prop} {directoriesOnly : Bool}
  {visit : List Pattern → Candidate → StateM Machine Found}

/-- What holds of each of several searches holds of all of them in order. -/
theorem Files.inOrder_holds (hcomposed : Composed holds) {α : Type}
    {search : α → StateM Machine Found} (hsearch : ∀ each, holds (search each)) (all : List α) :
    holds (inOrder search all) := by
  induction all with
  | nil => exact hcomposed.pure _
  | cons first rest ih =>
    exact hcomposed.bind (hsearch first) fun _ => hcomposed.bind ih fun _ => hcomposed.pure _

/-- What holds of looking at an entry holds of a search from a candidate. -/
theorem Files.searchFrom_holds (hcomposed : Composed holds)
    (hvisit : ∀ patterns candidate, holds (visit patterns candidate)) (patterns : List Pattern)
    (candidate : Candidate) :
    holds (searchFrom machineHost directoriesOnly visit patterns candidate) := by
  have hthere : ∀ path, holds (machineHost.isThere path) := fun path =>
    hcomposed.ask fun files => succeeded (files.lookup path)
  have hlist : ∀ path, holds (machineHost.list path) := fun path =>
    hcomposed.ask fun files => files.list path
  induction patterns generalizing candidate with
  | nil => exact hcomposed.pure _
  | cons pattern rest ih =>
    have harrive : ∀ path, holds (do
        searchFrom machineHost directoriesOnly visit rest (← Candidate.lookUp machineHost path)) :=
      fun path => hcomposed.bind
        (hcomposed.bind (hcomposed.isDirectory path) fun _ => hcomposed.pure _) fun _ => ih _
    have hnext : ∀ (found : Bool) path, holds (do
        if found then
          searchFrom machineHost directoriesOnly visit rest (← Candidate.lookUp machineHost path)
        else return .ok []) := by
      intro found path
      split
      · exact harrive path
      · exact hcomposed.pure _
    unfold searchFrom
    dsimp only
    split
    · split
      · exact hcomposed.bind (hcomposed.pure _) fun _ => hnext _ _
      · exact hcomposed.bind (hthere _) fun _ => hnext _ _
    · split
      · refine hcomposed.bind (hlist _) fun items => ?_
        cases items with
        | error failure => exact hcomposed.pure _
        | ok items =>
          exact hcomposed.bind (inOrder_holds hcomposed (fun _ => harrive _) _) fun _ =>
            hcomposed.bind (inOrder_holds hcomposed (fun _ => hvisit _ _) _) fun _ =>
              hcomposed.pure _
      · exact hcomposed.pure _

/-- What holds of questions holds of looking at an entry. -/
theorem Files.visitEntry_holds (hcomposed : Composed holds) (depth : Nat)
    (patterns : List Pattern) (candidate : Candidate) :
    holds (visitEntry machineHost directoriesOnly depth patterns candidate) := by
  induction depth generalizing patterns candidate with
  | zero => exact hcomposed.pure _
  | succ depth ih =>
    have hsearch : ∀ patterns candidate, holds (searchFrom machineHost directoriesOnly
        (visitEntry machineHost directoriesOnly depth) patterns candidate) :=
      searchFrom_holds hcomposed ih
    have hmatched : ∀ (found : Bool) rest, holds (if found then
        searchFrom machineHost directoriesOnly (visitEntry machineHost directoriesOnly depth)
          rest candidate
        else return .ok []) := by
      intro found rest
      split
      · exact hsearch rest candidate
      · exact hcomposed.pure _
    unfold visitEntry
    -- what is found behind a name depends on whether there is one, not on which
    generalize candidate.path.fileName? = named
    cases patterns with
    | nil => exact hcomposed.pure _
    | cons pattern rest =>
      dsimp only
      split
      · cases rest.dropWhile Pattern.isRecursive with
        | nil =>
          split
          · exact hcomposed.bind (hsearch _ _) fun _ => hcomposed.pure _
          · exact hcomposed.pure _
        | cons next further =>
          cases named with
          | none =>
            split
            · exact hcomposed.bind (hsearch _ _) fun _ =>
                hcomposed.bind (hcomposed.pure _) fun _ => hcomposed.pure _
            · exact hcomposed.pure _
          | some name =>
            split
            · exact hcomposed.bind (hsearch _ _) fun _ =>
                hcomposed.bind (hmatched _ further) fun _ => hcomposed.pure _
            · exact hmatched _ further
      · cases named with
        | none => exact hcomposed.pure _
        | some name => exact hmatched _ rest

/-- What holds of questions holds of the search for the paths of a pattern. -/
theorem Files.glob_holds (hcomposed : Composed holds) (text : String) :
    holds (glob machineHost text) := by
  unfold glob
  dsimp only
  split
  · exact hcomposed.pure _
  · exact hcomposed.pure _
  · have hstart : ∀ path, holds (Candidate.lookUp machineHost path) := fun path =>
      hcomposed.bind (hcomposed.isDirectory path) fun _ => hcomposed.pure _
    exact hcomposed.bind (hstart _) fun _ =>
      searchFrom_holds hcomposed (visitEntry_holds hcomposed _) _ _

/-- What holds of a step holds of it as a step of a run. -/
theorem CommandLine.attempt_holds (hcomposed : Composed holds) {ε α : Type}
    {describe : ε → RunError} {step : StateM Machine (Except ε α)} (hstep : holds step) :
    holds (attempt describe step).run :=
  hcomposed.bind hstep fun _ => hcomposed.pure _

/-- What holds of questions holds of the expansion of an input. -/
theorem CommandLine.expandInput_holds (hcomposed : Composed holds) (text : String) :
    holds (expandInput machineHost text).run := by
  unfold expandInput
  split
  · refine hcomposed.bindExcept (attempt_holds hcomposed (glob_holds hcomposed text))
      fun paths => ?_
    cases paths <;> exact hcomposed.pure _
  · exact hcomposed.pure _

/-- What holds of questions holds of the expansion of inputs. -/
theorem CommandLine.expandInputs_holds (hcomposed : Composed holds) (texts : List String) :
    holds (expandInputs machineHost texts).run := by
  induction texts with
  | nil => exact hcomposed.pure _
  | cons text rest ih =>
    exact hcomposed.bindExcept (expandInput_holds hcomposed text) fun _ =>
      hcomposed.bindExcept ih fun _ => hcomposed.pure _

end Composed

/-- Entries that a directory shows in the order of their names are looked at in that order. -/
theorem Files.run_searchFrom_sorted {directoriesOnly : Bool}
    {visit : List Pattern → Candidate → StateM Machine Found} {pattern : Pattern}
    {rest : List Pattern} {candidate : Candidate} {machine : Machine} {items : List Item}
    (hwild : pattern.isLiteral = false) (hpoint : pattern.startsWithPoint = false)
    (hdirectory : candidate.isDirectory = true)
    (hlist : machine.files.list candidate.path = .ok items)
    (hsorted : items.Pairwise fun first second => ¬ second.name < first.name) :
    (searchFrom machineHost directoriesOnly visit (pattern :: rest) candidate).run machine =
      (do
        let others ← inOrder
          (fun item => visit (pattern :: rest) (.ofItem candidate.path item)) items
        return Found.andThen (.ok []) others).run machine := by
  have horder : items.mergeSort (fun first second => !decide (second.name < first.name)) = items :=
    List.mergeSort_of_pairwise (hsorted.imp fun hle => by simpa using hle)
  have hitems : (machineHost.list candidate.path).run machine = (.ok items, machine) :=
    congrArg (·, machine) hlist
  rw [searchFrom]
  dsimp only
  rw [if_neg (by simp [hwild]), if_pos hdirectory, run_bind, hitems]
  dsimp only
  rw [horder, hpoint]
  rfl

/-- A pattern of one name stands for what it finds among the entries of the working directory. -/
theorem Files.run_glob_sorted {text : String} {pattern : Pattern} {machine : Machine}
    {items : List Item} (hrelative : Path.isAbsolute text = false)
    (hname : patternNames text = [text]) (hpattern : Pattern.ofText text = .ok pattern)
    (hwild : pattern.isLiteral = false) (hpoint : pattern.startsWithPoint = false)
    (hhere : machine.files.lookup here = .ok .directory)
    (hlist : machine.files.list here = .ok items)
    (hsorted : items.Pairwise fun first second => ¬ second.name < first.name) :
    (glob machineHost text).run machine =
      (do
        let others ← inOrder (fun item => visitEntry machineHost (text.toList.getLast? = some '/')
          Tree.pathLimit [pattern] (.ofItem here item)) items
        return Found.andThen (.ok []) others).run machine := by
  have hasked : (machineHost.isDirectory here).run machine = (true, machine) := by
    simp only [machineHost, askFiles, StateT.run_bind, StateT.run_get, StateT.run_pure, pure_bind,
      hhere]
    rfl
  have hdirectory : (Candidate.lookUp machineHost here).run machine = (⟨here, true⟩, machine) := by
    rw [Candidate.lookUp, run_bind, hasked]
    rfl
  have hparsed : (do
      let _ ← Pattern.ofText text
      (patternNames text).mapM Pattern.ofText) = .ok [pattern] := by
    rw [hname, hpattern]
    change ([text].mapM Pattern.ofText) = _
    rw [List.mapM_cons, hpattern]
    rfl
  unfold glob
  rw [hrelative]
  dsimp only
  simp only [Bool.false_eq_true, false_and, if_false]
  rw [hparsed, run_bind, hdirectory]
  exact run_searchFrom_sorted hwild hpoint rfl hlist hsorted

end PegTemplates
