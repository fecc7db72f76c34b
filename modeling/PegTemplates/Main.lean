import PegTemplates.CommandLine.Run

/-!
# The program

The host that is the machine itself, and the entry point.
-/

namespace PegTemplates

open Files CommandLine

/-- Number of a system error, which may be given with the opposite sign. -/
def errorNumber (code : UInt32) : Nat := min code.toNat (-code).toNat

/-- The failure of a system error with that number and wording. -/
def failureOfCode (code : UInt32) (wording : String) : Failure :=
  match errorNumber code with
  | 2 => .notFound
  | 13 => .notPermitted
  | 17 => .alreadyThere
  | 20 => .notDirectory
  | 21 => .isDirectory
  | 36 => .nameTooLong
  | number => .other number wording

/-- The failure that an error of the machine stands for. -/
def failureOfError : IO.Error → Failure
  | .alreadyExists _ code wording => failureOfCode code wording
  | .otherError code wording => failureOfCode code wording
  | .resourceBusy code wording => failureOfCode code wording
  | .resourceVanished code wording => failureOfCode code wording
  | .unsupportedOperation code wording => failureOfCode code wording
  | .hardwareFault code wording => failureOfCode code wording
  | .unsatisfiedConstraints code wording => failureOfCode code wording
  | .illegalOperation code wording => failureOfCode code wording
  | .protocolError code wording => failureOfCode code wording
  | .timeExpired code wording => failureOfCode code wording
  | .interrupted _ code wording => failureOfCode code wording
  | .noFileOrDirectory _ code wording => failureOfCode code wording
  | .invalidArgument _ code wording => failureOfCode code wording
  | .permissionDenied _ code wording => failureOfCode code wording
  | .resourceExhausted _ code wording => failureOfCode code wording
  | .inappropriateType _ code wording => failureOfCode code wording
  | .noSuchThing _ code wording => failureOfCode code wording
  | .unexpectedEof => .other 0 "unexpected end of file"
  | .userError wording => .other 0 wording

/-- An action with its failure as a value. -/
def caught {α : Type} (action : IO α) : IO (Except Failure α) := do
  try return .ok (← action)
  catch error => return .error (failureOfError error)

/-- The machine as a host. -/
def realHost : Host IO where
  read path := caught do return (← IO.FS.readBinFile path).data.toList
  write path content := caught (IO.FS.writeBinFile path ⟨content.toArray⟩)
  makeDirectory path := caught (IO.FS.createDir path)
  list path := caught do
    let directory : IO.FS.DirEntry := ⟨path, ""⟩
    (← directory.root.readDir).toList.mapM fun entry => do
      return ⟨entry.fileName, ← entry.path.isDir⟩
  isThere path := (⟨path, ""⟩ : IO.FS.DirEntry).root.pathExists
  isDirectory path := (⟨path, ""⟩ : IO.FS.DirEntry).root.isDir
  print text := IO.print text
  report text := IO.eprint text

/-- Whether a setting is there and is not zero, if it is there at all. -/
def settingOf (name : String) : IO (Option Bool) := do
  return (← IO.getEnv name).map (· ≠ "0")

/-- Whether labels are coloured: forced settings first, else on a terminal. -/
def wantsColor : IO Bool := do
  if (← settingOf "CLICOLOR_FORCE") = some true then return true
  if (← settingOf "NO_COLOR").isSome then return false
  let allowed := (← settingOf "CLICOLOR").getD true
  return allowed && (← (← IO.getStdout).isTty)

end PegTemplates

/-- Runs the program. -/
def main (arguments : List String) : IO UInt32 := do
  let color ← PegTemplates.wantsColor
  let status ← PegTemplates.CommandLine.run PegTemplates.realHost color arguments
  return status.code.toUInt32
