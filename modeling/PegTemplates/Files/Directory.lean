/-!
# Directories

A directory holds files and further directories, each under a name of its own. What
is in it stands in the order in which it was made. A place inside a directory is
given by the names on the way to it.

Putting something at a place whose directory is there makes it be there, and changes
nothing else unless a directory is replaced.
-/

namespace PegTemplates.Files

/-- Content of a file. -/
abbrev Content := List UInt8

/-- What can be at a place. -/
inductive Entry where
  /-- A file with its content. -/
  | file (content : Content)
  /-- A directory. -/
  | directory
  deriving DecidableEq, Repr, Inhabited

/-- A place: names from a directory downward. -/
abbrev Place := List String

/-- What a directory shows of an entry. -/
structure Item where
  /-- Name of the entry. -/
  name : String
  /-- Whether the entry is a directory itself. -/
  isDirectory : Bool
  deriving DecidableEq, Repr, Inhabited

/-- What a directory holds. -/
inductive Directory where
  /-- Nothing. -/
  | empty
  /-- A file of that name, and the rest. -/
  | file (name : String) (content : Content) (rest : Directory)
  /-- A directory of that name with what it holds, and the rest. -/
  | directory (name : String) (inside rest : Directory)
  deriving DecidableEq, Repr, Inhabited

namespace Directory

/-- An entry of that name in front of others; a directory is made without content. -/
def add (name : String) : Entry → Directory → Directory
  | .file content, rest => .file name content rest
  | .directory, rest => .directory name .empty rest

/-- What is at a place. -/
def at? : Directory → Place → Option Entry
  | _, [] => some .directory
  | .empty, _ :: _ => none
  | .file own content rest, name :: below =>
    if own = name then (if below.isEmpty then some (.file content) else none)
    else rest.at? (name :: below)
  | .directory own inside rest, name :: below =>
    if own = name then inside.at? below else rest.at? (name :: below)

/-- The directory at a place. -/
def inside? : Directory → Place → Option Directory
  | whole, [] => some whole
  | .empty, _ :: _ => none
  | .file own _ rest, name :: below => if own = name then none else rest.inside? (name :: below)
  | .directory own inside rest, name :: below =>
    if own = name then inside.inside? below else rest.inside? (name :: below)

/-- Puts something at a place, instead of what is there. Nothing changes when the
place is not in a directory that is there, or is the directory itself. -/
def put (entry : Entry) : Directory → Place → Directory
  | whole, [] => whole
  | .empty, [name] => add name entry .empty
  | .empty, _ :: _ :: _ => .empty
  | .file own content rest, name :: below =>
    if own = name then (if below.isEmpty then add name entry rest else .file own content rest)
    else .file own content (rest.put entry (name :: below))
  | .directory own inside rest, name :: below =>
    if own = name then
      if below.isEmpty then add name entry rest
      else .directory own (inside.put entry below) rest
    else .directory own inside (rest.put entry (name :: below))

/-- What a directory shows of its entries. -/
def items : Directory → List Item
  | .empty => []
  | .file name _ rest => ⟨name, false⟩ :: rest.items
  | .directory name _ rest => ⟨name, true⟩ :: rest.items

/-- Everything in a directory and below, a directory before what is in it. -/
def entries : Directory → List (Place × Entry)
  | .empty => []
  | .file name content rest => ([name], .file content) :: rest.entries
  | .directory name inside rest =>
    ([name], .directory) ::
      (inside.entries.map (fun (place, entry) => (name :: place, entry)) ++ rest.entries)

/-- A directory with empty directories inside one another, of the given names. -/
def nested : Place → Directory
  | [] => .empty
  | name :: below => .directory name (nested below) .empty

/-- Two ways down one after the other are one way down. -/
theorem inside?_append (whole : Directory) (above below : Place) :
    whole.inside? (above ++ below) = (whole.inside? above).bind (·.inside? below) := by
  cases above with
  | nil => simp [inside?]
  | cons name more =>
    induction whole generalizing name more with
    | empty => simp [inside?]
    | file own content rest ih =>
      by_cases same : own = name
      · simp [inside?, same]
      · simpa [inside?, same] using ih name more
    | directory own inside rest insideIh ih =>
      by_cases same : own = name
      · cases more with
        | nil => simp [inside?, same]
        | cons next further => simpa [inside?, same] using insideIh next further
      · simpa [inside?, same] using ih name more

/-- There is a directory at a place when it can be gone into. -/
theorem at?_eq_directory_iff (whole : Directory) (place : Place) :
    whole.at? place = some .directory ↔ (whole.inside? place).isSome := by
  cases place with
  | nil => simp [at?, inside?]
  | cons name below =>
    induction whole generalizing name below with
    | empty => simp [at?, inside?]
    | file own content rest ih =>
      by_cases same : own = name
      · simp [at?, inside?, same]
      · simpa [at?, inside?, same] using ih name below
    | directory own inside rest insideIh ih =>
      by_cases same : own = name
      · cases below with
        | nil => simp [at?, inside?, same]
        | cons next further => simpa [at?, inside?, same] using insideIh next further
      · simpa [at?, inside?, same] using ih name below

/-- An entry in front of others is found under its name. -/
theorem at?_add (name : String) (entry : Entry) (rest : Directory) :
    (add name entry rest).at? [name] = some entry := by
  cases entry <;> simp [add, at?]

/-- An entry in front of others hides nothing of another name. -/
theorem at?_add_of_ne {name other : String} (different : other ≠ name) (entry : Entry)
    (rest : Directory) (below : Place) :
    (add name entry rest).at? (other :: below) = rest.at? (other :: below) := by
  cases entry <;> simp [add, at?, Ne.symm different]

/-- What was put at a place is there, if its directory is. -/
theorem at?_put {whole : Directory} {above : Place} {name : String}
    (there : whole.at? above = some .directory) (entry : Entry) :
    (whole.put entry (above ++ [name])).at? (above ++ [name]) = some entry := by
  induction whole generalizing above with
  | empty =>
    cases above with
    | nil => simp [put, at?_add]
    | cons first more => simp [at?] at there
  | file own content rest ih =>
    cases above with
    | nil =>
      by_cases same : own = name
      · simp [put, same, at?_add]
      · simpa [put, same, at?] using @ih [] (by simp [at?])
    | cons first more =>
      by_cases same : own = first
      · simp [at?, same] at there
      · simpa [put, same, at?] using @ih (first :: more)
          (by simpa [at?, same] using there)
  | directory own inside rest insideIh ih =>
    cases above with
    | nil =>
      by_cases same : own = name
      · simp [put, same, at?_add]
      · simpa [put, same, at?] using @ih [] (by simp [at?])
    | cons first more =>
      by_cases same : own = first
      · simpa [put, same, at?] using insideIh (by simpa [at?, same] using there)
      · simpa [put, same, at?] using @ih (first :: more)
          (by simpa [at?, same] using there)

/-- Putting something at a place where no directory is changes no other place. -/
theorem at?_put_of_ne {whole : Directory} {place other : Place}
    (different : other ≠ place) (free : whole.at? place ≠ some .directory) (entry : Entry) :
    (whole.put entry place).at? other = whole.at? other := by
  cases place with
  | nil => simp [put]
  | cons name below =>
    cases other with
    | nil => simp [at?]
    | cons first more =>
      induction whole generalizing name below first more with
      | empty =>
        cases below with
        | nil =>
          by_cases same : first = name
          · subst same
            cases more with
            | nil => simp at different
            | cons second further => cases entry <;> simp [put, add, at?]
          · simp [put, at?_add_of_ne same]
        | cons second further => simp [put]
      | file own content rest ih =>
        by_cases same : own = name
        · subst same
          cases below with
          | nil =>
            by_cases own_first : first = own
            · subst own_first
              cases more with
              | nil => simp at different
              | cons second further => cases entry <;> simp [put, add, at?]
            · simp [put, at?_add_of_ne own_first, at?, Ne.symm own_first]
          | cons second further => simp [put]
        · by_cases own_first : own = first
          · subst own_first
            simp [put, same, at?]
          · simpa [put, same, at?, own_first] using
              ih name below (by simpa [at?, same] using free) first more different
      | directory own inside rest insideIh ih =>
        by_cases same : own = name
        · subst same
          cases below with
          | nil => simp [at?] at free
          | cons second further =>
            by_cases own_first : own = first
            · subst own_first
              cases more with
              | nil => simp [put, at?]
              | cons third last =>
                simpa [put, at?] using insideIh second further
                  (by simpa [at?] using free) third last (by simpa using different)
            · simp [put, at?, own_first]
        · by_cases own_first : own = first
          · subst own_first
            simp [put, same, at?]
          · simpa [put, same, at?, own_first] using
              ih name below (by simpa [at?, same] using free) first more different

end Directory

end PegTemplates.Files
