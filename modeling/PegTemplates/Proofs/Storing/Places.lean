import Mathlib.Tactic.SplitIfs
import PegTemplates.Files.Tree

/-!
# Places that paths name

A path is followed place by place, each of which is a directory. It names a file at a place
right below the last directory. What can be read and written under a path is shown to be what
is at that place, in every tree whose working directory is there.
-/

namespace PegTemplates

/-- Two steps that can fail succeed exactly if both do. -/
theorem bind_eq_ok_iff {ε α β : Type} {first : Except ε α} {next : α → Except ε β} {value : β} :
    (first >>= next) = .ok value ↔ ∃ middle, first = .ok middle ∧ next middle = .ok value := by
  cases first with
  | ok middle => simp [bind, Except.bind]
  | error reason => simp [bind, Except.bind]

namespace Files

@[simp] theorem Directory.inside?_nil (whole : Directory) : whole.inside? [] = some whole := by
  simp [inside?]

@[simp] theorem Directory.at?_nil (whole : Directory) : whole.at? [] = some .directory := by
  simp [at?]

/-- What is at a place inside a directory is what the directory at that place shows. -/
theorem Directory.at?_append {whole held : Directory} {above : Place}
    (hthere : whole.inside? above = some held) (name : String) :
    whole.at? (above ++ [name]) = held.at? [name] := by
  cases above with
  | nil =>
    obtain rfl := Option.some.inj (whole.inside?_nil.symm.trans hthere)
    rfl
  | cons first more =>
    induction whole generalizing first more with
    | empty => cases hthere
    | file own content rest ih =>
      by_cases hsame : own = first
      · simp [inside?, hsame] at hthere
      · simpa [at?, hsame] using ih first more (by simpa [inside?, hsame] using hthere)
    | directory own inside rest insideIh ih =>
      by_cases hsame : own = first
      · have hinner : inside.inside? more = some held := by
          simpa [inside?, hsame] using hthere
        cases more with
        | nil =>
          obtain rfl := Option.some.inj (inside.inside?_nil.symm.trans hinner)
          simp [at?, hsame]
        | cons second further => simpa [at?, hsame] using insideIh second further hinner
      · simpa [at?, hsame] using ih first more (by simpa [inside?, hsame] using hthere)

namespace Tree

/-- Whether the working directory is there. -/
def Grounded (tree : Tree) : Prop := tree.at? tree.workingDirectory = some .directory

/-- The place where a path starts. -/
def origin (tree : Tree) (path : Path) : Place :=
  if path.isAbsolute then [] else tree.workingDirectory

/-- Follows one name from the place of a directory to that of another one. -/
def step (tree : Tree) (place : Place) (name : String) : Except Failure Place :=
  if isTrivial name then .ok place
  else if name = ".." then .ok place.dropLast
  else if nameLimit < name.utf8ByteSize then .error .nameTooLong
  else
    match tree.at? (place ++ [name]) with
    | some .directory => .ok (place ++ [name])
    | some (.file _) => .error .notDirectory
    | none => .error .notFound

/-- Follows names from the place of a directory, all of them to directories. -/
def walk (tree : Tree) (place : Place) (names : List String) : Except Failure Place :=
  names.foldlM tree.step place

/-- The place at which a path names a file. -/
def filePlace (tree : Tree) (path : Path) : Except Failure Place :=
  tree.newPlace .isDirectory false path

variable {tree : Tree} {place above : Place} {path : Path} {name : String} {content : Content}

/-- A directory at a place holds what the tree has there. -/
theorem inside?_of_directory (hthere : tree.at? place = some .directory) :
    tree.root.inside? place = some (tree.locate place).held := by
  obtain ⟨held, hheld⟩ := Option.isSome_iff_exists.mp
    ((Directory.at?_eq_directory_iff tree.root place).mp hthere)
  rw [locate, hheld]
  rfl

@[simp] theorem place_locate (tree : Tree) (place : Place) : (tree.locate place).place = place :=
  List.reverse_reverse place

/-- The directory above one that is there is there. -/
theorem directory_dropLast (hthere : tree.at? place = some .directory) :
    tree.at? place.dropLast = some .directory := by
  rcases List.eq_nil_or_concat place with rfl | ⟨above, name, rfl⟩
  · exact hthere
  · rw [List.concat_eq_append] at hthere ⊢
    rw [List.dropLast_concat]
    rw [at?, Directory.at?_eq_directory_iff] at hthere ⊢
    rw [Directory.inside?_append] at hthere
    exact Option.isSome_of_isSome_bind hthere

/-- A name is followed from a directory as it is from the place of that directory. -/
theorem enter_eq_step (hthere : tree.at? place = some .directory) (name : String) :
    tree.enter (tree.locate place) name = (tree.step place name).map tree.locate := by
  have hheld := inside?_of_directory hthere
  have hentry : tree.at? (place ++ [name]) = (tree.locate place).held.at? [name] :=
    Directory.at?_append hheld name
  unfold enter step
  rw [place_locate, hentry]
  split
  · rfl
  · split
    · rfl
    · split
      · rfl
      · cases hinside : (tree.locate place).held.inside? [name] with
        | some held =>
          have hdirectory := (Directory.at?_eq_directory_iff _ [name]).mpr
            (Option.isSome_of_mem hinside)
          have hbelow : tree.root.inside? (place ++ [name]) = some held := by
            rw [Directory.inside?_append, hheld, Option.bind_some, hinside]
          have hlocate : tree.locate (place ++ [name]) = ⟨name :: place.reverse, held⟩ := by
            rw [locate, hbelow, List.reverse_append]
            rfl
          simp only [hdirectory, Except.map, hlocate]
          rfl
        | none =>
          have hother : (tree.locate place).held.at? [name] ≠ some .directory := by
            intro hdirectory
            have hsome := (Directory.at?_eq_directory_iff _ [name]).mp hdirectory
            rw [hinside] at hsome
            cases hsome
          cases hat : (tree.locate place).held.at? [name] with
          | none => rfl
          | some entry =>
            cases entry with
            | directory => exact absurd hat hother
            | file content => rfl

/-- A step leads to a directory. -/
theorem directory_of_step {next : Place} (hthere : tree.at? place = some .directory)
    (hstep : tree.step place name = .ok next) : tree.at? next = some .directory := by
  unfold step at hstep
  split at hstep
  · exact Except.ok.inj hstep ▸ hthere
  · split at hstep
    · exact Except.ok.inj hstep ▸ directory_dropLast hthere
    · split at hstep
      · cases hstep
      · split at hstep
        · rename_i hdirectory
          exact Except.ok.inj hstep ▸ hdirectory
        · cases hstep
        · cases hstep

/-- A walk leads to a directory. -/
theorem directory_of_walk {names : List String} {last : Place}
    (hthere : tree.at? place = some .directory) (hwalk : tree.walk place names = .ok last) :
    tree.at? last = some .directory := by
  induction names generalizing place with
  | nil => exact Except.ok.inj hwalk ▸ hthere
  | cons name rest ih =>
    obtain ⟨next, hstep, hrest⟩ := bind_eq_ok_iff.mp hwalk
    exact ih (directory_of_step hthere hstep) hrest

/-- Names are followed from a directory as they are from the place of that directory. -/
theorem follow_eq_walk (hthere : tree.at? place = some .directory) (names : List String) :
    tree.follow (tree.locate place) names = (tree.walk place names).map tree.locate := by
  induction names generalizing place with
  | nil => rfl
  | cons name rest ih =>
    have hfirst := enter_eq_step hthere name
    rw [follow, List.foldlM_cons, hfirst, walk, List.foldlM_cons]
    cases hstep : tree.step place name with
    | error failure => rfl
    | ok next => exact ih (directory_of_step hthere hstep)

/-- The place where a path starts is a directory. -/
theorem Grounded.origin (hgrounded : tree.Grounded) (path : Path) :
    tree.at? (tree.origin path) = some .directory := by
  unfold Tree.origin
  split
  · exact Directory.at?_nil _
  · exact hgrounded

/-- The names of a path are followed from where it starts as they are from that place. -/
theorem follow_start (hgrounded : tree.Grounded) (path : Path) (names : List String) :
    tree.follow (tree.start path) names =
      (tree.walk (tree.origin path) names).map tree.locate :=
  follow_eq_walk (hgrounded.origin path) names

/-- A path is refused or taken as it is. -/
theorem eq_of_checked {other : Path} (hchecked : checked path = .ok other) : other = path := by
  unfold checked at hchecked
  split_ifs at hchecked
  exact (Except.ok.inj hchecked).symm

/-- Pieces that do not end in an empty one are kept as they are. -/
theorem withoutEnd_eq_self {pieces : List String} (hlast : pieces.getLast? = some name)
    (hname : name ≠ "") : withoutEnd pieces = pieces := by
  obtain ⟨before, rfl⟩ := List.getLast?_eq_some_iff.mp hlast
  rw [withoutEnd, List.reverse_append, List.reverse_singleton, List.singleton_append,
    List.dropWhile_cons_of_neg (by simpa using hname), List.reverse_cons, List.reverse_reverse]

/-- A path has a last piece. -/
theorem exists_getLast_pieces (path : Path) : ∃ name, path.pieces.getLast? = some name := by
  cases hlast : path.pieces.getLast? with
  | some name => exact ⟨name, rfl⟩
  | none =>
    have hnil := List.map_eq_nil_iff.mp (List.getLast?_eq_none_iff.mp hlast)
    exact absurd hnil (splitSlash_ne_nil _)

/-- When a path names a new place: the names before the last lead to a directory, and the last
one stands for a place of its own there. -/
theorem newPlace_eq_ok_iff (hgrounded : tree.Grounded) {taken : Failure} {slashAllowed : Bool} :
    tree.newPlace taken slashAllowed path = .ok place ↔
      checked path = .ok path ∧ ∃ above name,
        tree.walk (tree.origin path) (withoutEnd path.pieces).dropLast = .ok above ∧
        (withoutEnd path.pieces).getLast? = some name ∧ isOwnName name = true ∧
        (path.pieces.getLast? = some "" → slashAllowed = true) ∧
        name.utf8ByteSize ≤ nameLimit ∧ place = above ++ [name] := by
  unfold newPlace
  simp only [bind_eq_ok_iff, follow_start hgrounded]
  constructor
  · rintro ⟨same, hchecked, location, hfollow, hplace⟩
    obtain rfl := eq_of_checked hchecked
    refine ⟨hchecked, ?_⟩
    cases hwalk : tree.walk (tree.origin same) (withoutEnd same.pieces).dropLast with
    | error failure => rw [hwalk] at hfollow; cases hfollow
    | ok above =>
      rw [hwalk] at hfollow
      obtain rfl := Except.ok.inj hfollow
      cases hlast : (withoutEnd same.pieces).getLast? with
      | none => rw [hlast] at hplace; cases hplace
      | some name =>
        simp only [hlast, place_locate] at hplace
        split_ifs at hplace with hrefused hlong
        obtain ⟨hown, hslash⟩ := not_or.mp hrefused
        refine ⟨above, name, rfl, rfl, by simpa using hown, fun hend => ?_, Nat.not_lt.mp hlong,
          (Except.ok.inj hplace).symm⟩
        simpa [hend] using hslash
  · rintro ⟨hchecked, above, name, hwalk, hlast, hown, hslash, hshort, rfl⟩
    refine ⟨path, hchecked, tree.locate above, by rw [hwalk]; rfl, ?_⟩
    have htaken : ¬ ((!isOwnName name) = true ∨
        path.pieces.getLast? = some "" ∧ (!slashAllowed) = true) := by
      rintro (hother | ⟨hend, hforbidden⟩)
      · simp [hown] at hother
      · simp [hslash hend] at hforbidden
    simp only [hlast, if_neg htaken, if_neg (Nat.not_lt.mpr hshort), place_locate]

/-- A new place is right below a directory. -/
theorem directory_above_newPlace (hgrounded : tree.Grounded) {taken : Failure}
    {slashAllowed : Bool} (hplace : tree.newPlace taken slashAllowed path = .ok place) :
    ∃ above name, place = above ++ [name] ∧ tree.at? above = some .directory := by
  obtain ⟨_, above, name, hwalk, _, _, _, _, rfl⟩ := (newPlace_eq_ok_iff hgrounded).mp hplace
  exact ⟨above, name, rfl, directory_of_walk (hgrounded.origin path) hwalk⟩

/-- When a path names a file: its names but the last lead to a directory, and the last one
stands for a place of its own there. -/
theorem filePlace_eq_ok_iff (hgrounded : tree.Grounded) :
    tree.filePlace path = .ok place ↔
      checked path = .ok path ∧ ∃ above name,
        tree.walk (tree.origin path) path.pieces.dropLast = .ok above ∧
        path.pieces.getLast? = some name ∧ isOwnName name = true ∧
        name.utf8ByteSize ≤ nameLimit ∧ place = above ++ [name] := by
  obtain ⟨last, hlast⟩ := exists_getLast_pieces path
  rw [filePlace, newPlace_eq_ok_iff hgrounded]
  refine and_congr_right fun _ => exists_congr fun above => exists_congr fun name => ?_
  by_cases hempty : last = ""
  · -- behind the last slash no name stands, and a file cannot be named without one
    constructor
    · rintro ⟨_, _, _, hslash, _⟩
      cases hslash (by rw [hlast, hempty])
    · rintro ⟨_, hname, hown, _⟩
      obtain rfl := Option.some.inj (hlast.symm.trans hname)
      rw [hempty] at hown
      exact absurd hown (by decide)
  · have hend : path.pieces.getLast? ≠ some "" := by
      rw [hlast]
      exact fun hsame => hempty (Option.some.inj hsame)
    rw [withoutEnd_eq_self hlast hempty]
    exact and_congr_right fun _ => and_congr_right fun _ => and_congr_right fun _ =>
      and_iff_right fun hsame => absurd hsame hend

/-- A file is found under a path exactly if it is at the place that the path names. -/
theorem lookup_eq_file_iff (hgrounded : tree.Grounded) :
    tree.lookup path = .ok (.file content) ↔
      ∃ place, tree.filePlace path = .ok place ∧ tree.at? place = some (.file content) := by
  obtain ⟨last, hlast⟩ := exists_getLast_pieces path
  have hentry : ∀ {above : Place}, tree.at? above = some .directory →
      tree.at? (above ++ [last]) = (tree.locate above).held.at? [last] :=
    fun hthere => Directory.at?_append (inside?_of_directory hthere) last
  simp only [filePlace_eq_ok_iff hgrounded]
  unfold lookup
  simp only [bind_eq_ok_iff, follow_start hgrounded]
  constructor
  · rintro ⟨same, hchecked, hfound⟩
    obtain rfl := eq_of_checked hchecked
    simp only [hlast] at hfound
    split at hfound
    · rename_i hown
      obtain ⟨location, hfollow, hfound⟩ := bind_eq_ok_iff.mp hfound
      cases hwalk : tree.walk (tree.origin same) same.pieces.dropLast with
      | error failure => rw [hwalk] at hfollow; cases hfollow
      | ok above =>
        rw [hwalk] at hfollow
        obtain rfl := Except.ok.inj hfollow
        have hthere := directory_of_walk (hgrounded.origin same) hwalk
        split at hfound
        · cases hfound
        · rename_i hshort
          split at hfound
          · rename_i entry hat
            obtain rfl := Except.ok.inj hfound
            exact ⟨_, ⟨hchecked, above, last, rfl, hlast, hown, Nat.not_lt.mp hshort, rfl⟩,
              (hentry hthere).trans hat⟩
          · cases hfound
    · obtain ⟨location, _, hfound⟩ := bind_eq_ok_iff.mp hfound
      cases hfound
  · rintro ⟨_, ⟨hchecked, above, name, hwalk, hname, hown, hshort, rfl⟩, hat⟩
    obtain rfl := Option.some.inj (hlast.symm.trans hname)
    have hthere := directory_of_walk (hgrounded.origin path) hwalk
    refine ⟨path, hchecked, ?_⟩
    rw [hentry hthere] at hat
    simp only [hlast, hown, if_true]
    refine bind_eq_ok_iff.mpr ⟨tree.locate above, by rw [hwalk]; rfl, ?_⟩
    rw [if_neg (Nat.not_lt.mpr hshort), hat]

/-- A file can be read under a path exactly if it is at the place that the path names. -/
theorem read_eq_ok_iff (hgrounded : tree.Grounded) :
    tree.read path = .ok content ↔
      ∃ place, tree.filePlace path = .ok place ∧ tree.at? place = some (.file content) := by
  rw [← lookup_eq_file_iff hgrounded, read, bind_eq_ok_iff]
  constructor
  · rintro ⟨entry, hlookup, hcontent⟩
    cases entry with
    | file held => exact Except.ok.inj hcontent ▸ hlookup
    | directory => cases hcontent
  · exact fun hlookup => ⟨_, hlookup, rfl⟩

/-- What can be read under a path that names a place is the file at that place. -/
theorem read_iff_at? (hgrounded : tree.Grounded) (hplace : tree.filePlace path = .ok place) :
    tree.read path = .ok content ↔ tree.at? place = some (.file content) := by
  rw [read_eq_ok_iff hgrounded]
  constructor
  · rintro ⟨_, hother, hthere⟩
    exact Except.ok.inj (hplace.symm.trans hother) ▸ hthere
  · exact fun hthere => ⟨place, hplace, hthere⟩

/-- A file can be written under a path exactly if no directory is at the place that the path
names. It is then at that place. -/
theorem write_eq_ok_iff {after : Tree} :
    tree.write path content = .ok after ↔
      ∃ place, tree.filePlace path = .ok place ∧ tree.at? place ≠ some .directory ∧
        after = tree.put place (.file content) := by
  rw [write, bind_eq_ok_iff]
  refine exists_congr fun place => and_congr_right fun _ => ?_
  cases tree.at? place with
  | none => simp [eq_comm]
  | some entry => cases entry <;> simp [eq_comm]

end Tree

end Files

end PegTemplates
