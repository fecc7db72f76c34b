import PegTemplates.Proofs.Searching.Cursor

/-!
# Readings of alternatives

A reading of a sequence is one way of going through it: a branch of every choice,
some number of rounds of every repetition, and the body of its rule in place of
every reference. The alternative for a tag is shown to have no other readings than
the sequence it was made from, and to read that tag in each of them.
-/

namespace PegTemplates

/-- One part of a reading. -/
inductive Atom where
  /-- One literal byte. -/
  | byte (value : UInt8)
  /-- Name of the enclosing shape. -/
  | tag (name : String)
  /-- A whole captured shape. -/
  | captured (id : ShapeId)
  /-- A child link around its body. -/
  | linked (label : Option String) (inner : List Element)
  deriving Repr

mutual

/-- The readings of an element. -/
inductive Registry.ReadsElement (registry : Registry) : Element → List Atom → Prop where
  /-- A byte stands for itself. -/
  | byte {value : UInt8} : ReadsElement registry (.byte value) [.byte value]
  /-- A tag stands for itself. -/
  | tag {name : String} : ReadsElement registry (.tag name) [.tag name]
  /-- A capture stands for itself. -/
  | captured {id : ShapeId} : ReadsElement registry (.captured id) [.captured id]
  /-- A link stands for itself. -/
  | linked {label : Option String} {inner : List Element} :
    ReadsElement registry (.linked label inner) [.linked label inner]
  /-- A reference reads as the body of its rule. -/
  | nonTerminal {name : String} {site : Site} {body : RuleBody} {word : List Atom} :
    registry.body? name = some body → Reads registry body.elements word →
    ReadsElement registry (.nonTerminal name site) word
  /-- A choice reads as one of its branches. -/
  | choice {branches : List (List Element)} {branch : List Element} {word : List Atom} :
    branch ∈ branches → Reads registry branch word → ReadsElement registry (.choice branches) word
  /-- An option may be left out. -/
  | leftOut {body : List Element} : ReadsElement registry (.optional body) []
  /-- An option may be taken. -/
  | taken {body : List Element} {word : List Atom} : Reads registry body word →
    ReadsElement registry (.optional body) word
  /-- A repetition reads as any number of rounds in a row. -/
  | zeroOrMore {body : List Element} {rounds : List (List Atom)} :
    (∀ round ∈ rounds, Reads registry body round) →
    ReadsElement registry (.zeroOrMore body) rounds.flatten
  /-- A repetition with a first round reads as at least one round. -/
  | oneOrMore {body : List Element} {rounds : List (List Atom)} : rounds ≠ [] →
    (∀ round ∈ rounds, Reads registry body round) →
    ReadsElement registry (.oneOrMore body) rounds.flatten

/-- The readings of a sequence. -/
inductive Registry.Reads (registry : Registry) : List Element → List Atom → Prop where
  /-- Where nothing stands nothing is read. -/
  | nil : Reads registry [] []
  /-- The elements are read one after the other. -/
  | cons {element : Element} {rest : List Element} {first word : List Atom} :
    ReadsElement registry element first → Reads registry rest word →
    Reads registry (element :: rest) (first ++ word)

end

namespace Registry

variable {registry : Registry} {first next : List Element} {element : Element} {word : List Atom}

/-- A sequence of two parts reads as the one and then the other. -/
theorem Reads.append_iff : registry.Reads (first ++ next) word ↔
    ∃ before behind, registry.Reads first before ∧ registry.Reads next behind ∧
      word = before ++ behind := by
  induction first generalizing word with
  | nil =>
    constructor
    · exact fun hreads => ⟨[], word, .nil, hreads, rfl⟩
    · rintro ⟨before, behind, hbefore, hbehind, rfl⟩
      cases hbefore
      exact hbehind
  | cons element rest ih =>
    constructor
    · rintro (_ | ⟨helement, hrest⟩)
      obtain ⟨before, behind, hbefore, hbehind, rfl⟩ := ih.mp hrest
      exact ⟨_, behind, .cons helement hbefore, hbehind, (List.append_assoc ..).symm⟩
    · rintro ⟨before, behind, hbefore, hbehind, rfl⟩
      cases hbefore with
      | cons helement hrest =>
        rw [List.append_assoc]
        exact .cons helement (ih.mpr ⟨_, behind, hrest, hbehind, rfl⟩)

/-- A sequence of one element reads as that element. -/
theorem Reads.singleton_iff : registry.Reads [element] word ↔
    registry.ReadsElement element word := by
  constructor
  · rintro (_ | ⟨helement, hrest⟩)
    cases hrest
    rwa [List.append_nil]
  · intro helement
    have hreads := Reads.cons helement .nil
    rwa [List.append_nil] at hreads

/-- A repetition with a first round reads as one without. -/
theorem ReadsElement.zeroOrMore_of_oneOrMore {body : List Element}
    (hreads : registry.ReadsElement (.oneOrMore body) word) :
    registry.ReadsElement (.zeroOrMore body) word := by
  cases hreads with
  | oneOrMore _ hrounds => exact .zeroOrMore hrounds

/-- If every reading of one body is a reading of another and holds an atom, so is and does
every reading of its repetition with a first round. -/
theorem ReadsElement.oneOrMore_imp {inner body : List Element} {atom : Atom}
    (hinner : ∀ {round : List Atom}, registry.Reads inner round →
      registry.Reads body round ∧ atom ∈ round)
    (hreads : registry.ReadsElement (.oneOrMore inner) word) :
    registry.ReadsElement (.oneOrMore body) word ∧ atom ∈ word := by
  cases hreads with
  | @oneOrMore _ rounds hsome hrounds =>
    obtain ⟨round, hround⟩ := List.exists_mem_of_ne_nil rounds hsome
    refine ⟨.oneOrMore hsome fun other hother => (hinner (hrounds other hother)).1, ?_⟩
    exact List.mem_flatten.mpr ⟨round, hround, (hinner (hrounds round hround)).2⟩

/-- If the way to a tag is fixed, the sequence reads as before, and the tag is read. -/
theorem Fixes.reads {elements : List Element} {found : TagAlternative}
    (hfixes : registry.Fixes elements found) (hreads : registry.Reads found.elements word) :
    registry.Reads elements word ∧ .tag found.tag ∈ word := by
  induction hfixes generalizing word with
  | tag =>
    refine ⟨hreads, ?_⟩
    cases Reads.singleton_iff.mp hreads
    exact List.mem_singleton_self _
  | choice hbranch _ ih =>
    obtain ⟨hinner, htag⟩ := ih hreads
    exact ⟨Reads.singleton_iff.mpr (.choice hbranch hinner), htag⟩
  | optional _ ih =>
    obtain ⟨hinner, htag⟩ := ih hreads
    exact ⟨Reads.singleton_iff.mpr (.taken hinner), htag⟩
  | zeroOrMore _ ih =>
    obtain ⟨hinner, htag⟩ := (Reads.singleton_iff.mp hreads).oneOrMore_imp ih
    exact ⟨Reads.singleton_iff.mpr hinner.zeroOrMore_of_oneOrMore, htag⟩
  | oneOrMore _ ih =>
    obtain ⟨hinner, htag⟩ := (Reads.singleton_iff.mp hreads).oneOrMore_imp ih
    exact ⟨Reads.singleton_iff.mpr hinner, htag⟩
  | nonTerminal hbody _ ih =>
    obtain ⟨hinner, htag⟩ := ih hreads
    exact ⟨Reads.singleton_iff.mpr (.nonTerminal hbody hinner), htag⟩
  | first _ ih =>
    obtain ⟨before, behind, hbefore, hbehind, rfl⟩ := Reads.append_iff.mp hreads
    obtain ⟨hinner, htag⟩ := ih hbefore
    exact ⟨.cons (Reads.singleton_iff.mp hinner) hbehind, List.mem_append_left _ htag⟩
  | later _ ih =>
    cases hreads with
    | cons helement hrest =>
      obtain ⟨hinner, htag⟩ := ih hrest
      exact ⟨.cons helement hinner, List.mem_append_right _ htag⟩

end Registry

namespace TagCursor

/-- Every reading of what a cursor hands out is one of the sequence that it searches, and
holds the tag. -/
theorem item_reads (registry : Registry) (elements : List Element) {calls : Nat}
    {found : TagAlternative} {word : List Atom}
    (hitem : (start elements).item registry calls = some (.ok found))
    (hreads : registry.Reads found.elements word) :
    registry.Reads elements word ∧ .tag found.tag ∈ word :=
  (item_fixes registry elements hitem).reads hreads

/-- The second tag stands in a repetition in a rule that refers to itself; two rounds of it
are read. -/
theorem item_reads_twice :
    let registry : Registry := ⟨[], [⟨"sum", [.tag "Sum", .zeroOrMore
      [.byte 43, .choice [[.nonTerminal "sum" ⟨0⟩], [.tag "Product"]]]]⟩]⟩
    let elements : List Element := [.captured 0, .nonTerminal "sum" ⟨1⟩]
    let found : TagAlternative := ⟨"Product", [.captured 0, .tag "Sum", .oneOrMore
      [.byte 43, .tag "Product"]]⟩
    let word : List Atom := [.captured 0, .tag "Sum", .byte 43, .tag "Product", .byte 43,
      .tag "Product"]
    (start elements).item registry 1 = some (.ok found) ∧ registry.Reads found.elements word ∧
      registry.Reads elements word ∧ .tag "Product" ∈ word := by
  intro registry elements found word
  have hitem : (start elements).item registry 1 = some (.ok found) := by rfl
  have hround : registry.Reads [.byte 43, .tag "Product"] [.byte 43, .tag "Product"] :=
    .cons .byte (.cons .tag .nil)
  have hrounds : registry.ReadsElement (.oneOrMore [.byte 43, .tag "Product"])
      [[.byte 43, .tag "Product"], [.byte 43, .tag "Product"]].flatten :=
    .oneOrMore (List.cons_ne_nil _ _) (by simp [hround])
  have hreads : registry.Reads found.elements word :=
    .cons .captured (.cons .tag (.cons hrounds .nil))
  exact ⟨hitem, hreads, item_reads registry elements hitem hreads⟩

end TagCursor

end PegTemplates
