import PegTemplates.Proofs.Building.Running

/-!
# Balanced words of capture delimiters

The delimiters of a rule form a word, and so do those of every branch, option,
repetition and link body in it. A rule builds exactly if all of these words are
balanced. Otherwise the reason is the first offence met from left to right, the
word of an inner part being read where the part stands.
-/

namespace PegTemplates

/-- One letter of a word of delimiters. -/
inductive Delimiter where
  /-- A node is opened. -/
  | opens
  /-- A node is closed. -/
  | closes
  /-- A part that has a word of its own. -/
  | part (word : List Delimiter)

mutual

/-- The word of delimiters of an expression. Items of a sequence belong to the
word around it, and what is only looked ahead at has no delimiters. -/
def Expr.word : Expr → List Delimiter
  | .sequence items => Expr.wordOfItems items
  | .choice branches => Expr.wordOfBranches branches
  | .optional inner | .zeroOrMore inner | .oneOrMore inner | .link _ inner => [.part inner.word]
  | .beginCapture | .fold _ => [.opens]
  | .endCapture => [.closes]
  | .empty | .byte _ | .nonTerminal _ | .tag _ | .any | .byteSet _ | .followedBy _
  | .notFollowedBy _ => []

/-- The words of the items of a sequence, one after the other. -/
def Expr.wordOfItems : List Expr → List Delimiter
  | [] => []
  | item :: rest => item.word ++ Expr.wordOfItems rest

/-- One part for each branch of a choice. -/
def Expr.wordOfBranches : List Expr → List Delimiter
  | [] => []
  | branch :: rest => .part branch.word :: Expr.wordOfBranches rest

end

/-- Words in which every node is closed behind its opening, in the same word, and
whose parts are balanced as well. -/
inductive Balanced : List Delimiter → Prop where
  /-- Nothing is balanced. -/
  | nil : Balanced []
  /-- A part counts for itself. -/
  | part {word rest : List Delimiter} : Balanced word → Balanced rest →
    Balanced (.part word :: rest)
  /-- A node around a balanced word. -/
  | node {body rest : List Delimiter} : Balanced body → Balanced rest →
    Balanced (.opens :: (body ++ .closes :: rest))

/-- Where a word stands. -/
inductive Place where
  /-- It is the word of a whole rule. -/
  | rule
  /-- It is the word of a part inside a rule. -/
  | part
  deriving DecidableEq

namespace Place

/-- Error of closing a node with none open in the word. -/
def unopened (name : String) : Place → AnalysisError
  | rule => .unbalancedCapture name
  | part => .captureAcrossScope name

/-- Error of ending the word with that many nodes open. -/
def unclosed (name : String) (depth : Nat) : Place → AnalysisError
  | rule => .unclosedCapture name depth
  | part => .captureAcrossScope name

/-- Kinds of the scope that a word is read in. -/
def Fits : Place → ScopeKind → Prop
  | rule, kind => kind = .root
  | part, kind => kind = .branch ∨ kind = .optional ∨ kind = .repeated

end Place

/-- The body of a wrapper is a part inside a rule. -/
theorem Wrapper.fits_kind (wrapper : Wrapper) : Place.part.Fits wrapper.kind := by
  cases wrapper <;> simp [Place.Fits, Wrapper.kind]

mutual

/-- The first offence inside a letter, which only a part can have. -/
def Delimiter.firstOffence (name : String) : Delimiter → Option AnalysisError
  | .opens | .closes => none
  | .part word => offenceIn name .part 0 word

/-- The first offence in the rest of a word, with that many of its nodes open:
a closing without an opening, an offence in a part, or an end with open nodes. -/
def offenceIn (name : String) : Place → Nat → List Delimiter → Option AnalysisError
  | _, 0, [] => none
  | place, depth + 1, [] => some (place.unclosed name (depth + 1))
  | place, depth, letter :: rest =>
    match letter, depth with
    | .opens, _ => offenceIn name place (depth + 1) rest
    | .closes, 0 => some (place.unopened name)
    | .closes, depth + 1 => offenceIn name place depth rest
    | .part _, _ => letter.firstOffence name <|> offenceIn name place depth rest

end

section Words

variable (name : String) (place : Place) (depth : Nat) (rest : List Delimiter)

theorem offenceIn_opens :
    offenceIn name place depth (.opens :: rest) = offenceIn name place (depth + 1) rest := by
  cases depth <;> rfl

theorem offenceIn_closes :
    offenceIn name place (depth + 1) (.closes :: rest) = offenceIn name place depth rest := rfl

theorem offenceIn_part (word : List Delimiter) :
    offenceIn name place depth (.part word :: rest) =
      (offenceIn name .part 0 word <|> offenceIn name place depth rest) := by
  cases depth <;> rfl

end Words

/-- A word of parts alone closes no node. -/
theorem offenceIn_parts {word : List Delimiter}
    (hparts : ∀ letter ∈ word, ∃ inner, letter = .part inner)
    {name : String} {place : Place} {depth : Nat} (hnone : offenceIn name place depth word = none) :
    depth = 0 := by
  induction word with
  | nil =>
    cases depth with
    | zero => rfl
    | succ depth => cases hnone
  | cons letter rest ih =>
    obtain ⟨inner, rfl⟩ := hparts letter (List.mem_cons_self ..)
    apply ih fun other hother => hparts other (List.mem_cons_of_mem _ hother)
    rw [offenceIn_part] at hnone
    cases hinner : offenceIn name .part 0 inner with
    | none => rwa [hinner] at hnone
    | some reason => rw [hinner] at hnone; cases hnone

/-- Reading past a balanced word meets no offence and leaves the depth as it was. -/
theorem offenceIn_balanced {word : List Delimiter} (hword : Balanced word) (name : String)
    (place : Place) (depth : Nat) (rest : List Delimiter) :
    offenceIn name place depth (word ++ rest) = offenceIn name place depth rest := by
  induction hword generalizing place depth rest with
  | nil => rfl
  | part _ _ ihword ihrest =>
    have hinner := ihword .part 0 []
    rw [List.append_nil] at hinner
    rw [List.cons_append, offenceIn_part, hinner, ihrest]
    rfl
  | node _ _ ihbody ihrest =>
    rw [List.cons_append, offenceIn_opens, List.append_assoc, ihbody, List.cons_append,
      offenceIn_closes, ihrest]

/-- Words that close that many nodes opened before, and are balanced otherwise. -/
def ClosesAll : Nat → List Delimiter → Prop
  | 0, word => Balanced word
  | depth + 1, word =>
    ∃ body rest, Balanced body ∧ ClosesAll depth rest ∧ word = body ++ .closes :: rest

/-- A balanced part in front changes nothing about what a word closes. -/
theorem ClosesAll.part {word : List Delimiter} (hword : Balanced word) {depth : Nat}
    {rest : List Delimiter} (hrest : ClosesAll depth rest) :
    ClosesAll depth (.part word :: rest) := by
  cases depth with
  | zero => exact Balanced.part hword hrest
  | succ depth =>
    obtain ⟨body, later, hbody, hlater, rfl⟩ := hrest
    exact ⟨.part word :: body, later, Balanced.part hword hbody, hlater, rfl⟩

/-- An opening in front takes one of the closings for itself. -/
theorem ClosesAll.opens {depth : Nat} {rest : List Delimiter} (hrest : ClosesAll (depth + 1) rest) :
    ClosesAll depth (.opens :: rest) := by
  obtain ⟨body, later, hbody, hlater, rfl⟩ := hrest
  cases depth with
  | zero => exact .node hbody hlater
  | succ depth =>
    obtain ⟨next, last, hnext, hlast, rfl⟩ := hlater
    exact ⟨.opens :: (body ++ .closes :: next), last, .node hbody hnext, hlast, by simp⟩

/-- A word without an offence closes all nodes that stand open before it. -/
theorem closesAll_of_none (name : String) : ∀ (place : Place) (depth : Nat)
    (word : List Delimiter), offenceIn name place depth word = none → ClosesAll depth word
  | _, 0, [], _ => Balanced.nil
  | _, _ + 1, [], hnone => by cases hnone
  | place, depth, .opens :: rest, hnone => by
    rw [offenceIn_opens] at hnone
    exact (closesAll_of_none name place (depth + 1) rest hnone).opens
  | _, 0, .closes :: _, hnone => by cases hnone
  | place, depth + 1, .closes :: rest, hnone =>
    ⟨[], rest, .nil, closesAll_of_none name place depth rest hnone, rfl⟩
  | place, depth, .part word :: rest, hnone => by
    rw [offenceIn_part] at hnone
    cases hword : offenceIn name .part 0 word with
    | some reason => rw [hword] at hnone; cases hnone
    | none =>
      rw [hword] at hnone
      exact (closesAll_of_none name place depth rest hnone).part
        (closesAll_of_none name .part 0 word hword)

/-- A word has no offence exactly if it is balanced, wherever it stands. -/
theorem offenceIn_eq_none_iff (name : String) (place : Place) (word : List Delimiter) :
    offenceIn name place 0 word = none ↔ Balanced word := by
  constructor
  · exact closesAll_of_none name place 0 word
  · intro hword
    have hend := offenceIn_balanced hword name place 0 []
    rw [List.append_nil] at hend
    rw [hend]
    rfl

/-- Whether that many captures are open above a scope of the given kind. -/
def Walk.Above (base : ScopeKind) (outer : List ScopeKind) (depth : Nat) (walk : Walk) : Prop :=
  ∃ opened : List ScopeKind, opened.length = depth ∧ (∀ kind ∈ opened, kind.isCapture = true) ∧
    walk.kinds = opened ++ base :: outer

namespace Walk.Above

variable {base : ScopeKind} {outer : List ScopeKind} {depth : Nat} {walk after : Walk}

/-- Without a capture the scope itself is the current one. -/
theorem zero_iff : walk.Above base outer 0 ↔ walk.kinds = base :: outer := by
  constructor
  · rintro ⟨opened, hlength, _, hkinds⟩
    rw [List.length_eq_zero_iff.mp hlength] at hkinds
    exact hkinds
  · intro hkinds
    exact ⟨[], rfl, by simp, hkinds⟩

/-- Scopes of the same kinds have the same captures open. -/
theorem of_kinds_eq (habove : walk.Above base outer depth) (hkinds : after.kinds = walk.kinds) :
    after.Above base outer depth := by
  obtain ⟨opened, hlength, hopened, hwalk⟩ := habove
  exact ⟨opened, hlength, hopened, hkinds.trans hwalk⟩

/-- Opening a node opens one capture more. -/
theorem opens (habove : walk.Above base outer depth) {kind : ScopeKind}
    (hkind : kind.isCapture = true) (hkinds : after.kinds = kind :: walk.kinds) :
    after.Above base outer (depth + 1) := by
  obtain ⟨opened, hlength, hopened, hwalk⟩ := habove
  refine ⟨kind :: opened, by simp [hlength], ?_, by rw [hkinds, hwalk, List.cons_append]⟩
  intro other hother
  rcases List.mem_cons.mp hother with rfl | hmem
  · exact hkind
  · exact hopened other hmem

end Walk.Above

/-- A walk with one kind of scope stands in a single scope. -/
theorem Walk.enclosing_of_kinds {walk : Walk} {kind : ScopeKind} (hkinds : walk.kinds = [kind]) :
    walk.enclosing = [] :=
  List.map_eq_nil_iff.mp (List.cons.inj hkinds).2

/-- What reading a word in a visit comes to: either the visit ends with so many
nodes open as the word leaves open, or it fails with the first offence. -/
def ReadsWord (name : String) (place : Place) (base : ScopeKind) (outer : List ScopeKind)
    (depth : Nat) (word : List Delimiter) {α : Type} :
    EStateM.Result AnalysisError Walk α → Prop
  | .ok _ after => ∃ left, after.Above base outer left ∧
    ∀ rest, offenceIn name place depth (word ++ rest) = offenceIn name place left rest
  | .error reason _ => ∀ rest, offenceIn name place depth (word ++ rest) = some reason

/-- A visit of an isolated body succeeds in the scopes around it if the word of
the body has no offence, and fails with that offence otherwise. -/
def ReadsPart (name : String) (kinds : List ScopeKind) (word : List Delimiter) {α : Type} :
    EStateM.Result AnalysisError Walk α → Prop
  | .ok _ after => after.kinds = kinds ∧ offenceIn name .part 0 word = none
  | .error reason _ => offenceIn name .part 0 word = some reason

section Outcome

variable {name : String} {place : Place} {base : ScopeKind} {outer : List ScopeKind} {depth : Nat}
  {word : List Delimiter} {α : Type}

/-- A visit that fails has met the first offence of its word. -/
theorem ReadsWord.offence {reason : AnalysisError} {after : Walk}
    (hreads : @ReadsWord name place base outer depth word α (.error reason after)) :
    offenceIn name place depth word = some reason := by
  have hword := hreads []
  rwa [List.append_nil] at hword

/-- A visit that ends well leaves open what its word leaves open. -/
theorem ReadsWord.above {value : α} {after : Walk}
    (hreads : ReadsWord name place base outer depth word (.ok value after)) :
    ∃ left, after.Above base outer left ∧
      offenceIn name place depth word = offenceIn name place left [] := by
  obtain ⟨left, habove, hrest⟩ := hreads
  have hword := hrest []
  rw [List.append_nil] at hword
  exact ⟨left, habove, hword⟩

end Outcome

namespace Builder

/-- The end of a capture closes the innermost open node, if there is one. -/
theorem closeCapture_readsWord (name : String) {place : Place} {base : ScopeKind}
    {outer : List ScopeKind} (hfits : place.Fits base) {depth : Nat} {walk : Walk}
    (habove : walk.Above base outer depth) :
    ReadsWord name place base outer depth [.closes] ((closeCapture name).run walk) := by
  obtain ⟨opened, hlength, hopened, hkinds⟩ := habove
  rw [run_closeCapture]
  cases opened with
  | nil =>
    have hcurrent : walk.current.kind = base := (List.cons.inj hkinds).1
    subst hlength
    rw [hcurrent]
    cases place with
    | rule =>
      have hroot : base = .root := hfits
      subst hroot
      exact fun rest => rfl
    | part => rcases hfits with rfl | rfl | rfl <;> exact fun rest => rfl
  | cons kind opened =>
    have hcurrent : walk.current.kind = kind := (List.cons.inj hkinds).1
    have hrest := (List.cons.inj hkinds).2
    have hcapture : walk.current.kind.isCapture = true := by
      rw [hcurrent]
      exact hopened kind (List.mem_cons_self ..)
    rw [if_pos hcapture]
    subst hlength
    cases henclosing : walk.enclosing with
    | nil =>
      rw [henclosing] at hrest
      simp at hrest
    | cons next rest =>
      rw [henclosing] at hrest
      refine ⟨opened.length, ⟨opened, rfl, fun k hk => hopened k (List.mem_cons_of_mem _ hk), ?_⟩,
        fun rest => rfl⟩
      rw [Walk.kinds_closeInto]
      exact hrest

/-- A body that leaves no node open hands its scope back. -/
theorem handBack_of_closed (name : String) {kind : ScopeKind} {walk inner : Walk}
    (hkinds : inner.kinds = kind :: walk.kinds) :
    ∃ outside, outside.kinds = walk.kinds ∧
      handBack name walk inner = .ok inner.current outside := by
  have htail : inner.enclosing.map (·.kind) = walk.kinds := (List.cons.inj hkinds).2
  cases henclosing : inner.enclosing with
  | nil =>
    rw [henclosing] at htail
    cases htail
  | cons around rest =>
    rw [henclosing] at htail
    have hcount : rest.length = walk.enclosing.length := by
      have hlength := congrArg List.length htail
      simpa [Walk.kinds, Walk.scopes] using hlength
    refine ⟨inner.leave around rest, htail, ?_⟩
    rw [handBack, henclosing]
    exact if_pos hcount

/-- A body that leaves a node open is refused. -/
theorem handBack_of_open (name : String) {kind : ScopeKind} {left : Nat} {walk inner : Walk}
    (habove : inner.Above kind walk.kinds (left + 1)) :
    handBack name walk inner = .error (.captureAcrossScope name) inner := by
  obtain ⟨opened, hlength, _, hkinds⟩ := habove
  cases opened with
  | nil => cases hlength
  | cons first opened =>
    rw [handBack]
    cases henclosing : inner.enclosing with
    | nil => rfl
    | cons around rest =>
      have hcount := congrArg List.length (List.cons.inj hkinds).2
      rw [henclosing] at hcount
      simp only [List.map_cons, List.length_cons, List.length_map, Walk.kinds, Walk.scopes,
        List.append_eq, List.length_append] at hcount
      exact if_neg (by omega)

/-- A body that reads its word in its own scope is a part of the word around. -/
theorem isolated_readsPart (name : String) (kind : ScopeKind) {step : WalkM Unit}
    {word : List Delimiter} {walk : Walk}
    (hstep : ReadsWord name .part kind walk.kinds 0 word
      (step.run (walk.enter (.opened kind)))) :
    ReadsPart name walk.kinds word ((isolated name kind step).run walk) := by
  rw [run_isolated]
  cases hrun : step.run (walk.enter (.opened kind)) with
  | error reason inner =>
    rw [hrun] at hstep
    exact hstep.offence
  | ok _ inner =>
    rw [hrun] at hstep
    obtain ⟨left, habove, hword⟩ := hstep.above
    dsimp only [goOn]
    cases left with
    | zero =>
      obtain ⟨outside, hkinds, hback⟩ := handBack_of_closed name (Walk.Above.zero_iff.mp habove)
      rw [hback]
      exact ⟨hkinds, hword⟩
    | succ left =>
      rw [handBack_of_open name habove]
      exact hword

end Builder

section Reading

variable {name : String} {place : Place} {base : ScopeKind} {outer : List ScopeKind} {depth : Nat}
  {walk after : Walk} {α β : Type}

/-- A step that neither opens nor closes a scope reads nothing. -/
theorem readsWord_nil (habove : walk.Above base outer depth) (hkinds : after.kinds = walk.kinds)
    (value : α) : ReadsWord name place base outer depth [] (.ok value after) :=
  ⟨depth, habove.of_kinds_eq hkinds, fun _ => rfl⟩

/-- A step that opens a node reads its opening. -/
theorem readsWord_opens (habove : walk.Above base outer depth) {kind : ScopeKind}
    (hkind : kind.isCapture = true) (hkinds : after.kinds = kind :: walk.kinds) (value : α) :
    ReadsWord name place base outer depth [.opens] (.ok value after) :=
  ⟨depth + 1, habove.opens hkind hkinds, fun rest => offenceIn_opens name place depth rest⟩

/-- An isolated body is one letter of the word around it. -/
theorem ReadsPart.readsWord {word : List Delimiter} {result : EStateM.Result AnalysisError Walk α}
    (hpart : ReadsPart name walk.kinds word result) (habove : walk.Above base outer depth) :
    ReadsWord name place base outer depth [.part word] result := by
  cases result with
  | error reason last =>
    intro rest
    have hword : offenceIn name .part 0 word = some reason := hpart
    rw [List.singleton_append, offenceIn_part, hword]
    rfl
  | ok value last =>
    obtain ⟨hkinds, hword⟩ := hpart
    refine ⟨depth, habove.of_kinds_eq hkinds, fun rest => ?_⟩
    rw [List.singleton_append, offenceIn_part, hword]
    rfl

/-- One reading goes on where the one before it ends. -/
theorem ReadsWord.bind {first next : List Delimiter} {result : EStateM.Result AnalysisError Walk α}
    {further : α → Walk → EStateM.Result AnalysisError Walk β}
    (hfirst : ReadsWord name place base outer depth first result)
    (hnext : ∀ value last left, last.Above base outer left →
      ReadsWord name place base outer left next (further value last)) :
    ReadsWord name place base outer depth (first ++ next) (Builder.goOn result further) := by
  cases result with
  | error reason last =>
    intro rest
    rw [List.append_assoc]
    exact hfirst (next ++ rest)
  | ok value last =>
    obtain ⟨left, habove, hreads⟩ := hfirst
    have hthen := hnext value last left habove
    dsimp only [Builder.goOn]
    cases hfurther : further value last with
    | error reason final =>
      rw [hfurther] at hthen
      intro rest
      rw [List.append_assoc, hreads]
      exact hthen rest
    | ok result final =>
      rw [hfurther] at hthen
      obtain ⟨last, hlast, hrest⟩ := hthen
      refine ⟨last, hlast, fun rest => ?_⟩
      rw [List.append_assoc, hreads, hrest]

/-- A reading is not disturbed by a step behind it that reads nothing. -/
theorem ReadsWord.then {word : List Delimiter} {result : EStateM.Result AnalysisError Walk α}
    {further : α → Walk → EStateM.Result AnalysisError Walk β}
    (hresult : ReadsWord name place base outer depth word result)
    (hsilent : ∀ value last left, last.Above base outer left →
      ReadsWord name place base outer left [] (further value last)) :
    ReadsWord name place base outer depth word (Builder.goOn result further) := by
  have hboth := hresult.bind hsilent
  rwa [List.append_nil] at hboth

end Reading

namespace Builder

variable (name : String)

/-- Visiting a wrapper reads one part if visiting its body reads the word of that. -/
theorem visit_wrapper_readsWord {place : Place} {base : ScopeKind} {outer : List ScopeKind}
    (wrapper : Wrapper) {inner : Expr} {depth : Nat} {walk : Walk}
    (habove : walk.Above base outer depth)
    (hinner : ReadsWord name .part wrapper.kind walk.kinds 0 inner.word
      ((visit name inner).run (walk.enter (.opened wrapper.kind)))) :
    ReadsWord name place base outer depth [.part inner.word]
      ((visit name (wrapper.expr inner)).run walk) := by
  rw [run_visit_wrapper]
  apply ReadsWord.then ((isolated_readsPart name wrapper.kind hinner).readsWord habove)
  intro _ last _ hlast
  exact readsWord_nil hlast (last.kinds_append _) ()

mutual

/-- Visiting an expression reads its word. -/
theorem visit_readsWord {place : Place} {base : ScopeKind} {outer : List ScopeKind}
    (hfits : place.Fits base) : ∀ (expr : Expr) {depth : Nat} {walk : Walk},
      walk.Above base outer depth →
      ReadsWord name place base outer depth expr.word ((visit name expr).run walk)
  | .byte value, _, walk, habove => readsWord_nil habove (walk.kinds_append [.byte value]) ()
  | .tag tag, _, walk, habove => readsWord_nil habove (walk.kinds_append [.tag tag]) ()
  | .nonTerminal target, _, walk, habove => readsWord_nil habove (walk.kinds_reference target) ()
  | .sequence items, _, _, habove => visitItems_readsWord hfits items habove
  | .choice branches, _, _, habove => by
    rw [run_visit_choice]
    apply ReadsWord.then (visitBranches_readsWord branches habove)
    intro _ last _ hlast
    exact readsWord_nil hlast (last.kinds_append _) ()
  | .optional inner, _, _, habove => visit_wrapper_readsWord name .optional habove
    (visit_readsWord (Wrapper.fits_kind .optional) inner (Walk.Above.zero_iff.mpr rfl))
  | .zeroOrMore inner, _, _, habove => visit_wrapper_readsWord name .zeroOrMore habove
    (visit_readsWord (Wrapper.fits_kind .zeroOrMore) inner (Walk.Above.zero_iff.mpr rfl))
  | .oneOrMore inner, _, _, habove => visit_wrapper_readsWord name .oneOrMore habove
    (visit_readsWord (Wrapper.fits_kind .oneOrMore) inner (Walk.Above.zero_iff.mpr rfl))
  | .link label inner, _, _, habove => visit_wrapper_readsWord name (.link label) habove
    (visit_readsWord (Wrapper.fits_kind (.link label)) inner (Walk.Above.zero_iff.mpr rfl))
  | .beginCapture, _, walk, habove =>
    readsWord_opens habove rfl (walk.kinds_enter (.opened .capture)) ()
  | .fold label, _, walk, habove => readsWord_opens habove rfl (walk.kinds_openFold label) ()
  | .endCapture, _, _, habove => closeCapture_readsWord name hfits habove
  | .empty, _, _, habove | .any, _, _, habove | .byteSet _, _, _, habove
  | .followedBy _, _, _, habove | .notFollowedBy _, _, _, habove => readsWord_nil habove rfl ()

/-- Visiting items reads their words one after the other. -/
theorem visitItems_readsWord {place : Place} {base : ScopeKind} {outer : List ScopeKind}
    (hfits : place.Fits base) : ∀ (items : List Expr) {depth : Nat} {walk : Walk},
      walk.Above base outer depth →
      ReadsWord name place base outer depth (Expr.wordOfItems items)
        ((visitItems name items).run walk)
  | [], _, _, habove => readsWord_nil habove rfl ()
  | item :: rest, _, _, habove => by
    rw [run_visitItems_cons, Expr.wordOfItems]
    exact ReadsWord.bind (visit_readsWord hfits item habove)
      fun _ _ _ hlast => visitItems_readsWord hfits rest hlast

/-- Visiting branches reads one part for each. -/
theorem visitBranches_readsWord {place : Place} {base : ScopeKind} {outer : List ScopeKind} :
    ∀ (branches : List Expr) {depth : Nat} {walk : Walk}, walk.Above base outer depth →
      ReadsWord name place base outer depth (Expr.wordOfBranches branches)
        ((visitBranches name branches).run walk)
  | [], _, _, habove => readsWord_nil habove rfl []
  | branch :: rest, _, walk, habove => by
    have hfits : Place.part.Fits .branch := Or.inl rfl
    have hbranch : ReadsPart name walk.kinds branch.word
        ((isolated name .branch (visit name branch)).run walk) :=
      isolated_readsPart name .branch
        (visit_readsWord hfits branch (Walk.Above.zero_iff.mpr rfl))
    rw [run_visitBranches_cons, Expr.wordOfBranches]
    apply ReadsWord.bind (hbranch.readsWord habove)
    intro scope last _ hlast
    apply ReadsWord.then (visitBranches_readsWord rest hlast)
    intro sequences _ _ hend
    exact readsWord_nil hend rfl (scope.elements :: sequences)

end

/-- A rule is built if its word has no offence, and is refused with its first
offence otherwise. -/
theorem buildRule_fst (builder : Builder) (rule : Rule) :
    match offenceIn rule.name .rule 0 rule.expr.word with
    | none => ∃ elements, (builder.buildRule rule).1 = .ok elements
    | some reason => (builder.buildRule rule).1 = .error reason := by
  have hfits : Place.rule.Fits .root := rfl
  have hreads := visit_readsWord rule.name hfits rule.expr
    (Walk.Above.zero_iff.mpr (Walk.kinds_start builder))
  unfold buildRule
  cases hrun : (visit rule.name rule.expr).run (.start builder) with
  | error reason last =>
    rw [hrun] at hreads
    rw [hreads.offence]
  | ok _ last =>
    rw [hrun] at hreads
    obtain ⟨left, ⟨opened, hlength, _, hkinds⟩, hword⟩ := hreads.above
    have hcount := congrArg List.length hkinds
    simp only [Walk.kinds, Walk.scopes, List.map_cons, List.length_cons, List.length_map,
      List.length_append, List.length_nil] at hcount
    have hsame : last.enclosing.length = left := by omega
    rw [hword]
    dsimp only
    cases henclosing : last.enclosing with
    | nil =>
      rw [henclosing] at hsame
      subst hsame
      exact ⟨last.current.elements, rfl⟩
    | cons outer rest =>
      rw [henclosing] at hsame
      subst hsame
      rfl

/-- A walk that stands in the scope of its rule alone has no capture open. -/
theorem depth_of_enclosing {walk : Walk} {depth : Nat} (habove : walk.Above .root [] depth)
    (hsingle : walk.enclosing = []) : depth = 0 := by
  obtain ⟨opened, hlength, _, hkinds⟩ := habove
  have hcount := congrArg List.length hkinds
  simp only [Walk.kinds, Walk.scopes, hsingle, List.map_cons, List.map_nil, List.length_cons,
    List.length_nil, List.length_append] at hcount
  omega

/-- A rule that ends in parts alone and is built has all its captures closed before them. -/
theorem buildRule_last {builder after : Builder} {name : String} {items : List Expr} {last : Expr}
    {elements : List Element} (hparts : ∀ letter ∈ last.word, ∃ inner, letter = .part inner)
    (hbuild : builder.buildRule ⟨name, .sequence (items ++ [last])⟩ = (.ok elements, after)) :
    ∃ begun ended, (visitItems name items).run (.start builder) = .ok () begun ∧
      begun.kinds = [.root] ∧ begun.enclosing = [] ∧
      (visit name last).run begun = .ok () ended ∧ ended.enclosing = [] ∧
      ended.current.elements = elements ∧
      ended.toBuilder.report (.ruleBuilt name elements) = after := by
  have hfits : Place.rule.Fits .root := rfl
  obtain ⟨ended, hrun, hsingle, helements, hafter⟩ := buildRule_eq_ok.mp hbuild
  have hitems := visitItems_readsWord name hfits items
    (Walk.Above.zero_iff.mpr (Walk.kinds_start builder))
  change (visitItems name (items ++ [last])).run _ = _ at hrun
  obtain ⟨begun, hbegun, hrest⟩ := visitItems_append_eq_ok.mp hrun
  obtain ⟨final, hlast, hfinal⟩ := visitItems_cons_eq_ok.mp hrest
  cases hfinal
  rw [hbegun] at hitems
  obtain ⟨depth, habove, _⟩ := hitems.above
  have hreads := visit_readsWord name hfits last habove
  rw [hlast] at hreads
  obtain ⟨left, hleft, hword⟩ := hreads.above
  rw [depth_of_enclosing hleft hsingle] at hword
  obtain rfl := offenceIn_parts hparts hword
  have hkinds := Walk.Above.zero_iff.mp habove
  exact ⟨begun, ended, hbegun, hkinds, Walk.enclosing_of_kinds hkinds, hlast, hsingle, helements,
    hafter⟩

/-- A rule is built exactly if its word is balanced. -/
theorem buildRule_ok_iff (builder : Builder) (rule : Rule) :
    (∃ elements, (builder.buildRule rule).1 = .ok elements) ↔ Balanced rule.expr.word := by
  have hfst := buildRule_fst builder rule
  rw [← offenceIn_eq_none_iff rule.name .rule]
  cases hword : offenceIn rule.name .rule 0 rule.expr.word with
  | none =>
    rw [hword] at hfst
    exact iff_of_true hfst rfl
  | some reason =>
    rw [hword] at hfst
    have herror : (builder.buildRule rule).1 = .error reason := hfst
    rw [herror]
    simp

/-- A rule builds exactly if its word and the words of all its parts are balanced.
It is refused for a reason exactly if that is its first offence from left to
right: in a part, any closing without an opening and any node left open is a
capture across scopes; in the word of the rule itself, a closing without an
opening is unbalanced, and nodes left open are counted. -/
theorem buildRule_outcome (builder : Builder) (rule : Rule) :
    ((∃ elements, (builder.buildRule rule).1 = .ok elements) ↔ Balanced rule.expr.word) ∧
      ∀ reason, (builder.buildRule rule).1 = .error reason ↔
        offenceIn rule.name .rule 0 rule.expr.word = some reason := by
  refine ⟨buildRule_ok_iff builder rule, fun reason => ?_⟩
  have hfst := buildRule_fst builder rule
  cases hword : offenceIn rule.name .rule 0 rule.expr.word with
  | none =>
    rw [hword] at hfst
    obtain ⟨elements, helements⟩ := hfst
    rw [helements]
    simp
  | some first =>
    rw [hword] at hfst
    have herror : (builder.buildRule rule).1 = .error first := hfst
    rw [herror]
    simp

-- the branch is refused before the end of the capture behind it is looked at
example : offenceIn "sum" .rule 0 (Expr.sequence [.choice [.beginCapture], .endCapture]).word =
    some (.captureAcrossScope "sum") := rfl

end Builder

end PegTemplates
