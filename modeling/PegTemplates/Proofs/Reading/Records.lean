import Mathlib.Data.List.Nodup
import PegTemplates.Proofs.Reading.Skipping

/-!
# Spellings of records

A record is written as an object or as an array. An object has the fields in any order, with
members of other names among them whose values are skipped. An array has the fields in declared
order, where only fields with a default may be missing at the end. Either way the state of the
reader depends on the names that have been read, and at the end the record is made from it.
-/

namespace PegTemplates.Json

/-- Whether a text is a record that knows the given names and has the given fields. -/
def RecordText (names : List String) (fields : List (String × Bytes)) (text : Bytes) : Prop :=
  (∃ members : List (String × Bytes), ObjectText StringText members text ∧
    (members.filter (·.1 ∈ names)).Perm fields ∧
    ∀ member ∈ members, member.1 ∉ names → AnyValue member.2) ∨
  (fields.map Prod.fst <+: names ∧ ArrayText (fields.map Prod.snd) text)

/-- A format that makes a value from fields, whose state is known by the names read so far. -/
structure Fills {σ α : Type} (format : RecordFormat σ α) (fields : List (String × Bytes))
    (value : α) (state : List String → σ) : Prop where
  /-- Nothing is read at the start. -/
  start : state [] = format.start
  /-- The format does not know a name twice. -/
  known : (format.fields.map Field.name).Nodup
  /-- No field is given twice. -/
  given : (fields.map Prod.fst).Nodup
  /-- A field that has not been read is taken. -/
  field : ∀ field ∈ format.fields, ∀ {text : Bytes}, (field.name, text) ∈ fields →
    ∀ {read : List String}, field.name ∉ read → field.filled (state read) = false ∧
      Takes (field.read (state read)) text (state (field.name :: read))
  /-- A field that is not given has a default. -/
  default : ∀ field ∈ format.fields, field.name ∉ fields.map Prod.fst → field.hasDefault = true
  /-- The value is made when all fields have been read. -/
  finish : ∀ {read : List String}, read.Perm (fields.map Prod.fst) →
    format.finish (state read) = .ok value

section Lengths

variable {text : Bytes}

/-- An element is no longer than its array. -/
theorem ArrayText.value_length_le {values : List Bytes} {value : Bytes}
    (harray : ArrayText values text) (hvalue : value ∈ values) : value.length ≤ text.length := by
  obtain ⟨inside, hseparated, henclosed⟩ := harray
  have hinside := henclosed.length_le
  have hitem := hseparated.item_length_le hvalue
  omega

/-- The value of a member is no longer than its object. -/
theorem ObjectText.value_length_le {κ : Type} {spells : κ → Bytes → Prop}
    {members : List (κ × Bytes)} {member : κ × Bytes} (hobject : ObjectText spells members text)
    (hmember : member ∈ members) : member.2.length ≤ text.length := by
  obtain ⟨items, inside, hmembers, hseparated, henclosed⟩ := hobject
  obtain ⟨item, hitem, key, before, behind, _, _, _, rfl⟩ :=
    exists_left_of_mem hmembers.flip hmember
  have hinside := henclosed.length_le
  have hlength := hseparated.item_length_le hitem
  simp only [List.length_append, List.length_cons] at hlength
  omega

/-- The value of a field is no longer than its record. -/
theorem RecordText.value_length_le {names : List String} {fields : List (String × Bytes)}
    {field : String × Bytes} (hrecord : RecordText names fields text) (hfield : field ∈ fields) :
    field.2.length ≤ text.length := by
  rcases hrecord with ⟨members, hobject, hperm, _⟩ | ⟨_, harray⟩
  · exact hobject.value_length_le (List.mem_of_mem_filter (hperm.mem_iff.mpr hfield))
  · exact harray.value_length_le (List.mem_map_of_mem hfield)

end Lengths

section Objects

variable {σ α : Type} {format : RecordFormat σ α} {fields members : List (String × Bytes)}
  {value : α} {state : List String → σ} {before after item text trail : Bytes}

/-- A key is taken where one follows. -/
theorem nextKey_gives {first : Bool} {name : String} {key : Bytes} (hkey : StringText name key)
    (hnext : Gives (hasNextKey first) before true (key ++ after)) :
    Gives (nextKey first) before (some name) after := by
  obtain ⟨pieces, hpieces, rfl⟩ := hkey
  simp only [List.cons_append, List.append_assoc, List.nil_append] at hnext
  have hname : Gives (do advance; return some (← readString))
      (quote :: (pieces.flatten ++ quote :: after)) (some name) after :=
    (advance_gives _ _).bind ((readString_gives hpieces after).bind (.pure _ _))
  exact hnext.bind (.ite_pos rfl hname)

/-- No fields are read at the end of an object. -/
theorem objectFields_end (whole : Nat) (fields : List (Field σ)) (bound : Nat) (first : Bool)
    (partialRecord : σ) (htrail : Blanks trail) (rest : Bytes) :
    Gives (objectFields whole fields (bound + 1) first partialRecord)
      (trail ++ closeBrace :: rest) partialRecord (closeBrace :: rest) := by
  have hnone : Gives (nextKey first) (trail ++ closeBrace :: rest) none (closeBrace :: rest) :=
    (hasNextKey_end first htrail).bind (.pure _ _)
  exact (hnone.within _).bind (.pure _ _)

/-- A member that nobody asked for is skipped. -/
theorem objectFields_unknown {whole : Nat} (bound : Nat) {first : Bool} {member : String × Bytes}
    (partialRecord : σ) (hitem : MemberText StringText member item)
    (hnext : Gives (hasNextKey first) before true (item ++ after)) (hafter : Follows after)
    (hname : member.1 ∉ format.fields.map Field.name) (hvalue : AnyValue member.2)
    (hlength : member.2.length ≤ whole) :
    objectFields whole format.fields (bound + 1) first partialRecord before =
      objectFields whole format.fields bound false partialRecord after := by
  obtain ⟨key, blanks, behind, hkey, hblanks, hbehind, rfl⟩ := hitem
  simp only [List.append_assoc, List.cons_append] at hnext
  have hnone : format.fields.find? (·.name == member.1) = none := by
    rw [List.find?_eq_none]
    intro field hfield hsame
    exact hname (eq_of_beq hsame ▸ List.mem_map_of_mem hfield)
  rw [objectFields]
  refine ((nextKey_gives hkey hnext).within _).run_bind.trans ?_
  dsimp only
  rw [hnone]
  refine (readColon_gives hblanks).run_bind.trans ?_
  exact (((hvalue.takes hlength).gives hbehind hafter).within _).run_bind

/-- The key of a field that has not been read leads to the value of that field. -/
theorem objectFields_key {fields : List (Field σ)} {field : Field σ} {partialRecord : σ}
    {name : String} {text : Bytes} (whole bound : Nat) {first : Bool}
    (hfind : fields.find? (·.name == name) = some field)
    (hfilled : field.filled partialRecord = false)
    (hitem : MemberText StringText (name, text) item)
    (hnext : Gives (hasNextKey first) before true (item ++ after)) :
    ∃ behind, Blanks behind ∧
      objectFields whole fields (bound + 1) first partialRecord before =
        (within (.field name) (field.read partialRecord) >>=
          objectFields whole fields bound false) (behind ++ (text ++ after)) := by
  obtain ⟨key, blanks, behind, hkey, hblanks, hbehind, rfl⟩ := hitem
  simp only [List.append_assoc, List.cons_append] at hnext
  refine ⟨behind, hbehind, ?_⟩
  rw [objectFields]
  refine ((nextKey_gives hkey hnext).within _).run_bind.trans ?_
  dsimp only
  rw [hfind]
  dsimp only
  rw [if_neg (by simp [hfilled])]
  exact (readColon_gives hblanks).run_bind

/-- A field is taken. -/
theorem objectFields_known (hfills : Fills format fields value state) (whole bound : Nat)
    {first : Bool} {member : String × Bytes} {read : List String}
    (hitem : MemberText StringText member item)
    (hnext : Gives (hasNextKey first) before true (item ++ after)) (hafter : Follows after)
    (hname : member.1 ∈ format.fields.map Field.name) (hfield : member ∈ fields)
    (hfresh : member.1 ∉ read) :
    objectFields whole format.fields (bound + 1) first (state read) before =
      objectFields whole format.fields bound false (state (member.1 :: read)) after := by
  obtain ⟨field, hfind⟩ : ∃ field, format.fields.find? (·.name == member.1) = some field := by
    obtain ⟨field, hmem, hsame⟩ := List.mem_map.mp hname
    exact Option.isSome_iff_exists.mp
      (List.find?_isSome.mpr ⟨field, hmem, beq_iff_eq.mpr hsame⟩)
  have hsame : field.name = member.1 := by simpa using List.find?_some hfind
  have hgiven : (field.name, member.2) ∈ fields := by
    rw [hsame]
    exact hfield
  obtain ⟨hfilled, htakes⟩ := hfills.field field (List.mem_of_find?_eq_some hfind) hgiven
    (hsame ▸ hfresh)
  obtain ⟨behind, hbehind, hread⟩ := objectFields_key whole bound hfind hfilled hitem hnext
  rw [hread, ← hsame]
  exact ((htakes.gives hbehind hafter).within _).run_bind

/-- Names of the members that a format knows, the latest first, in front of those read before. -/
def namesRead (names : List String) (members : List (String × Bytes)) (read : List String) :
    List String :=
  ((members.filter (·.1 ∈ names)).map Prod.fst).reverse ++ read

/-- Members that can be read one after the other when the given names have been. -/
structure Readable (names : List String) (fields : List (String × Bytes)) (whole : Nat)
    (members : List (String × Bytes)) (read : List String) : Prop where
  /-- Members with known names are fields. -/
  known : ∀ member ∈ members, member.1 ∈ names → member ∈ fields
  /-- The values of other members are well formed. -/
  unknown : ∀ member ∈ members, member.1 ∉ names →
    AnyValue member.2 ∧ member.2.length ≤ whole
  /-- No known name occurs twice. -/
  fresh : (namesRead names members read).Nodup

/-- One member is read. -/
theorem objectFields_member (hfills : Fills format fields value state) {whole : Nat} (bound : Nat)
    {first : Bool} {member : String × Bytes} {read : List String}
    (hreadable : Readable (format.fields.map Field.name) fields whole (member :: members) read)
    (hitem : MemberText StringText member item)
    (hnext : Gives (hasNextKey first) before true (item ++ after)) (hafter : Follows after) :
    ∃ next, Readable (format.fields.map Field.name) fields whole members next ∧
      namesRead (format.fields.map Field.name) members next =
        namesRead (format.fields.map Field.name) (member :: members) read ∧
      objectFields whole format.fields (bound + 1) first (state read) before =
        objectFields whole format.fields bound false (state next) after := by
  obtain ⟨hknown, hunknown, hfresh⟩ := hreadable
  obtain ⟨hfield, hfields⟩ := List.forall_mem_cons.mp hknown
  obtain ⟨hvalue, hvalues⟩ := List.forall_mem_cons.mp hunknown
  by_cases hname : member.1 ∈ format.fields.map Field.name
  · have hnames : namesRead (format.fields.map Field.name) members (member.1 :: read) =
        namesRead (format.fields.map Field.name) (member :: members) read := by
      simp only [namesRead, List.filter_cons, hname, decide_true, if_true, List.map_cons,
        List.reverse_cons, List.append_assoc, List.cons_append, List.nil_append]
    have hnew : member.1 ∉ read := by
      rw [← hnames, namesRead] at hfresh
      exact (List.nodup_cons.mp hfresh.of_append_right).1
    exact ⟨member.1 :: read, ⟨hfields, hvalues, hnames ▸ hfresh⟩, hnames,
      objectFields_known hfills whole bound hitem hnext hafter hname (hfield hname) hnew⟩
  · have hnames : namesRead (format.fields.map Field.name) members read =
        namesRead (format.fields.map Field.name) (member :: members) read := by
      simp only [namesRead, List.filter_cons, hname, decide_false, Bool.false_eq_true, if_false]
    exact ⟨read, ⟨hfields, hvalues, hnames ▸ hfresh⟩, hnames,
      objectFields_unknown bound (state read) hitem hnext hafter hname (hvalue hname).1
        (hvalue hname).2⟩

/-- A member begins with a quote. -/
theorem MemberText.quoted {member : String × Bytes} (hitem : MemberText StringText member item) :
    ∃ more, item = quote :: more := by
  obtain ⟨key, before, behind, ⟨pieces, _, rfl⟩, _, _, rfl⟩ := hitem
  exact ⟨_, rfl⟩

/-- The members that follow are read up to the end of the object. -/
theorem objectFields_following (hfills : Fills format fields value state) {whole : Nat}
    {items : List Bytes} (hfollowing : Following items text)
    (hitems : List.Forall₂ (MemberText StringText) members items) {read : List String}
    (hreadable : Readable (format.fields.map Field.name) fields whole members read)
    (htrail : Blanks trail) (rest : Bytes) {bound : Nat} (hbound : items.length < bound) :
    Gives (objectFields whole format.fields bound false (state read))
      (text ++ (trail ++ closeBrace :: rest))
      (state (namesRead (format.fields.map Field.name) members read)) (closeBrace :: rest) := by
  -- the names read so far say what the state is and that no field comes twice
  induction hfollowing generalizing members read bound with
  | nil =>
    cases hitems
    obtain ⟨bound, rfl⟩ : ∃ less, bound = less + 1 := ⟨bound - 1, by omega⟩
    exact objectFields_end whole _ bound _ _ htrail rest
  | cons hbefore hbehind hmore ih =>
    obtain _ | ⟨hitem, hitems⟩ := hitems
    obtain ⟨bound, rfl⟩ : ∃ less, bound = less + 1 := ⟨bound - 1, by omega⟩
    simp only [List.append_assoc, List.cons_append]
    obtain ⟨next, hnext, hnames, hstep⟩ := objectFields_member hfills bound hreadable hitem
      (hasNextKey_next hbefore hbehind hitem.quoted)
      (hmore.follows htrail rest (.inr (.inr rfl)))
    rw [Gives, hstep, ← hnames]
    exact ih hitems hnext (Nat.lt_of_succ_lt_succ hbound)

/-- The members of an object are read up to its end. -/
theorem objectFields_gives (hfills : Fills format fields value state) {whole : Nat}
    {items : List Bytes} {lead : Bytes} (hseparated : Separated items text)
    (hitems : List.Forall₂ (MemberText StringText) members items)
    (hreadable : Readable (format.fields.map Field.name) fields whole members [])
    (hlead : Blanks lead) (htrail : Blanks trail) (rest : Bytes) {bound : Nat}
    (hbound : items.length < bound) :
    Gives (objectFields whole format.fields bound true (state []))
      (lead ++ (text ++ (trail ++ closeBrace :: rest)))
      (state (namesRead (format.fields.map Field.name) members [])) (closeBrace :: rest) := by
  obtain ⟨bound, rfl⟩ : ∃ less, bound = less + 1 := ⟨bound - 1, by omega⟩
  cases hseparated with
  | nil =>
    cases hitems
    rw [List.nil_append, ← List.append_assoc]
    exact objectFields_end whole _ bound _ _ (hlead.append htrail) rest
  | cons hmore =>
    obtain _ | ⟨hitem, hitems⟩ := hitems
    rw [List.append_assoc]
    obtain ⟨next, hnext, hnames, hstep⟩ := objectFields_member hfills bound hreadable hitem
      (hasNextKey_first hlead hitem.quoted) (hmore.follows htrail rest (.inr (.inr rfl)))
    rw [Gives, hstep, ← hnames]
    exact objectFields_following hfills hmore hitems hnext htrail rest
      (Nat.lt_of_succ_lt_succ hbound)

end Objects

section Arrays

variable {σ α : Type} {format : RecordFormat σ α} {fields : List (String × Bytes)} {value : α}
  {state : List String → σ} {before after text trail : Bytes}

/-- Fields with a default may be missing at the end of an array. -/
theorem arrayFields_end (expected : String) {left : List (Field σ)}
    (hdefault : ∀ field ∈ left, field.hasDefault = true) (index : Nat) (partialRecord : σ)
    (htrail : Blanks trail) (rest : Bytes) :
    ∃ blanks, Blanks blanks ∧ Gives (arrayFields expected left index partialRecord)
      (trail ++ closeBracket :: rest) partialRecord (blanks ++ closeBracket :: rest) := by
  induction left generalizing index trail with
  | nil => exact ⟨trail, htrail, .pure _ _⟩
  | cons field left ih =>
    obtain ⟨hfield, hleft⟩ := List.forall_mem_cons.mp hdefault
    obtain ⟨blanks, hblanks, hrest⟩ := ih hleft (index + 1) Blanks.nil
    exact ⟨blanks, hblanks,
      (hasNextElement_end _ htrail).bind (.ite_neg (by decide) (.ite_pos hfield hrest))⟩

/-- One field of an array is read. -/
theorem arrayFields_field (hfills : Fills format fields value state) (expected : String)
    {field : Field σ} (left : List (Field σ)) (hfield : field ∈ format.fields)
    (hgiven : (field.name, text) ∈ fields) {read : List String} (hfresh : field.name ∉ read)
    (index : Nat) (hnext : Gives (hasNextElement (index = 0)) before true (text ++ after))
    (hafter : Follows after) :
    arrayFields expected (field :: left) index (state read) before =
      arrayFields expected left (index + 1) (state (field.name :: read)) after := by
  obtain ⟨_, htakes⟩ := hfills.field field hfield hgiven hfresh
  rw [arrayFields]
  refine hnext.run_bind.trans ?_
  rw [if_pos rfl]
  exact ((htakes.gives Blanks.nil hafter).within _).run_bind

/-- The fields that follow in an array are read one by one. -/
theorem arrayFields_following (hfills : Fills format fields value state) (expected : String)
    {front : List (Field σ)} (back : List (Field σ)) {given : List (String × Bytes)}
    (hfront : ∀ field ∈ front, field ∈ format.fields) (hgiven : ∀ pair ∈ given, pair ∈ fields)
    (hnames : front.map Field.name = given.map Prod.fst)
    (hfollowing : Following (given.map Prod.snd) text) {read : List String}
    (hfresh : ((given.map Prod.fst).reverse ++ read).Nodup) (htrail : Blanks trail)
    (rest : Bytes) (index : Nat) :
    ∃ reached, arrayFields expected (front ++ back) (index + 1) (state read)
        (text ++ (trail ++ closeBracket :: rest)) =
      arrayFields expected back reached (state ((given.map Prod.fst).reverse ++ read))
        (trail ++ closeBracket :: rest) := by
  induction given generalizing front text read index with
  | nil =>
    obtain rfl : front = [] := List.map_eq_nil_iff.mp hnames
    cases hfollowing
    exact ⟨index + 1, rfl⟩
  | cons pair given ih =>
    obtain ⟨name, taken⟩ := pair
    obtain _ | ⟨field, front⟩ := front
    · cases hnames
    obtain ⟨hname, hothers⟩ := List.cons.inj hnames
    obtain rfl : field.name = name := hname
    obtain ⟨hfield, hfront⟩ := List.forall_mem_cons.mp hfront
    obtain ⟨hpair, hgiven⟩ := List.forall_mem_cons.mp hgiven
    simp only [List.map_cons, List.reverse_cons, List.append_assoc, List.cons_append,
      List.nil_append] at hfresh ⊢
    have hnew : field.name ∉ read := (List.nodup_cons.mp hfresh.of_append_right).1
    cases hfollowing with
    | cons hbefore hbehind hmore =>
      have htakes := (hfills.field field hfield hpair hnew).2
      have hstep := arrayFields_field hfills expected (front ++ back) hfield hpair hnew
        (index + 1) (hasNextElement_next hbefore hbehind htakes.starts)
        (hmore.follows htrail rest (.inr (.inl rfl)))
      obtain ⟨reached, hmany⟩ := ih hfront hgiven hothers hmore hfresh (index + 1)
      simp only [List.append_assoc, List.cons_append]
      exact ⟨reached, hstep.trans hmany⟩

/-- The fields of an array are read up to its end. -/
theorem arrayFields_gives (hfills : Fills format fields value state) (expected : String)
    {lead : Bytes} (hordered : fields.map Prod.fst <+: format.fields.map Field.name)
    (hseparated : Separated (fields.map Prod.snd) text) (hlead : Blanks lead)
    (htrail : Blanks trail) (rest : Bytes) :
    ∃ blanks, Blanks blanks ∧ Gives (arrayFields expected format.fields 0 (state []))
      (lead ++ (text ++ (trail ++ closeBracket :: rest))) (state (fields.map Prod.fst).reverse)
      (blanks ++ closeBracket :: rest) := by
  obtain ⟨names, hnames⟩ := hordered
  obtain ⟨front, back, hformat, hfront, hback⟩ := List.map_eq_append_iff.mp hnames.symm
  have hdefault : ∀ field ∈ back, field.hasDefault = true := by
    intro field hfield
    refine hfills.default field (hformat ▸ List.mem_append_right _ hfield) fun hname => ?_
    have hknown := hfills.known
    rw [← hnames, ← hback, List.nodup_append] at hknown
    exact hknown.2.2 _ hname _ (List.mem_map_of_mem hfield) rfl
  have hmembers : ∀ field ∈ front, field ∈ format.fields := fun field hfield =>
    hformat ▸ List.mem_append_left _ hfield
  rw [hformat]
  obtain _ | ⟨⟨name, taken⟩, more⟩ := fields
  · obtain rfl : front = [] := List.map_eq_nil_iff.mp hfront
    cases hseparated
    rw [List.nil_append, List.nil_append, ← List.append_assoc]
    exact arrayFields_end expected hdefault 0 _ (hlead.append htrail) rest
  · obtain _ | ⟨field, front⟩ := front
    · cases hfront
    obtain ⟨hname, hothers⟩ := List.cons.inj hfront
    obtain rfl : field.name = name := hname
    obtain ⟨hfield, hmembers⟩ := List.forall_mem_cons.mp hmembers
    have hgiven : (field.name, taken) ∈ (field.name, taken) :: more := List.mem_cons_self
    have htakes := (hfills.field field hfield hgiven (List.not_mem_nil (a := field.name))).2
    cases hseparated with
    | cons hmore =>
      have hstep := arrayFields_field hfills expected (front ++ back) hfield hgiven
        List.not_mem_nil 0 (hasNextElement_first hlead htakes.starts)
        (hmore.follows htrail rest (.inr (.inl rfl)))
      have hfresh : ((more.map Prod.fst).reverse ++ [field.name]).Nodup := by
        rw [← List.reverse_cons]
        exact List.nodup_reverse.mpr hfills.given
      obtain ⟨reached, hmany⟩ := arrayFields_following hfills expected back hmembers
        (fun pair hpair => List.mem_cons_of_mem _ hpair) hothers hmore hfresh htrail rest 0
      obtain ⟨blanks, hblanks, hend⟩ := arrayFields_end expected hdefault reached
        (state ((more.map Prod.fst).reverse ++ [field.name])) htrail rest
      rw [List.append_assoc, List.map_cons, List.reverse_cons]
      exact ⟨blanks, hblanks, (hstep.trans hmany).trans hend⟩

end Arrays

section Records

variable {σ α : Type} {format : RecordFormat σ α} {fields : List (String × Bytes)} {value : α}
  {state : List String → σ} {text : Bytes}

/-- The value is made from what has been read when all fields have been. -/
theorem Fills.complete (hfills : Fills format fields value state) {read : List String}
    (hread : read.Perm (fields.map Prod.fst)) (text : Bytes) :
    Gives (format.complete (state read)) text value text := by
  rw [RecordFormat.complete, hfills.finish hread]
  exact .pure _ _

/-- Every spelling of a record is read as the record. -/
theorem readRecord_gives (hfills : Fills format fields value state) (expected : String)
    (hrecord : RecordText (format.fields.map Field.name) fields text) {bound : Nat}
    (hbound : text.length ≤ bound) {lead : Bytes} (hlead : Blanks lead) (rest : Bytes) :
    Gives (readRecord bound expected (some format)) (lead ++ (text ++ rest)) value rest := by
  rcases hrecord with ⟨members, hobject, hperm, hunknown⟩ | ⟨hordered, harray⟩
  · have hlengths : ∀ member ∈ members, member.2.length ≤ text.length := fun _ hmember =>
      hobject.value_length_le hmember
    obtain ⟨items, inside, hitems, hseparated, henclosed⟩ := hobject
    have hmany := hseparated.length_le
    have hinside := henclosed.length_le
    obtain ⟨blanks, trail, hblanks, htrail, rfl⟩ := henclosed
    have hread : (namesRead (format.fields.map Field.name) members []).Perm
        (fields.map Prod.fst) := by
      rw [namesRead, List.append_nil]
      exact (List.reverse_perm _).trans (hperm.map Prod.fst)
    have hreadable : Readable (format.fields.map Field.name) fields bound members [] :=
      ⟨fun member hmember hname => hperm.mem_iff.mp
          (List.mem_filter.mpr ⟨hmember, decide_eq_true hname⟩),
        fun member hmember hname => ⟨hunknown member hmember hname,
          Nat.le_trans (hlengths member hmember) hbound⟩,
        hread.nodup_iff.mpr hfills.given⟩
    have hrounds : items.length < bound := by omega
    have hfields := objectFields_gives hfills hseparated hitems hreadable hblanks htrail rest
      hrounds
    simp only [List.append_assoc, List.cons_append, List.nil_append]
    refine (firstByte_gives hlead (by decide)).bind (.ite_neg (by decide) (.ite_pos rfl ?_))
    refine (advance_gives _ _).bind ?_
    dsimp only
    rw [← hfills.start]
    exact hfields.bind ((hfills.complete hread _).bind ((endObject_gives rest).bind (.pure _ _)))
  · obtain ⟨inside, hseparated, henclosed⟩ := harray
    obtain ⟨_, trail, hblanks, htrail, rfl⟩ := henclosed
    simp only [List.append_assoc, List.cons_append, List.nil_append]
    refine (firstByte_gives hlead (by decide)).bind (.ite_pos rfl ?_)
    refine (advance_gives _ _).bind ?_
    dsimp only
    rw [← hfills.start]
    obtain ⟨blanks, hend, hfields⟩ :=
      arrayFields_gives hfills _ hordered hseparated hblanks htrail rest
    exact hfields.bind ((hfills.complete (List.reverse_perm _) _).bind
      ((endList_gives hend rest).bind (.pure _ _)))

/-- Every spelling of a record is taken for the record. -/
theorem RecordText.takes (hfills : Fills format fields value state) (expected : String)
    (hrecord : RecordText (format.fields.map Field.name) fields text) {bound : Nat}
    (hbound : text.length ≤ bound) :
    Takes (readRecord bound expected (some format)) text value := by
  refine ⟨?_, fun hlead _ => readRecord_gives hfills expected hrecord hbound hlead _⟩
  rcases hrecord with ⟨_, hobject, _⟩ | ⟨_, harray⟩
  · exact hobject.starts
  · exact harray.starts

end Records

end PegTemplates.Json
