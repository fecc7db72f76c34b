import Mathlib.Data.List.Induction
import Mathlib.Data.List.Nodup
import PegTemplates.Proofs.Building.Registration

/-!
# Histories of registrations

Shapes and bodies of rules may be registered in any order, with any names and with captures of
numbers that no shape has yet. What is on record after such a history is read off the history
here: a shape by the call that registered it and its name by that call or the first later body
that consists of the shape alone, a body by the last call for its rule, and the rules in the
order of their first calls.
-/

namespace PegTemplates

/-- A call that registers something. -/
inductive Registration where
  /-- A shape is registered, with a name or without one. -/
  | shape (elements : List Element) (name : Option String)
  /-- The body of a rule is registered. -/
  | rule (name : String) (elements : List Element)

namespace Registration

/-- The registry after a call. -/
def apply (registry : Registry) : Registration → Registry
  | .shape elements name => registry.register elements name
  | .rule name elements => registry.registerRule name elements

/-- Whether the call registers a shape. -/
def isShape : Registration → Bool
  | .shape _ _ => true
  | .rule _ _ => false

/-- The name of the rule of which the call registers the body. -/
def ruleName? : Registration → Option String
  | .shape _ _ => none
  | .rule name _ => some name

/-- The body that the call registers for the rule of that name. -/
def bodyOf? (rule : String) : Registration → Option (List Element)
  | .shape _ _ => none
  | .rule name elements => if name = rule then some elements else none

/-- The name that the call has for the shape of that number: that of a rule whose body is the
shape alone. -/
def nameOf? (id : ShapeId) : Registration → Option String
  | .rule name [.captured other] => if other = id then some name else none
  | _ => none

end Registration

/-- The registry after some more calls. -/
def Registry.after (registry : Registry) (calls : List Registration) : Registry :=
  calls.foldl Registration.apply registry

/-- The registry that calls make of an empty one. -/
def Registry.ofHistory (history : List Registration) : Registry := Registry.empty.after history

/-- Number of shapes that are registered in a history. -/
def shapesIn (history : List Registration) : Nat := history.countP Registration.isShape

/-- The name that calls have for the shape of that number, the first of them that has one. -/
def firstName? (id : ShapeId) (calls : List Registration) : Option String :=
  calls.findSome? (Registration.nameOf? id)

/-- The body that calls register for the rule of that name, the last of them that has one. -/
def lastBody? (rule : String) (calls : List Registration) : Option (List Element) :=
  calls.reverse.findSome? (Registration.bodyOf? rule)

/-- Names of the rules of which calls register bodies, in order. -/
def ruleNames (calls : List Registration) : List String := calls.filterMap Registration.ruleName?

namespace Registration

variable (registry : Registry)

/-- A call adds a shape if it registers one. -/
theorem size_apply (call : Registration) :
    (call.apply registry).size = registry.size + if call.isShape then 1 else 0 := by
  cases call with
  | shape elements name => simp [apply, isShape, Registry.register, Registry.size]
  | rule name elements => exact Registry.size_registerRule registry name elements

/-- The name that a body has for a shape is that of its rule if it is the shape alone. -/
theorem nameOf?_rule (id : ShapeId) (name : String) (elements : List Element) :
    nameOf? id (.rule name elements) =
      if Registry.soleCapture elements = some id then some name else none := by
  unfold nameOf? Registry.soleCapture
  split <;> simp_all

/-- A call keeps a shape, which takes the name that the call has for it if it has none so far. -/
theorem shape?_apply (call : Registration) {id : ShapeId} {shape : Shape}
    (hshape : registry.shape? id = some shape) :
    (call.apply registry).shape? id =
      some { shape with name := shape.name <|> call.nameOf? id } := by
  have hlt : id < registry.shapes.length := (List.getElem?_eq_some_iff.mp hshape).1
  cases call with
  | shape elements name =>
    have hkept : (registry.register elements name).shape? id = registry.shape? id :=
      List.getElem?_append_left hlt
    have hname : (shape.name <|> nameOf? id (.shape elements name)) = shape.name := by
      simp [nameOf?]
    rw [apply, hkept, hshape, hname]
  | rule name elements =>
    rw [apply, nameOf?_rule, Registry.shape?, Registry.registerRule]
    dsimp only
    cases hsole : Registry.soleCapture elements with
    | none =>
      have hname : (shape.name <|> if (none : Option ShapeId) = some id then some name else none) =
          shape.name := by simp
      rw [hname]
      exact hshape
    | some other =>
      have hmodified : (registry.shapes.modify other (Shape.nameOnce name))[id]? =
          some (if other = id then shape.nameOnce name else shape) := by
        have hfound : registry.shapes[id]? = some shape := hshape
        rw [List.getElem?_modify, hfound]
        rfl
      dsimp only
      rw [hmodified]
      by_cases hother : other = id
      · rw [if_pos hother, hother, if_pos rfl, Shape.nameOnce]
      · have hnames : ¬ some other = some id := fun hsame => hother (Option.some.inj hsame)
        have hname : (shape.name <|> none) = shape.name := by simp
        rw [if_neg hother, if_neg hnames, hname]

/-- A call that registers a body for a rule is the one that counts for it from then on. -/
theorem body?_apply (call : Registration) (rule : String) :
    (call.apply registry).body? rule =
      ((call.bodyOf? rule).map (RuleBody.mk rule) <|> registry.body? rule) := by
  cases call with
  | shape elements name => rfl
  | rule name elements =>
    rw [apply, Registry.body?_registerRule, bodyOf?]
    by_cases hname : name = rule
    · rw [if_pos hname, if_pos hname, hname]
      rfl
    · rw [if_neg hname, if_neg hname]
      rfl

end Registration

namespace Registry

/-- A body that is put among others keeps their names in order, and brings its own if it is new. -/
theorem names_putBody (body : RuleBody) (rules : List RuleBody) :
    (putBody body rules).map RuleBody.name =
      if body.name ∈ rules.map RuleBody.name then rules.map RuleBody.name
      else rules.map RuleBody.name ++ [body.name] := by
  induction rules with
  | nil => rfl
  | cons first rest ih =>
    rw [putBody]
    by_cases hfirst : first.name = body.name
    · rw [if_pos hfirst, List.map_cons, List.map_cons, hfirst, if_pos List.mem_cons_self]
    · have hmem : body.name ∈ (first :: rest).map RuleBody.name ↔
          body.name ∈ rest.map RuleBody.name := by
        rw [List.map_cons, List.mem_cons]
        exact or_iff_right (Ne.symm hfirst)
      rw [if_neg hfirst, List.map_cons, ih]
      by_cases hrest : body.name ∈ rest.map RuleBody.name
      · rw [if_pos hrest, if_pos (hmem.mpr hrest), List.map_cons]
      · rw [if_neg hrest, if_neg fun hthere => hrest (hmem.mp hthere), List.map_cons,
          List.cons_append]

/-- A name behind others is a duplicate if it is one of them. -/
theorem eraseDups_concat (names : List String) (name : String) :
    (names ++ [name]).eraseDups =
      if name ∈ names then names.eraseDups else names.eraseDups ++ [name] := by
  rw [List.eraseDups_append]
  by_cases hknown : name ∈ names
  · have hremoved : [name].removeAll names = [] := by simp [List.removeAll, hknown]
    rw [if_pos hknown, hremoved, List.eraseDups_nil, List.append_nil]
  · have hkept : [name].removeAll names = [name] := by simp [List.removeAll, hknown]
    rw [if_neg hknown, hkept]
    rfl

/-- A call after other calls is applied to what they have made. -/
theorem after_concat (registry : Registry) (calls : List Registration) (call : Registration) :
    registry.after (calls ++ [call]) = call.apply (registry.after calls) := by
  rw [after, List.foldl_append]
  rfl

/-- Every shape registered adds one to the size. -/
theorem size_after (registry : Registry) (calls : List Registration) :
    (registry.after calls).size = registry.size + shapesIn calls := by
  induction calls generalizing registry with
  | nil => rfl
  | cons call rest ih =>
    have hsize := call.size_apply registry
    have hafter : registry.after (call :: rest) = (call.apply registry).after rest := rfl
    rw [hafter, ih, hsize, shapesIn, shapesIn, List.countP_cons]
    omega

/-- Calls keep a shape, which takes the first name that they have for it if it has none so far. -/
theorem shape?_after (registry : Registry) (calls : List Registration) {id : ShapeId}
    {shape : Shape} (hshape : registry.shape? id = some shape) :
    (registry.after calls).shape? id =
      some { shape with name := shape.name <|> firstName? id calls } := by
  -- The first call may name the shape, so the rest is applied to another shape of that number.
  induction calls generalizing registry shape with
  | nil =>
    have hname : (shape.name <|> firstName? id []) = shape.name := by simp [firstName?]
    rw [hname]
    exact hshape
  | cons call rest ih =>
    have hafter : registry.after (call :: rest) = (call.apply registry).after rest := rfl
    have hfirst : firstName? id (call :: rest) = (call.nameOf? id <|> firstName? id rest) := by
      rw [firstName?, List.findSome?_cons]
      cases call.nameOf? id <;> rfl
    have hname : ((shape.name <|> call.nameOf? id) <|> firstName? id rest) =
        (shape.name <|> firstName? id (call :: rest)) := by
      rw [hfirst]
      cases shape.name <;> rfl
    rw [hafter, ih (call.apply registry) (call.shape?_apply registry hshape)]
    dsimp only
    rw [hname]

/-- The body of a rule is that of the last call for it, or the one from before. -/
theorem body?_after (registry : Registry) (calls : List Registration) (rule : String) :
    (registry.after calls).body? rule =
      ((lastBody? rule calls).map (RuleBody.mk rule) <|> registry.body? rule) := by
  induction calls using List.reverseRecOn with
  | nil => rfl
  | append_singleton calls call ih =>
    have hlast : lastBody? rule (calls ++ [call]) =
        (call.bodyOf? rule <|> lastBody? rule calls) := by
      rw [lastBody?, List.reverse_append, List.reverse_singleton, List.singleton_append,
        List.findSome?_cons]
      cases call.bodyOf? rule <;> rfl
    rw [after_concat, call.body?_apply, ih, hlast]
    cases call.bodyOf? rule <;> rfl

/-- Rules are listed in the order of the first calls for them. -/
theorem names_ofHistory (history : List Registration) :
    (ofHistory history).rules.map RuleBody.name = (ruleNames history).eraseDups := by
  -- From the end of the history, because a new rule comes behind those that are listed.
  induction history using List.reverseRecOn with
  | nil => rfl
  | append_singleton history call ih =>
    rw [ofHistory, after_concat, ruleNames, List.filterMap_append]
    cases call with
    | shape elements name =>
      have hnone : [Registration.shape elements name].filterMap Registration.ruleName? = [] := rfl
      rw [hnone, List.append_nil]
      exact ih
    | rule name elements =>
      have hone : [Registration.rule name elements].filterMap Registration.ruleName? = [name] := rfl
      have hnames := names_putBody ⟨name, elements⟩ (ofHistory history).rules
      simp only [ih, List.mem_eraseDups] at hnames
      rw [hone, eraseDups_concat]
      exact hnames

/-- No rule is listed twice. -/
theorem nodup_names_ofHistory (history : List Registration) :
    ((ofHistory history).rules.map RuleBody.name).Nodup := by
  rw [names_ofHistory]
  exact nodup_eraseDups _

/-- The rules are listed with the bodies that are found by their names. -/
theorem rules_ofHistory (history : List Registration) :
    (ofHistory history).rules.map some =
      (ruleNames history).eraseDups.map (ofHistory history).body? := by
  rw [← names_ofHistory, List.map_map]
  refine List.map_congr_left fun body hbody => ?_
  exact ((find?_name_eq_some_iff (nodup_names_ofHistory history)).mpr ⟨hbody, rfl⟩).symm

/-- A registry that a history makes comes from registrations. -/
theorem ofHistory_recorded (history : List Registration) : (ofHistory history).Recorded := by
  induction history using List.reverseRecOn with
  | nil => exact .empty
  | append_singleton history call ih =>
    rw [ofHistory, after_concat]
    cases call with
    | shape elements name => exact .register elements name ih
    | rule name elements => exact .registerRule name elements ih

/-- A rule has no body exactly if no call is for it. -/
theorem lastBody?_eq_none_iff (rule : String) (history : List Registration) :
    lastBody? rule history = none ↔ ∀ elements, .rule rule elements ∉ history := by
  rw [lastBody?, List.findSome?_eq_none_iff]
  constructor
  · intro hnone elements hcall
    have hbody := hnone (.rule rule elements) (List.mem_reverse.mpr hcall)
    rw [Registration.bodyOf?, if_pos rfl] at hbody
    cases hbody
  · intro hnever call hcall
    cases call with
    | shape elements name => rfl
    | rule name elements =>
      have hother : name ≠ rule := by
        rintro rfl
        exact hnever elements (List.mem_reverse.mp hcall)
      exact if_neg hother

/-- The body of a rule is that of the last call for it. -/
theorem body?_ofHistory (history : List Registration) (rule : String) :
    (ofHistory history).body? rule = (lastBody? rule history).map (RuleBody.mk rule) := by
  have hbody := empty.body?_after history rule
  have hempty : empty.body? rule = none := rfl
  rw [hempty] at hbody
  rw [ofHistory, hbody]
  cases lastBody? rule history <;> rfl

/-- A rule stands for a shape exactly if its body is that shape alone, and the shape is
registered. -/
theorem Numbered.shapeOfRule?_eq_some_iff {registry : Registry} (hnumbered : registry.Numbered)
    {rule : String} {shape : Shape} :
    registry.shapeOfRule? rule = some shape ↔
      (registry.body? rule).map RuleBody.elements = some [.captured shape.id] ∧
        registry.shape? shape.id = some shape := by
  unfold shapeOfRule?
  constructor
  · intro hshape
    obtain ⟨body, hbody, hrest⟩ := Option.bind_eq_some_iff.mp hshape
    obtain ⟨id, hsole, hfound⟩ := Option.bind_eq_some_iff.mp hrest
    have hid := hnumbered.id_of_shape? hfound
    have helements := soleCapture_eq_some_iff.mp hsole
    rw [hbody, Option.map_some, helements, hid]
    exact ⟨rfl, hfound⟩
  · rintro ⟨hbody, hfound⟩
    obtain ⟨body, hrule, helements⟩ := Option.map_eq_some_iff.mp hbody
    have hsole := soleCapture_eq_some_iff.mpr helements
    exact Option.bind_eq_some_iff.mpr ⟨body, hrule, Option.bind_eq_some_iff.mpr
      ⟨shape.id, hsole, hfound⟩⟩

/-- What is on record after any history of registrations. The shape of a number is the one that
the call of that number among those for shapes has registered, with the elements given there; its
name is the one given there or else the first that a later body of this shape alone has for it,
and it is registered exactly if there are more such calls. Whatever is registered afterwards, a
shape keeps its elements, and its name once it has one. The body of a rule is that of the last
call for it, and the rule is undefined exactly if there is none. Rules are listed once each, in
the order of the first calls for them, with their bodies. A rule stands for a shape exactly if
its body is the capture of that shape alone and the shape is registered. -/
theorem ofHistory_keeps (history : List Registration) :
    (∀ before elements name calls, history = before ++ .shape elements name :: calls →
      (ofHistory history).shape? (shapesIn before) = some
        ⟨shapesIn before, name <|> firstName? (shapesIn before) calls, elements⟩) ∧
      (∀ id, (ofHistory history).shape? id = none ↔ shapesIn history ≤ id) ∧
      (∀ more id shape, (ofHistory history).shape? id = some shape →
        (ofHistory (history ++ more)).shape? id =
          some { shape with name := shape.name <|> firstName? id more }) ∧
      (∀ rule, (ofHistory history).body rule =
        match lastBody? rule history with
        | some elements => .ok ⟨rule, elements⟩
        | none => .error (.undefinedRule rule)) ∧
      (∀ rule, (ofHistory history).body rule = .error (.undefinedRule rule) ↔
        ∀ elements, .rule rule elements ∉ history) ∧
      (ofHistory history).rules.map RuleBody.name = (ruleNames history).eraseDups ∧
      ((ofHistory history).rules.map RuleBody.name).Nodup ∧
      (ofHistory history).rules.map some =
        (ruleNames history).eraseDups.map (ofHistory history).body? ∧
      (∀ rule shape, (ofHistory history).shapeOfRule? rule = some shape ↔
        (ofHistory history).body rule = .ok ⟨rule, [.captured shape.id]⟩ ∧
          (ofHistory history).shape? shape.id = some shape) := by
  have hsize : ∀ calls, (ofHistory calls).size = shapesIn calls := fun calls =>
    (empty.size_after calls).trans (Nat.zero_add _)
  have hafter : ∀ first next, ofHistory (first ++ next) = (ofHistory first).after next :=
    fun _ _ => List.foldl_append
  have hbody : ∀ rule, (ofHistory history).body rule =
      match lastBody? rule history with
      | some elements => .ok ⟨rule, elements⟩
      | none => .error (.undefinedRule rule) := by
    intro rule
    rw [body, body?_ofHistory]
    cases lastBody? rule history <;> rfl
  refine ⟨?_, ?_, ?_, hbody, ?_, names_ofHistory history, nodup_names_ofHistory history,
    rules_ofHistory history, ?_⟩
  · rintro before elements name calls rfl
    have hshape := (ofHistory before).shape?_register elements name
    rw [hsize] at hshape
    rw [hafter]
    exact shape?_after ((ofHistory before).register elements name) calls hshape
  · intro id
    rw [← hsize]
    exact List.getElem?_eq_none_iff
  · intro more id shape hshape
    rw [hafter]
    exact (ofHistory history).shape?_after more hshape
  · intro rule
    rw [hbody, ← lastBody?_eq_none_iff]
    cases lastBody? rule history <;> simp
  · intro rule shape
    have hnumbered := (ofHistory_recorded history).numbered
    rw [hnumbered.shapeOfRule?_eq_some_iff, body?_ofHistory, hbody]
    cases lastBody? rule history <;> simp

/-- A body mentions a shape before it is registered, which gives it no name; two later ones
consist of it alone, of which the first names it; and a rule gets another body. -/
theorem ofHistory_keeps_first_name :
    let leaf : Shape := ⟨0, some "Leaf", [.tag "Leaf"]⟩
    let before : List Registration := [.rule "Early" [.captured 0]]
    let calls : List Registration :=
      [.rule "Leaf" [.captured 0], .rule "Early" [.byte 97], .rule "Late" [.captured 0]]
    let history := before ++ .shape [.tag "Leaf"] none :: calls
    let more : List Registration := [.rule "Last" [.captured 0]]
    (ofHistory history).shape? 0 = some leaf ∧
      (ofHistory (history ++ more)).shape? 0 = some leaf ∧
      (ofHistory history).body "Early" = .ok ⟨"Early", [.byte 97]⟩ ∧
      (ofHistory history).rules.map RuleBody.name = ["Early", "Leaf", "Late"] ∧
      (ofHistory history).shapeOfRule? "Late" = some leaf := by
  intro leaf before calls history more
  obtain ⟨hregistered, _, hkept, hbody, _, hnames, _, _, hsole⟩ := ofHistory_keeps history
  have hleaf : (ofHistory history).shape? 0 = some leaf :=
    hregistered before [.tag "Leaf"] none calls rfl
  have hlate : (ofHistory history).body "Late" = .ok ⟨"Late", [.captured 0]⟩ := hbody "Late"
  exact ⟨hleaf, hkept more 0 leaf hleaf, hbody "Early", hnames, (hsole "Late" leaf).mpr
    ⟨hlate, hleaf⟩⟩

end Registry

end PegTemplates
