import PegTemplates.Proofs.Building.Enclosing
import PegTemplates.Proofs.Expanding.Rounds

/-!
# Left folds at the end of a rule

A left fold that is the whole body of an option, a repetition or a link at the end of a rule
opens a node with the last element in front of it, the head, as its first child. What stands in
the rule instead is the node or, where there may be no round, the node or the head. In a
repetition the first child of the node is the node of the round before or the head.
-/

namespace PegTemplates

/-- A scope without the head that a fold has taken out of it. -/
def Scope.headless (scope : Scope) : Scope := { scope with elements := scope.elements.dropLast }

namespace Wrapper

/-- The scope of a wrapper in which a fold with that head comes first. -/
def marked (head : Option Element) (wrapper : Wrapper) : Scope := ⟨wrapper.kind, [], some ⟨head⟩⟩

/-- What the link in front of a folded node leads to in a wrapper around the fold. -/
def firstChild (id : ShapeId) (head : Option Element) (wrapper : Wrapper) : List Element :=
  if wrapper.kind = .repeated then [.choice [[.captured id], head.toList]] else head.toList

/-- What a wrapper around a left fold leaves in place of the head. -/
def folded (id : ShapeId) (head : Option Element) : Wrapper → List Element
  | optional | zeroOrMore => [.choice [[.captured id], head.toList]]
  | oneOrMore => [.captured id]
  | link label => [.linked label [.captured id]]

/-- A wrapper whose scope holds a folded node alone. -/
theorem around_marked (id : ShapeId) (head : Option Element) (wrapper : Wrapper) :
    wrapper.around ((wrapper.marked head).append [.captured id]) = wrapper.folded id head := by
  cases wrapper <;> rfl

/-- The node of a fold that closes in a wrapper begins with the link to its first child. -/
theorem closedElements_marked (id : ShapeId) (label : Option String) (head : Option Element)
    (inner : List Element) (wrapper : Wrapper) :
    Walk.closedElements ⟨.foldCapture, .linked label head.toList :: inner, none⟩
        (wrapper.marked head) id = .linked label (wrapper.firstChild id head) :: inner := by
  cases wrapper <;> rfl

end Wrapper

/-- A fold that comes first in a scope of its own takes the last element of the scope around. -/
theorem Walk.openFold_enter {walk : Walk} (hsingle : walk.enclosing = []) (wrapper : Wrapper)
    (label : Option String) :
    (walk.enter (.opened wrapper.kind)).openFold label =
      ⟨walk.toBuilder, ⟨.foldCapture, [.linked label walk.current.elements.getLast?.toList], none⟩,
        [wrapper.marked walk.current.elements.getLast?, walk.current.headless]⟩ := by
  have htake : (walk.enter (.opened wrapper.kind)).takeHead =
      (walk.current.elements.getLast?,
        ⟨walk.toBuilder, .opened wrapper.kind, [walk.current.headless]⟩) := by
    have hempty : (Scope.opened wrapper.kind).takeLast? = none := rfl
    simp only [takeHead, enter, hempty, hsingle, takeNearest_singleton, Scope.headless]
  rw [openFold, htake]
  rfl

namespace Builder

variable {builder begun middle : Builder} {name : String} {items : List Expr}
  {inner : List Element}

/-- A left fold opens its node, goes through its items and closes the node. -/
theorem run_visit_leftFold {walk closing after : Walk} {label : Option String}
    (hitems : (visitItems name items).run (walk.openFold label) = .ok () closing)
    (hclose : (closeCapture name).run closing = .ok () after) :
    (visit name (.leftFold label items)).run walk = .ok () after := by
  have hopen : (visit name (.fold label)).run walk = .ok () (walk.openFold label) := rfl
  have hend : (visitItems name [.endCapture]).run closing = .ok () after :=
    visitItems_cons_eq_ok.mpr ⟨after, hclose, rfl⟩
  exact visitItems_cons_eq_ok.mpr
    ⟨walk.openFold label, hopen, visitItems_append_eq_ok.mpr ⟨closing, hitems, hend⟩⟩

/-- A left fold in a wrapper behind a single scope: its node is registered, and that scope is
left without the head. -/
theorem isolated_leftFold {walk : Walk} (hsingle : walk.enclosing = [])
    (hregistry : walk.registry = begun.registry) (hsite : walk.nextSite = begun.nextSite)
    (hnone : (Expr.sequence items).hasFold = false)
    (hbuild : begun.buildRule ⟨name, .sequence items⟩ = (.ok inner, middle))
    (label : Option String) (wrapper : Wrapper) :
    ∃ last, (isolated name wrapper.kind (visit name (.leftFold label items))).run walk =
        .ok ((wrapper.marked walk.current.elements.getLast?).append
          [.captured middle.registry.size]) last ∧
      last.scopes = [walk.current.headless] ∧
      last.registry = middle.registry.register (.linked label (wrapper.firstChild
        middle.registry.size walk.current.elements.getLast?) :: inner) none := by
  have hopened := walk.openFold_enter hsingle wrapper label
  obtain ⟨closing, hitems, hscopes, hshapes, _⟩ := visit_of_buildRule name hnone hbuild
    ((walk.enter (.opened wrapper.kind)).openFold label)
    (by rw [hopened]; exact fun hkind => nomatch hkind) (by rw [hopened]; exact hregistry)
    (by rw [hopened]; exact hsite)
  rw [hopened] at hscopes
  obtain ⟨hcurrent, henclosing⟩ := List.cons.inj hscopes
  have hcapture : closing.current.kind.isCapture = true := by
    rw [hcurrent]
    rfl
  have hvisit := run_visit_leftFold hitems
    (closeCapture_eq_ok.mpr ⟨hcapture, _, _, henclosing, rfl⟩)
  have hnode := wrapper.closedElements_marked middle.registry.size label
    walk.current.elements.getLast? inner
  let closed := closing.closeInto (wrapper.marked walk.current.elements.getLast?)
    [walk.current.headless]
  have hended : closed = (closed.leave walk.current.headless []).enter
      ((wrapper.marked walk.current.elements.getLast?).append
        [.captured middle.registry.size]) := by
    rw [← hshapes]
    rfl
  have hcount : (closed.leave walk.current.headless []).enclosing.length =
      walk.enclosing.length := by
    rw [hsingle]
    rfl
  refine ⟨closed.leave walk.current.headless [],
    isolated_eq_ok.mpr ⟨hvisit.trans (congrArg _ hended), hcount⟩, rfl, ?_⟩
  change closing.registry.register
    (Walk.closedElements closing.current _ closing.registry.size) none = _
  rw [hshapes, hcurrent]
  exact congrArg (middle.registry.register · none) hnode

/-- A left fold in a wrapper at the end of a rule that has been built up to there, its items
balanced and without folds of their own. The rule is built. The node of the fold gets the next
number behind what its items come to, and begins with a link to its first child: the head, that
is the last element in front of the fold, or in a repetition the node itself or the head. In
place of the head stands what the wrapper leaves. What the link of a repetition reaches is the
node, with no text around it, and then what is reached from the head besides. -/
theorem buildRule_leftFold {pre : List Expr} {before : List Element}
    (hpre : builder.buildRule ⟨name, .sequence pre⟩ = (.ok before, begun))
    (hbalanced : Balanced (Expr.sequence items).word)
    (hnone : (Expr.sequence items).hasFold = false) (label : Option String) (wrapper : Wrapper) :
    ∃ (inner : List Element) (middle after : Builder) (id : ShapeId),
      begun.buildRule ⟨name, .sequence items⟩ = (.ok inner, middle) ∧ id = middle.registry.size ∧
      builder.buildRule ⟨name, .sequence (pre ++ [wrapper.expr (.leftFold label items)])⟩ =
        (.ok (before.dropLast ++ wrapper.folded id before.getLast?), after) ∧
      after.registry = middle.registry.register
        (.linked label (wrapper.firstChild id before.getLast?) :: inner) none ∧
      after.registry.shape? id =
        some ⟨id, none, .linked label (wrapper.firstChild id before.getLast?) :: inner⟩ ∧
      (wrapper.kind = .repeated → ∀ (registry : Registry) (inners : List LinkedInner),
        registry.linkedInners before.getLast?.toList = .ok inners →
        registry.linkedInners (wrapper.firstChild id before.getLast?) =
          .ok (.ofCapture id :: inners.filter (·.capture ≠ some id))) := by
  obtain ⟨walk, hwalk, hsingle, rfl, hbegun⟩ := buildRule_eq_ok.mp hpre
  have hshapes : walk.registry = begun.registry := by
    rw [← hbegun]
    rfl
  have hsites : walk.nextSite = begun.nextSite := by
    rw [← hbegun]
    rfl
  obtain ⟨inner, middle, hbuild⟩ : ∃ inner middle,
      begun.buildRule ⟨name, .sequence items⟩ = (.ok inner, middle) := by
    obtain ⟨inner, hinner⟩ := (buildRule_ok_iff begun ⟨name, .sequence items⟩).mpr hbalanced
    exact ⟨inner, _, Prod.ext hinner rfl⟩
  obtain ⟨last, hisolated, hscopes, hregistry⟩ :=
    isolated_leftFold hsingle hshapes hsites hnone hbuild label wrapper
  obtain ⟨hcurrent, hlast⟩ := List.cons.inj hscopes
  let folded := wrapper.folded middle.registry.size walk.current.elements.getLast?
  have hwrapper : (visit name (wrapper.expr (.leftFold label items))).run walk =
      .ok () (last.append folded) :=
    visit_wrapper_eq_ok.mpr
      ⟨_, last, hisolated, congrArg last.append (wrapper.around_marked _ _)⟩
  have hwhole : (visitItems name (pre ++ [wrapper.expr (.leftFold label items)])).run
      (.start builder) = .ok () (last.append folded) :=
    visitItems_append_eq_ok.mpr
      ⟨walk, hwalk, visitItems_cons_eq_ok.mpr ⟨_, hwrapper, rfl⟩⟩
  have helements : (last.append folded).current.elements =
      walk.current.elements.dropLast ++ folded := by
    rw [Walk.append, hcurrent]
    rfl
  refine ⟨inner, middle, _, _, hbuild, rfl,
    buildRule_eq_ok.mpr ⟨_, hwhole, hlast, helements, rfl⟩, hregistry, ?_, ?_⟩
  · change last.registry.shape? _ = _
    rw [hregistry]
    exact middle.registry.shape?_register _ none
  · intro hrepeated registry inners hhead
    rw [Wrapper.firstChild, if_pos hrepeated]
    exact Registry.linkedInners_choice hhead _

/-- A sum in a repetition: the node of its right side closes first, and the sum begins with the
sum before it or the first product. With products that are nodes, both are reached. -/
theorem buildRule_leftFold_of_sum :
    let items : List Expr :=
      [.byte 43, .link (some "right") (.capture [.nonTerminal "product"]), .tag "Sum"]
    let previous : Element := .choice [[.captured 1], [.nonTerminal "product" ⟨0⟩]]
    let products : Registry := ⟨[⟨0, none, []⟩], [⟨"product", [.captured 0]⟩]⟩
    Balanced (Expr.sequence items).word ∧ (Expr.sequence items).hasFold = false ∧
    ∃ after, Builder.fresh.buildRule ⟨"sum", .sequence ([.tag "Sums", .nonTerminal "product"] ++
        [Wrapper.zeroOrMore.expr (.leftFold (some "left") items)])⟩ =
          (.ok [.tag "Sums", previous], after) ∧
      after.registry.shape? 1 = some ⟨1, none, [.linked (some "left") [previous], .byte 43,
        .linked (some "right") [.captured 0], .tag "Sum"]⟩ ∧
      products.linkedInners [.nonTerminal "product" ⟨0⟩] = .ok [.ofCapture 0] ∧
      products.linkedInners [previous] = .ok [.ofCapture 1, .ofCapture 0] := by
  intro items previous products
  have hbalanced : Balanced (Expr.sequence items).word := .part (.node .nil .nil) .nil
  have hpre : Builder.fresh.buildRule
      ⟨"sum", .sequence [.tag "Sums", .nonTerminal "product"]⟩ =
        (.ok [.tag "Sums", .nonTerminal "product" ⟨0⟩], _) := rfl
  have hhead : products.linkedInners [.nonTerminal "product" ⟨0⟩] = .ok [.ofCapture 0] := rfl
  obtain ⟨inner, middle, after, id, hitems, rfl, hrule, _, hshape, hlinks⟩ :=
    buildRule_leftFold hpre hbalanced rfl (some "left") .zeroOrMore
  cases hitems
  exact ⟨hbalanced, rfl, after, hrule, hshape, hhead, hlinks rfl products _ hhead⟩

end Builder

end PegTemplates
