import PegTemplates.Json.Scalar

/-!
# Steps of a reader

A reader gives a value on a text and leaves what stands behind it. Readers are run one after the
other on the text that is left. Blanks in front of a value are skipped, and what stands behind a
value begins neither with a digit nor with anything else that a number could go on with.
-/

namespace PegTemplates.Json

/-- Whether a reader gives a value on a text and leaves another one. -/
def Gives {α : Type} (read : ReadM α) (before : Bytes) (value : α) (after : Bytes) : Prop :=
  read before = .ok (value, after)

/-- Whether a text consists of blanks. -/
def Blanks (text : Bytes) : Prop := ∀ b ∈ text, isBlank b = true

/-- Whether a number ends in front of a text. -/
def Follows (rest : Bytes) : Prop :=
  ∀ b ∈ rest.head?, isDigit b = false ∧ b ≠ point ∧ isExponentMark b = false

/-- Whether a text begins as a value does. -/
def Starts (text : Bytes) : Prop :=
  ∃ b more, text = b :: more ∧ isBlank b = false ∧ b ≠ closeBracket ∧ b ≠ closeBrace

/-- Whether a reader takes a text for a value, whatever blanks stand in front of it and wherever
the text goes on behind it. -/
structure Takes {α : Type} (read : ReadM α) (text : Bytes) (value : α) : Prop where
  /-- The text begins as a value does. -/
  starts : Starts text
  /-- The value is given, and what is behind it is left. -/
  gives : ∀ {lead rest : Bytes}, Blanks lead → Follows rest →
    Gives read (lead ++ (text ++ rest)) value rest

/-- Two readers that come to the same on their texts are followed by the same. -/
theorem bind_run_congr {α β : Type} {read other : ReadM α} {before behind : Bytes}
    (next : α → ReadM β) (hsame : read before = other behind) :
    (read >>= next) before = (other >>= next) behind := by
  change Except.bind (read before) (fun pair => next pair.1 pair.2) =
    Except.bind (other behind) (fun pair => next pair.1 pair.2)
  rw [hsame]

namespace Gives

variable {α β : Type} {read : ReadM α} {before middle after : Bytes} {value : α}

/-- A value is given without reading. -/
theorem pure (value : α) (text : Bytes) : Gives (return value) text value text := rfl

/-- What is read next is read from what a reader leaves. -/
theorem run_bind {next : α → ReadM β} (hread : Gives read before value middle) :
    (read >>= next) before = next value middle := by
  change Except.bind (read before) (fun pair => next pair.1 pair.2) = _
  rw [hread]
  rfl

/-- A reader goes on where another one has stopped. -/
theorem bind {next : α → ReadM β} {result : β} (hread : Gives read before value middle)
    (hnext : Gives (next value) middle result after) :
    Gives (read >>= next) before result after :=
  hread.run_bind.trans hnext

/-- The text that is left is looked at. -/
theorem get_bind {next : Bytes → ReadM β} {result : β}
    (hnext : Gives (next before) before result after) :
    Gives (get >>= next) before result after := hnext

/-- The text that is left is replaced. -/
theorem set_bind {next : Unit → ReadM β} {result : β}
    (hnext : Gives (next ()) middle result after) :
    Gives (set middle >>= next) before result after := hnext

/-- What is given one level further down is given. -/
theorem within (segment : Segment) (hread : Gives read before value after) :
    Gives (Json.within segment read) before value after := by
  rw [Gives, Json.within, hread]

/-- A branch that is taken is read. -/
theorem ite_pos {condition : Prop} [Decidable condition] {other : ReadM α} (hcondition : condition)
    (hread : Gives read before value after) :
    Gives (if condition then read else other) before value after := by
  rwa [if_pos hcondition]

/-- A branch that is not taken is passed over. -/
theorem ite_neg {condition : Prop} [Decidable condition] {other : ReadM α}
    (hcondition : ¬ condition) (hread : Gives read before value after) :
    Gives (if condition then other else read) before value after := by
  rwa [if_neg hcondition]

end Gives

/-- A value that is taken may be changed. -/
theorem Takes.map {α β : Type} {read : ReadM α} {text : Bytes} {value : α} (change : α → β)
    (htakes : Takes read text value) : Takes (do return change (← read)) text (change value) :=
  ⟨htakes.starts, fun hlead hrest => (htakes.gives hlead hrest).bind (.pure _ _)⟩

section Bytes

variable {b : UInt8} {lead rest : Bytes}

/-- Two runs of blanks are a run of blanks. -/
theorem Blanks.append {first next : Bytes} (hfirst : Blanks first) (hnext : Blanks next) :
    Blanks (first ++ next) := List.forall_mem_append.mpr ⟨hfirst, hnext⟩

/-- No blanks are blanks. -/
theorem Blanks.nil : Blanks [] := List.forall_mem_nil _

/-- What starts as a value does is not empty. -/
theorem Starts.length_pos {text : Bytes} (hstarts : Starts text) : 0 < text.length := by
  obtain ⟨b, more, rfl, _⟩ := hstarts
  exact Nat.succ_pos _

/-- The four blanks. -/
theorem isBlank_iff {b : UInt8} :
    isBlank b = true ↔ b = 0x20 ∨ b = 0x09 ∨ b = 0x0a ∨ b = 0x0d := by
  simp only [isBlank, Bool.or_eq_true, decide_eq_true_eq, or_assoc]

/-- A number ends in front of blanks and in front of what it ends in front of. -/
theorem Follows.blanks (hlead : Blanks lead) (hrest : Follows rest) : Follows (lead ++ rest) := by
  cases lead with
  | nil => exact hrest
  | cons c lead =>
    intro b hb
    obtain rfl : c = b := Option.some.inj hb
    have hblank : isBlank c = true := hlead c List.mem_cons_self
    rcases isBlank_iff.mp hblank with rfl | rfl | rfl | rfl <;> decide

/-- The byte behind blanks is seen, and the blanks are dropped. -/
theorem peek_gives (hlead : Blanks lead) (hb : isBlank b = false) :
    Gives peek (lead ++ b :: rest) (some b) (b :: rest) := by
  have hdrop : (lead ++ b :: rest).dropWhile isBlank = b :: rest := by
    rw [List.dropWhile_append_of_pos hlead, List.dropWhile_cons_of_neg (by simp [hb])]
  change Except.ok (((lead ++ b :: rest).dropWhile isBlank).head?,
    (lead ++ b :: rest).dropWhile isBlank) = _
  rw [hdrop]
  rfl

/-- The first byte of a value is seen. -/
theorem firstByte_gives (hlead : Blanks lead) (hb : isBlank b = false) :
    Gives firstByte (lead ++ b :: rest) b (b :: rest) :=
  (peek_gives hlead hb).bind (.pure _ _)

/-- One byte is taken. -/
theorem advance_gives (b : UInt8) (rest : Bytes) : Gives advance (b :: rest) () rest := rfl

/-- The rest of a literal is taken. -/
theorem literal_gives (word rest : Bytes) : Gives (literal word) (word ++ rest) () rest := by
  induction word with
  | nil => rfl
  | cons expected word ih =>
    rw [literal]
    exact .get_bind (.set_bind (.ite_pos rfl ih))

end Bytes

end PegTemplates.Json
