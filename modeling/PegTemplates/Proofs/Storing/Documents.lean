import PegTemplates.Generation
import PegTemplates.Proofs.Emitting.Framing
import PegTemplates.Proofs.Reading.Strings
import PegTemplates.Proofs.Storing.Places

/-!
# Templates are no grammar documents

A document begins with a bracket or a brace behind blanks. Templates are empty or begin with a
letter, so what generation has written is never loaded as a grammar.
-/

namespace PegTemplates

namespace Json

/-- Two readers in a row give a value exactly if both do. -/
theorem run_bind_ok_iff {α β : Type} {first : ReadM α} {next : α → ReadM β} {bytes : Bytes}
    {result : β × Bytes} :
    (first >>= next) bytes = .ok result ↔
      ∃ value behind, first bytes = .ok (value, behind) ∧ next value behind = .ok result := by
  change (first bytes >>= fun pair => next pair.1 pair.2) = _ ↔ _
  rw [bind_eq_ok_iff, Prod.exists]

/-- Whether a reader stops at every text. -/
def Fails {α : Type} (read : ReadM α) : Prop := ∀ bytes result, read bytes ≠ .ok result

namespace Fails

variable {α β : Type} {read other : ReadM α}

/-- A fault stops. -/
theorem fail (cause : Cause) : Fails (Json.fail cause : ReadM α) := fun _ _ hok => by cases hok

/-- What is followed by a reader that stops comes to nothing. -/
theorem bind {first : ReadM β} {next : β → ReadM α} (hnext : ∀ value, Fails (next value)) :
    Fails (first >>= next) := by
  intro bytes result hok
  obtain ⟨value, behind, _, hlast⟩ := run_bind_ok_iff.mp hok
  exact hnext value behind result hlast

/-- Of two readers that stop each one stops. -/
theorem ite {condition : Prop} [Decidable condition] (hread : Fails read) (hother : Fails other) :
    Fails (if condition then read else other) := by
  split
  · exact hread
  · exact hother

end Fails

/-- A value of the wrong type stops a reader. -/
theorem wrongType_fails {α : Type} (expected : String) (b : UInt8) :
    Fails (wrongType expected b : ReadM α) := by
  have hnumber : ∀ number, Fails (wrongNumber expected number : ReadM α) := by
    intro number
    cases number <;> exact .fail _
  have hliteral : ∀ (rest : Bytes) (kind : Found),
      Fails (do advance; literal rest; fail (.wrongType kind expected) : ReadM α) :=
    fun rest kind => .bind fun _ => .bind fun _ => .fail _
  have hminus : Fails (do advance; wrongNumber expected (← readNumber true) : ReadM α) :=
    .bind fun _ => .bind hnumber
  have hdigit : Fails (do wrongNumber expected (← readNumber false) : ReadM α) := .bind hnumber
  have hstring : Fails (do
      advance
      fail (.wrongType (.string (← readString)) expected) : ReadM α) :=
    .bind fun _ => .bind fun _ => .fail _
  unfold wrongType
  refine .ite (hliteral _ _) (.ite (hliteral _ _) (.ite (hliteral _ _) ?_))
  refine .ite hminus (.ite hdigit (.ite hstring ?_))
  exact .ite (.fail _) (.ite (.fail _) (.fail _))

/-- A record begins with a bracket or a brace. -/
theorem head_of_readRecord {σ α : Type} {bound : Nat} {expected : String}
    {deeper : Option (RecordFormat σ α)} {bytes : Bytes} {result : α × Bytes}
    (hread : readRecord bound expected deeper bytes = .ok result) :
    (bytes.dropWhile isBlank).head? = some openBracket ∨
      (bytes.dropWhile isBlank).head? = some openBrace := by
  obtain ⟨b, behind, hfirst, hrest⟩ := run_bind_ok_iff.mp hread
  obtain ⟨seen, _, hpeek, hgiven⟩ := run_bind_ok_iff.mp hfirst
  obtain rfl : (bytes.dropWhile isBlank).head? = seen :=
    (Prod.mk.inj (Except.ok.inj hpeek)).1
  cases hhead : (bytes.dropWhile isBlank).head? with
  | none =>
    rw [hhead] at hgiven
    cases hgiven
  | some first =>
    rw [hhead] at hgiven
    obtain rfl : first = b := (Prod.mk.inj (Except.ok.inj hgiven)).1
    by_cases hbracket : first = openBracket
    · exact .inl (congrArg some hbracket)
    · by_cases hbrace : first = openBrace
      · exact .inr (congrArg some hbrace)
      · rw [if_neg hbracket, if_neg hbrace] at hrest
        exact absurd hrest (wrongType_fails _ _ _ _)

end Json

/-- What is loaded as a grammar begins with a bracket or a brace behind blanks. -/
theorem Document.head_of_ok {bytes : Json.Bytes} {grammar : Grammar}
    (hload : ofBytes bytes = .ok grammar) :
    (bytes.dropWhile Json.isBlank).head? = some Json.openBracket ∨
      (bytes.dropWhile Json.isBlank).head? = some Json.openBrace := by
  rw [ofBytes] at hload
  cases hread : readGrammar bytes.length bytes with
  | error fault =>
    rw [hread] at hload
    cases hload
  | ok result => exact Json.head_of_readRecord hread

/-- Texts with the same UTF-8 are the same. -/
theorem utf8_injective {first next : String} (hsame : utf8 first = utf8 next) : first = next := by
  have hread := Json.fromUTF8?_utf8 first
  rw [show first.toUTF8.data.toList = next.toUTF8.data.toList from hsame,
    Json.fromUTF8?_utf8] at hread
  exact (Option.some.inj hread).symm

/-- Templates are empty, or they begin with a letter. -/
theorem head_utf8_text (emission : Emission) :
    utf8 emission.text = [] ∨ (utf8 emission.text).head? = some 0x66 := by
  rw [Emission.text_eq, utf8, Json.utf8_flatMap]
  cases emission.blocks with
  | nil => exact .inl rfl
  | cons block rest =>
    rw [toList_blocksText_cons]
    exact .inr rfl

/-- Templates are never loaded as a grammar. -/
theorem templates_ne_document (emission : Emission) (grammar : Grammar) :
    Document.ofBytes (utf8 emission.text) ≠ .ok grammar := by
  intro hload
  have hhead := Document.head_of_ok hload
  rcases head_utf8_text emission with hempty | hletter
  · rw [hempty] at hhead
    exact absurd hhead (by decide)
  · obtain ⟨rest, htext⟩ := List.head?_eq_some_iff.mp hletter
    rw [htext, List.dropWhile_cons_of_neg (by decide)] at hhead
    exact absurd hhead (by simp [Json.openBracket, Json.openBrace])

end PegTemplates
