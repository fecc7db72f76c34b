import PegTemplates.Proofs.Reading.Strings

/-!
# Spellings of numbers and of nothing

A natural number is written with digits of which the first is zero for the number zero only. Where
a byte is expected, its number is read, as long as nothing stands behind it that a number could go
on with. Nothing is written as `null`.
-/

namespace PegTemplates.Json

/-- The literal `null`. -/
def nullText : Bytes := 0x6e :: nullTail

/-- Whether a text consists of digits. -/
def Digits (text : Bytes) : Prop := text ≠ [] ∧ ∀ b ∈ text, isDigit b = true

/-- Whether a text consists of digits without a leading zero. -/
def Whole (text : Bytes) : Prop := Digits text ∧ (text.head? = some zeroDigit → text = [zeroDigit])

/-- Whether a text is the number of a byte. -/
def ByteText (value : UInt8) (text : Bytes) : Prop :=
  Whole text ∧ digitsValue text = value.toNat

/-- Whether a text is a string for a label, or `null` for no label. -/
def OptionalText : Option String → Bytes → Prop
  | some label => StringText label
  | none => fun text => text = nullText

section Digits

variable {text rest : Bytes}

/-- All digits are taken. -/
theorem takeDigits_gives (hdigits : ∀ b ∈ text, isDigit b = true)
    (hrest : ∀ b ∈ rest.head?, isDigit b = false) : Gives takeDigits (text ++ rest) text rest := by
  have hnone : rest.takeWhile isDigit = [] ∧ rest.dropWhile isDigit = rest := by
    cases rest with
    | nil => exact ⟨rfl, rfl⟩
    | cons b rest =>
      have hb : ¬ isDigit b = true := by simp [hrest b rfl]
      exact ⟨List.takeWhile_cons_of_neg hb, List.dropWhile_cons_of_neg hb⟩
  change Except.ok ((text ++ rest).takeWhile isDigit, (text ++ rest).dropWhile isDigit) = _
  rw [List.takeWhile_append_of_pos hdigits, List.dropWhile_append_of_pos hdigits, hnone.1,
    hnone.2, List.append_nil]

/-- A digit is none of the bytes that are no digits. -/
theorem ne_of_isDigit {b c : UInt8} (hb : isDigit b = true) (hc : isDigit c = false) : b ≠ c := by
  rintro rfl
  rw [hb] at hc
  cases hc

/-- Digits begin a value. -/
theorem Digits.starts (hdigits : Digits text) : Starts text := by
  obtain ⟨hne, hdigits⟩ := hdigits
  obtain ⟨b, more, rfl⟩ := List.exists_cons_of_ne_nil hne
  have hb : isDigit b = true := hdigits b List.mem_cons_self
  have hblank : isBlank b = false := by
    rw [← Bool.not_eq_true, isBlank_iff]
    rintro (rfl | rfl | rfl | rfl) <;> exact absurd hb (by decide)
  exact ⟨b, more, rfl, hblank, ne_of_isDigit hb (by decide), ne_of_isDigit hb (by decide)⟩

/-- A whole number is a digit, which is no leading zero, and more digits. -/
theorem Whole.exists_cons (hwhole : Whole text) :
    ∃ first more, text = first :: more ∧ isDigit first = true ∧
      ¬ (first = zeroDigit ∧ (!more.isEmpty) = true) := by
  obtain ⟨⟨hne, hdigits⟩, hzero⟩ := hwhole
  obtain ⟨first, more, rfl⟩ := List.exists_cons_of_ne_nil hne
  refine ⟨first, more, rfl, hdigits first List.mem_cons_self, ?_⟩
  rintro ⟨rfl, hmore⟩
  obtain rfl : more = [] := (List.cons.inj (hzero rfl)).2
  cases hmore

/-- Value of digits behind the digits of a significand. -/
def valueBehind (significand : Nat) (digits : Bytes) : Nat :=
  digits.foldl (fun value digit => value * 10 + (digit.toNat - 0x30)) significand

/-- A significand only grows with further digits. -/
theorem le_valueBehind (significand : Nat) (digits : Bytes) :
    significand ≤ valueBehind significand digits := by
  induction digits generalizing significand with
  | nil => exact Nat.le_refl _
  | cons digit rest ih => exact Nat.le_trans (by omega) (ih (significand * 10 + _))

/-- All digits are absorbed as long as their number needs no more than 64 bits. -/
theorem absorb_all (significand : Nat) (digits : Bytes)
    (hsmall : valueBehind significand digits < Nat.pow 2 64) :
    absorb significand digits = (valueBehind significand digits, []) := by
  induction digits generalizing significand with
  | nil => rfl
  | cons digit rest ih =>
    have hnext : significand * 10 + (digit.toNat - 0x30) < Nat.pow 2 64 :=
      Nat.lt_of_le_of_lt (le_valueBehind _ rest) hsmall
    rw [absorb, if_pos hnext]
    exact ih _ hsmall

/-- A number with nothing behind its digits is what is expected there. -/
theorem readTail_plain (hrest : Follows rest) (negative : Bool) (significand : Nat)
    (exponent : Int) {plain : ReadM Number} {number : Number}
    (hplain : Gives plain rest number rest) :
    Gives (readTail negative significand exponent plain) rest number rest := by
  refine .get_bind ?_
  cases rest with
  | nil => exact hplain
  | cons b rest =>
    obtain ⟨_, hpoint, hmark⟩ := hrest b rfl
    exact .ite_neg hpoint (.ite_neg (by simp [hmark]) hplain)

/-- A natural number is read as it is written. -/
theorem readNumber_gives (hwhole : Whole text) (hsmall : digitsValue text < Nat.pow 2 64)
    (hrest : Follows rest) :
    Gives (readNumber false) (text ++ rest) (.integer (digitsValue text)) rest := by
  refine (takeDigits_gives hwhole.1.2 fun b hb => (hrest b hb).1).bind ?_
  obtain ⟨first, more, rfl, _, hlead⟩ := hwhole.exists_cons
  refine .ite_neg hlead ?_
  rw [absorb_all _ _ hsmall]
  exact readTail_plain hrest _ _ _ (.pure _ _)

end Digits

section Values

variable {text : Bytes}

/-- The number of a byte is read as the byte. -/
theorem ByteText.takes {value : UInt8} (htext : ByteText value text) :
    Takes readByte text value := by
  obtain ⟨hwhole, hvalue⟩ := htext
  refine ⟨hwhole.1.starts, fun {lead rest} hlead hrest => ?_⟩
  have hlt : value.toNat < 256 := value.toNat_lt
  have hread := readNumber_gives hwhole (Nat.lt_trans (hvalue ▸ hlt) (by decide)) hrest
  obtain ⟨b, more, rfl, hblank, _⟩ := hwhole.1.starts
  have hdigit : isDigit b = true := hwhole.1.2 b List.mem_cons_self
  have hminus : b ≠ minus := ne_of_isDigit hdigit (by decide)
  refine (firstByte_gives hlead hblank).bind (.ite_neg hminus (.ite_pos hdigit (hread.bind ?_)))
  rw [hvalue, byteOfNumber]
  refine .ite_pos (by omega) ?_
  have hback : (value.toNat : Int).toNat.toUInt8 = value := by
    rw [Int.toNat_natCast]
    exact UInt8.ofNat_toNat
  rw [hback]
  exact .pure _ _

/-- The literal `null` begins a value. -/
theorem nullText_starts : Starts nullText :=
  ⟨_, _, rfl, by decide, by decide, by decide⟩

/-- The literal `null` is read as nothing. -/
theorem readUnit_takes : Takes readUnit nullText () := by
  refine ⟨nullText_starts, fun hlead _ => ?_⟩
  exact (firstByte_gives hlead (by decide)).bind
    (.ite_pos rfl ((advance_gives _ _).bind (literal_gives nullTail _)))

/-- A label is read as it is written. -/
theorem OptionalText.takes {label : Option String} (htext : OptionalText label text) :
    Takes readOptionalText text label := by
  cases label with
  | none =>
    obtain rfl : text = nullText := htext
    refine ⟨nullText_starts, fun {lead rest} hlead _ => ?_⟩
    have hnull : Gives (do advance; literal nullTail; return none) (nullText ++ rest)
        (none : Option String) rest :=
      (advance_gives _ _).bind ((literal_gives nullTail rest).bind (.pure _ _))
    exact (peek_gives hlead (by decide)).bind (.ite_pos rfl hnull)
  | some label =>
    have hstring : StringText label text := htext
    refine ⟨hstring.starts, fun {lead rest} hlead hrest => ?_⟩
    have hread := (StringText.takes hstring).gives Blanks.nil hrest
    obtain ⟨pieces, _, rfl⟩ := hstring
    exact (peek_gives hlead (by decide)).bind (.ite_neg (by decide) (hread.bind (.pure _ _)))

end Values

end PegTemplates.Json
