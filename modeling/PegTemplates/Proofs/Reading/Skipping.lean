import PegTemplates.Proofs.Reading.Scalars
import PegTemplates.Proofs.Reading.Separators

/-!
# Values that are skipped

Every value that is well formed is skipped as a whole, however deeply its arrays and objects are
nested. Skipping keeps the open ones on a stack and takes one round for each value without parts
and for each opening, so that there are no more rounds than bytes.
-/

namespace PegTemplates.Json

/-- Whether a text is the fraction of a number, or nothing. -/
def FractionText (text : Bytes) : Prop :=
  text = [] ∨ ∃ digits, Digits digits ∧ text = point :: digits

/-- Whether a text is the exponent of a number, or nothing. -/
def ExponentText (text : Bytes) : Prop :=
  text = [] ∨ ∃ mark sign digits, isExponentMark mark = true ∧
    (sign = [] ∨ sign = [0x2b] ∨ sign = [minus]) ∧ Digits digits ∧ text = mark :: (sign ++ digits)

/-- Whether a text is a number. -/
def NumberText (text : Bytes) : Prop :=
  ∃ sign whole fraction exponent, (sign = [] ∨ sign = [minus]) ∧ Whole whole ∧
    FractionText fraction ∧ ExponentText exponent ∧
    text = sign ++ (whole ++ (fraction ++ exponent))

/-- Parts of a string that need not name a character. -/
inductive LoosePiece : Bytes → Prop where
  /-- A raw byte. -/
  | raw {b : UInt8} (hquote : b ≠ quote) (hbackslash : b ≠ backslash) (hcontrol : ¬ b < 0x20) :
      LoosePiece [b]
  /-- An escape of one letter. -/
  | short {escape : UInt8 × Char} (hescape : escape ∈ shortEscapes) :
      LoosePiece [backslash, escape.1]
  /-- An escape of any code. -/
  | code {code : Nat} {digits : Bytes} (hdigits : HexText code digits) :
      LoosePiece (backslash :: codeEscape :: digits)

/-- Whether a text is a string, whatever it spells. -/
def LooseString (text : Bytes) : Prop :=
  ∃ pieces : List Bytes, (∀ piece ∈ pieces, LoosePiece piece) ∧
    text = quote :: (pieces.flatten ++ [quote])

/-- Whether a text is a value that is well formed. -/
inductive AnyValue : Bytes → Prop where
  /-- The literal `null`. -/
  | null : AnyValue nullText
  /-- The literal `true`. -/
  | yes : AnyValue (0x74 :: trueTail)
  /-- The literal `false`. -/
  | no : AnyValue (0x66 :: falseTail)
  /-- A number. -/
  | number {text : Bytes} (htext : NumberText text) : AnyValue text
  /-- A string. -/
  | string {text : Bytes} (htext : LooseString text) : AnyValue text
  /-- An array. -/
  | array {values : List Bytes} {text : Bytes} (hvalues : ∀ value ∈ values, AnyValue value)
      (htext : ArrayText values text) : AnyValue text
  /-- An object. -/
  | object {members : List (Bytes × Bytes)} {text : Bytes}
      (hvalues : ∀ member ∈ members, AnyValue member.2)
      (htext : ObjectText (fun key text => key = text ∧ LooseString text) members text) :
      AnyValue text

section Numbers

variable {text rest : Bytes}

/-- A signed run of digits behind an exponent mark is skipped. -/
theorem skipExponent_gives {sign digits : Bytes}
    (hsign : sign = [] ∨ sign = [0x2b] ∨ sign = [minus]) (hdigits : Digits digits)
    (hrest : Follows rest) : Gives skipExponent (sign ++ (digits ++ rest)) () rest := by
  have htake : Gives takeDigits (digits ++ rest) digits rest :=
    takeDigits_gives hdigits.2 fun b hb => (hrest b hb).1
  have hsigned : ∃ down, Gives takeSign (sign ++ (digits ++ rest)) down (digits ++ rest) := by
    rcases hsign with rfl | rfl | rfl
    · obtain ⟨b, more, rfl⟩ := List.exists_cons_of_ne_nil hdigits.1
      have hb : isDigit b = true := hdigits.2 b List.mem_cons_self
      exact ⟨false, .get_bind (.ite_neg (ne_of_isDigit hb (by decide))
        (.ite_neg (ne_of_isDigit hb (by decide)) rfl))⟩
    · exact ⟨false, rfl⟩
    · exact ⟨true, rfl⟩
  obtain ⟨down, hsigned⟩ := hsigned
  refine hsigned.bind (htake.bind (.ite_neg ?_ (.pure _ _)))
  simp [hdigits.1]

/-- An exponent is skipped. -/
theorem skipOptionalExponent_gives (hexponent : ExponentText text) (hrest : Follows rest) :
    Gives skipOptionalExponent (text ++ rest) () rest := by
  refine .get_bind ?_
  rcases hexponent with rfl | ⟨mark, sign, digits, hmark, hsign, hdigits, rfl⟩
  · cases rest with
    | nil => rfl
    | cons b rest => exact .ite_neg (by simp [(hrest b rfl).2.2]) rfl
  · simp only [List.cons_append, List.append_assoc]
    exact .ite_pos hmark (.set_bind (skipExponent_gives hsign hdigits hrest))

/-- Neither a digit nor a point follows in front of an exponent. -/
theorem ExponentText.head (hexponent : ExponentText text) (hrest : Follows rest) {b : UInt8}
    (hb : b ∈ (text ++ rest).head?) : isDigit b = false ∧ b ≠ point := by
  rcases hexponent with rfl | ⟨mark, sign, digits, hmark, _, _, rfl⟩
  · exact ⟨(hrest b hb).1, (hrest b hb).2.1⟩
  · obtain rfl : mark = b := Option.some.inj hb
    simp only [isExponentMark, Bool.or_eq_true, decide_eq_true_eq] at hmark
    rcases hmark with rfl | rfl <;> decide

/-- A number is skipped from behind its sign. -/
theorem skipNumber_gives {whole fraction exponent : Bytes} (hwhole : Whole whole)
    (hfraction : FractionText fraction) (hexponent : ExponentText exponent)
    (hrest : Follows rest) :
    Gives skipNumber (whole ++ (fraction ++ (exponent ++ rest))) () rest := by
  have hhead : ∀ b ∈ (fraction ++ (exponent ++ rest)).head?, isDigit b = false := by
    rcases hfraction with rfl | ⟨digits, _, rfl⟩
    · exact fun b hb => (hexponent.head hrest hb).1
    · rintro b hb
      obtain rfl : point = b := Option.some.inj hb
      decide
  refine (takeDigits_gives hwhole.1.2 hhead).bind ?_
  obtain ⟨first, more, rfl, _, hlead⟩ := hwhole.exists_cons
  refine .ite_neg hlead (.get_bind ?_)
  have hskip := skipOptionalExponent_gives hexponent hrest
  rcases hfraction with rfl | ⟨digits, hdigits, rfl⟩
  · rw [List.nil_append]
    have hpoint := fun b (hb : b ∈ (exponent ++ rest).head?) => (hexponent.head hrest hb).2
    revert hskip hpoint
    cases exponent ++ rest with
    | nil => exact fun hskip _ => hskip
    | cons b after => exact fun hskip hpoint => .ite_neg (hpoint b rfl) hskip
  · have htake := takeDigits_gives hdigits.2 fun b hb => (hexponent.head hrest hb).1
    refine .ite_pos rfl (.set_bind (htake.bind (.ite_neg ?_ hskip)))
    simp [hdigits.1]

end Numbers

section Strings

variable {rest : Bytes}

/-- A part of a string is passed over. -/
theorem LoosePiece.passed {piece : Bytes} (hpiece : LoosePiece piece) :
    afterString (piece ++ rest) = afterString rest := by
  cases hpiece with
  | raw hquote hbackslash hcontrol =>
    rw [afterString.eq_def]
    exact (if_neg hquote).trans ((if_neg hbackslash).trans (if_neg hcontrol))
  | short hescape =>
    obtain ⟨hother, value, hvalue, _⟩ := shortEscapes_value hescape
    rw [afterString.eq_def]
    simp only [List.cons_append, List.nil_append, hvalue, if_neg hother,
      if_neg (show backslash ≠ quote by decide), if_true]
  | code hdigits =>
    obtain ⟨d1, d2, d3, d4, rfl, hvalue⟩ := hdigits.value
    rw [afterString.eq_def]
    simp only [List.cons_append, List.nil_append, hvalue,
      if_neg (show backslash ≠ quote by decide), if_true]

/-- A string is skipped from behind its opening quote. -/
theorem skipString_gives {pieces : List Bytes} (hpieces : ∀ piece ∈ pieces, LoosePiece piece)
    (rest : Bytes) : Gives skipString (pieces.flatten ++ quote :: rest) () rest := by
  have hafter : afterString (pieces.flatten ++ quote :: rest) = .ok rest := by
    induction pieces with
    | nil =>
      rw [List.flatten_nil, List.nil_append, afterString.eq_def]
      exact if_pos rfl
    | cons piece pieces ih =>
      obtain ⟨hpiece, hmore⟩ := List.forall_mem_cons.mp hpieces
      rw [List.flatten_cons, List.append_assoc, hpiece.passed, ih hmore]
  refine .get_bind ?_
  rw [hafter]
  rfl

end Strings

section Scalars

variable {text lead rest : Bytes}

/-- A word is taken. -/
theorem skipScalar_word {b : UInt8} {word : Bytes}
    (hword : b = 0x6e ∧ word = nullTail ∨ b = 0x74 ∧ word = trueTail ∨
      b = 0x66 ∧ word = falseTail) (hlead : Blanks lead) (rest : Bytes) :
    Gives skipScalar (lead ++ (b :: word ++ rest)) none rest := by
  have htake (word : Bytes) (b : UInt8) : Gives (do advance; literal word; return none)
      (b :: word ++ rest) (none : Option Frame) rest :=
    (advance_gives _ _).bind ((literal_gives word rest).bind (.pure _ _))
  rcases hword with ⟨rfl, rfl⟩ | ⟨rfl, rfl⟩ | ⟨rfl, rfl⟩
  · refine (peek_gives hlead (by decide)).bind ?_
    exact .ite_pos rfl (htake _ _)
  · refine (peek_gives hlead (by decide)).bind ?_
    dsimp only
    rw [if_neg (by decide), if_pos rfl]
    exact htake _ _
  · refine (peek_gives hlead (by decide)).bind ?_
    dsimp only
    rw [if_neg (by decide), if_neg (by decide), if_pos rfl]
    exact htake _ _

/-- A number is taken. -/
theorem skipScalar_number (htext : NumberText text) (hlead : Blanks lead) (hrest : Follows rest) :
    Gives skipScalar (lead ++ (text ++ rest)) none rest := by
  obtain ⟨sign, whole, fraction, exponent, hsign, hwhole, hfraction, hexponent, rfl⟩ := htext
  have hskip := skipNumber_gives hwhole hfraction hexponent hrest
  simp only [List.append_assoc]
  rcases hsign with rfl | rfl
  · obtain ⟨b, more, rfl, hblank, _⟩ := hwhole.1.starts
    have hdigit : isDigit b = true := hwhole.1.2 b List.mem_cons_self
    have hnull : b ≠ 0x6e := ne_of_isDigit hdigit (by decide)
    have htrue : b ≠ 0x74 := ne_of_isDigit hdigit (by decide)
    have hfalse : b ≠ 0x66 := ne_of_isDigit hdigit (by decide)
    have hminus : b ≠ minus := ne_of_isDigit hdigit (by decide)
    refine (peek_gives hlead hblank).bind ?_
    dsimp only
    rw [if_neg hnull, if_neg htrue, if_neg hfalse, if_neg hminus, if_pos hdigit]
    exact hskip.bind (.pure _ _)
  · refine (peek_gives hlead (by decide)).bind ?_
    dsimp only
    rw [if_neg (by decide), if_neg (by decide), if_neg (by decide), if_pos rfl]
    exact (advance_gives _ _).bind (hskip.bind (.pure _ _))

/-- In front of a byte that begins no word and no number a string or an opening is taken. -/
theorem skipScalar_mark {b : UInt8} (hblank : isBlank b = false)
    (hword : b ≠ 0x6e ∧ b ≠ 0x74 ∧ b ≠ 0x66) (hnumber : b ≠ minus ∧ isDigit b = false)
    (hlead : Blanks lead) (rest : Bytes) :
    skipScalar (lead ++ b :: rest) =
      (if b = quote then do advance; skipString; return none
      else if b = openBracket then do advance; return some .list
      else if b = openBrace then do advance; return some .object
      else fail .expectedValue : ReadM (Option Frame)) (b :: rest) := by
  obtain ⟨hnull, htrue, hfalse⟩ := hword
  obtain ⟨hminus, hdigit⟩ := hnumber
  have hnodigit : ¬ isDigit b = true := Bool.not_eq_true _ ▸ hdigit
  refine (peek_gives hlead hblank).run_bind.trans ?_
  dsimp only
  rw [if_neg hnull, if_neg htrue, if_neg hfalse, if_neg hminus, if_neg hnodigit]

/-- A string is taken. -/
theorem skipScalar_string (htext : LooseString text) (hlead : Blanks lead) (rest : Bytes) :
    Gives skipScalar (lead ++ (text ++ rest)) none rest := by
  obtain ⟨pieces, hpieces, rfl⟩ := htext
  have hskip : Gives (do advance; skipString; return none)
      (quote :: (pieces.flatten ++ quote :: rest)) (none : Option Frame) rest :=
    (advance_gives _ _).bind ((skipString_gives hpieces rest).bind (.pure _ _))
  simp only [List.cons_append, List.append_assoc, List.nil_append]
  rw [Gives, skipScalar_mark (by decide) (by decide) (by decide) hlead, if_pos rfl]
  exact hskip

/-- The byte that opens what a frame stands for. -/
def Frame.opening : Frame → UInt8
  | .list => openBracket
  | .object => openBrace

/-- The byte that closes what a frame stands for. -/
def Frame.closing : Frame → UInt8
  | .list => closeBracket
  | .object => closeBrace

/-- An opening is taken. -/
theorem skipScalar_opening (frame : Frame) (hlead : Blanks lead) (rest : Bytes) :
    Gives skipScalar (lead ++ frame.opening :: rest) (some frame) rest := by
  have hopen : Gives (do advance; return some frame) (frame.opening :: rest) (some frame) rest :=
    (advance_gives _ _).bind (.pure _ _)
  have hquote : frame.opening ≠ quote := by cases frame <;> decide
  rw [Gives, skipScalar_mark (by cases frame <;> decide) (by cases frame <;> decide)
    (by cases frame <;> decide) hlead, if_neg hquote]
  cases frame with
  | list =>
    have hbracket : Frame.opening .list = openBracket := rfl
    rw [if_pos hbracket]
    exact hopen
  | object =>
    have hbracket : Frame.opening .object ≠ openBracket := by decide
    have hbrace : Frame.opening .object = openBrace := rfl
    rw [if_neg hbracket, if_pos hbrace]
    exact hopen

end Scalars

/-- Closes what ends, and skips on as long as something is open. -/
def skipOn (bound : Nat) (frames : List Frame) (fresh : Bool) : ReadM Unit := do
  let left ← skipClosings frames fresh
  match left with
  | [] => return ()
  | _ => skipValues bound left

/-- Whether a text is skipped as one value, in no more rounds than it has bytes. -/
def Skips (text : Bytes) : Prop :=
  ∃ rounds ≤ text.length, ∀ {lead rest : Bytes} (frames : List Frame) (bound : Nat),
    Blanks lead → Follows rest →
      skipValues (rounds + bound) frames (lead ++ (text ++ rest)) =
        skipOn bound frames false rest

/-- Whether an item of an array or object is skipped with its key, if it has one. -/
def SkipsIn (frame : Frame) (item : Bytes) : Prop :=
  ∃ rounds ≤ item.length, ∀ {lead rest : Bytes} (frames : List Frame) (bound : Nat),
    Blanks lead → Follows rest →
      (do skipKey frame; skipValues (rounds + bound) (frame :: frames)) (lead ++ (item ++ rest)) =
        skipOn bound (frame :: frames) false rest

section Rounds

variable {frame : Frame} {lead trail before behind rest item text : Bytes} {items : List Bytes}

/-- A round takes a value without parts or an opening, and closes what ends. -/
theorem skipValues_succ (bound : Nat) (frames : List Frame) :
    skipValues (bound + 1) frames = (do
      match ← skipScalar with
      | some frame => skipOn bound (frame :: frames) true
      | none => skipOn bound frames false) := by
  rw [skipValues]
  refine bind_congr fun found => ?_
  cases found <;> rfl

/-- A value without parts is skipped in one round. -/
theorem Skips.of_scalar (hpos : 0 < text.length)
    (hscalar : ∀ {lead rest : Bytes}, Blanks lead → Follows rest →
      Gives skipScalar (lead ++ (text ++ rest)) none rest) : Skips text := by
  refine ⟨1, hpos, fun frames bound hlead hrest => ?_⟩
  rw [Nat.add_comm, skipValues_succ]
  exact (hscalar hlead hrest).run_bind

/-- Skipping goes on behind a closing. -/
theorem skipOn_close (bound : Nat) (frames : List Frame) (fresh : Bool) (hlead : Blanks lead)
    (rest : Bytes) :
    skipOn bound (frame :: frames) fresh (lead ++ frame.closing :: rest) =
      skipOn bound frames false rest := by
  refine bind_run_congr _ ?_
  rw [skipClosings.eq_def]
  refine (peek_gives hlead (by cases frame <;> decide)).run_bind.trans ?_
  have hcomma : ¬ (frame.closing = comma ∧ (!fresh) = true) := by
    cases frame <;> exact fun h => absurd h.1 (by decide)
  have hends : frame.closing = closeBracket ∧ frame = .list ∨
      frame.closing = closeBrace ∧ frame = .object := by
    cases frame
    · exact .inl ⟨rfl, rfl⟩
    · exact .inr ⟨rfl, rfl⟩
  dsimp only
  rw [if_neg hcomma, if_pos hends]
  exact (advance_gives _ _).run_bind

/-- Skipping goes on behind a comma with the next item. -/
theorem skipOn_comma (bound : Nat) (frames : List Frame) (hbefore : Blanks before)
    (rest : Bytes) :
    skipOn bound (frame :: frames) false (before ++ comma :: rest) =
      (do skipKey frame; skipValues bound (frame :: frames)) rest := by
  have hclosings : skipClosings (frame :: frames) false (before ++ comma :: rest) =
      (do skipKey frame; return frame :: frames) rest := by
    rw [skipClosings.eq_def]
    exact (peek_gives hbefore (by decide)).run_bind.trans (advance_gives _ _).run_bind
  refine (bind_run_congr _ hclosings).trans ?_
  rw [bind_assoc]
  rfl

/-- Skipping goes on behind an opening with the first item. -/
theorem skipOn_first (bound : Nat) (frames : List Frame) (hlead : Blanks lead)
    (hstarts : Starts item) (rest : Bytes) :
    skipOn bound (frame :: frames) true (lead ++ (item ++ rest)) =
      (do skipKey frame; skipValues bound (frame :: frames)) (item ++ rest) := by
  obtain ⟨b, more, rfl, hblank, hbracket, hbrace⟩ := hstarts
  have hends : ¬ (b = closeBracket ∧ frame = .list ∨ b = closeBrace ∧ frame = .object) := by
    rintro (⟨h, _⟩ | ⟨h, _⟩)
    · exact hbracket h
    · exact hbrace h
  have hclosings : skipClosings (frame :: frames) true (lead ++ (b :: more ++ rest)) =
      (do skipKey frame; return frame :: frames) (b :: more ++ rest) := by
    rw [skipClosings.eq_def]
    refine (peek_gives hlead hblank).run_bind.trans ?_
    dsimp only
    rw [if_neg (fun h => absurd h.2 (by decide)), if_neg hends, if_pos rfl]
    rfl
  refine (bind_run_congr _ hclosings).trans ?_
  rw [bind_assoc]
  rfl

/-- The byte that closes an array or object ends a number. -/
theorem Frame.closing_cases (frame : Frame) :
    frame.closing = comma ∨ frame.closing = closeBracket ∨ frame.closing = closeBrace := by
  cases frame
  · exact .inr (.inl rfl)
  · exact .inr (.inr rfl)

/-- Items that follow are skipped up to the closing and with it. -/
theorem skipOn_following (hfollowing : Following items text)
    (hitems : ∀ item ∈ items, SkipsIn frame item) :
    ∃ rounds ≤ text.length, ∀ {trail : Bytes} (rest : Bytes) (frames : List Frame) (bound : Nat),
      Blanks trail →
        skipOn (rounds + bound) (frame :: frames) false
            (text ++ (trail ++ frame.closing :: rest)) =
          skipOn bound frames false rest := by
  induction hfollowing with
  | nil =>
    refine ⟨0, Nat.le_refl _, fun rest frames bound htrail => ?_⟩
    rw [Nat.zero_add, List.nil_append, skipOn_close bound frames false htrail]
  | cons hbefore hbehind hmore ih =>
    -- behind the item the stack is as it was in front of it, so the rounds add up
    obtain ⟨⟨rounds, hrounds, hitem⟩, hothers⟩ := List.forall_mem_cons.mp hitems
    obtain ⟨more, hlength, hskip⟩ := ih hothers
    refine ⟨rounds + more, ?_, fun rest frames bound htrail => ?_⟩
    · simp only [List.length_append, List.length_cons]
      omega
    · simp only [List.append_assoc, List.cons_append]
      rw [skipOn_comma _ _ hbefore, Nat.add_assoc,
        hitem frames _ hbehind (hmore.follows htrail rest frame.closing_cases), hskip _ _ _ htrail]

/-- What stands in an array or object is skipped from behind the opening. -/
theorem skipOn_separated (hseparated : Separated items text)
    (hitems : ∀ item ∈ items, Starts item ∧ SkipsIn frame item) :
    ∃ rounds ≤ text.length, ∀ {lead trail : Bytes} (rest : Bytes) (frames : List Frame)
        (bound : Nat), Blanks lead → Blanks trail →
      skipOn (rounds + bound) (frame :: frames) true
          (lead ++ (text ++ (trail ++ frame.closing :: rest))) =
        skipOn bound frames false rest := by
  cases hseparated with
  | nil =>
    refine ⟨0, Nat.le_refl _, fun rest frames bound hlead htrail => ?_⟩
    rw [Nat.zero_add, List.nil_append, ← List.append_assoc,
      skipOn_close bound frames true (hlead.append htrail)]
  | cons hmore =>
    obtain ⟨⟨hstarts, rounds, hrounds, hitem⟩, hothers⟩ := List.forall_mem_cons.mp hitems
    obtain ⟨more, hlength, hskip⟩ := skipOn_following hmore fun item h => (hothers item h).2
    refine ⟨rounds + more, ?_, fun rest frames bound hlead htrail => ?_⟩
    · simp only [List.length_append]
      omega
    · rw [List.append_assoc, skipOn_first _ _ hlead hstarts, Nat.add_assoc]
      exact (hitem frames _ Blanks.nil (hmore.follows htrail rest frame.closing_cases)).trans
        (hskip _ _ _ htrail)

/-- An array or object is skipped in one round more than what stands in it. -/
theorem Skips.of_enclosed (frame : Frame) {inside : Bytes} (hseparated : Separated items inside)
    (henclosed : Enclosed frame.opening frame.closing inside text)
    (hitems : ∀ item ∈ items, Starts item ∧ SkipsIn frame item) : Skips text := by
  obtain ⟨rounds, hrounds, hskip⟩ := skipOn_separated hseparated hitems
  have hlength := henclosed.length_le
  obtain ⟨blanks, trail, hblanks, htrail, rfl⟩ := henclosed
  refine ⟨rounds + 1, by omega, fun {lead rest} frames bound hlead _ => ?_⟩
  simp only [List.append_assoc, List.cons_append, List.nil_append]
  rw [Nat.add_right_comm, skipValues_succ]
  exact (skipScalar_opening frame hlead _).run_bind.trans
    (hskip rest frames bound hblanks htrail)

end Rounds

section Values

variable {text item key : Bytes}

/-- A string begins with a quote. -/
theorem LooseString.starts (htext : LooseString text) : Starts text := by
  obtain ⟨pieces, _, rfl⟩ := htext
  exact ⟨quote, _, rfl, by decide, by decide, by decide⟩

/-- A number begins with a minus sign or a digit. -/
theorem NumberText.starts (htext : NumberText text) : Starts text := by
  obtain ⟨sign, whole, fraction, exponent, hsign, hwhole, _, _, rfl⟩ := htext
  rcases hsign with rfl | rfl
  · obtain ⟨b, more, rfl, hb⟩ := hwhole.1.starts
    exact ⟨b, _, rfl, hb⟩
  · exact ⟨minus, _, rfl, by decide, by decide, by decide⟩

/-- An array or object begins with its opening. -/
theorem Enclosed.starts (frame : Frame) {inside : Bytes}
    (henclosed : Enclosed frame.opening frame.closing inside text) : Starts text := by
  obtain ⟨lead, trail, _, _, rfl⟩ := henclosed
  exact ⟨frame.opening, _, rfl, by cases frame <;> decide, by cases frame <;> decide,
    by cases frame <;> decide⟩

/-- An array begins with its bracket. -/
theorem ArrayText.starts {values : List Bytes} (harray : ArrayText values text) : Starts text := by
  obtain ⟨inside, _, henclosed⟩ := harray
  exact henclosed.starts .list

/-- An object begins with its brace. -/
theorem ObjectText.starts {κ : Type} {spells : κ → Bytes → Prop} {members : List (κ × Bytes)}
    (hobject : ObjectText spells members text) : Starts text := by
  obtain ⟨items, inside, _, _, henclosed⟩ := hobject
  exact henclosed.starts .object

/-- An element is skipped as a value. -/
theorem Skips.in_list (hskips : Skips item) : SkipsIn .list item := by
  obtain ⟨rounds, hrounds, hskip⟩ := hskips
  exact ⟨rounds, hrounds, fun frames bound hlead hrest => hskip (.list :: frames) bound hlead hrest⟩

/-- The key of a member is skipped with the colon behind it. -/
theorem skipKey_gives {lead before : Bytes} (hkey : LooseString key) (hlead : Blanks lead)
    (hbefore : Blanks before) (rest : Bytes) :
    Gives (skipKey .object) (lead ++ (key ++ (before ++ colon :: rest))) () rest := by
  obtain ⟨pieces, hpieces, rfl⟩ := hkey
  have hstring := skipString_gives hpieces (before ++ colon :: rest)
  simp only [List.cons_append, List.append_assoc, List.nil_append]
  refine (peek_gives hlead (by decide)).bind (.ite_pos rfl ?_)
  exact (advance_gives _ _).bind (hstring.bind (readColon_gives hbefore))

/-- A member is skipped with its key. -/
theorem Skips.in_object {member : Bytes × Bytes}
    (hitem : MemberText (fun key text => key = text ∧ LooseString text) member item)
    (hskips : Skips member.2) : Starts item ∧ SkipsIn .object item := by
  obtain ⟨rounds, hrounds, hskip⟩ := hskips
  obtain ⟨key, before, behind, ⟨_, hkey⟩, hbefore, hbehind, rfl⟩ := hitem
  constructor
  · obtain ⟨pieces, _, rfl⟩ := hkey
    exact ⟨quote, _, rfl, by decide, by decide, by decide⟩
  · refine ⟨rounds, ?_, fun {lead rest} frames bound hlead hrest => ?_⟩
    · simp only [List.length_append, List.length_cons]
      omega
    · simp only [List.append_assoc, List.cons_append]
      have hskipKey := skipKey_gives hkey hlead hbefore (behind ++ (member.2 ++ rest))
      exact hskipKey.run_bind.trans (hskip _ _ hbehind hrest)

/-- Every value that is well formed is skipped. -/
theorem AnyValue.skips (hvalue : AnyValue text) : Starts text ∧ Skips text := by
  induction hvalue with
  | null =>
    exact ⟨nullText_starts, .of_scalar (by decide) fun hlead _ =>
      skipScalar_word (.inl ⟨rfl, rfl⟩) hlead _⟩
  | yes =>
    exact ⟨⟨_, _, rfl, by decide, by decide, by decide⟩, .of_scalar (by decide) fun hlead _ =>
      skipScalar_word (.inr (.inl ⟨rfl, rfl⟩)) hlead _⟩
  | no =>
    exact ⟨⟨_, _, rfl, by decide, by decide, by decide⟩, .of_scalar (by decide) fun hlead _ =>
      skipScalar_word (.inr (.inr ⟨rfl, rfl⟩)) hlead _⟩
  | number htext =>
    exact ⟨htext.starts, .of_scalar htext.starts.length_pos fun hlead hrest =>
      skipScalar_number htext hlead hrest⟩
  | string htext =>
    exact ⟨htext.starts, .of_scalar htext.starts.length_pos fun hlead _ =>
      skipScalar_string htext hlead _⟩
  | array hvalues htext ih =>
    refine ⟨htext.starts, ?_⟩
    obtain ⟨inside, hseparated, henclosed⟩ := htext
    refine .of_enclosed .list hseparated henclosed fun item hitem => ?_
    exact ⟨(ih item hitem).1, (ih item hitem).2.in_list⟩
  | object hvalues htext ih =>
    refine ⟨htext.starts, ?_⟩
    obtain ⟨items, inside, hmembers, hseparated, henclosed⟩ := htext
    refine .of_enclosed .object hseparated henclosed fun item hitem => ?_
    obtain ⟨member, hmember, htext⟩ := exists_left_of_mem hmembers hitem
    exact (ih member hmember).2.in_object htext

/-- Every value that is well formed is taken as one that is skipped. -/
theorem AnyValue.takes (hvalue : AnyValue text) {bound : Nat} (hbound : text.length ≤ bound) :
    Takes (skipValue bound) text () := by
  obtain ⟨hstarts, rounds, hrounds, hskip⟩ := hvalue.skips
  refine ⟨hstarts, fun {lead rest} hlead hrest => ?_⟩
  obtain ⟨left, rfl⟩ := Nat.exists_eq_add_of_le (Nat.le_trans hrounds hbound)
  exact hskip [] left hlead hrest

end Values

end PegTemplates.Json
