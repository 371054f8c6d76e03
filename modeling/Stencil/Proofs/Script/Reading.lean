import Stencil.Proofs.View.Edges
import Stencil.Script.Lexing

/-!
# What lexemes are made of

Whatever reads a lexeme takes a piece of the text and leaves the rest.  A word, a number or a mark
is made of written characters throughout, while a quoted text may hold blanks but ends with its
closing delimiter.  In either case the piece ends with a written character.
-/

namespace Stencil.Script

open Text

/-- The second text is left of the first one after a piece that ends with a written character. -/
inductive Closes : Text → Text → Prop where
  | last {c : Char} {t : Text} (h : isInk c = true) : Closes (c :: t) t
  | cons {c : Char} {t rest : Text} (h : Closes t rest) : Closes (c :: t) rest

/-- The second text is left of the first one after a piece that is empty or ends with a written
character. -/
def Writes (t rest : Text) : Prop := t = rest ∨ Closes t rest

variable {c : Char} {s t rest : Text}

theorem Closes.exists_eq_append (h : Closes t rest) :
  ∃ front c, isInk c = true ∧ t = front ++ c :: rest
  := by
  induction h with
  | @last c t hc => exact ⟨[], c, hc, rfl⟩
  | @cons c t rest _ ih =>
      obtain ⟨front, d, hd, rfl⟩ := ih
      exact ⟨c :: front, d, hd, rfl⟩

theorem Closes.append (h : Closes s t) (h' : Writes t rest) :
  Closes s rest
  := by
  rcases h' with rfl | h'
  · exact h
  · induction h with
    | last _ => exact h'.cons
    | cons _ ih => exact (ih h').cons

theorem Writes.refl (t : Text) :
  Writes t t
  := Or.inl rfl

theorem Writes.trans (h : Writes s t) (h' : Writes t rest) :
  Writes s rest
  := by
  rcases h with rfl | h
  · exact h'
  · exact Or.inr (h.append h')

theorem Writes.close (h : Writes s t) (h' : Closes t rest) :
  Closes s rest
  := by
  rcases h with rfl | h
  · exact h'
  · exact h.append (Or.inr h')

/-- A written character goes before a piece. -/
theorem Writes.cons (h : Writes t rest) (hc : isInk c = true) :
  Writes (c :: t) rest
  := Or.inr ((Closes.last hc).append h)

theorem Writes.exists_eq_append (h : Writes t rest) :
  ∃ piece, t = piece ++ rest ∧ ∀ c ∈ piece.getLast?, isInk c = true
  := by
  rcases h with rfl | h
  · exact ⟨[], rfl, by simp⟩
  · obtain ⟨front, c, hc, rfl⟩ := h.exists_eq_append
    refine ⟨front ++ [c], by simp, ?_⟩
    simpa using hc

/-- A piece that ends with a written character is not empty. -/
theorem Closes.length_lt (h : Closes t rest) :
  rest.length < t.length
  := by
  induction h with
  | last _ => exact Nat.lt_succ_self _
  | cons _ ih => exact Nat.lt_succ_of_lt ih

theorem Writes.length_le (h : Writes t rest) :
  rest.length ≤ t.length
  := by
  rcases h with rfl | h
  · exact Nat.le_refl _
  · exact Nat.le_of_lt h.length_lt

/-- Written characters make a piece. -/
theorem writes_append {piece : Text} (h : ∀ c ∈ piece, isInk c = true) :
  Writes (piece ++ rest) rest
  := by
  induction piece with
  | nil => exact .refl rest
  | cons c piece ih =>
      rw [List.forall_mem_cons] at h
      apply (ih h.2).cons h.1

theorem writes_take {n : Nat} (h : ∀ c ∈ t.take n, isInk c = true) :
  Writes t (t.drop n)
  := by
  have hwrites : Writes (t.take n ++ t.drop n) (t.drop n) := writes_append h
  rwa [List.take_append_drop] at hwrites

theorem writes_dropWhile {p : Char → Bool} (h : ∀ {c}, p c = true → isInk c = true) (t : Text) :
  Writes t (t.dropWhile p)
  := by
  have hwrites : Writes (t.takeWhile p ++ t.dropWhile p) (t.dropWhile p) :=
    writes_append fun c hc => h (List.all_eq_true.mp List.all_takeWhile c hc)
  rwa [List.takeWhile_append_dropWhile] at hwrites

theorem writes_takeWhile {p : Char → Bool} (h : ∀ {c}, p c = true → isInk c = true) (t : Text) :
  Writes t (t.drop (t.takeWhile p).length)
  := by
  apply writes_take
  rw [← List.prefix_iff_eq_take.mp (List.takeWhile_prefix p)]
  intro c hc
  apply h (List.all_eq_true.mp List.all_takeWhile c hc)

/-! ### Written characters -/

/-- A condition that no blank character satisfies is one on written characters. -/
theorem isInk_of {p : Char → Bool}
    (h : [' ', '\n', '\r', '\u2028', '\u2029'].all (!p ·) = true) (hc : p c = true) :
  isInk c = true
  := by
  by_contra hblank
  have hmem : c ∈ [' ', '\n', '\r', '\u2028', '\u2029'] := by
    simp only [isInk, isLineBreak, Bool.and_eq_true, bne_iff_ne, Bool.not_eq_true',
      Bool.or_eq_false_iff, beq_eq_false_iff_ne] at hblank
    simp only [List.mem_cons, List.not_mem_nil]
    tauto
  have hnot := List.all_eq_true.mp h c hmem
  rw [hc] at hnot
  cases hnot

theorem isInk_of_eq_or {a b : Char} (ha : isInk a = true) (hb : isInk b = true)
    (h : (c == a || c == b) = true) :
  isInk c = true
  := by
  rw [Bool.or_eq_true, beq_iff_eq, beq_iff_eq] at h
  rcases h with rfl | rfl
  · exact ha
  · exact hb

theorem isInk_of_isWordPart (h : isWordPart c = true) :
  isInk c = true
  := isInk_of (by decide +kernel) h

theorem isInk_of_isWordStart (h : isWordStart c = true) :
  isInk c = true
  := isInk_of (by decide +kernel) h

theorem isInk_of_isDigit (h : c.isDigit = true) :
  isInk c = true
  := isInk_of (by decide) h

theorem isInk_of_hexDigit? (h : (hexDigit? c).isSome = true) :
  isInk c = true
  := isInk_of (p := fun c => (hexDigit? c).isSome) (by decide) h

theorem isInk_of_isFlagCharacter (h : isFlagCharacter c = true) :
  isInk c = true
  := isInk_of (by decide) h

/-! ### Words -/

theorem writes_fixedHex? {count n : Nat} (h : fixedHex? count t = some (n, rest)) :
  Writes t rest
  := by
  unfold fixedHex? at h
  dsimp only at h
  split at h
  · next hdigits =>
      cases h
      simp only [Bool.and_eq_true, decide_eq_true_eq, List.all_eq_true] at hdigits
      apply writes_take
      exact fun c hc => isInk_of_hexDigit? (hdigits.2 c hc)
  · cases h

theorem writes_bracedHex? {n : Nat} (h : bracedHex? t = some (n, rest)) :
  Writes t rest
  := by
  unfold bracedHex? at h
  have hdigits := writes_takeWhile isInk_of_hexDigit? t
  revert h
  dsimp only
  split
  · next _ hbrace =>
      split
      · intro h
        cases h
      · intro h
        cases h
        rw [hbrace] at hdigits
        exact Or.inr (hdigits.close (.last rfl))
  · intro h
    cases h

theorem writes_codeEscape? {n : Nat} (h : codeEscape? t = some (n, rest)) :
  Writes t rest
  := by
  unfold codeEscape? at h
  split at h
  · exact (writes_bracedHex? h).cons (by decide)
  · split at h
    · cases h
    · next high rest' hhigh =>
        have hfirst := writes_fixedHex? hhigh
        split at h
        · split at h
          · split at h
            · cases h
            · next low after hlow =>
                split at h
                · cases h
                  have hsecond := writes_fixedHex? hlow
                  apply hfirst.trans
                  exact (hsecond.cons (by decide)).cons (by decide)
                · cases h
                  exact hfirst
          · cases h
            exact hfirst
        · cases h
          exact hfirst

/-- The escape of a character in a word is a piece after its backslash. -/
theorem writes_wordEscape {n : Nat}
    (h : (match t with
      | 'u' :: t => codeEscape? t
      | _ => none) = some (n, rest)) :
  Writes t rest
  := by
  split at h
  · exact (writes_codeEscape? h).cons (by decide)
  · cases h

theorem writes_readWord {allowed : Char → Bool} (h : ∀ {c}, allowed c = true → isInk c = true)
    (budget t : Text) :
  Writes t (readWord allowed budget t).rest
  := by
  fun_induction readWord allowed budget t with
  | case1 allowed _ budget t code hcode => exact (Writes.refl t).cons (by decide)
  | case2 allowed _ budget t code n rest hcode _ _ ih =>
      exact ((writes_wordEscape hcode).trans (ih isInk_of_isWordPart)).cons (by decide)
  | case3 allowed _ budget c t _ hc _ ih => exact (ih isInk_of_isWordPart).cons (h hc)
  | case4 => exact .refl _
  | case5 => exact .refl _

/-- A word is not empty where a character stands that may begin it. -/
theorem length_readWord_lt {allowed : Char → Bool} {budget t : Text} (hbudget : budget ≠ [])
    (hnil : t ≠ []) (hhead : ∀ c ∈ t.head?, allowed c = true ∨ c = '\\') :
  (readWord allowed budget t).rest.length < t.length
  := by
  have hmore (budget t : Text) : (readWord isWordPart budget t).rest.length ≤ t.length :=
    (writes_readWord isInk_of_isWordPart budget t).length_le
  fun_cases readWord allowed budget t with
  | case1 => exact Nat.lt_succ_self _
  | case2 _ budget t code n rest hcode =>
      exact Nat.lt_succ_of_le (Nat.le_trans (hmore budget rest) (writes_wordEscape hcode).length_le)
  | case3 _ budget c t => exact Nat.lt_succ_of_le (hmore budget t)
  | case4 _ budget c t hbackslash hc => exact absurd (hhead c rfl) (not_or.mpr ⟨hc, hbackslash⟩)
  | case5 _ _ _ hnone =>
      obtain ⟨d, budget, rfl⟩ := List.exists_cons_of_ne_nil hbudget
      obtain ⟨c, t, rfl⟩ := List.exists_cons_of_ne_nil hnil
      exact (hnone d budget c t rfl rfl).elim

/-! ### Numbers -/

section Numbers

variable {isDigit : Char → Bool} (hdigit : ∀ {c}, isDigit c = true → isInk c = true)

include hdigit

theorem writes_afterDigits (h : afterDigits isDigit t = some rest) :
  Writes t rest
  := by
  fun_induction afterDigits isDigit t with
  | case1 => cases h; exact .refl _
  | case2 c t hc ih => exact (ih h).cons (hdigit hc)
  | case3 c hc hline d t hd ih =>
      rw [beq_iff_eq] at hline
      exact ((ih h).cons (hdigit hd)).cons (by rw [hline]; decide)
  | case4 => cases h
  | case5 => cases h
  | case6 => cases h; exact .refl _

theorem writes_afterSomeDigits (h : afterSomeDigits isDigit t = some rest) :
  Writes t rest
  := by
  unfold afterSomeDigits at h
  split at h
  · cases h
  · split at h
    · next hc => exact (writes_afterDigits hdigit h).cons (hdigit hc)
    · cases h

end Numbers

theorem writes_endNumber (form : NumberForm) (t : Text) :
  Writes t (endNumber form t).rest
  := by
  unfold endNumber
  split
  · exact writes_dropWhile isInk_of_isWordPart t
  · exact .refl t

theorem writes_endExponent (t : Text) :
  Writes t (endExponent t).rest
  := by
  have hsign : Writes t (afterSign t) := by
    unfold afterSign
    split
    · exact (Writes.refl _).cons (by decide)
    · exact (Writes.refl _).cons (by decide)
    · exact .refl _
  unfold endExponent
  split
  · next h =>
      apply hsign.trans
      exact (writes_afterSomeDigits isInk_of_isDigit h).trans (writes_endNumber _ _)
  · exact hsign

theorem writes_endWithExponent (form : NumberForm) (t : Text) :
  Writes t (endWithExponent form t).rest
  := by
  unfold endWithExponent
  split
  · exact (writes_endExponent _).cons (by decide)
  · exact (writes_endExponent _).cons (by decide)
  · exact writes_endNumber form t

theorem writes_endFraction (t : Text) :
  Writes t (endFraction t).rest
  := by
  unfold endFraction afterOptionalDigits
  split
  · next rest hrest =>
      split at hrest
      · exact (writes_afterDigits isInk_of_isDigit hrest).trans (writes_endWithExponent _ _)
      · cases hrest
        exact writes_endWithExponent _ _
  · exact .refl t

theorem writes_endOtherBase (form : NumberForm) {isDigit : Char → Bool}
    (hdigit : ∀ {c}, isDigit c = true → isInk c = true) (t : Text) :
  Writes t (endOtherBase form isDigit t).rest
  := by
  have hsize (t : Text) : Writes t (afterSizeMark t) := by
    unfold afterSizeMark
    split
    · exact (Writes.refl _).cons (by decide)
    · exact .refl _
  unfold endOtherBase
  split
  · next hdigits =>
      apply (writes_afterSomeDigits hdigit hdigits).trans
      exact (hsize _).trans (writes_endNumber _ _)
  · exact .refl t

theorem writes_endPointed (t : Text) :
  Writes t (endPointed t).rest
  := by
  unfold endPointed
  split
  · exact (writes_endFraction _).cons (by decide)
  · exact writes_endWithExponent _ _

theorem writes_endDecimal (t : Text) :
  Writes t (endDecimal t).rest
  := by
  unfold endDecimal
  split
  · exact (writes_endNumber _ _).cons (by decide)
  · exact writes_endPointed _

theorem writes_endWithLeadingZero (t : Text) :
  Writes t (endWithLeadingZero t).rest
  := by
  have hdigits := writes_takeWhile (p := Char.isDigit) isInk_of_isDigit t
  unfold endWithLeadingZero
  dsimp only
  split
  · exact hdigits.trans (writes_endNumber _ _)
  · exact hdigits.trans (writes_endPointed _)

theorem writes_readAfterZero (t : Text) :
  Writes t (readAfterZero t).rest
  := by
  cases t with
  | nil => exact .refl []
  | cons c t =>
      unfold readAfterZero
      dsimp only
      split
      · next hc =>
          apply (writes_endOtherBase _ _ t).cons (isInk_of_eq_or (by decide) (by decide) hc)
          exact fun hd => isInk_of_eq_or (by decide) (by decide) hd
      · split
        · next hc =>
            apply (writes_endOtherBase _ _ t).cons (isInk_of_eq_or (by decide) (by decide) hc)
            exact fun hd => isInk_of (by decide) hd
        · split
          · next hc =>
              apply (writes_endOtherBase _ _ t).cons (isInk_of_eq_or (by decide) (by decide) hc)
              exact isInk_of_hexDigit?
          · split
            · exact writes_endWithLeadingZero _
            · exact writes_endDecimal _

theorem writes_readNumber (first : Char) (t : Text) :
  Writes t (readNumber first t).rest
  := by
  unfold readNumber
  split
  · exact writes_endFraction t
  · split
    · exact writes_readAfterZero t
    · split
      · next hdigits =>
          exact (writes_afterDigits isInk_of_isDigit hdigits).trans (writes_endDecimal _)
      · exact .refl t

/-! ### Quoted texts -/

/-- A string that is closed ends with its quote. -/
theorem closes_readString {quote : Char} (hquote : isInk quote = true)
    (h : (readString quote t).closed = true) :
  Closes t (readString quote t).rest
  := by
  fun_induction readString quote t with
  | case1 => cases h
  | case2 => cases h
  | case3 t ih => exact (ih h).cons.cons.cons
  | case4 c t _ ih => exact (ih h).cons.cons
  | case5 c t _ _ _ hc =>
      rw [beq_iff_eq] at hc
      rw [hc]
      exact .last hquote
  | case6 => cases h
  | case7 c t _ _ _ _ _ ih => exact (ih h).cons

/-- A piece of a template that does not end with the text ends with its delimiter. -/
theorem closes_readTemplate (h : (readTemplate t).ending ≠ .text) :
  Closes t (readTemplate t).rest
  := by
  fun_induction readTemplate t with
  | case1 => exact absurd rfl h
  | case2 => exact absurd rfl h
  | case3 c t ih => exact (ih h).cons.cons
  | case4 t => exact .last (by decide)
  | case5 t => exact (Closes.last (by decide)).cons
  | case6 c t _ _ _ _ ih => exact (ih h).cons

/-- A regular expression that is closed ends with a slash. -/
theorem closes_readRegex {escaped inClass : Bool}
    (h : (readRegex escaped inClass t).closed = true) :
  Closes t (readRegex escaped inClass t).rest
  := by
  fun_induction readRegex escaped inClass t with
  | case1 => cases h
  | case2 => cases h
  | case3 inClass c t _ ih => exact (ih h).cons
  | case4 escaped inClass c t _ _ hc =>
      rw [Bool.and_eq_true, beq_iff_eq] at hc
      rw [hc.1]
      exact .last (by decide)
  | case5 escaped inClass c t _ _ _ _ ih => exact (ih h).cons
  | case6 escaped inClass c t _ _ _ _ _ ih => exact (ih h).cons
  | case7 escaped inClass c t _ _ _ _ _ ih => exact (ih h).cons

end Stencil.Script
