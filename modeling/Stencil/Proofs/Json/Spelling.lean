import Mathlib.Data.List.Basic
import Stencil.Json.Printer
import Stencil.Json.Reader

/-!
# Strings and whole numbers in JSON

What is written for a string is read as that string, as long as whatever is written for a character
is read as that character.  This holds of both ways to write strings.  A whole number is written
without a zero before its digits, and it is read as it is if it fits into 64 bits.  What follows
must not be read as a part of the number.
-/

namespace Stencil.Json

/-! ### Characters -/

/-- Whatever is written for a character is read as that character: it stands for itself, or an
escape stands for it. -/
def Spells (spelling : Char → String) : Prop :=
  ∀ c, (spelling c).toList = [c] ∧ c ≠ '"' ∧ c ≠ '\\' ∧ 0x20 ≤ c.val
    ∨ ∃ escape, (spelling c).toList = '\\' :: escape
      ∧ ∀ rest, readEscape? (escape ++ rest) = some (c, rest)

theorem hexDigit?_digitChar {d : Nat} (h : d < 16) :
  hexDigit? (Nat.digitChar d) = some d
  := by
  have hall : ∀ d < 16, hexDigit? (Nat.digitChar d) = some d := by decide
  exact hall d h

/-- The escape of a code unit is a backslash, the letter `u` and four digits, which are read as the
code unit. -/
theorem exists_toList_unitText {n : Nat} (h : n < 0x10000) :
  ∃ digits, (unitText n).toList = '\\' :: 'u' :: digits
    ∧ ∀ rest, readUnit? (digits ++ rest) = some (n, rest)
  := by
  refine ⟨[n / 4096 % 16, n / 256 % 16, n / 16 % 16, n % 16].map Nat.digitChar, ?_, fun rest => ?_⟩
  · rw [unitText, String.toList_append, String.toList_ofList, String.toList_ofList]
    rfl
  · have hlow (m : Nat) : m % 16 < 16 := Nat.mod_lt m (by decide)
    simp only [List.map_cons, List.map_nil, List.cons_append, List.nil_append, readUnit?,
      hexDigit?_digitChar (hlow _)]
    congr 2
    omega

/-- The code unit of a character is not one of those that stand for half of a character. -/
theorem not_surrogate (c : Char) :
  c.toNat < 0xD800 ∨ 0xDFFF < c.toNat ∧ c.toNat < 0x110000
  := c.valid

section Codes

variable {high low : Nat} {t later rest : List Char}

theorem between_iff {a b n : Nat} :
  (decide (a ≤ n) && decide (n ≤ b)) = true ↔ a ≤ n ∧ n ≤ b
  := by
  rw [Bool.and_eq_true, decide_eq_true_eq, decide_eq_true_eq]

/-- A code unit that is not half of a character is read as the character with that code. -/
theorem readCode?_of_whole (hunit : readUnit? t = some (high, rest))
    (hwhole : high < 0xD800 ∨ 0xDFFF < high) :
  readCode? t = some (Char.ofNat high, rest)
  := by
  rw [readCode?, hunit, Option.bind_eq_bind, Option.bind_some]
  dsimp only
  rw [if_neg (by rw [between_iff]; omega), if_neg (by rw [between_iff]; omega)]

/-- Two code units that are the halves of a character are read as that character. -/
theorem readCode?_of_halves (hunit : readUnit? t = some (high, '\\' :: 'u' :: later))
    (hlater : readUnit? later = some (low, rest)) (hhigh : 0xD800 ≤ high ∧ high ≤ 0xDBFF)
    (hlow : 0xDC00 ≤ low ∧ low ≤ 0xDFFF) :
  readCode? t = some (Char.ofNat ((high - 0xD800) * 0x400 + (low - 0xDC00) + 0x10000), rest)
  := by
  rw [readCode?, hunit, Option.bind_eq_bind, Option.bind_some]
  dsimp only
  rw [if_neg (by rw [between_iff]; omega), if_pos (between_iff.mpr hhigh)]
  change (readUnit? later).bind _ = _
  rw [hlater, Option.bind_some]
  exact if_pos (between_iff.mpr hlow)

end Codes

/-- A character of the first plane is read from the escape of its code unit. -/
theorem readEscape?_unitText {c : Char} (h : c.toNat < 0x10000) :
  ∃ escape, (unitText c.toNat).toList = '\\' :: escape
    ∧ ∀ rest, readEscape? (escape ++ rest) = some (c, rest)
  := by
  obtain ⟨digits, htext, hread⟩ := exists_toList_unitText h
  refine ⟨'u' :: digits, htext, fun rest => ?_⟩
  have hwhole : c.toNat < 0xD800 ∨ 0xDFFF < c.toNat := (not_surrogate c).imp_right And.left
  rw [List.cons_append, readEscape?, readCode?_of_whole (hread rest) hwhole, Char.ofNat_toNat]

/-- A character beyond the first plane is read from the escapes of its two code units. -/
theorem readEscape?_pair {c : Char} (h : 0x10000 ≤ c.toNat) :
  ∃ escape, (unitText (0xD800 + (c.toNat - 0x10000) / 0x400)
      ++ unitText (0xDC00 + (c.toNat - 0x10000) % 0x400)).toList = '\\' :: escape
    ∧ ∀ rest, readEscape? (escape ++ rest) = some (c, rest)
  := by
  have hvalid := not_surrogate c
  obtain ⟨n, hn⟩ := Nat.exists_eq_add_of_le h
  rw [hn, Nat.add_sub_cancel_left]
  have hlow : n % 0x400 < 0x400 := Nat.mod_lt n (by decide)
  obtain ⟨high, hhigh, hreadHigh⟩ := exists_toList_unitText (n := 0xD800 + n / 0x400) (by omega)
  obtain ⟨low, hlowText, hreadLow⟩ := exists_toList_unitText (n := 0xDC00 + n % 0x400) (by omega)
  refine ⟨'u' :: (high ++ '\\' :: 'u' :: low), ?_, fun rest => ?_⟩
  · rw [String.toList_append, hhigh, hlowText]
    rfl
  · have hplace : (0xD800 + n / 0x400 - 0xD800) * 0x400 + (0xDC00 + n % 0x400 - 0xDC00) + 0x10000
        = c.toNat := by omega
    rw [List.cons_append, readEscape?, List.append_assoc, List.cons_append, List.cons_append,
      readCode?_of_halves (hreadHigh _) (hreadLow rest) (by omega) (by omega), hplace,
      Char.ofNat_toNat]

/-- Escaping as little as possible, what is written for a character is read as that character. -/
theorem spells_plainText :
  Spells plainText
  := by
  intro c
  unfold plainText
  -- the seven characters with an escape of a single letter
  iterate 7
    split
    · next h =>
        rw [beq_iff_eq] at h
        subst h
        exact Or.inr ⟨_, rfl, fun _ => rfl⟩
  next hquote hbackslash _ _ _ _ _ =>
    rw [beq_iff_eq] at hquote hbackslash
    split
    · next hcontrol =>
        right
        apply readEscape?_unitText
        have : c.toNat < 0x20 := hcontrol
        omega
    · next hprinted =>
        left
        exact ⟨String.toList_ofList, hquote, hbackslash, UInt32.not_lt.mp hprinted⟩

/-- Writing in ASCII, what is written for a character is read as that character. -/
theorem spells_charText :
  Spells charText
  := by
  intro c
  unfold charText
  iterate 2
    split
    · next h =>
        rw [beq_iff_eq] at h
        subst h
        exact Or.inr ⟨_, rfl, fun _ => rfl⟩
  next hquote hbackslash =>
    rw [beq_iff_eq] at hquote hbackslash
    split
    · next hprinted =>
        rw [Bool.and_eq_true, decide_eq_true_eq] at hprinted
        left
        exact ⟨String.toList_ofList, hquote, hbackslash, hprinted.1⟩
    split
    · next hfirst =>
        right
        apply readEscape?_unitText hfirst
    · next hsecond =>
        right
        apply readEscape?_pair (by omega)

/-! ### Strings -/

/-- What is written for the characters of a string. -/
def spelled (spelling : Char → String) (cs : List Char) : List Char :=
  cs.flatMap fun c => (spelling c).toList

section Strings

variable {spelling : Char → String} {c : Char} {cs rest : List Char}

theorem spelled_cons :
  spelled spelling (c :: cs) = (spelling c).toList ++ spelled spelling cs
  := List.flatMap_cons

theorem toList_stringText (spelling : Char → String) (s : String) :
  (stringText spelling s).toList = '"' :: (spelled spelling s.toList ++ ['"'])
  := by
  have hfold (cs : List Char) (text : String) :
      (cs.foldl (fun text c => text ++ spelling c) text).toList
        = text.toList ++ spelled spelling cs := by
    induction cs generalizing text with
    | nil => exact (List.append_nil _).symm
    | cons c cs ih =>
        rw [List.foldl_cons, ih, String.toList_append, spelled_cons, List.append_assoc]
  rw [stringText, String.toList_append, hfold]
  rfl

/-- The characters of a string are read up to its closing quote. -/
theorem readChars?_append (h : Spells spelling) {budget : List Char}
    (hbudget : (spelled spelling cs ++ '"' :: rest).length ≤ budget.length) :
  readChars? budget (spelled spelling cs ++ '"' :: rest) = some (cs, rest)
  := by
  induction cs generalizing budget with
  | nil =>
      cases budget with
      | nil => cases hbudget
      | cons _ budget => rfl
  | cons c cs ih =>
      rw [spelled_cons, List.append_assoc] at hbudget ⊢
      rcases h c with ⟨hc, hquote, hbackslash, hprinted⟩ | ⟨escape, hc, hescape⟩
      · rw [hc, List.singleton_append] at hbudget ⊢
        cases budget with
        | nil => cases hbudget
        | cons _ budget =>
            rw [readChars?, if_neg (by rwa [beq_iff_eq]), if_neg (by rwa [beq_iff_eq]),
              if_neg (UInt32.not_lt.mpr hprinted), ih (Nat.le_of_succ_le_succ hbudget)]
            rfl
      · rw [hc, List.cons_append] at hbudget ⊢
        cases budget with
        | nil => cases hbudget
        | cons _ budget =>
            have hlength := Nat.le_of_succ_le_succ hbudget
            rw [List.length_append] at hlength
            rw [readChars?, if_neg (by decide), if_pos (by decide), hescape]
            dsimp only
            rw [ih (Nat.le_of_add_left_le hlength)]
            rfl

/-- What is written for a string is read as that string. -/
theorem readString?_append (h : Spells spelling) (s : String) (rest : List Char) :
  readString? (spelled spelling s.toList ++ '"' :: rest) = some (s, rest)
  := by
  rw [readString?, readChars?_append h (Nat.le_refl _), Option.map_some]
  dsimp only
  rw [String.ofList_toList]

end Strings

/-! ### Whole numbers -/

/-- A text does not go on the number before it. -/
def EndsNumber (t : List Char) : Prop :=
  ∀ c ∈ t.head?, c.isDigit = false ∧ c ≠ '.' ∧ c ≠ 'e' ∧ c ≠ 'E'

/-- A number is not less for digits that follow. -/
theorem le_ofDigitChars (digits : List Char) (n : Nat) :
  n ≤ Nat.ofDigitChars 10 digits n
  := by
  rw [Nat.ofDigitChars_eq_ofDigitChars_zero]
  have hpos : 0 < 10 ^ digits.length := Nat.pow_pos (by decide)
  exact Nat.le_add_right_of_le (Nat.le_mul_of_pos_left n hpos)

/-- All digits are taken if the number that they write fits into 64 bits. -/
theorem takeDigits_eq {digits : List Char} {n : Nat}
    (h : Nat.ofDigitChars 10 digits n ≤ wordLimit) :
  takeDigits n digits = (Nat.ofDigitChars 10 digits n, [])
  := by
  induction digits generalizing n with
  | nil => rfl
  | cons c digits ih =>
      rw [Nat.ofDigitChars_cons, Nat.mul_comm] at h ⊢
      rw [takeDigits, if_pos (Nat.le_trans (le_ofDigitChars _ _) h), ih h]

theorem takeDigits_toDigits {n : Nat} (h : n ≤ wordLimit) :
  takeDigits 0 (Nat.toDigits 10 n) = (n, [])
  := by
  rw [takeDigits_eq, Nat.ofDigitChars_ten_toDigits]
  rwa [Nat.ofDigitChars_ten_toDigits]

/-- The digits of a natural number of 64 bits give it. -/
theorem ofDigits?_natural {n : Nat} (h : n ≤ wordLimit) :
  ofDigits? false (Nat.toDigits 10 n) [] none = some (int n)
  := by
  rw [ofDigits?, takeDigits_toDigits h]
  rfl

/-- The digits of the size of a negative number of 64 bits give it. -/
theorem ofDigits?_negative {n : Nat} (hpos : n ≠ 0) (h : n ≤ Nat.pow 2 63) :
  ofDigits? true (Nat.toDigits 10 n) [] none = some (int (-n))
  := by
  have hword : n ≤ wordLimit := Nat.le_trans h (by decide)
  have hsize : ¬ (decide (n = 0) || decide (n > Nat.pow 2 63)) = true := by
    rw [Bool.or_eq_true, decide_eq_true_eq, decide_eq_true_eq]
    exact fun hsize => hsize.elim hpos (Nat.not_lt.mpr h)
  rw [ofDigits?, takeDigits_toDigits hword]
  exact if_neg hsize

/-- Only zero is written with a zero in front. -/
theorem eq_zero_of_head?_toDigits {n : Nat} (h : (Nat.toDigits 10 n).head? = some '0') :
  n = 0
  := by
  induction n using Nat.strongRecOn with
  | ind n ih =>
      rcases Nat.lt_or_ge n 10 with hsmall | hlarge
      · rw [Nat.toDigits_of_lt_base hsmall, List.head?_cons, Option.some_inj] at h
        exact Nat.digitChar_eq_zero.mp h
      · rw [Nat.toDigits_of_base_le (by decide) hlarge,
          List.head?_append_of_ne_nil _ Nat.toDigits_ne_nil] at h
        have := ih (n / 10) (by omega) h
        omega

/-- A number is written with at least one digit. -/
theorem exists_toDigits (n : Nat) :
  ∃ c digits, Nat.toDigits 10 n = c :: digits ∧ c.isDigit = true
  := by
  obtain ⟨c, digits, hdigits⟩ := List.exists_cons_of_ne_nil (Nat.toDigits_ne_nil (n := n))
  refine ⟨c, digits, hdigits, ?_⟩
  apply Nat.isDigit_of_mem_toDigits (b := 10) (n := n) (by decide) (by decide)
  rw [hdigits]
  exact List.mem_cons_self

theorem takeWhile_toDigits {n : Nat} {rest : List Char} (hrest : EndsNumber rest) :
  (Nat.toDigits 10 n ++ rest).takeWhile Char.isDigit = Nat.toDigits 10 n
  := by
  have hdigits : ∀ c ∈ Nat.toDigits 10 n, c.isDigit = true := fun c hc =>
    Nat.isDigit_of_mem_toDigits (by decide) (by decide) hc
  rw [List.takeWhile_append_of_pos hdigits]
  cases rest with
  | nil => exact List.append_nil _
  | cons c rest =>
      rw [List.takeWhile_cons_of_neg (by simp [(hrest c rfl).1]), List.append_nil]

/-- The digits of a number are read as they are, given what follows does not go on them. -/
theorem readUnsigned?_toDigits (isNegative : Bool) (n : Nat) {rest : List Char}
    (hrest : EndsNumber rest) :
  readUnsigned? isNegative (Nat.toDigits 10 n ++ rest)
    = (ofDigits? isNegative (Nat.toDigits 10 n) [] none).map (·, rest)
  := by
  have hwhole : ((Nat.toDigits 10 n).isEmpty || ((Nat.toDigits 10 n).head? == some '0'
      && decide ((Nat.toDigits 10 n).length > 1))) = false := by
    rw [Bool.or_eq_false_iff, Bool.and_eq_false_iff]
    refine ⟨List.isEmpty_eq_false_iff.mpr Nat.toDigits_ne_nil, ?_⟩
    by_cases hzero : (Nat.toDigits 10 n).head? = some '0'
    · rw [eq_zero_of_head?_toDigits hzero]
      exact Or.inr rfl
    · exact Or.inl (beq_eq_false_iff_ne.mpr hzero)
  rw [readUnsigned?, takeWhile_toDigits hrest, hwhole, if_neg (by decide), List.drop_left,
    Option.map_eq_bind]
  cases rest with
  | nil => rfl
  | cons c rest =>
      obtain ⟨-, hpoint, he, hE⟩ := hrest c rfl
      dsimp only
      split
      · next h => cases h; contradiction
      · dsimp only [Option.bind_eq_bind, Option.bind_some]
        split
        · next h => cases h; contradiction
        · next h => cases h; contradiction
        · rfl

/-- The text of a whole number has its digits, after a sign if it is negative. -/
theorem toList_toString_int (n : Int) :
  (toString n).toList
    = if n < 0 then '-' :: Nat.toDigits 10 n.natAbs else Nat.toDigits 10 n.natAbs
  := by
  cases n with
  | ofNat n =>
      rw [if_neg (show ¬ Int.ofNat n < 0 from Int.not_lt.mpr (Int.natCast_nonneg n))]
      exact String.toList_ofList
  | negSucc n =>
      rw [if_pos (Int.negSucc_lt_zero n), Int.toString_eq_repr, Int.repr, String.toList_append]
      exact congrArg ('-' :: ·) String.toList_ofList

/-- The whole number fits into 64 bits, with a sign if it is negative. -/
def IsWord (n : Int) : Prop :=
  if n < 0 then n.natAbs ≤ Nat.pow 2 63 else n.natAbs ≤ wordLimit

instance (n : Int) : Decidable (IsWord n) :=
  inferInstanceAs (Decidable (ite (n < 0) _ _))

/-- A whole number of 64 bits is read as it is. -/
theorem readNumber?_append {n : Int} (h : IsWord n) {rest : List Char} (hrest : EndsNumber rest) :
  readNumber? ((toString n).toList ++ rest) = some (int n, rest)
  := by
  rw [toList_toString_int]
  unfold IsWord at h
  split at h
  · next hnegative =>
      rw [if_pos hnegative, List.cons_append, readNumber?, readUnsigned?_toDigits true _ hrest,
        ofDigits?_negative (by omega) h, Option.map_some]
      congr 3
      omega
  · next hnatural =>
      rw [if_neg hnatural]
      obtain ⟨c, digits, hdigits, hc⟩ := exists_toDigits n.natAbs
      have hsign : ∀ t, Nat.toDigits 10 n.natAbs ++ rest = '-' :: t → False := by
        intro t ht
        rw [hdigits] at ht
        cases ht
        cases hc
      rw [readNumber?, readUnsigned?_toDigits false _ hrest, ofDigits?_natural h, Option.map_some]
      · congr 3
        omega
      · exact hsign

end Stencil.Json
