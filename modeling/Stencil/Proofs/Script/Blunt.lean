import Stencil.Proofs.Script.Edges

/-!
# Readings before a blunt text

A character is dull if it neither continues nor closes a lexeme that begins before it, and a text is
blunt if it is empty or begins with a dull character.  What stands before a blunt text is read in
the same way whichever blunt text it is: a word or a number ends where the blunt text begins at the
latest.  A quoted text that is closed is the same before every text, and dull characters alone do
not close it.
-/

namespace Stencil.Script

/-- The character neither continues nor closes a lexeme. -/
def isDull (c : Char) : Bool := c == ' ' || c == '\n' || c == ')' || c == ';'

/-- The text is empty or begins with a dull character. -/
def IsBlunt (t : Text) : Prop := ∀ c ∈ t.head?, isDull c = true

variable {c : Char} {t : Text}

theorem isDull_iff :
  isDull c = true ↔ c ∈ [' ', '\n', ')', ';']
  := by simp [isDull, or_assoc]

/-- A condition that no dull character satisfies. -/
theorem not_of_isDull {p : Char → Bool} (h : [' ', '\n', ')', ';'].all (!p ·) = true)
    (hc : isDull c = true) :
  p c = false
  := by
  have hnot := List.all_eq_true.mp h c (isDull_iff.mp hc)
  rwa [Bool.not_eq_true'] at hnot

/-- Which character it is not. -/
theorem ne_of_isDull {d : Char} (hd : isDull d = false) (hc : isDull c = true) :
  c ≠ d
  := by
  rintro rfl
  rw [hc] at hd
  cases hd

theorem IsBlunt.cases (h : IsBlunt t) :
  t = [] ∨ ∃ c rest, t = c :: rest ∧ isDull c = true
  := by
  cases t with
  | nil => exact .inl rfl
  | cons c rest => exact .inr ⟨c, rest, rfl, h c rfl⟩

/-! ### Characters with a property -/

section Runs

variable {p : Char → Bool} (hp : ∀ {c}, isDull c = true → p c = false) (ht : IsBlunt t)

include hp ht

theorem takeWhile_append_blunt (v : Text) :
  (v ++ t).takeWhile p = v.takeWhile p
  := by
  induction v with
  | nil =>
      obtain rfl | ⟨c, rest, rfl, hc⟩ := ht.cases
      · rfl
      · rw [List.nil_append, List.takeWhile_cons, hp hc]
        rfl
  | cons c v ih => rw [List.cons_append, List.takeWhile_cons, List.takeWhile_cons, ih]

theorem dropWhile_append_blunt (v : Text) :
  (v ++ t).dropWhile p = v.dropWhile p ++ t
  := by
  induction v with
  | nil =>
      obtain rfl | ⟨c, rest, rfl, hc⟩ := ht.cases
      · rfl
      · rw [List.nil_append, List.dropWhile_cons, hp hc]
        rfl
  | cons c v ih =>
      rw [List.cons_append, List.dropWhile_cons, List.dropWhile_cons, ih]
      split <;> rfl

theorem head?_append_blunt (v : Text) :
  (v ++ t).head?.any p = v.head?.any p
  := by
  cases v with
  | nil =>
      obtain rfl | ⟨c, rest, rfl, hc⟩ := ht.cases
      · rfl
      · rw [List.nil_append, List.head?_cons, Option.any_some, hp hc]
        rfl
  | cons c v => rfl

end Runs

theorem drop_takeWhile_append (p : Char → Bool) (v t : Text) :
  (v ++ t).drop (v.takeWhile p).length = v.drop (v.takeWhile p).length ++ t
  := List.drop_append_of_le_length (List.takeWhile_prefix p).length_le

variable (ht : IsBlunt t)

include ht

/-! ### Escapes -/

/-- The reading with a text behind what it leaves. -/
abbrev behind (t : Text) (o : Option (Nat × Text)) : Option (Nat × Text) :=
  o.map fun x => (x.1, x.2 ++ t)

theorem fixedHex?_append (count : Nat) (v : Text) :
  fixedHex? count (v ++ t) = behind t (fixedHex? count v)
  := by
  unfold fixedHex?
  dsimp only
  by_cases hlength : count ≤ v.length
  · rw [List.take_append_of_le_length hlength, List.drop_append_of_le_length hlength]
    split <;> rfl
  · -- the digits do not go on into the blunt text
    obtain rfl | ⟨c, rest, rfl, hc⟩ := ht.cases
    · rw [List.append_nil, if_neg fun h => hlength (by
        rw [Bool.and_eq_true, decide_eq_true_eq, List.length_take] at h
        omega)]
      rfl
    have hmem : c ∈ (v ++ c :: rest).take count := by
      obtain ⟨k, hk⟩ : ∃ k, count - v.length = k + 1 := ⟨count - v.length - 1, by omega⟩
      rw [List.take_append, hk, List.take_succ_cons]
      simp
    have hdigit : ((hexDigit? c).isSome) = false :=
      not_of_isDull (p := fun c => (hexDigit? c).isSome) (by decide) hc
    rw [if_neg, if_neg]
    · rfl
    · rw [Bool.and_eq_true, decide_eq_true_eq, List.length_take]
      omega
    · rw [Bool.and_eq_true, List.all_eq_true]
      intro h
      rw [h.2 c hmem] at hdigit
      cases hdigit

theorem bracedHex?_append (v : Text) :
  bracedHex? (v ++ t) = behind t (bracedHex? v)
  := by
  unfold bracedHex?
  dsimp only
  rw [takeWhile_append_blunt (p := fun c => (hexDigit? c).isSome)
      (not_of_isDull (p := fun c => (hexDigit? c).isSome) (by decide)) ht,
    drop_takeWhile_append]
  generalize v.drop _ = rest
  cases rest with
  | nil =>
      obtain rfl | ⟨c, more, rfl, hc⟩ := ht.cases
      · rfl
      · rw [List.nil_append]
        split
        · next heq => cases heq; cases hc
        · rfl
  | cons d rest =>
      by_cases hd : d = '}'
      · subst hd
        simp only [List.cons_append]
        split <;> rfl
      · split
        · next heq => cases heq; exact (hd rfl).elim
        · split
          · next heq => cases heq; exact (hd rfl).elim
          · rfl

/-- A text that does not go on with a character does not do so before a blunt text. -/
theorem ne_cons_append {d : Char} {v : Text} (hd : isDull d = false)
    (h : ∀ w, v = d :: w → False) (w : Text) (heq : v ++ t = d :: w) : False := by
  cases v with
  | nil =>
      obtain rfl | ⟨c, rest, rfl, hc⟩ := ht.cases
      · cases heq
      · cases heq
        rw [hc] at hd
        cases hd
  | cons e v =>
      cases heq
      exact h v rfl

theorem ne_cons_cons_append {d e : Char} {v : Text} (hd : isDull d = false)
    (he : isDull e = false) (h : ∀ w, v = d :: e :: w → False) (w : Text)
    (heq : v ++ t = d :: e :: w) : False := by
  cases v with
  | nil => exact ne_cons_append ht hd (fun _ hnil => List.cons_ne_nil _ _ hnil.symm) _ heq
  | cons c v =>
      obtain ⟨rfl, hv⟩ := List.cons.inj heq
      exact ne_cons_append ht he (fun w hv => h w (congrArg _ hv)) w hv

theorem codeEscape?_append (v : Text) :
  codeEscape? (v ++ t) = behind t (codeEscape? v)
  := by
  fun_cases codeEscape? v with
  | case1 v => simp only [List.cons_append, codeEscape?, bracedHex?_append ht]
  | case2 v hne hnone =>
      rw [codeEscape?.eq_2 _ (ne_cons_append ht rfl hne), fixedHex?_append ht, hnone]
      rfl
  | case7 =>
      rename_i hmore hne hfirst
      rw [codeEscape?.eq_2 _ (ne_cons_append ht rfl hne), fixedHex?_append ht, hfirst]
      dsimp only [behind, Option.map_some]
      split
      · next heq => exact (ne_cons_cons_append ht rfl rfl hmore _ heq).elim
      · rfl
  | case3 | case4 | case5 | case6 =>
      rename_i hne hfirst
      rw [codeEscape?.eq_2 _ (ne_cons_append ht rfl hne), fixedHex?_append ht, hfirst]
      simp only [behind, Option.map_some, List.cons_append, fixedHex?_append ht]
      simp [*]

/-! ### Words -/

/-- The reading with a text behind what it leaves. -/
def WordReading.before (r : WordReading) (t : Text) : WordReading := { r with rest := r.rest ++ t }

omit ht in
theorem isWordPart_of_isDull (hc : isDull c = true) :
  isWordPart c = false
  := not_of_isDull (by decide +kernel) hc

omit ht in
theorem isWordStart_of_isDull (hc : isDull c = true) :
  isWordStart c = false
  := not_of_isDull (by decide +kernel) hc

omit ht in
/-- A budget for a character is not used up. -/
theorem exists_cons_of_length_le {budget : Text} (h : (c :: t).length ≤ budget.length) :
  ∃ b bs, budget = b :: bs
  := by
  cases budget with
  | nil => simp at h
  | cons b bs => exact ⟨b, bs, rfl⟩

theorem readWord_append {allowed : Char → Bool}
    (hallowed : ∀ {c}, isDull c = true → allowed c = false) {budget budget' v : Text}
    (hbudget : (v ++ t).length ≤ budget.length) (hbudget' : v.length ≤ budget'.length) :
  readWord allowed budget (v ++ t) = (readWord allowed budget' v).before t
  := by
  fun_induction readWord allowed budget' v generalizing budget with
  | case1 allowed _ budget' v code hcode =>
      obtain ⟨b, bs, rfl⟩ := exists_cons_of_length_le hbudget
      by_cases hu : ∃ w, v = 'u' :: w
      · obtain ⟨w, rfl⟩ := hu
        have hw : codeEscape? w = none := hcode
        rw [List.cons_append, List.cons_append, readWord.eq_1, codeEscape?_append ht, hw]
        rfl
      · have hne (w : Text) (h : v = 'u' :: w) : False := hu ⟨w, h⟩
        rw [List.cons_append, readWord.eq_2 _ _ _ _ (ne_cons_append ht rfl hne)]
        rfl
  | case2 allowed _ budget' v code n rest hcode =>
      rename_i ih
      obtain ⟨b, bs, rfl⟩ := exists_cons_of_length_le hbudget
      obtain ⟨w, rfl⟩ : ∃ w, v = 'u' :: w := by
        unfold code at hcode
        split at hcode
        · next w => exact ⟨w, rfl⟩
        · cases hcode
      have hw : codeEscape? w = some (n, rest) := hcode
      have hrest : rest.length ≤ w.length := (writes_codeEscape? hw).length_le
      simp only [List.length_cons, List.cons_append, List.length_append] at hbudget hbudget'
      rw [List.cons_append, List.cons_append, readWord.eq_1, codeEscape?_append ht, hw]
      dsimp only [behind, Option.map_some]
      rw [ih isWordPart_of_isDull]
      · rfl
      · rw [List.length_append]; omega
      · omega
  | case3 allowed _ budget' c v hc hallow more ih =>
      obtain ⟨b, bs, rfl⟩ := exists_cons_of_length_le hbudget
      simp only [List.length_cons, List.cons_append, List.length_append] at hbudget hbudget'
      rw [List.cons_append, readWord.eq_3 _ _ _ _ _ hc, if_pos hallow]
      dsimp only
      rw [ih isWordPart_of_isDull]
      · rfl
      · rw [List.length_append]; omega
      · omega
  | case4 allowed _ budget' c v hc hallow =>
      obtain ⟨b, bs, rfl⟩ := exists_cons_of_length_le hbudget
      rw [List.cons_append, readWord.eq_3 _ _ _ _ _ hc, if_neg hallow]
      rfl
  | case5 budget' allowed v _ hempty =>
      cases v with
      | nil =>
          obtain rfl | ⟨c, rest, rfl, hc⟩ := ht.cases
          · cases budget <;> rfl
          · obtain ⟨b, bs, rfl⟩ := exists_cons_of_length_le hbudget
            rw [List.nil_append, readWord.eq_3 _ _ _ _ _ (ne_of_isDull rfl hc), hallowed hc]
            rfl
      | cons c v =>
          cases budget' with
          | nil => simp at hbudget'
          | cons b bs => exact (hempty b bs c v rfl rfl).elim

/-! ### Numbers -/

/-- The reading with a text behind what it leaves. -/
def NumberReading.before (r : NumberReading) (t : Text) : NumberReading :=
  { r with rest := r.rest ++ t }

section Digits

variable {isDigit : Char → Bool} (hdigit : ∀ {c}, isDull c = true → isDigit c = false)

include hdigit

omit ht hdigit in
theorem afterDigits_cons (c : Char) (v : Text) :
  afterDigits isDigit (c :: v)
    = if isDigit c then afterDigits isDigit v
      else if c == '_' then
        match v with
        | d :: v => if isDigit d then afterDigits isDigit v else none
        | [] => none
      else some (c :: v)
  := by cases v <;> rfl

theorem afterDigits_append (v : Text) :
  afterDigits isDigit (v ++ t) = (afterDigits isDigit v).map (· ++ t)
  := by
  obtain rfl | ⟨e, more, rfl, he⟩ := ht.cases
  · simp
  fun_induction afterDigits isDigit v with
  | case1 =>
      have hline : (e == '_') = false := not_of_isDull (p := (· == '_')) (by decide) he
      rw [List.nil_append, afterDigits_cons, hdigit he, hline]
      rfl
  | case2 c v hc ih => rw [List.cons_append, afterDigits_cons, if_pos hc, ih]
  | case3 c hc hc' d v hd ih =>
      rw [List.cons_append, List.cons_append, afterDigits_cons, if_neg hc, if_pos hc']
      dsimp only
      rw [if_pos hd, ih]
  | case4 c hc hc' d v hd =>
      rw [List.cons_append, List.cons_append, afterDigits_cons, if_neg hc, if_pos hc']
      dsimp only
      rw [if_neg hd]
      rfl
  | case5 c hc hc' =>
      rw [List.cons_append, List.nil_append, afterDigits_cons, if_neg hc, if_pos hc']
      dsimp only
      rw [hdigit he]
      rfl
  | case6 c v hc hc' =>
      rw [List.cons_append, afterDigits_cons, if_neg hc, if_neg hc']
      rfl

theorem afterSomeDigits_append (v : Text) :
  afterSomeDigits isDigit (v ++ t) = (afterSomeDigits isDigit v).map (· ++ t)
  := by
  cases v with
  | nil =>
      obtain rfl | ⟨c, rest, rfl, hc⟩ := ht.cases
      · rfl
      · unfold afterSomeDigits
        dsimp only [List.nil_append]
        rw [hdigit hc]
        rfl
  | cons c v =>
      unfold afterSomeDigits
      dsimp only [List.cons_append]
      split
      · exact afterDigits_append ht hdigit v
      · rfl

end Digits

omit ht in
theorem isDigit_of_isDull (hc : isDull c = true) :
  c.isDigit = false
  := not_of_isDull (by decide) hc

theorem afterOptionalDigits_append (v : Text) :
  afterOptionalDigits (v ++ t) = (afterOptionalDigits v).map (· ++ t)
  := by
  unfold afterOptionalDigits
  rw [head?_append_blunt isDigit_of_isDull ht]
  split
  · exact afterDigits_append ht isDigit_of_isDull v
  · rfl

theorem endNumber_append (form : NumberForm) (v : Text) :
  endNumber form (v ++ t) = (endNumber form v).before t
  := by
  unfold endNumber
  have hany {c : Char} (hc : isDull c = true) : (c.isDigit || isWordStart c) = false := by
    rw [isDigit_of_isDull hc, isWordStart_of_isDull hc]
    rfl
  rw [head?_append_blunt hany ht, dropWhile_append_blunt isWordPart_of_isDull ht]
  split <;> rfl

theorem afterSign_append (v : Text) :
  afterSign (v ++ t) = afterSign v ++ t
  := by
  fun_cases afterSign v with
  | case1 => rfl
  | case2 => rfl
  | case3 v hminus hplus =>
      exact afterSign.eq_3 _ (ne_cons_append ht rfl hminus) (ne_cons_append ht rfl hplus)

theorem endExponent_append (v : Text) :
  endExponent (v ++ t) = (endExponent v).before t
  := by
  unfold endExponent
  rw [afterSign_append ht, afterSomeDigits_append ht isDigit_of_isDull]
  cases afterSomeDigits Char.isDigit (afterSign v) with
  | none => rfl
  | some rest => exact endNumber_append ht _ rest

theorem endWithExponent_append (form : NumberForm) (v : Text) :
  endWithExponent form (v ++ t) = (endWithExponent form v).before t
  := by
  fun_cases endWithExponent form v with
  | case1 v => exact endExponent_append ht v
  | case2 v => exact endExponent_append ht v
  | case3 v hlower hupper =>
      rw [endWithExponent.eq_3 _ _ (ne_cons_append ht rfl hlower) (ne_cons_append ht rfl hupper)]
      exact endNumber_append ht form v

theorem endFraction_append (v : Text) :
  endFraction (v ++ t) = (endFraction v).before t
  := by
  unfold endFraction
  rw [afterOptionalDigits_append ht]
  cases afterOptionalDigits v with
  | none => rfl
  | some rest => exact endWithExponent_append ht _ rest

theorem endOtherBase_append (form : NumberForm) {isDigit : Char → Bool}
    (hdigit : ∀ {c}, isDull c = true → isDigit c = false) (v : Text) :
  endOtherBase form isDigit (v ++ t) = (endOtherBase form isDigit v).before t
  := by
  have hsize (v : Text) : afterSizeMark (v ++ t) = afterSizeMark v ++ t := by
    fun_cases afterSizeMark v with
    | case1 => rfl
    | case2 v hn => exact afterSizeMark.eq_2 _ (ne_cons_append ht rfl hn)
  unfold endOtherBase
  rw [afterSomeDigits_append ht hdigit]
  cases afterSomeDigits isDigit v with
  | none => rfl
  | some rest =>
      dsimp only [Option.map_some]
      rw [hsize]
      exact endNumber_append ht form _

theorem endPointed_append (v : Text) :
  endPointed (v ++ t) = (endPointed v).before t
  := by
  fun_cases endPointed v with
  | case1 v => exact endFraction_append ht v
  | case2 v hpoint =>
      rw [endPointed.eq_2 _ (ne_cons_append ht rfl hpoint)]
      exact endWithExponent_append ht _ v

theorem endDecimal_append (v : Text) :
  endDecimal (v ++ t) = (endDecimal v).before t
  := by
  fun_cases endDecimal v with
  | case1 v => exact endNumber_append ht _ v
  | case2 v hn =>
      rw [endDecimal.eq_2 _ (ne_cons_append ht rfl hn)]
      exact endPointed_append ht v

theorem endWithLeadingZero_append (v : Text) :
  endWithLeadingZero (v ++ t) = (endWithLeadingZero v).before t
  := by
  unfold endWithLeadingZero
  dsimp only
  rw [takeWhile_append_blunt isDigit_of_isDull ht, drop_takeWhile_append]
  split
  · exact endNumber_append ht _ _
  · exact endPointed_append ht _

theorem readAfterZero_append (v : Text) :
  readAfterZero (v ++ t) = (readAfterZero v).before t
  := by
  cases v with
  | nil =>
      obtain rfl | ⟨c, rest, rfl, hc⟩ := ht.cases
      · rfl
      · rw [isDull_iff] at hc
        simp only [List.mem_cons, List.not_mem_nil, or_false] at hc
        rcases hc with rfl | rfl | rfl | rfl <;> rfl
  | cons c v =>
      unfold readAfterZero
      dsimp only [List.cons_append]
      split
      · exact endOtherBase_append ht _ (not_of_isDull (p := fun d => d == '0' || d == '1') rfl) v
      split
      · exact endOtherBase_append ht _ (not_of_isDull (p := isOctalDigit) (by decide)) v
      split
      · exact endOtherBase_append ht _
          (not_of_isDull (p := fun c => (hexDigit? c).isSome) (by decide)) v
      split
      · exact endWithLeadingZero_append ht (c :: v)
      · exact endDecimal_append ht (c :: v)

theorem readNumber_append (first : Char) (v : Text) :
  readNumber first (v ++ t) = (readNumber first v).before t
  := by
  unfold readNumber
  rw [endFraction_append ht, readAfterZero_append ht, afterDigits_append ht isDigit_of_isDull]
  split
  · rfl
  · split
    · rfl
    · cases afterDigits Char.isDigit v with
      | none => rfl
      | some rest => exact endDecimal_append ht rest

/-! ### Quoted texts -/

/-- The reading with a text behind what it leaves. -/
def QuotedReading.before (r : QuotedReading) (t : Text) : QuotedReading :=
  { r with rest := r.rest ++ t }

/-- The reading with a text behind what it leaves. -/
def TemplateReading.before (r : TemplateReading) (t : Text) : TemplateReading :=
  { r with rest := r.rest ++ t }

omit ht

section Quoted

variable {quote : Char}

theorem readString_cons {c : Char} (hnil : c = '\\' → t = [] → False)
    (hescape : ∀ d w, c = '\\' → t = d :: w → False) (w : Text) :
  readString quote (c :: w)
    = if c == quote then ⟨[], true, w⟩
      else if c == '\n' || c == '\r' then ⟨[], false, w⟩
      else (readString quote w).cons c
  := by
  have hplain (h : c = '\\') : False := by
    cases t with
    | nil => exact hnil h rfl
    | cons d w => exact hescape d w h rfl
  apply readString.eq_5
  · exact fun h _ => hplain h
  · exact fun _ h _ => hplain h
  · exact fun _ _ h _ => hplain h

/-- A string that is closed is the same before every text. -/
theorem readString_append {v : Text} (h : (readString quote v).closed = true) (t : Text) :
  readString quote (v ++ t) = (readString quote v).before t
  := by
  fun_induction readString quote v with
  | case1 | case2 | case6 => cases h
  | case3 v ih =>
      rw [List.cons_append, List.cons_append, List.cons_append, readString.eq_3, ih h]
      rfl
  | case4 c v hline ih =>
      rw [List.cons_append, List.cons_append, readString.eq_4, ih h]
      · rfl
      · rintro w rfl heq
        cases v with
        | nil => cases h
        | cons d v => exact hline v rfl (congrArg (· :: v) (List.cons.inj heq).1)
  | case5 c v hnil _ hescape hc =>
      rw [List.cons_append, readString_cons hnil hescape, if_pos hc]
      rfl
  | case7 c v hnil _ hescape hc hbreak ih =>
      rw [List.cons_append, readString_cons hnil hescape, if_neg hc, if_neg hbreak, ih h]
      rfl

/-- The reading of a string goes past an escape of one character. -/
theorem readString_escape {c : Char} {v : Text} (hline : ∀ w, c = '\r' → v = '\n' :: w → False) :
  (readString quote ('\\' :: c :: v)).closed = (readString quote v).closed
  := by
  rw [readString.eq_4 _ _ _ hline]
  rfl

variable (hdull : ∀ c ∈ t, isDull c = true)

include hdull

/-- Dull characters do not close a string. -/
theorem closed_readString_dull (hquote : isDull quote = false) :
  (readString quote t).closed = false
  := by
  fun_induction readString quote t with
  | case1 | case2 | case6 => rfl
  | case3 t ih => cases hdull _ List.mem_cons_self
  | case4 c t _ ih => cases hdull _ List.mem_cons_self
  | case5 c t _ _ _ hc =>
      have hc' := hdull c List.mem_cons_self
      rw [beq_iff_eq.mp hc, hquote] at hc'
      cases hc'
  | case7 c t _ _ _ _ _ ih => exact ih (List.forall_mem_cons.mp hdull).2

/-- Dull characters close no string that begins before them. -/
theorem closed_readString_of_append (hquote : isDull quote = false) {v : Text}
    (h : (readString quote (v ++ t)).closed = true) :
  (readString quote v).closed = true
  := by
  fun_induction readString quote v with
  | case1 =>
      rw [List.nil_append, closed_readString_dull hdull hquote] at h
      cases h
  | case2 =>
      cases t with
      | nil => exact h
      | cons c t =>
          have hc := hdull c List.mem_cons_self
          rw [List.singleton_append, readString_escape fun _ hr _ => ne_of_isDull rfl hc hr,
            closed_readString_dull (List.forall_mem_cons.mp hdull).2 hquote] at h
          cases h
  | case3 v ih => exact ih h
  | case4 c v hline ih =>
      cases v with
      | nil =>
          -- the escape may go on into the dull characters
          exfalso
          by_cases hr : c = '\r' ∧ t.head? = some '\n'
          · obtain ⟨rfl, hn⟩ := hr
            obtain ⟨w, rfl⟩ := List.head?_eq_some_iff.mp hn
            have hw := closed_readString_dull (List.forall_mem_cons.mp hdull).2 hquote
            change (readString quote w).closed = true at h
            rw [hw] at h
            cases h
          · rw [List.cons_append, List.singleton_append, readString_escape,
              closed_readString_dull hdull hquote] at h
            · cases h
            · exact fun w hc ht => hr ⟨hc, by rw [ht]; rfl⟩
      | cons d v =>
          rw [List.cons_append, List.cons_append, readString_escape] at h
          · exact ih h
          · exact fun w hc ht => hline v hc (congrArg (· :: v) (List.cons.inj ht).1)
  | case5 => rfl
  | case6 c v hnil _ hescape hc hbreak =>
      rw [List.cons_append, readString_cons hnil hescape, if_neg hc, if_pos hbreak] at h
      cases h
  | case7 c v hnil _ hescape hc hbreak ih =>
      rw [List.cons_append, readString_cons hnil hescape, if_neg hc, if_neg hbreak] at h
      exact ih h

omit hdull in
/-- A regular expression that is closed is the same before every text. -/
theorem readRegex_append {escaped inClass : Bool} {v : Text}
    (h : (readRegex escaped inClass v).closed = true) (t : Text) :
  readRegex escaped inClass (v ++ t) = (readRegex escaped inClass v).before t
  := by
  fun_induction readRegex escaped inClass v with
  | case1 | case2 => cases h
  | case4 => simp [readRegex, QuotedReading.before, *]
  | case3 | case5 | case6 | case7 =>
      rename_i ih
      rw [List.cons_append, readRegex]
      simp only [if_true, if_false, Bool.false_eq_true, ih h, *]
      rfl

/-- Dull characters do not close a regular expression. -/
theorem closed_readRegex_dull (escaped inClass : Bool) :
  (readRegex escaped inClass t).closed = false
  := by
  fun_induction readRegex escaped inClass t with
  | case1 | case2 => rfl
  | case4 _ _ c t _ _ hc =>
      rw [Bool.and_eq_true, beq_iff_eq] at hc
      exact (ne_of_isDull rfl (hdull c List.mem_cons_self) hc.1).elim
  | case3 | case5 | case6 | case7 =>
      rename_i ih
      exact ih (List.forall_mem_cons.mp hdull).2

/-- Dull characters close no regular expression that begins before them. -/
theorem closed_readRegex_of_append {escaped inClass : Bool} {v : Text}
    (h : (readRegex escaped inClass (v ++ t)).closed = true) :
  (readRegex escaped inClass v).closed = true
  := by
  fun_induction readRegex escaped inClass v with
  | case1 =>
      rw [List.nil_append, closed_readRegex_dull hdull] at h
      cases h
  | case4 => rfl
  | case2 =>
      rw [List.cons_append, readRegex, if_pos ‹_›] at h
      cases h
  | case3 | case5 | case6 | case7 =>
      rename_i ih
      apply ih
      rw [List.cons_append, readRegex] at h
      simp only [if_true, if_false, Bool.false_eq_true, *] at h
      exact h

omit hdull in
theorem readTemplate_plain {c : Char} {v : Text} (hescape : c ≠ '\\') (hquote : c ≠ '\x60')
    (hbrace : ∀ w, c = '$' → v = '{' :: w → False) :
  readTemplate (c :: v) = (readTemplate v).cons c
  := by
  apply readTemplate.eq_6
  · exact fun h _ => hescape h
  · exact fun _ _ h _ => hescape h
  · exact hquote
  · exact hbrace

omit hdull in
/-- A piece of a template that ends is the same before every text. -/
theorem readTemplate_append {v : Text} (h : (readTemplate v).ending ≠ .text) (t : Text) :
  readTemplate (v ++ t) = (readTemplate v).before t
  := by
  fun_induction readTemplate v with
  | case1 | case2 => cases h rfl
  | case3 c v ih =>
      rw [List.cons_append, List.cons_append, readTemplate.eq_3, ih h]
      rfl
  | case4 | case5 => rfl
  | case6 c v hnil hescape hquote hbrace ih =>
      cases v with
      | nil => cases h rfl
      | cons d v =>
          rw [List.cons_append, readTemplate_plain (fun hc => hescape d v hc rfl) hquote, ih h]
          · rfl
          · exact fun w hc hd => hbrace v hc (congrArg (· :: v) (List.cons.inj hd).1)

/-- A piece of a template does not end in dull characters. -/
theorem ending_readTemplate_dull :
  (readTemplate t).ending = .text
  := by
  fun_induction readTemplate t with
  | case1 | case2 => rfl
  | case4 | case5 => cases hdull _ List.mem_cons_self
  | case3 c t ih => cases hdull _ List.mem_cons_self
  | case6 c t _ _ _ _ ih => exact ih (List.forall_mem_cons.mp hdull).2

/-- A piece of a template that begins before dull characters does not end in them. -/
theorem ending_readTemplate_of_append {v : Text} (h : (readTemplate (v ++ t)).ending ≠ .text) :
  (readTemplate v).ending ≠ .text
  := by
  fun_induction readTemplate v with
  | case1 =>
      rw [List.nil_append, ending_readTemplate_dull hdull] at h
      exact h
  | case2 =>
      cases t with
      | nil => exact h
      | cons c t =>
          have hnone := ending_readTemplate_dull (List.forall_mem_cons.mp hdull).2
          exact (h hnone).elim
  | case3 c v ih => exact ih h
  | case4 | case5 => rintro ⟨⟩
  | case6 c v hnil hescape hquote hbrace ih =>
      apply ih
      cases v with
      | nil =>
          rw [List.singleton_append, readTemplate_plain (hnil · rfl) hquote] at h
          · exact h
          · rintro w - rfl
            cases hdull '{' List.mem_cons_self
      | cons d v =>
          rw [List.cons_append, readTemplate_plain (fun hc => hescape d v hc rfl) hquote] at h
          · exact h
          · exact fun w hc hd => hbrace v hc (congrArg (· :: v) (List.cons.inj hd).1)

end Quoted

end Stencil.Script
