import Stencil.Lint.Rules.Terms
import Stencil.Proofs.Pattern.Reading

/-!
# The patterns of terms

The source that is made of a term reads as the characters of the term one after the other, in any
letter case, after what may come before them.  A term stands at the beginning of a text that is the
term itself, and nowhere else in it.  So the pattern finds the term in this text unless it asks for
the beginning or the end of a word where the text has none.  This happens where a term begins or
ends with a number that is neither a digit nor a letter: the source asks for the end of a word
there, but to patterns such a number is no part of a word.
-/

namespace Stencil.Lint

open Text Pattern

/-- The flags under which a term is read. -/
def termFlags : Flags := { caseless := true }

/-- The characters that may stand before a term at the beginning of a comment. -/
def padding : CharSet := .union (.having .blank) (.caseless (.single '*'))

/-- The patterns before the characters of a term. -/
def termLead (location : TermLocation) (term : Text) : List Pattern :=
  match location with
  | .start => [.assert .textStart, .star true (.one padding)]
  | .anywhere => if term.head?.any isTermWord then [.assert .wordBoundary] else []

/-- The patterns after the characters of a term. -/
def termTrail (term : Text) : List Pattern :=
  if term.getLast?.any isTermWord then [.assert .wordBoundary] else []

/-- The pattern of a term. -/
def termPattern (location : TermLocation) (term : Text) : Pattern :=
  seqs (termLead location term ++ term.map termFlags.char ++ termTrail term)

/-! ### Reading the source -/

/-- Whatever is read before it, the source reads as the patterns, one step for each of them.  The
text behind it must not go on with a question mark, which would belong to a repetition. -/
def ReadsAs (source : Text) (ps : List Pattern) : Prop :=
  ∃ steps ≤ source.length, ∀ (limit : Nat) (items : List (Option Pattern)) (g : Groups) (t : Text),
    t.head? ≠ some '?' →
    body? (limit + steps) ⟨termFlags, [], items⟩ g (source ++ t)
      = body? limit ⟨termFlags, [], (ps.map some).reverse ++ items⟩ g t

theorem ReadsAs.append {source source' : Text} {ps ps' : List Pattern} (h : ReadsAs source ps)
    (h' : ReadsAs source' ps')
    (hhead : ∀ t : Text, t.head? ≠ some '?' → (source' ++ t).head? ≠ some '?') :
  ReadsAs (source ++ source') (ps ++ ps')
  := by
  obtain ⟨steps, hsteps, hread⟩ := h
  obtain ⟨steps', hsteps', hread'⟩ := h'
  refine ⟨steps' + steps, ?_, fun limit items g t ht => ?_⟩
  · rw [List.length_append]
    omega
  · rw [← Nat.add_assoc, List.append_assoc, hread _ _ _ _ (hhead t ht), hread' _ _ _ _ ht,
      List.map_append, List.reverse_append, List.append_assoc]

theorem readsAs_nil :
  ReadsAs [] []
  := ⟨0, Nat.le_refl 0, fun _ _ _ _ _ => rfl⟩

theorem readsAs_wordBoundary :
  ReadsAs (ofString "\\b") [.assert .wordBoundary]
  := ⟨1, by decide, fun _ _ _ _ _ => rfl⟩

theorem readsAs_escape (term : Text) :
  ReadsAs (escape term) (term.map termFlags.char)
  := by
  refine ⟨term.length, length_le_length_escape term, fun limit items g t _ => ?_⟩
  rw [body?_escape rfl, List.map_map]

theorem readsAs_padding :
  ReadsAs (ofString "^[\\s*]*") [.assert .textStart, .star true (.one padding)]
  := by
  refine ⟨3, by decide, fun limit items g t ht => ?_⟩
  have hclass : body? (limit + 3) ⟨termFlags, [], items⟩ g (ofString "^[\\s*]*" ++ t)
      = body? (limit + 1) ⟨termFlags, [],
          some (.one padding) :: some (.assert .textStart) :: items⟩ g ('*' :: t) := rfl
  rw [hclass, body?_star rfl, greed_of_head? ht]
  rfl

/-- No question mark comes first in an escaped text. -/
theorem head?_escape_append (term : Text) {t : Text} (ht : t.head? ≠ some '?') :
  (escape term ++ t).head? ≠ some '?'
  := by
  cases term with
  | nil => exact ht
  | cons c term =>
      rw [escape, List.flatMap_cons]
      cases hc : isMeta c with
      | true => simp
      | false =>
          rw [if_neg Bool.false_ne_true]
          rintro ⟨⟩
          cases hc

/-- What stands before a term reads as the patterns before its characters. -/
theorem readsAs_termLead (location : TermLocation) (term : Text) :
  ∃ lead trail, termSource location term = ofString "(?i)" ++ (lead ++ escape term ++ trail)
    ∧ ReadsAs lead (termLead location term) ∧ ReadsAs trail (termTrail term)
    ∧ ∀ t : Text, t.head? ≠ some '?' → (trail ++ t).head? ≠ some '?'
  := by
  have hboundary (isNeeded : Bool) :
      ReadsAs (if isNeeded then ofString "\\b" else [])
        (if isNeeded then [.assert .wordBoundary] else []) := by
    cases isNeeded with
    | false => exact readsAs_nil
    | true => exact readsAs_wordBoundary
  have hhead (t : Text) (ht : t.head? ≠ some '?') (isNeeded : Bool) :
      ((if isNeeded then ofString "\\b" else []) ++ t).head? ≠ some '?' := by
    cases isNeeded with
    | false => exact ht
    | true => simp [ofString]
  cases location with
  | start =>
      refine ⟨ofString "^[\\s*]*", _, ?_, readsAs_padding, hboundary _, fun t ht => hhead t ht _⟩
      rw [termSource, List.append_assoc, List.append_assoc, List.append_assoc]
      rfl
  | anywhere =>
      refine ⟨_, _, ?_, hboundary _, hboundary _, fun t ht => hhead t ht _⟩
      rw [termSource, List.append_assoc, List.append_assoc, List.append_assoc]
      rfl

/-- The source of a term reads as its pattern. -/
theorem ofSource?_termSource (location : TermLocation) (term : Text) :
  ofSource? (termSource location term) = some ⟨termPattern location term, 0⟩
  := by
  obtain ⟨lead, trail, hsource, hlead, htrail, hhead⟩ := readsAs_termLead location term
  obtain ⟨steps, hsteps, hread⟩ :=
    (hlead.append (readsAs_escape term) fun t => head?_escape_append term).append htrail hhead
  obtain ⟨more, hmore⟩ := Nat.exists_eq_add_of_le' hsteps
  generalize lead ++ escape term ++ trail = source at *
  -- there is room for the flags, the rest of the source and the end
  have hlength : (ofString "(?i)" ++ source).length + 1 = more + 3 + 1 + steps + 1 := by
    have hflags : (ofString "(?i)").length = 4 := rfl
    rw [List.length_append, hflags]
    omega
  have hrest := hread (more + 3 + 1) [none] ⟨0, []⟩ [] (by simp)
  rw [List.append_nil] at hrest
  have hflags : body? (more + 3 + 1 + steps + 1) ⟨{}, [], []⟩ ⟨0, []⟩ (ofString "(?i)" ++ source)
      = body? (more + 3 + 1 + steps) ⟨termFlags, [], [none]⟩ ⟨0, []⟩ source := rfl
  have hend : body? (more + 3 + 1) ⟨termFlags, [], ((termLead location term
      ++ term.map termFlags.char ++ termTrail term).map some).reverse ++ [none]⟩ ⟨0, []⟩ []
      = some (termPattern location term, ⟨0, []⟩, []) := by
    rw [body?]
    dsimp only
    rw [skipSpace_eq rfl]
    simp [Partial.pattern, Partial.nextAlternative, alts, termPattern, List.filterMap_append]
  rw [hsource, ofSource?, hlength, hflags, hrest, hend]

/-! ### Matching the characters -/

/-- A character is a variant of itself. -/
theorem mem_variants (c : Char) :
  c ∈ Letter.variants c
  := by
  unfold Letter.variants
  split
  · next orbit horbit =>
      have hc := List.find?_some horbit
      exact List.mem_map.mpr ⟨c.toNat, by simpa using hc, Char.ofNat_toNat c⟩
  · split <;> apply List.mem_cons_self

/-- A character of a term matches itself. -/
theorem mem_caseless_single (c : Char) :
  (CharSet.caseless (.single c)).mem c = true
  := List.any_eq_true.mpr ⟨c, mem_variants c, by simp⟩

/-- The characters of a term match where the term stands ahead. -/
theorem after_mem_outcomes (term more : Text) :
    ∀ s : State, s.rest = term ++ more →
      s.after term ∈ outcomes (seqs (term.map termFlags.char)) s
  := by
  induction term with
  | nil =>
      intro s _
      exact List.mem_singleton.mpr rfl
  | cons c term ih =>
      rintro ⟨pos, prev, rest, groups⟩ hrest
      obtain rfl : rest = c :: (term ++ more) := hrest
      have hread : outcomes (termFlags.char c) ⟨pos, prev, c :: (term ++ more), groups⟩
          = [⟨pos + c.utf8Size, some c, term ++ more, groups⟩] := if_pos (mem_caseless_single c)
      rw [List.map_cons, outcomes_seqs_cons, hread, List.flatMap_singleton, State.after_cons]
      apply ih _ rfl

/-- They match as many characters as the term has. -/
theorem exists_after_of_mem_outcomes (term : Text) {e : State} :
    ∀ s : State, e ∈ outcomes (seqs (term.map termFlags.char)) s →
      ∃ piece more, s.rest = piece ++ more ∧ piece.length = term.length ∧ e = s.after piece
  := by
  induction term with
  | nil =>
      intro s he
      exact ⟨[], s.rest, rfl, rfl, List.mem_singleton.mp he⟩
  | cons c term ih =>
      rintro ⟨pos, prev, rest, groups⟩ he
      rw [List.map_cons, outcomes_seqs_cons] at he
      obtain ⟨mid, hmid, he⟩ := List.mem_flatMap.mp he
      cases rest with
      | nil => simp [Flags.char, outcomes] at hmid
      | cons d rest =>
          obtain rfl : mid = ⟨pos + d.utf8Size, some d, rest, groups⟩ := by
            rw [Flags.char, outcomes] at hmid
            dsimp only at hmid
            split at hmid
            · exact List.mem_singleton.mp hmid
            · cases hmid
          obtain ⟨piece, more, rfl, hlength, rfl⟩ := ih _ he
          refine ⟨d :: piece, more, rfl, ?_, ?_⟩
          · rw [List.length_cons, List.length_cons, hlength]
          · rw [State.after_cons]

/-! ### Finding a term in itself -/

/-- The character counts as a part of words where the source of a term is made, but not where the
source is read. -/
def isStray (c : Char) : Bool := isTermWord c && !Category.isWord c

theorem isWord_of_isAlphabetic {c : Char} (h : Category.isAlphabetic c = true) :
  Category.isWord c = true
  := by
  unfold Category.isWord
  split
  · simp_all [Category.isAlphabetic, Char.isAlphanum]
  · rw [h, Bool.true_or, Bool.true_or, Bool.true_or, Bool.true_or, Bool.true_or]

theorem isWord_of_isDigit {c : Char} (h : Category.isDigit c = true) :
  Category.isWord c = true
  := by
  unfold Category.isWord
  split
  · simp_all [Category.isDigit, Char.isAlphanum]
  · simp_all

theorem isAlphabetic_of_isLetterNumber {c : Char} (h : Category.isLetterNumber c = true) :
  Category.isAlphabetic c = true
  := by
  unfold Category.isLetterNumber at h
  unfold Category.isAlphabetic
  simp_all [Category.isLetterNumber]

theorem isNumeric_iff {c : Char} :
  Category.isNumeric c = true ↔ Category.isDigit c = true ∨ Category.isLetterNumber c = true
    ∨ Category.isOtherNumber c = true
  := by
  unfold Category.isNumeric
  split
  · next hascii =>
      have hascii : ¬ 0x80 ≤ c.val := UInt32.not_le.mpr hascii
      simp [Category.isDigit, Category.isLetterNumber, Category.isOtherNumber, hascii]
  · simp [or_assoc]

/-- Stray characters are numbers that are neither digits nor letters. -/
theorem isStray_iff {c : Char} :
  isStray c = true ↔ Category.isOtherNumber c = true ∧ Category.isWord c = false
  := by
  have hstray : isStray c = true ↔ isTermWord c = true ∧ Category.isWord c = false := by
    simp [isStray]
  have hterm : isTermWord c = true
      ↔ c = '_' ∨ Category.isAlphabetic c = true ∨ Category.isNumeric c = true := by
    simp [isTermWord, Category.isAlphanumeric]
  rw [hstray, hterm, isNumeric_iff]
  refine and_congr_left fun hword => ⟨?_, fun hother => .inr (.inr (.inr (.inr hother)))⟩
  -- all others are parts of words
  rintro (rfl | halphabetic | hdigit | hletter | hother)
  · cases hword
  · exact absurd (isWord_of_isAlphabetic halphabetic) (Bool.eq_false_iff.mp hword)
  · exact absurd (isWord_of_isDigit hdigit) (Bool.eq_false_iff.mp hword)
  · have halphabetic := isAlphabetic_of_isLetterNumber hletter
    exact absurd (isWord_of_isAlphabetic halphabetic) (Bool.eq_false_iff.mp hword)
  · exact hother

/-- The term neither ends in a stray character nor, if it may stand anywhere, begins with one. -/
def TermFits (location : TermLocation) (term : Text) : Prop :=
  (location = .anywhere → term.head?.any isStray = false) ∧ term.getLast?.any isStray = false

instance (location : TermLocation) (term : Text) : Decidable (TermFits location term) :=
  inferInstanceAs (Decidable (_ ∧ _))

/-- An assertion that is made only where it is needed leaves the state as it is. -/
theorem mem_outcomes_guard {isNeeded : Bool} {a : Assertion} {s e : State} :
  e ∈ outcomes (seqs (if isNeeded then [.assert a] else [])) s
    ↔ e = s ∧ (isNeeded = true → a.holds s = true)
  := by
  cases isNeeded with
  | false => simp [seqs, outcomes]
  | true =>
      simp only [if_true, seqs, outcomes]
      split <;> simp_all

/-- Where nothing stands before a place it is a boundary if a word begins there. -/
theorem holds_wordBoundary_start {s : State} (h : s.prev = none) :
  Assertion.wordBoundary.holds s = s.rest.head?.any Category.isWord
  := by
  simp [Assertion.holds, h]

/-- Where nothing stands after a place it is a boundary if a word ends there. -/
theorem holds_wordBoundary_end {s : State} (h : s.rest = []) :
  Assertion.wordBoundary.holds s = s.prev.any Category.isWord
  := by
  simp [Assertion.holds, h]

/-- A character that is there is not stray if it is part of a word where it counts as one. -/
theorem any_isStray_eq_false {c? : Option Char} :
  c?.any isStray = false ↔ (c?.any isTermWord = true → c?.any Category.isWord = true)
  := by
  cases c? with
  | none => simp
  | some c => cases h : isTermWord c <;> simp [isStray, h]

/-- The pattern of a term matches at the beginning of a text that is a fitting term. -/
theorem exists_outcome_of_termFits {location : TermLocation} {term : Text}
    (h : TermFits location term) :
  ∃ e, e ∈ outcomes (termPattern location term) (State.start term)
  := by
  obtain ⟨hlead, htrail⟩ := h
  have hfirst : State.start term ∈ outcomes (seqs (termLead location term)) (State.start term) := by
    cases location with
    | start =>
        rw [termLead, outcomes_seqs_cons]
        refine List.mem_flatMap.mpr ⟨State.start term, ?_, ?_⟩
        · exact List.mem_singleton.mpr rfl
        · exact List.mem_append_right _ (List.mem_singleton.mpr rfl)
    | anywhere =>
        refine mem_outcomes_guard.mpr ⟨rfl, fun hword => ?_⟩
        rw [holds_wordBoundary_start rfl]
        exact any_isStray_eq_false.mp (hlead rfl) hword
  have hmiddle := after_mem_outcomes term [] (State.start term) (List.append_nil term).symm
  have hlast : (State.start term).after term
      ∈ outcomes (seqs (termTrail term)) ((State.start term).after term) := by
    refine mem_outcomes_guard.mpr ⟨rfl, fun hword => ?_⟩
    rw [holds_wordBoundary_end List.drop_length, State.after, State.start, Option.or_none]
    exact any_isStray_eq_false.mp htrail hword
  refine ⟨(State.start term).after term, ?_⟩
  rw [termPattern, outcomes_seqs_append, outcomes_seqs_append]
  exact List.mem_flatMap.mpr ⟨_, List.mem_flatMap.mpr ⟨_, hfirst, hmiddle⟩, hlast⟩

/-- A state of a match in a text that has as many characters ahead as the text stands at the
beginning of it. -/
theorem whole_of_within {term piece more : Text} {n : Nat} {s : State} (hs : s.Within term n)
    (hrest : s.rest = piece ++ more) (hlength : piece.length = term.length) :
  s.pos = 0 ∧ term = piece ∧ more = []
  := by
  have hpos : s.pos = 0 := by
    by_contra hpos
    have hless := length_onward_lt (isBoundary_zero term) hs.boundary (by omega)
    rw [← hs.ahead, hrest, onward_zero, List.length_append] at hless
    omega
  have hwhole : piece ++ more = term := by
    rw [← hrest, hs.ahead, hpos, onward_zero]
  obtain rfl : more = [] := by
    have := congrArg List.length hwhole
    rw [List.length_append] at this
    exact List.eq_nil_of_length_eq_zero (by omega)
  rw [List.append_nil] at hwhole
  exact ⟨hpos, hwhole.symm, rfl⟩

/-- A match of the pattern in the term itself takes up the term, so the term fits. -/
theorem termFits_of_outcome {location : TermLocation} {term : Text} (hterm : term ≠ []) {n : Nat}
    (hn : IsBoundary n term) {e : State}
    (he : e ∈ outcomes (termPattern location term)
      ⟨n, (before n term).getLast?, onward n term, []⟩) :
  TermFits location term
  := by
  rw [termPattern, outcomes_seqs_append, outcomes_seqs_append] at he
  obtain ⟨last, hlast, htrail⟩ := List.mem_flatMap.mp he
  obtain ⟨first, hlead, hmiddle⟩ := List.mem_flatMap.mp hlast
  obtain ⟨piece, more, hrest, hlength, rfl⟩ := exists_after_of_mem_outcomes term first hmiddle
  obtain ⟨hwithin, hle⟩ := leads_outcomes _ _ (State.Within.initial _ hn) first hlead
  obtain ⟨hzero, rfl, rfl⟩ := whole_of_within hwithin hrest hlength
  obtain rfl : n = 0 := Nat.le_zero.mp (hzero ▸ hle)
  constructor
  · rintro rfl
    obtain ⟨-, hholds⟩ := mem_outcomes_guard.mp hlead
    rw [before_zero, onward_zero, List.getLast?_nil, holds_wordBoundary_start rfl] at hholds
    exact any_isStray_eq_false.mpr hholds
  · obtain ⟨-, hholds⟩ := mem_outcomes_guard.mp htrail
    have hrest : (first.after term).rest = [] := by
      rw [State.after, hrest, List.append_nil, List.drop_length]
    have hprev : (first.after term).prev = term.getLast? := by
      rw [State.after, List.getLast?_eq_some_getLast hterm, Option.some_or]
    rw [holds_wordBoundary_end hrest, hprev] at hholds
    exact any_isStray_eq_false.mpr hholds

/-- The pattern of a term finds the term in itself if and only if the term fits. -/
theorem isSome_find?_termPattern (location : TermLocation) {term : Text} (hterm : term ≠ []) :
  ((termPattern location term).find? term 0).isSome = true ↔ TermFits location term
  := by
  constructor
  · intro h
    obtain ⟨m, hm⟩ := Option.isSome_iff_exists.mp h
    obtain ⟨n, -, hn, hmatch⟩ := exists_matchAt?_of_find? (isBoundary_zero term) hm
    rw [matchAt?, Option.map_eq_some_iff] at hmatch
    obtain ⟨e, he, -⟩ := hmatch
    exact termFits_of_outcome hterm hn (List.mem_of_mem_head? he)
  · intro h
    obtain ⟨e, he⟩ := exists_outcome_of_termFits h
    have hmatch : ((termPattern location term).matchAt? ⟨0, none, term, []⟩).isSome = true := by
      rw [matchAt?, Option.isSome_map, List.isSome_head?]
      exact List.ne_nil_of_mem he
    obtain ⟨m, hm⟩ := Option.isSome_iff_exists.mp hmatch
    rw [Pattern.find?, before_zero, onward_zero, List.getLast?_nil]
    unfold findFrom?
    rw [hm]
    rfl

end Stencil.Lint
