import Stencil.Proofs.Markup.Attributes

/-!
# Reading within a beginning of a text

What is read at a place depends on the text only as far as it goes: if the text goes on after some
beginning, and what is read ends in this beginning, then the same is read if the text ends there.
This is so of everything that knows its own end.  Text ends where something else begins, and so it
takes a sight of what begins there.
-/

namespace Stencil.Markup

open Text

/-- The place in a text that goes on after the end. -/
def Place.extend (p : Place) (more : Text) : Place := ⟨p.rest ++ more, p.offset⟩

/-- The same is read although the text goes on. -/
structure Read.Extends {α : Type} (more : Text) (r r' : Read α) : Prop where
  value : r'.value = r.value
  next : r'.next = r.next.extend more

section Extend

variable {p q : Place} {more : Text} (hmore : more ≠ [])

@[simp]
theorem rest_extend (p : Place) (more : Text) :
  (p.extend more).rest = p.rest ++ more
  := rfl

theorem extend_inj (h : p.extend more = q.extend more) :
  p = q
  := by
  obtain ⟨rest, offset⟩ := p
  obtain ⟨rest', offset'⟩ := q
  obtain ⟨hrest, rfl⟩ := Place.mk.inj h
  obtain rfl : rest = rest' := List.append_cancel_right hrest
  rfl

theorem spanTo_extend (p q : Place) (more more' : Text) :
  (p.extend more).spanTo (q.extend more') = p.spanTo q
  := rfl

theorem textTo_extend (p q : Place) (more : Text) :
  (p.extend more).textTo (q.extend more) = p.textTo q
  := by
  unfold Place.textTo Place.extend
  dsimp only
  rw [List.length_append, List.length_append, Nat.add_sub_add_right,
    List.take_append_of_le_length (Nat.sub_le _ _)]

theorem skip_extend (more : Text) {n : Nat} (h : n ≤ p.rest.length) :
  (p.extend more).skip n = (p.skip n).extend more
  := by
  unfold Place.skip Place.extend
  dsimp only
  rw [List.drop_append_of_le_length h, List.take_append_of_le_length h]

include hmore

theorem le_length_of_skip {n : Nat}
    (h : more.length ≤ ((p.extend more).skip n).rest.length) :
  n ≤ p.rest.length
  := by
  have hpos := List.length_pos_iff.mpr hmore
  unfold Place.skip Place.extend at h
  rw [List.length_drop, List.length_append] at h
  omega

theorem skipWhile_extend {condition : Char → Bool}
    (h : more.length ≤ ((p.extend more).skipWhile condition).rest.length) :
  (p.extend more).skipWhile condition = (p.skipWhile condition).extend more
  := by
  have hle := le_length_of_skip hmore h
  have hlength : ((p.extend more).rest.takeWhile condition).length
      = (p.rest.takeWhile condition).length := by
    unfold Place.extend at hle ⊢
    rw [List.takeWhile_append] at hle ⊢
    split
    · next hall =>
        rw [if_pos hall, List.length_append] at hle
        rw [List.length_append]
        omega
    · rfl
  unfold Place.skipWhile at hle ⊢
  rw [hlength] at hle ⊢
  exact skip_extend more hle

theorem not_le_length_finish :
  ¬more.length ≤ (p.extend more).finish.rest.length
  := by
  have hpos := List.length_pos_iff.mpr hmore
  rw [Place.rest_finish, List.length_nil]
  omega

omit hmore in
/-- The first occurrence of a text is the same although the text goes on after it. -/
theorem charsBefore?_of_append {needle s : Text} {n : Nat} (hneedle : needle ≠ [])
    (h : charsBefore? needle (s ++ more) = some n) (hn : n + needle.length ≤ s.length) :
  charsBefore? needle s = some n
  := by
  have hpos := List.length_pos_iff.mpr hneedle
  induction s generalizing n with
  | nil =>
      rw [List.length_nil] at hn
      omega
  | cons c s ih =>
      have hbegin : needle.isPrefixOf (c :: (s ++ more)) = true → needle.length ≤ (c :: s).length →
          needle.isPrefixOf (c :: s) = true := by
        rw [List.isPrefixOf_iff_prefix, List.isPrefixOf_iff_prefix]
        exact fun h => List.prefix_of_prefix_length_le h (List.prefix_append (c :: s) more)
      have hfurther : needle.isPrefixOf (c :: s) = true →
          needle.isPrefixOf (c :: (s ++ more)) = true := by
        rw [List.isPrefixOf_iff_prefix, List.isPrefixOf_iff_prefix]
        exact fun h => h.trans (List.prefix_append (c :: s) more)
      rw [List.cons_append, charsBefore?] at h
      rw [charsBefore?]
      split at h
      · next hfound =>
          obtain rfl := Option.some.inj h
          rw [if_pos (hbegin hfound (by omega))]
      · next hmissing =>
          obtain ⟨m, hm, rfl⟩ := Option.map_eq_some_iff.mp h
          rw [List.length_cons] at hn
          rw [if_neg (mt hfurther hmissing), ih hm (by omega)]
          rfl

theorem after?_extend {needle : Text} (hneedle : needle ≠ [])
    (h : (p.extend more).after? needle = some q) (hq : more.length ≤ q.rest.length) :
  ∃ r, p.after? needle = some r ∧ q = r.extend more
  := by
  obtain ⟨n, hn, rfl⟩ := Option.map_eq_some_iff.mp h
  have hle := le_length_of_skip hmore hq
  refine ⟨p.skip (n + needle.length), ?_, skip_extend more hle⟩
  rw [Place.after?, charsBefore?_of_append hneedle hn hle]
  rfl

theorem tagEnd_extend (h : more.length ≤ (tagEnd (p.extend more)).rest.length) :
  tagEnd (p.extend more) = (tagEnd p).extend more
  := by
  rw [tagEnd] at h ⊢
  cases hafter : (p.extend more).after? ['>'] with
  | none =>
      rw [hafter] at h
      exact absurd h (not_le_length_finish hmore)
  | some q =>
      rw [hafter] at h
      obtain ⟨r, hr, rfl⟩ := after?_extend hmore (List.cons_ne_nil _ _) hafter h
      rw [tagEnd, hr]
      rfl

/-! ### Attributes -/

/-- The character stands at the beginning of a value in quotes. -/
def isQuote (c : Char) : Bool := c == '"' || c == '\''

/-- Reads the value of an attribute in quotes. -/
def quotedValue (quote : Char) (p : Place) : Read (Text × Span) :=
  let start := p.skip 1
  let stop := start.skipWhile (· != quote)
  if stop.rest.isEmpty then
    ⟨(start.textTo stop, start.spanTo stop), [⟨.unterminatedValue, p.spanTo stop⟩], stop⟩
  else ⟨(start.textTo stop, start.spanTo stop), [], stop.skip 1⟩

/-- Reads the value of an attribute without quotes. -/
def bareValue (p : Place) : Read (Text × Span) :=
  let stop := p.skipWhile fun c => !(isBlank c || c == '>')
  ⟨(p.textTo stop, p.spanTo stop), [], stop⟩

omit hmore in
theorem readValue_of_isQuote {c : Char} {rest : Text} (hrest : p.rest = c :: rest)
    (hc : isQuote c = true) :
  readValue p = quotedValue c p
  := by
  unfold readValue
  rw [hrest]
  exact if_pos hc

omit hmore in
theorem readValue_of_not_isQuote (h : ∀ c ∈ p.rest.head?, isQuote c = false) :
  readValue p = bareValue p
  := by
  obtain ⟨rest, offset⟩ := p
  cases rest with
  | nil => rfl
  | cons c rest => exact if_neg (by simpa [isQuote] using h c rfl)

theorem extends_bareValue (h : more.length ≤ (bareValue (p.extend more)).next.rest.length) :
  (bareValue p).Extends more (bareValue (p.extend more))
  := by
  have hstop := skipWhile_extend hmore h
  unfold bareValue
  dsimp only
  rw [hstop, textTo_extend, spanTo_extend]
  exact ⟨rfl, rfl⟩

theorem extends_quotedValue {quote : Char}
    (h : more.length ≤ (quotedValue quote (p.extend more)).next.rest.length) :
  p.rest ≠ [] ∧ (quotedValue quote p).Extends more (quotedValue quote (p.extend more))
  := by
  have hpos := List.length_pos_iff.mpr hmore
  unfold quotedValue at h
  dsimp only at h
  split at h
  · next hend =>
      rw [List.isEmpty_iff.mp hend, List.length_nil] at h
      omega
  · next hquote =>
      change more.length
        ≤ ((((p.extend more).skip 1).skipWhile (· != quote)).skip 1).rest.length at h
      have hstop := Nat.le_trans h (Place.Before.length_le (Place.before_skip _ 1))
      have hstart := Nat.le_trans hstop (Place.Before.length_le (Place.before_skipWhile _ _))
      have hskip := le_length_of_skip hmore hstart
      rw [skip_extend more hskip] at h hstop
      rw [skipWhile_extend hmore hstop] at h
      have hclosed := le_length_of_skip hmore h
      have hne : ((p.skip 1).skipWhile (· != quote)).rest ≠ [] := List.length_pos_iff.mp hclosed
      refine ⟨List.length_pos_iff.mp hskip, ?_⟩
      unfold quotedValue
      dsimp only
      rw [skip_extend more hskip, skipWhile_extend hmore hstop, textTo_extend, spanTo_extend,
        if_neg (by simpa using hne), if_neg (by simp [hmore]), skip_extend more hclosed]
      exact ⟨rfl, rfl⟩

/-- The value of an attribute is the same although the text goes on. -/
theorem extends_readValue (h : more.length ≤ (readValue (p.extend more)).next.rest.length) :
  (readValue p).Extends more (readValue (p.extend more))
  := by
  by_cases hquote : ∃ c ∈ (p.extend more).rest.head?, isQuote c = true
  · obtain ⟨c, hc, hquote⟩ := hquote
    obtain ⟨rest, hrest⟩ := List.head?_eq_some_iff.mp hc
    rw [readValue_of_isQuote hrest hquote] at h ⊢
    obtain ⟨hne, hvalue⟩ := extends_quotedValue hmore h
    obtain ⟨d, rest', hrest'⟩ := List.exists_cons_of_ne_nil hne
    rw [Place.extend, hrest', List.cons_append] at hrest
    obtain ⟨rfl, -⟩ := List.cons_eq_cons.mp hrest
    rwa [readValue_of_isQuote hrest' hquote]
  · have hbare : ∀ c ∈ (p.extend more).rest.head?, isQuote c = false := by simpa using hquote
    have hbare' : ∀ c ∈ p.rest.head?, isQuote c = false := by
      intro c hc
      obtain ⟨rest, hrest⟩ := List.head?_eq_some_iff.mp hc
      apply hbare c
      simp [Place.extend, hrest]
    rw [readValue_of_not_isQuote hbare] at h ⊢
    rw [readValue_of_not_isQuote hbare']
    exact extends_bareValue hmore h

/-- The place where the name of an attribute ends. -/
def attributeNameEnd (p : Place) : Place :=
  (p.skip 1).skipWhile fun c => !(isBlank c || c == '=' || c == '>' || c == '/')

/-- Reads an attribute with a value, where its name and the sign of equality were read. -/
def valuedAttribute (p stop : Place) : Read Attribute :=
  let r := readValue (((stop.skipWhile isBlank).skip 1).skipWhile isBlank)
  ⟨⟨p.spanTo r.next, lower (p.textTo stop), p.spanTo stop, some r.value⟩, r.issues, r.next⟩

/-- An attribute without a value. -/
def bareAttribute (p stop : Place) : Read Attribute :=
  ⟨⟨p.spanTo stop, lower (p.textTo stop), p.spanTo stop, none⟩, [], stop⟩

omit hmore in
theorem readAttribute_of_sign (h : ((attributeNameEnd p).skipWhile isBlank).rest.head? = some '=') :
  readAttribute p = valuedAttribute p (attributeNameEnd p)
  := by
  obtain ⟨rest, hrest⟩ := List.head?_eq_some_iff.mp h
  unfold attributeNameEnd at hrest
  unfold readAttribute
  dsimp only
  rw [hrest]
  rfl

omit hmore in
theorem readAttribute_of_no_sign
    (h : ((attributeNameEnd p).skipWhile isBlank).rest.head? ≠ some '=') :
  readAttribute p = bareAttribute p (attributeNameEnd p)
  := by
  unfold attributeNameEnd at h
  unfold readAttribute
  dsimp only
  split
  · next hrest =>
      rw [hrest] at h
      exact absurd rfl h
  · rfl

/-- An attribute with a value is the same although the text goes on. -/
theorem extends_valuedAttribute {stop : Place}
    (h : more.length ≤ (valuedAttribute (p.extend more) (stop.extend more)).next.rest.length) :
  (valuedAttribute p stop).Extends more (valuedAttribute (p.extend more) (stop.extend more))
    ∧ (((stop.extend more).skipWhile isBlank).rest.head? = some '=' →
      (stop.skipWhile isBlank).rest.head? = some '=')
  := by
  change more.length ≤ (readValue ((((stop.extend more).skipWhile isBlank).skip 1).skipWhile
    isBlank)).next.rest.length at h
  have hvalue := Nat.le_trans h (Place.Before.length_le (before_readValue _))
  have hsign := Nat.le_trans hvalue (Place.Before.length_le (Place.before_skipWhile _ _))
  have hblank := Nat.le_trans hsign (Place.Before.length_le (Place.before_skip _ 1))
  rw [skipWhile_extend hmore hblank] at h hvalue hsign
  have hskip := le_length_of_skip hmore hsign
  rw [skip_extend more hskip] at h hvalue
  rw [skipWhile_extend hmore hvalue] at h
  have hread := extends_readValue hmore h
  constructor
  · unfold valuedAttribute
    dsimp only
    rw [skipWhile_extend hmore hblank, skip_extend more hskip, skipWhile_extend hmore hvalue,
      hread.value, hread.next, textTo_extend, spanTo_extend, spanTo_extend]
    exact ⟨rfl, rfl⟩
  · rw [skipWhile_extend hmore hblank, rest_extend]
    obtain ⟨c, rest, hrest⟩ := List.exists_cons_of_ne_nil (List.length_pos_iff.mp hskip)
    rw [hrest]
    exact id

theorem attributeNameEnd_extend
    (h : more.length ≤ (attributeNameEnd (p.extend more)).rest.length) :
  p.rest ≠ [] ∧ attributeNameEnd (p.extend more) = (attributeNameEnd p).extend more
  := by
  have hstart := Nat.le_trans h (Place.Before.length_le (Place.before_skipWhile _ _))
  have hskip := le_length_of_skip hmore hstart
  unfold attributeNameEnd at h ⊢
  rw [skip_extend more hskip] at h ⊢
  exact ⟨List.length_pos_iff.mp hskip, skipWhile_extend hmore h⟩

/-- An attribute is the same although the text goes on. -/
theorem extends_readAttribute
    (h : more.length ≤ (readAttribute (p.extend more)).next.rest.length) :
  p.rest ≠ [] ∧ (readAttribute p).Extends more (readAttribute (p.extend more))
  := by
  by_cases hsign :
      ((attributeNameEnd (p.extend more)).skipWhile isBlank).rest.head? = some '='
  · rw [readAttribute_of_sign hsign] at h ⊢
    have hvalue := ((attributeNameEnd (p.extend more)).before_skipWhile isBlank).trans
      ((Place.before_skip _ 1).trans
        ((Place.before_skipWhile _ isBlank).trans (before_readValue _)))
    obtain ⟨hne, hstop⟩ := attributeNameEnd_extend hmore
      (Nat.le_trans h (Place.Before.length_le hvalue))
    rw [hstop] at h hsign ⊢
    obtain ⟨hattribute, hhead⟩ := extends_valuedAttribute hmore h
    rw [readAttribute_of_sign (hhead hsign)]
    exact ⟨hne, hattribute⟩
  · rw [readAttribute_of_no_sign hsign] at h ⊢
    obtain ⟨hne, hstop⟩ := attributeNameEnd_extend hmore h
    rw [hstop] at hsign ⊢
    have hnone : ((attributeNameEnd p).skipWhile isBlank).rest.head? ≠ some '=' := by
      intro hhead
      obtain ⟨rest, hrest⟩ := List.head?_eq_some_iff.mp hhead
      apply hsign
      rw [Place.rest_skipWhile] at hrest
      rw [Place.rest_skipWhile, rest_extend, List.dropWhile_append, hrest]
      rfl
    rw [readAttribute_of_no_sign hnone]
    unfold bareAttribute
    rw [textTo_extend, spanTo_extend]
    exact ⟨hne, rfl, rfl⟩

/-! ### Tags -/

section TagRest

variable {missing : Issue} {d : Char} {budget : Text}

omit hmore

theorem readTagRest_of_end (h : (p.skipWhile isBlank).rest = []) (budget : Text) :
  readTagRest missing budget p = ⟨⟨[], false⟩, [missing], p.skipWhile isBlank⟩
  := by
  unfold readTagRest
  dsimp only
  split <;> grind

theorem readTagRest_of_slash_bracket {rest : Text}
    (h : (p.skipWhile isBlank).rest = '/' :: '>' :: rest) :
  readTagRest missing (d :: budget) p = ⟨⟨[], true⟩, [], (p.skipWhile isBlank).skip 2⟩
  := by
  unfold readTagRest
  simp only [h]

theorem readTagRest_of_bracket {rest : Text} (h : (p.skipWhile isBlank).rest = '>' :: rest) :
  readTagRest missing (d :: budget) p = ⟨⟨[], false⟩, [], (p.skipWhile isBlank).skip 1⟩
  := by
  unfold readTagRest
  simp only [h]

theorem readTagRest_of_slash {rest : Text} (h : (p.skipWhile isBlank).rest = '/' :: rest)
    (hrest : rest.head? ≠ some '>') :
  readTagRest missing (d :: budget) p = readTagRest missing budget ((p.skipWhile isBlank).skip 1)
  := by
  conv_lhs => unfold readTagRest
  dsimp only
  split <;> grind

theorem readTagRest_of_attribute {c : Char} {rest : Text}
    (h : (p.skipWhile isBlank).rest = c :: rest) (hslash : c ≠ '/') (hbracket : c ≠ '>') :
  readTagRest missing (d :: budget) p
    = let a := readAttribute (p.skipWhile isBlank)
      let r := readTagRest missing budget a.next
      ⟨{ r.value with attributes := a.value :: r.value.attributes }, a.issues ++ r.issues, r.next⟩
  := by
  conv_lhs => unfold readTagRest
  dsimp only
  split <;> grind

theorem length_skip_lt (hrest : p.rest ≠ []) :
  (p.skip 1).rest.length < p.rest.length
  := by
  have hpos := List.length_pos_iff.mpr hrest
  rw [Place.skip, List.length_drop]
  omega

/-- The rest of a start tag goes on after the blank characters. -/
theorem length_readTagRest_lt (hrest : (p.skipWhile isBlank).rest ≠ []) :
  (readTagRest missing (d :: budget) p).next.rest.length < (p.skipWhile isBlank).rest.length
  := by
  have hskip := length_skip_lt hrest
  obtain ⟨c, rest, hcons⟩ := List.exists_cons_of_ne_nil hrest
  by_cases hslash : c = '/'
  · subst hslash
    by_cases hbracket : rest.head? = some '>'
    · obtain ⟨rest, rfl⟩ := List.head?_eq_some_iff.mp hbracket
      rw [readTagRest_of_slash_bracket hcons]
      simp only [Place.skip, hcons, List.length_drop, List.length_cons]
      omega
    · rw [readTagRest_of_slash hcons hbracket]
      exact Nat.lt_of_le_of_lt (Place.Before.length_le (before_readTagRest _ _ _)) hskip
  · by_cases hbracket : c = '>'
    · subst hbracket
      rw [readTagRest_of_bracket hcons]
      exact hskip
    · rw [readTagRest_of_attribute hcons hslash hbracket]
      exact Nat.lt_of_le_of_lt (Place.Before.length_le (before_readTagRest _ _ _))
        (length_readAttribute_lt hrest)

end TagRest

section Sight

variable {missing : Issue} {d : Char} {budget : Text}
  (h : more.length ≤ (readTagRest missing (d :: budget) (p.extend more)).next.rest.length)

include h

/-- Something follows the blank characters that comes before what is behind the start tag. -/
theorem skipBlank_extend :
  (p.extend more).skipWhile isBlank = (p.skipWhile isBlank).extend more
    ∧ (p.skipWhile isBlank).rest ≠ []
  := by
  have hforward : more.length < ((p.extend more).skipWhile isBlank).rest.length := by
    by_cases hnil : ((p.extend more).skipWhile isBlank).rest = []
    · rw [readTagRest_of_end hnil, hnil, List.length_nil] at h
      exact absurd (List.length_pos_iff.mpr hmore) (Nat.not_lt_of_le h)
    · exact Nat.lt_of_le_of_lt h (length_readTagRest_lt hnil)
  have hblank := skipWhile_extend hmore (Nat.le_of_lt hforward)
  refine ⟨hblank, ?_⟩
  rw [hblank, rest_extend, List.length_append] at hforward
  apply List.length_pos_iff.mp
  omega

/-- A slash is not followed by a bracket if none was seen before the text goes on. -/
theorem head?_append_ne_of_slash {rest : Text} (hrest : (p.skipWhile isBlank).rest = '/' :: rest)
    (hbracket : rest.head? ≠ some '>') :
  (rest ++ more).head? ≠ some '>'
  := by
  intro hhead
  cases rest with
  | cons c rest => exact hbracket hhead
  | nil =>
      obtain ⟨behind, hcons⟩ := List.head?_eq_some_iff.mp hhead
      have hblank := (skipBlank_extend hmore h).1
      have hrest' : ((p.extend more).skipWhile isBlank).rest = '/' :: '>' :: behind := by
        rw [hblank, rest_extend, hrest, ← hcons]
        rfl
      rw [readTagRest_of_slash_bracket hrest', hblank] at h
      have htwo := le_length_of_skip hmore h
      rw [hrest] at htwo
      exact absurd htwo (by decide)

end Sight

/-- The rest of a start tag is the same although the text goes on. -/
theorem extends_readTagRest (missing missing' : Issue) (budget : Text) {budget' : Text}
    (hbudget : p.rest.length < budget.length)
    (hbudget' : (p.extend more).rest.length < budget'.length)
    (h : more.length ≤ (readTagRest missing' budget' (p.extend more)).next.rest.length) :
  (readTagRest missing budget p).Extends more (readTagRest missing' budget' (p.extend more))
  := by
  induction budget generalizing budget' p with
  | nil => simp at hbudget
  | cons c budget ih =>
      obtain ⟨d, budget', rfl⟩ : ∃ d rest, budget' = d :: rest := by
        apply List.exists_cons_of_ne_nil
        rintro rfl
        simp at hbudget'
      obtain ⟨hblank, hne⟩ := skipBlank_extend hmore h
      have hshorter := Place.Before.length_le (p.before_skipWhile isBlank)
      have hskip := length_skip_lt hne
      rw [List.length_cons] at hbudget hbudget'
      rw [rest_extend, List.length_append] at hbudget'
      obtain ⟨e, rest, hrest⟩ := List.exists_cons_of_ne_nil hne
      have hrest' : ((p.extend more).skipWhile isBlank).rest = e :: (rest ++ more) := by
        rw [hblank, rest_extend, hrest, List.cons_append]
      have hone : 1 ≤ (p.skipWhile isBlank).rest.length := List.length_pos_iff.mpr hne
      by_cases hslash : e = '/'
      · subst hslash
        by_cases hbracket : rest.head? = some '>'
        · obtain ⟨rest, rfl⟩ := List.head?_eq_some_iff.mp hbracket
          rw [readTagRest_of_slash_bracket hrest, readTagRest_of_slash_bracket hrest', hblank,
            skip_extend more (by simp [hrest])]
          exact ⟨rfl, rfl⟩
        · have hbracket' := head?_append_ne_of_slash hmore h hrest hbracket
          rw [readTagRest_of_slash hrest' hbracket', hblank, skip_extend more hone] at h ⊢
          rw [readTagRest_of_slash hrest hbracket]
          apply ih
          · omega
          · rw [rest_extend, List.length_append]
            omega
          · exact h
      · by_cases hbracket : e = '>'
        · subst hbracket
          rw [readTagRest_of_bracket hrest, readTagRest_of_bracket hrest', hblank,
            skip_extend more hone]
          exact ⟨rfl, rfl⟩
        · rw [readTagRest_of_attribute hrest' hslash hbracket, hblank] at h ⊢
          rw [readTagRest_of_attribute hrest hslash hbracket]
          have hattribute := extends_readAttribute hmore
            (Nat.le_trans h (Place.Before.length_le (before_readTagRest _ _ _)))
          have hforward := length_readAttribute_lt hne
          dsimp only at h ⊢
          rw [hattribute.2.next] at h ⊢
          have hread := ih (by omega) (by rw [rest_extend, List.length_append]; omega) h
          rw [hattribute.2.value]
          constructor
          · rw [← hread.value]
          · exact hread.next

end Extend

end Stencil.Markup
