import Stencil.Proofs.Markup.Extent
import Stencil.Proofs.Markup.Tokens

/-!
# Tokens within a beginning of a text

A token that ends in a beginning of a text is the same if the text ends there.  A piece of markup
knows its own end.  Text goes on to the next piece of markup or, in an element that holds nothing
else, to an end tag: it is the same if these few characters are in sight.
-/

namespace Stencil.Markup

open Text

section Extend

variable {p q : Place} {more : Text} (hmore : more ≠ [])

include hmore

theorem extends_commentToken (h : more.length ≤ (commentToken (p.extend more)).next.rest.length) :
  4 ≤ p.rest.length ∧ (commentToken p).Extends more (commentToken (p.extend more))
  := by
  unfold commentToken at h
  cases hafter : ((p.extend more).skip 4).after? ['-', '-', '>'] with
  | none =>
      rw [hafter] at h
      exact absurd h (not_le_length_finish hmore)
  | some stop =>
      rw [hafter] at h
      have hskip := le_length_of_skip hmore
        (Nat.le_trans h (Place.Before.length_le (Place.before_of_after? hafter)))
      have hafter' := hafter
      rw [skip_extend more hskip] at hafter'
      obtain ⟨stop', hstop, rfl⟩ := after?_extend hmore (List.cons_ne_nil _ _) hafter' h
      unfold commentToken
      rw [hafter, hstop]
      exact ⟨hskip, rfl, rfl⟩

theorem extends_declarationToken
    (h : more.length ≤ (declarationToken (p.extend more)).next.rest.length) :
  (declarationToken p).Extends more (declarationToken (p.extend more))
  := by
  have hstop := tagEnd_extend hmore h
  unfold declarationToken
  rw [hstop]
  exact ⟨rfl, rfl⟩

theorem nameEnd_extend (h : more.length ≤ (nameEnd (p.extend more)).rest.length) :
  nameEnd (p.extend more) = (nameEnd p).extend more
  := skipWhile_extend hmore h

theorem extends_endTagToken (h : more.length ≤ (endTagToken (p.extend more)).next.rest.length) :
  (endTagToken p).Extends more (endTagToken (p.extend more))
  := by
  change more.length ≤ (tagEnd (nameEnd ((p.extend more).skip 2))).rest.length at h
  have hname := Nat.le_trans h (Place.Before.length_le (Place.before_tagEnd _))
  have hstart := Nat.le_trans hname (Place.Before.length_le (Place.before_nameEnd _))
  have hskip := skip_extend more (le_length_of_skip hmore hstart)
  rw [hskip] at h hname
  rw [nameEnd_extend hmore hname] at h
  unfold endTagToken
  dsimp only
  rw [hskip, nameEnd_extend hmore hname, tagEnd_extend hmore h, textTo_extend, spanTo_extend]
  exact ⟨rfl, rfl⟩

theorem extends_startTagToken (h : more.length ≤ (startTagToken (p.extend more)).next.rest.length) :
  (startTagToken p).Extends more (startTagToken (p.extend more))
  := by
  have hname := Nat.le_trans h (Place.Before.length_le (before_readTagRest _ _ _))
  have hstart := Nat.le_trans hname (Place.Before.length_le (Place.before_nameEnd _))
  have hskip := skip_extend more (le_length_of_skip hmore hstart)
  rw [hskip] at hname
  have hstop := nameEnd_extend hmore hname
  unfold startTagToken at h ⊢
  dsimp only at h ⊢
  rw [hskip, hstop] at h ⊢
  have hrest := extends_readTagRest hmore
    ⟨.unterminatedStartTag (lower ((p.skip 1).textTo (nameEnd (p.skip 1)))), p.spanTo p.finish⟩ _
    (' ' :: (nameEnd (p.skip 1)).rest) (Nat.lt_succ_self _) (Nat.lt_succ_self _) h
  rw [hrest.value, hrest.next, textTo_extend, spanTo_extend]
  exact ⟨rfl, rfl⟩

omit hmore in
/-- What a text begins with is in the beginning of the text if this is long enough. -/
theorem exists_eq_append_of_extend (front : Text) {rest : Text}
    (h : (p.extend more).rest = front ++ rest) (hlength : front.length ≤ p.rest.length) :
  ∃ rest', p.rest = front ++ rest' ∧ rest = rest' ++ more
  := by
  rw [rest_extend] at h
  rcases List.append_eq_append_iff.mp h with ⟨mid, hfront, hmore⟩ | ⟨mid, hrest, hmid⟩
  · rw [hfront, List.length_append] at hlength
    obtain rfl : mid = [] := List.eq_nil_of_length_eq_zero (by omega)
    exact ⟨[], by simpa using hfront.symm, by simpa using hmore.symm⟩
  · exact ⟨mid, hrest, hmid⟩

omit hmore in
/-- Where a name ends that begins with a letter, at least this letter was read. -/
theorem lt_length_of_nameEnd {n : Nat} {c : Char} {rest : Text}
    (hrest : ((p.extend more).skip n).rest = c :: rest) (hc : isNameStart c = true)
    (h : more.length ≤ (nameEnd ((p.extend more).skip n)).rest.length) :
  n < p.rest.length
  := by
  have hname : (nameEnd ((p.extend more).skip n)).rest = (c :: rest).dropWhile isNamePart := by
    rw [← hrest]
    exact Place.rest_skipWhile _ _
  rw [List.dropWhile_cons_of_pos (isNamePart_of_isNameStart hc)] at hname
  have hshorter := (List.dropWhile_suffix isNamePart (l := rest)).length_le
  have hlength := congrArg List.length hrest
  rw [Place.skip, List.length_drop, rest_extend, List.length_append, List.length_cons] at hlength
  rw [hname] at h
  omega

/-- Where a tag ends, at least the characters before the bracket were read. -/
theorem lt_length_of_tagEnd {c d : Char} {rest : Text}
    (hrest : (p.extend more).rest = c :: d :: rest) (hc : c ≠ '>') (hd : d ≠ '>')
    (h : more.length ≤ (tagEnd (p.extend more)).rest.length) :
  2 < p.rest.length
  := by
  unfold tagEnd at h
  cases hafter : (p.extend more).after? ['>'] with
  | none =>
      rw [hafter] at h
      exact absurd h (not_le_length_finish hmore)
  | some stop =>
      rw [hafter] at h
      obtain ⟨n, hn, rfl⟩ := Option.map_eq_some_iff.mp hafter
      have hskip := le_length_of_skip hmore h
      rw [hrest] at hn
      simp only [charsBefore?, List.isPrefixOf, Bool.and_true, beq_iff_eq, hc.symm, hd.symm,
        if_false, Option.map_map, Option.map_eq_some_iff, Function.comp] at hn
      obtain ⟨m, -, rfl⟩ := hn
      simp only [List.length_cons, List.length_nil] at hskip
      omega

/-- A piece of markup is the same although the text goes on. -/
theorem extends_readToken_of_markup (hmarkup : beginsMarkup (p.extend more).rest = true)
    (h : more.length ≤ (readToken (p.extend more)).next.rest.length) :
  beginsMarkup p.rest = true ∧ (readToken p).Extends more (readToken (p.extend more))
  := by
  rcases beginsMarkup_cases hmarkup with
    ⟨rest, hshape⟩ | ⟨rest, hshape⟩ | ⟨c, rest, hshape, hc⟩ | ⟨c, rest, hshape, hc⟩
  · by_cases hcomment : ∃ rest', rest = '-' :: '-' :: rest'
    · obtain ⟨rest, rfl⟩ := hcomment
      rw [readToken_of_comment hshape] at h ⊢
      obtain ⟨hlength, htoken⟩ := extends_commentToken hmore h
      obtain ⟨rest', hshape', -⟩ :=
        exists_eq_append_of_extend ['<', '!', '-', '-'] hshape hlength
      rw [readToken_of_comment hshape', hshape']
      exact ⟨rfl, htoken⟩
    · have hnone : ∀ rest', rest ≠ '-' :: '-' :: rest' := by simpa using hcomment
      rw [readToken_of_declaration hshape hnone] at h ⊢
      have hlength := lt_length_of_tagEnd hmore hshape (by decide) (by decide) h
      obtain ⟨rest', hshape', rfl⟩ :=
        exists_eq_append_of_extend ['<', '!'] hshape (Nat.le_of_lt hlength)
      have hnone' : ∀ rest'', rest' ≠ '-' :: '-' :: rest'' := by
        rintro rest'' rfl
        exact hnone _ rfl
      rw [readToken_of_declaration hshape' hnone', hshape']
      exact ⟨rfl, extends_declarationToken hmore h⟩
  · rw [readToken_of_instruction hshape] at h ⊢
    have hlength := lt_length_of_tagEnd hmore hshape (by decide) (by decide) h
    obtain ⟨rest', hshape', -⟩ :=
      exists_eq_append_of_extend ['<', '?'] hshape (Nat.le_of_lt hlength)
    rw [readToken_of_instruction hshape', hshape']
    exact ⟨rfl, extends_declarationToken hmore h⟩
  · rw [readToken_of_endTag hshape hc] at h ⊢
    have hletters : ((p.extend more).skip 2).rest = c :: rest := congrArg (List.drop 2) hshape
    have hlength := lt_length_of_nameEnd hletters hc
      (Nat.le_trans h (Place.Before.length_le (Place.before_tagEnd _)))
    obtain ⟨rest', hshape', -⟩ := exists_eq_append_of_extend ['<', '/', c] hshape hlength
    rw [readToken_of_endTag hshape' hc, hshape']
    exact ⟨hc, extends_endTagToken hmore h⟩
  · rw [readToken_of_startTag hshape hc] at h ⊢
    have hletters : ((p.extend more).skip 1).rest = c :: rest := congrArg (List.drop 1) hshape
    have hlength := lt_length_of_nameEnd hletters hc
      (Nat.le_trans h (Place.Before.length_le (before_readTagRest _ _ _)))
    obtain ⟨rest', hshape', -⟩ := exists_eq_append_of_extend ['<', c] hshape hlength
    rw [readToken_of_startTag hshape' hc, hshape']
    exact ⟨beginsMarkup_startTag rest' hc, extends_startTagToken hmore h⟩

omit hmore in
theorem beginsMarkup_append {s : Text} (h : beginsMarkup s = true) (more : Text) :
  beginsMarkup (s ++ more) = true
  := by
  rcases beginsMarkup_cases h with
    ⟨rest, rfl⟩ | ⟨rest, rfl⟩ | ⟨c, rest, rfl, hc⟩ | ⟨c, rest, rfl, hc⟩
  · rfl
  · rfl
  · exact hc
  · exact beginsMarkup_startTag _ hc

omit hmore in
/-- The text up to the next piece of markup is the same although the text goes on, if one sees what
begins there. -/
theorem textLength_of_append {s : Text} (hlength : textLength (s ++ more) ≤ s.length)
    (hend : s.drop (textLength (s ++ more)) = []
      ∨ beginsMarkup (s.drop (textLength (s ++ more))) = true) :
  textLength s = textLength (s ++ more)
  := by
  induction s with
  | nil => exact (Nat.le_zero.mp hlength).symm
  | cons c s ih =>
      rw [List.cons_append, textLength] at hlength hend ⊢
      rw [textLength]
      split at hlength
      · next hbegin =>
          rw [if_pos hbegin, List.drop_zero] at hend
          rw [if_pos (hend.resolve_left (List.cons_ne_nil c s)), if_pos hbegin]
      · next hbegin =>
          rw [if_neg hbegin, List.drop_succ_cons] at hend
          rw [if_neg (mt (beginsMarkup_append · more) hbegin), if_neg hbegin,
            ih (Nat.le_of_succ_le_succ hlength) hend]

/-- The text up to the next piece of markup is a token that is the same although the text goes on,
if one sees what begins there. -/
theorem extends_readToken_of_text (hmarkup : beginsMarkup (p.extend more).rest = false)
    (hnext : (readToken (p.extend more)).next = q.extend more)
    (hend : q.rest = [] ∨ beginsMarkup q.rest = true) :
  (readToken p).Extends more (readToken (p.extend more))
  := by
  have hmarkup' : beginsMarkup p.rest = false := by
    by_contra hbegin
    rw [rest_extend, beginsMarkup_append (by simpa using hbegin)] at hmarkup
    cases hmarkup
  rw [readToken_of_text hmarkup] at hnext ⊢
  rw [readToken_of_text hmarkup']
  change (p.extend more).skip (textLength (p.extend more).rest.tail + 1) = _ at hnext
  have hskip := le_length_of_skip hmore (p := p) (n := textLength (p.extend more).rest.tail + 1)
    (by rw [hnext, rest_extend, List.length_append]; omega)
  obtain ⟨c, rest, hrest⟩ :=
    List.exists_cons_of_ne_nil (List.length_pos_iff.mp (Nat.lt_of_lt_of_le (Nat.succ_pos _) hskip))
  have htail : (p.extend more).rest.tail = rest ++ more := by rw [rest_extend, hrest]; rfl
  rw [htail] at hskip hnext
  rw [skip_extend more hskip] at hnext
  have hq : q.rest = rest.drop (textLength (rest ++ more)) := by
    have hrests := congrArg Place.rest hnext
    rw [rest_extend, rest_extend, List.append_left_inj, Place.skip, hrest] at hrests
    exact hrests.symm
  rw [hq] at hend
  rw [hrest, List.length_cons] at hskip
  have hlength := textLength_of_append (Nat.le_of_succ_le_succ hskip) hend
  unfold textToken
  dsimp only
  rw [htail, ← hlength, hrest, List.tail_cons,
    skip_extend more (by rw [hrest, List.length_cons]; omega), spanTo_extend]
  exact ⟨rfl, rfl⟩

omit hmore in
/-- The first occurrence of a text stays the first one although the text goes on. -/
theorem charsBefore?_append {needle s : Text} {n : Nat} (h : charsBefore? needle s = some n)
    (more : Text) :
  charsBefore? needle (s ++ more) = some n ∧ n + needle.length ≤ s.length
  := by
  induction s generalizing n with
  | nil => cases h
  | cons c s ih =>
      rw [charsBefore?] at h
      rw [List.cons_append, charsBefore?]
      split at h
      · next hfound =>
          obtain rfl := Option.some.inj h
          have hbegin := List.isPrefixOf_iff_prefix.mp hfound
          have hbegin' : needle <+: c :: (s ++ more) :=
            hbegin.trans (List.prefix_append (c :: s) more)
          rw [if_pos (List.isPrefixOf_iff_prefix.mpr hbegin')]
          exact ⟨rfl, by simpa using hbegin.length_le⟩
      · next hmissing =>
          obtain ⟨m, hm, rfl⟩ := Option.map_eq_some_iff.mp h
          obtain ⟨hlater, hlength⟩ := ih hm
          have hmissing' : ¬needle.isPrefixOf (c :: (s ++ more)) = true := by
            intro hbegin
            apply hmissing
            apply List.isPrefixOf_iff_prefix.mpr
            apply List.prefix_of_prefix_length_le (List.isPrefixOf_iff_prefix.mp hbegin)
              (List.prefix_append (c :: s) more)
            rw [List.length_cons]
            omega
          rw [if_neg hmissing', hlater, List.length_cons]
          exact ⟨rfl, by omega⟩

/-- The text in an element that holds nothing else is the same although the text goes on, if one
sees the end tag. -/
theorem rawEnd_extend {name : Text} (hnext : rawEnd name (p.extend more) = q.extend more)
    (hend : q.rest = [] ∨ ['<', '/'] ++ name <+: lower q.rest) :
  rawEnd name p = q
  := by
  have hlower : lower (p.extend more).rest = lower p.rest ++ lower more := List.map_append
  have hwidth : (lower p.rest).length = p.rest.length := List.length_map ..
  unfold rawEnd at hnext ⊢
  cases hfound : charsBefore? (['<', '/'] ++ name) (lower (p.extend more).rest) with
  | none =>
      rw [hfound] at hnext
      have hrests := congrArg Place.rest hnext
      simp only [Place.rest_finish, rest_extend] at hrests
      exact absurd (List.append_eq_nil_iff.mp hrests.symm).2 hmore
  | some n =>
      rw [hfound] at hnext
      dsimp only at hnext
      have hskip := le_length_of_skip hmore (p := p) (n := n)
        (by rw [hnext, rest_extend, List.length_append]; omega)
      rw [skip_extend more hskip] at hnext
      obtain rfl := extend_inj hnext
      rw [hlower] at hfound
      by_cases hlast : n = p.rest.length
      · have hnone : charsBefore? (['<', '/'] ++ name) (lower p.rest) = none := by
          apply Option.eq_none_iff_forall_ne_some.mpr
          intro m hm
          obtain ⟨hfound', hlength⟩ := charsBefore?_append hm (lower more)
          rw [hfound'] at hfound
          obtain rfl := Option.some.inj hfound
          simp only [List.length_append, List.length_cons] at hlength
          omega
        rw [hnone, hlast]
        rfl
      · have hbegin := hend.resolve_left (by
          rw [Place.skip, List.drop_eq_nil_iff]
          omega)
        have hlength := hbegin.length_le
        rw [charsBefore?_of_append (by simp) hfound]
        simp only [lower, Place.skip, List.length_map, List.length_drop] at hlength
        omega

end Extend

/-! ### What is in sight -/

section Sight

variable {p q : Place} {more : Text}

theorem extend_nil (p : Place) :
  p.extend [] = p
  := by rw [Place.extend, List.append_nil]

theorem Read.Extends.refl {α : Type} (r : Read α) :
  r.Extends [] r
  := ⟨rfl, (extend_nil _).symm⟩

/-- A place after which the text goes on is one at which it may end. -/
theorem exists_eq_extend (hbefore : (p.extend more).Before q)
    (h : more.length ≤ q.rest.length) :
  ∃ r : Place, q = r.extend more
  := by
  obtain ⟨mid, hrest, -⟩ := hbefore
  rw [rest_extend] at hrest
  rcases List.append_eq_append_iff.mp hrest with ⟨front, hmid, hmore⟩ | ⟨back, -, hq⟩
  · have hlength := congrArg List.length hmore
    rw [List.length_append] at hlength
    obtain rfl : front = [] := List.eq_nil_of_length_eq_zero (by omega)
    refine ⟨⟨[], q.offset⟩, ?_⟩
    rw [Place.extend, List.nil_append, hmore, List.nil_append]
  · refine ⟨⟨back, q.offset⟩, ?_⟩
    rw [Place.extend, ← hq]

/-- A piece of markup is the same although the text goes on. -/
theorem extends_markup (hmarkup : beginsMarkup (p.extend more).rest = true)
    (h : more.length ≤ (readToken (p.extend more)).next.rest.length) :
  beginsMarkup p.rest = true ∧ (readToken p).Extends more (readToken (p.extend more))
  := by
  by_cases hmore : more = []
  · subst hmore
    rw [extend_nil] at hmarkup ⊢
    exact ⟨hmarkup, .refl _⟩
  · exact extends_readToken_of_markup hmore hmarkup h

/-- A token is the same although the text goes on, if one sees the markup after a text. -/
theorem extends_readToken (h : more.length ≤ (readToken (p.extend more)).next.rest.length)
    (hsight : beginsMarkup (p.extend more).rest = false →
      ∀ q : Place, (readToken (p.extend more)).next = q.extend more → q.rest ≠ [] →
        beginsMarkup (q.extend more).rest = true → beginsMarkup q.rest = true) :
  (readToken p).Extends more (readToken (p.extend more))
  := by
  by_cases hmarkup : beginsMarkup (p.extend more).rest = true
  · exact (extends_markup hmarkup h).2
  · rw [Bool.not_eq_true] at hmarkup
    by_cases hmore : more = []
    · subst hmore
      rw [extend_nil]
      exact .refl _
    · obtain ⟨q, hq⟩ := exists_eq_extend (before_readToken _) h
      apply extends_readToken_of_text hmore hmarkup hq
      apply or_iff_not_imp_left.mpr
      intro hrest
      apply hsight hmarkup q hq hrest
      rw [← hq]
      apply (rest_readToken_of_text hmarkup).resolve_left
      rw [hq, rest_extend]
      simp [hrest]

/-- The text in an element that holds nothing else is the same although the text goes on, if one
sees the end tag after it. -/
theorem exists_rawEnd_extend {name : Text}
    (h : more.length ≤ (rawEnd name (p.extend more)).rest.length)
    (hsight : ∀ q : Place, rawEnd name (p.extend more) = q.extend more → q.rest ≠ [] →
      ['<', '/'] ++ name <+: lower q.rest) :
  rawEnd name (p.extend more) = (rawEnd name p).extend more
  := by
  by_cases hmore : more = []
  · subst hmore
    rw [extend_nil, extend_nil]
  · obtain ⟨q, hq⟩ := exists_eq_extend (Place.before_rawEnd _ _) h
    rw [hq, rawEnd_extend hmore hq (or_iff_not_imp_left.mpr (hsight q hq))]

/-- What is read up to an offset in a beginning of a text leaves what goes on after it. -/
theorem length_le_of_offset_le (hbefore : (p.extend more).Before q)
    (h : q.offset ≤ p.offset + width p.rest) :
  more.length ≤ q.rest.length
  := by
  obtain ⟨mid, hrest, hoffset⟩ := hbefore
  rw [rest_extend] at hrest
  change q.offset = p.offset + width mid at hoffset
  rcases List.append_eq_append_iff.mp hrest with ⟨front, hmid, hmore⟩ | ⟨back, -, hq⟩
  · rw [hmid, width_append] at hoffset
    have hfront := length_le_width front
    rw [hmore, List.length_append]
    omega
  · rw [hq, List.length_append]
    omega

theorem before_of_extend (h : (p.extend more).Before (q.extend more)) :
  p.Before q
  := by
  obtain ⟨mid, hrest, hoffset⟩ := h
  rw [rest_extend, rest_extend, ← List.append_assoc] at hrest
  exact ⟨mid, List.append_cancel_right hrest, hoffset⟩

/-- The name of an end tag is in sight if the end tag is the same although the text goes on. -/
theorem isPrefix_of_endTag {name : Text} {c : Char} {rest : Text}
    (hshape : (p.extend more).rest = '<' :: '/' :: c :: rest) (hc : isNameStart c = true)
    (hname : name <+: lower ((c :: rest).takeWhile isNamePart))
    (hmarkup : beginsMarkup p.rest = true)
    (h : (readToken p).Extends more (readToken (p.extend more))) :
  ['<', '/'] ++ name <+: lower p.rest
  := by
  obtain ⟨rest', hshape'⟩ : ∃ rest', p.rest = '<' :: '/' :: c :: rest' := by
    rw [rest_extend] at hshape
    rcases beginsMarkup_cases hmarkup with
      ⟨rest', h⟩ | ⟨rest', h⟩ | ⟨d, rest', h, -⟩ | ⟨d, rest', h, hd⟩
    · rw [h] at hshape
      simp at hshape
    · rw [h] at hshape
      simp at hshape
    · rw [h] at hshape
      simp only [List.cons_append, List.cons.injEq, true_and] at hshape
      exact ⟨rest', by rw [h, hshape.1]⟩
    · rw [h] at hshape
      simp only [List.cons_append, List.cons.injEq, true_and] at hshape
      exact absurd hshape.1 (ne_of_isNameStart hd).2.2
  have hletters : ((p.extend more).skip 2).rest = c :: rest := congrArg (List.drop 2) hshape
  have hletters' : (p.skip 2).rest = c :: rest' := congrArg (List.drop 2) hshape'
  have hvalue := h.value
  rw [readToken_of_endTag hshape hc, readToken_of_endTag hshape' hc] at hvalue
  obtain ⟨hsame, -⟩ := Token.endTag.inj hvalue
  rw [textTo_nameEnd, textTo_nameEnd, hletters, hletters'] at hsame
  rw [hsame] at hname
  rw [hshape']
  have hbegin : name <+: lower (c :: rest') :=
    hname.trans ((List.takeWhile_prefix isNamePart).map Char.toLower)
  exact (List.prefix_append_right_inj ['<', '/']).mpr hbegin

end Sight

end Stencil.Markup
