import Mathlib.Data.List.TakeWhile
import Stencil.Proofs.Markup.Reading

/-!
# Start tags that a slash closes

A slash right before the end of a start tag closes it, unless the slash is part of an attribute: the
value of an attribute without quotes goes on to a blank character or to the end of the tag.  The
span of a start tag and its attributes therefore tell whether a slash closes it.
-/

namespace Stencil.Markup

open Text

/-- The start tag ends with a slash and a bracket, and the slash is not part of an attribute. -/
def slashCloses (t : Text) (startTag : Span) (attributes : List Attribute) : Bool :=
  ['/', '>'].isSuffixOf (startTag.text t)
    && attributes.all fun a => !a.span.contains (startTag.stop - 2)

variable {p : Place}

/-- Two pieces end with a slash and a bracket if the second one does, or if it is no more than the
bracket. -/
theorem eq_append_of_slash_bracket {u v front : Text} (h : u ++ v = front ++ ['/', '>']) :
  (∃ f, v = f ++ ['/', '>'] ∧ front = u ++ f) ∨ (v = ['>'] ∧ u = front ++ ['/'])
    ∨ (v = [] ∧ u = front ++ ['/', '>'])
  := by
  rcases List.append_eq_append_iff.mp h with ⟨f, rfl, rfl⟩ | ⟨f, rfl, hf⟩
  · exact Or.inl ⟨f, rfl, rfl⟩
  · match f, hf with
    | [], hf => exact Or.inl ⟨[], hf.symm, by simp⟩
    | [c], hf =>
        obtain ⟨rfl, rfl⟩ := List.cons_eq_cons.mp hf
        exact Or.inr (Or.inl ⟨rfl, rfl⟩)
    | [c, d], hf =>
        obtain ⟨rfl, hd⟩ := List.cons_eq_cons.mp hf
        obtain ⟨rfl, rfl⟩ := List.cons_eq_cons.mp hd
        exact Or.inr (Or.inr ⟨rfl, rfl⟩)
    | c :: d :: e :: f, hf => simp at hf

/-- What is known of the slash at the end of a start tag that was read from `p` on, where `mid` is
the text that was read. -/
structure TellsSlash (p : Place) (mid : Text) (rest : TagRest) : Prop where
  closed : rest.isClosed = true →
    ∃ front, mid = front ++ ['/', '>']
      ∧ ∀ a ∈ rest.attributes, a.span.stop ≤ p.offset + width front
  opened : rest.isClosed = false → ∀ front, mid = front ++ ['/', '>'] →
    ∃ a ∈ rest.attributes, a.span.contains (p.offset + width front) = true

/-- What is known of the slash at the end of a start tag is known where a text `u` and some
attributes come before, if these have no part in the slash or an attribute holds it. -/
theorem TellsSlash.prepend {q : Place} {u v : Text} {rest : TagRest} (h : TellsSlash q v rest)
    (before : List Attribute) (hoffset : q.offset = p.offset + width u)
    (hbefore : ∀ a ∈ before, a.span.stop ≤ q.offset)
    (hlast : ∀ front, (v = ['>'] ∧ u = front ++ ['/']) ∨ (v = [] ∧ u = front ++ ['/', '>']) →
      ∃ a ∈ before, a.span.contains (p.offset + width front) = true) :
  TellsSlash p (u ++ v) { rest with attributes := before ++ rest.attributes }
  := by
  constructor
  · intro hclosed
    obtain ⟨front, rfl, hattributes⟩ := h.closed hclosed
    refine ⟨u ++ front, by simp, List.forall_mem_append.mpr ⟨fun a ha => ?_, fun a ha => ?_⟩⟩
    · have := hbefore a ha
      rw [width_append]
      omega
    · have := hattributes a ha
      rw [width_append]
      omega
  · intro hopened front hfront
    rcases eq_append_of_slash_bracket hfront with ⟨f, hv, rfl⟩ | hshort
    · obtain ⟨a, ha, hcontains⟩ := h.opened hopened f hv
      refine ⟨a, List.mem_append_right _ ha, ?_⟩
      rwa [width_append, ← Nat.add_assoc, ← hoffset]
    · obtain ⟨a, ha, hcontains⟩ := hlast front (by simpa using hshort)
      exact ⟨a, List.mem_append_left _ ha, hcontains⟩

/-- Blank characters have no part in the end of a start tag. -/
theorem TellsSlash.skipBlank {q : Place} {v mid : Text} {rest : TagRest}
    (h : TellsSlash (p.skipWhile isBlank) v rest) (hv : (p.skipWhile isBlank).rest = v ++ q.rest)
    (hmid : p.rest = mid ++ q.rest) :
  TellsSlash p mid rest
  := by
  have hcut : p.rest = p.rest.takeWhile isBlank ++ (p.skipWhile isBlank).rest := by
    rw [Place.rest_skipWhile]
    exact List.takeWhile_append_dropWhile.symm
  have hblank : ∀ c ∈ p.rest.takeWhile isBlank, isBlank c = true :=
    fun c hc => List.mem_takeWhile_imp hc
  have hoffset := p.offset_skipWhile isBlank
  generalize p.rest.takeWhile isBlank = blank at hcut hblank hoffset
  rw [hv, ← List.append_assoc, hmid] at hcut
  obtain rfl := List.append_cancel_right hcut
  refine h.prepend [] hoffset (by simp) ?_
  rintro front (⟨-, hlast⟩ | ⟨-, hlast⟩)
  · have hslash := hblank '/' (by simp [hlast])
    exact absurd hslash (by decide)
  · have hslash := hblank '/' (by simp [hlast])
    exact absurd hslash (by decide)

/-- The slash at the end of a start tag after its name. -/
theorem tellsSlash_readTagRest (missing : Issue) (budget : Text) {mid : Text}
    (hmid : p.rest = mid ++ (readTagRest missing budget p).next.rest) :
  TellsSlash p mid (readTagRest missing budget p).value
  := by
  induction budget generalizing p mid with
  | nil =>
      refine TellsSlash.skipBlank ⟨?_, fun _ front hfront => ?_⟩ (List.nil_append _).symm hmid
      · rintro ⟨⟩
      · simp at hfront
  | cons c budget ih =>
      by_cases hend : (p.skipWhile isBlank).rest = []
      · rw [readTagRest_of_end hend] at hmid ⊢
        refine TellsSlash.skipBlank ⟨by simp, fun _ front hfront => ?_⟩
          (List.nil_append _).symm hmid
        simp at hfront
      obtain ⟨d, rest, hrest⟩ := List.exists_cons_of_ne_nil hend
      by_cases hslash : d = '/'
      · subst hslash
        by_cases hbracket : rest.head? = some '>'
        · obtain ⟨rest, rfl⟩ := List.head?_eq_some_iff.mp hbracket
          rw [readTagRest_of_slash_bracket hrest] at hmid ⊢
          refine TellsSlash.skipBlank ⟨fun _ => ⟨[], rfl, by simp⟩, by simp⟩ ?_ hmid
          simp [Place.skip, hrest]
        · rw [readTagRest_of_slash hrest hbracket] at hmid ⊢
          obtain ⟨v, hv, -⟩ := before_readTagRest missing budget ((p.skipWhile isBlank).skip 1)
          have hskip : ((p.skipWhile isBlank).skip 1).rest = rest := by simp [Place.skip, hrest]
          refine TellsSlash.skipBlank (v := '/' :: v) ?_ ?_ hmid
          · refine (ih hv).prepend (u := ['/']) [] ?_ (by simp) ?_
            · simp [Place.skip, hrest]
            · rintro front (⟨rfl, -⟩ | ⟨-, hlast⟩)
              · rw [hskip] at hv
                simp [hv] at hbracket
              · simpa using congrArg List.length hlast
          · rw [hrest, ← hskip, hv, List.cons_append]
      · by_cases hbracket : d = '>'
        · subst hbracket
          rw [readTagRest_of_bracket hrest] at hmid ⊢
          refine TellsSlash.skipBlank (v := ['>']) ⟨by simp, fun _ front hfront => ?_⟩ ?_ hmid
          · have := congrArg List.length hfront
            simp at this
          · simp [Place.skip, hrest]
        · rw [readTagRest_of_attribute hrest hslash hbracket] at hmid ⊢
          obtain ⟨t, ht⟩ := (p.skipWhile isBlank).exists_in
          obtain ⟨⟨u, hu, hoffset⟩, hspan, -⟩ := readAttribute_placed ht hend
          generalize readAttribute (p.skipWhile isBlank) = a at *
          obtain ⟨v, hv, -⟩ := before_readTagRest missing budget a.next
          refine TellsSlash.skipBlank (v := u ++ v) ?_ ?_ hmid
          · refine (ih hv).prepend [a.value] hoffset (by simp [hspan, Place.spanTo]) ?_
            intro front hlast
            have hwidth : width front < width u := by
              rcases hlast with ⟨-, rfl⟩ | ⟨-, rfl⟩ <;> simp [Char.utf8Size]
            refine ⟨a.value, List.mem_singleton_self _, ?_⟩
            rw [hspan, Span.contains_iff, Place.spanTo]
            dsimp only
            omega
          · rw [hu, hv, List.append_assoc]

/-- What is known of the slash tells whether the start tag is one that a slash closes. -/
theorem TellsSlash.slashCloses_eq {t : Text} (hp : p.In t) {q : Place} {mid : Text} {rest : TagRest}
    (h : TellsSlash p mid rest) (hmid : p.rest = mid ++ q.rest)
    (hoffset : q.offset = p.offset + width mid) :
  slashCloses t (p.spanTo q) rest.attributes = rest.isClosed
  := by
  have hslash : width ['/', '>'] = 2 := rfl
  rw [slashCloses, hp.text_spanTo hmid hoffset, Place.spanTo]
  dsimp only
  cases hclosed : rest.isClosed with
  | true =>
      obtain ⟨front, rfl, hattributes⟩ := h.closed hclosed
      rw [width_append, hslash] at hoffset
      rw [Bool.and_eq_true, List.isSuffixOf_iff_suffix, List.all_eq_true]
      refine ⟨List.suffix_append _ _, fun a ha => ?_⟩
      have := hattributes a ha
      rw [Bool.not_eq_true', ← Bool.not_eq_true, Span.contains_iff]
      omega
  | false =>
      rw [Bool.and_eq_false_iff, or_iff_not_imp_left, Bool.not_eq_false,
        List.isSuffixOf_iff_suffix]
      rintro ⟨front, rfl⟩
      rw [width_append, hslash] at hoffset
      obtain ⟨a, ha, hcontains⟩ := h.opened hclosed front rfl
      rw [List.all_eq_false]
      refine ⟨a, ha, ?_⟩
      rwa [Bool.not_eq_true', Bool.not_eq_false,
        show q.offset - 2 = p.offset + width front by omega]

/-- A slash closes a start tag just if its span and its attributes tell so. -/
theorem slashCloses_of_startTag {t : Text} (hp : p.In t) {name : Text} {span : Span}
    {rest : TagRest} (h : (readToken p).value = .startTag name span rest) :
  slashCloses t span rest.attributes = rest.isClosed
  := by
  obtain ⟨behind, hopening⟩ : ∃ behind, p.rest = '<' :: behind := by
    rcases beginsMarkup_cases (beginsMarkup_of_startTag h) with h | h | h | h
    all_goals grind
  have hstart : (p.skip 1).rest = behind := by simp [Place.skip, hopening]
  rw [readToken_of_value_startTag h, startTagToken] at h
  dsimp only at h
  obtain ⟨-, rfl, rfl⟩ := Token.startTag.inj h
  generalize (⟨.unterminatedStartTag _, _⟩ : Issue) = missing
  have hname : behind = behind.takeWhile isNamePart ++ (nameEnd (p.skip 1)).rest := by
    rw [nameEnd, Place.rest_skipWhile, hstart]
    exact List.takeWhile_append_dropWhile.symm
  have hparts : ∀ c ∈ '<' :: behind.takeWhile isNamePart, c ≠ '/' ∧ c ≠ '>' := by
    refine List.forall_mem_cons.mpr ⟨by decide, fun c hc => ?_⟩
    have hpart := List.mem_takeWhile_imp hc
    constructor
    · rintro rfl
      exact absurd hpart (by decide)
    · rintro rfl
      exact absurd hpart (by decide)
  have hoffset : (nameEnd (p.skip 1)).offset
      = p.offset + width ('<' :: behind.takeWhile isNamePart) := by
    have hskip : (p.skip 1).offset = p.offset + '<'.utf8Size := by simp [Place.skip, hopening]
    rw [nameEnd, Place.offset_skipWhile, hstart, width_cons, ← Nat.add_assoc, hskip]
    rfl
  obtain ⟨mid, hmid, hnext⟩ :=
    before_readTagRest missing (' ' :: (nameEnd (p.skip 1)).rest) (nameEnd (p.skip 1))
  have hrest := tellsSlash_readTagRest missing (' ' :: (nameEnd (p.skip 1)).rest) hmid
  generalize readTagRest missing (' ' :: (nameEnd (p.skip 1)).rest) (nameEnd (p.skip 1)) = r at *
  generalize behind.takeWhile isNamePart = letters at hname hparts hoffset
  have htells : TellsSlash p ('<' :: letters ++ mid) r.value := by
    apply hrest.prepend [] hoffset (by simp)
    -- neither the bracket nor the name has a slash or a bracket at its end
    rintro front (⟨-, hlast⟩ | ⟨-, hlast⟩)
    · exact absurd rfl (hparts '/' (by simp [hlast])).1
    · exact absurd rfl (hparts '/' (by simp [hlast])).1
  apply htells.slashCloses_eq hp
  · rw [hopening, hname, hmid]
    simp
  · rw [hnext, hoffset, width_append, Nat.add_assoc]

end Stencil.Markup
