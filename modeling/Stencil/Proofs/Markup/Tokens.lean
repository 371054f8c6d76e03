import Stencil.Proofs.Markup.Steps

/-!
# The tokens of markup

The reader of markup goes from token to token: a leaf, a start tag or an end tag.  What the token
at a place is depends on the text from there on alone.  The open elements matter in one way only:
they tell whether nothing but text follows a start tag, and this text is read up to an end tag.
What every token keeps holds at the end of the text.
-/

namespace Stencil.Markup

/-- What is read at a place: a leaf, a start tag or an end tag. -/
inductive Token where
  | leaf (n : Node)
  | startTag (name : Text) (span : Span) (rest : TagRest)
  | endTag (name : Text) (span : Span)

/-- Reads a comment. -/
def commentToken (p : Place) : Read Token :=
  match (p.skip 4).after? ['-', '-', '>'] with
  | some stop => ⟨.leaf (.comment (p.spanTo stop)), [], stop⟩
  | none =>
    let span := p.spanTo p.finish
    ⟨.leaf (.comment span), [⟨.unterminatedComment, span⟩], p.finish⟩

/-- Reads a declaration. -/
def declarationToken (p : Place) : Read Token :=
  ⟨.leaf (.doctype (p.spanTo (tagEnd p))), [], tagEnd p⟩

/-- Reads an end tag. -/
def endTagToken (p : Place) : Read Token :=
  let start := p.skip 2
  let name := nameEnd start
  let stop := tagEnd name
  ⟨.endTag (lower (start.textTo name)) (p.spanTo stop), [], stop⟩

/-- Reads a start tag. -/
def startTagToken (p : Place) : Read Token :=
  let start := p.skip 1
  let stop := nameEnd start
  let name := lower (start.textTo stop)
  let missing : Issue := ⟨.unterminatedStartTag name, p.spanTo p.finish⟩
  let r := readTagRest missing (' ' :: stop.rest) stop
  ⟨.startTag name (p.spanTo r.next) r.value, r.issues, r.next⟩

/-- Reads the text up to the next piece of markup. -/
def textToken (p : Place) : Read Token :=
  let stop := p.skip (textLength p.rest.tail + 1)
  ⟨.leaf (.text (p.spanTo stop)), [], stop⟩

/-- Reads the token at a place. -/
def readToken (p : Place) : Read Token :=
  match p.rest with
  | '<' :: '!' :: '-' :: '-' :: _ => commentToken p
  | '<' :: '!' :: _ => declarationToken p
  | '<' :: '?' :: _ => declarationToken p
  | '<' :: '/' :: c :: _ => if isNameStart c then endTagToken p else textToken p
  | '<' :: c :: _ => if isNameStart c then startTagToken p else textToken p
  | _ => textToken p

/-- Takes a token, and tells the name of the element if nothing but text follows. -/
def Builder.take (b : Builder) : Token → Builder × Option Text
  | .leaf n => (b.add n, none)
  | .startTag name span rest =>
    let (b, isRaw) := b.startTag name span rest
    (b, if isRaw then some name else none)
  | .endTag name span => (b.endTag name span, none)

/-- How far the reader has come: what was read, the place, and the name of the element that is
being read, if it holds nothing but text. -/
structure Reader where
  builder : Builder
  place : Place
  raw : Option Text

namespace Reader

/-- Reads the text in an element that holds nothing else. -/
def nextText (s : Reader) (name : Text) : Reader :=
  let stop := rawEnd name s.place
  let b := s.builder
  ⟨if stop.offset > s.place.offset then b.add (.text (s.place.spanTo stop)) else b, stop, none⟩

/-- Reads the token at the place. -/
def nextToken (s : Reader) : Reader :=
  let r := readToken s.place
  let (b, raw) := (s.builder.noteAll r.issues).take r.value
  ⟨b, r.next, raw⟩

/-- Reads on. -/
def next (s : Reader) : Reader :=
  match s.raw with
  | some name => s.nextText name
  | none => s.nextToken

end Reader

/-! ### What begins at a place -/

section Shapes

variable {p : Place} {c : Char} {rest : Text}

theorem readToken_of_comment (h : p.rest = '<' :: '!' :: '-' :: '-' :: rest) :
  readToken p = commentToken p
  := by
  unfold readToken
  simp only [h]

theorem readToken_of_declaration (h : p.rest = '<' :: '!' :: rest)
    (hcomment : ∀ rest', rest ≠ '-' :: '-' :: rest') :
  readToken p = declarationToken p
  := by
  unfold readToken
  split <;> grind

theorem readToken_of_instruction (h : p.rest = '<' :: '?' :: rest) :
  readToken p = declarationToken p
  := by
  unfold readToken
  simp only [h]

theorem readToken_of_endTag (h : p.rest = '<' :: '/' :: c :: rest) (hc : isNameStart c = true) :
  readToken p = endTagToken p
  := by
  unfold readToken
  rw [h]
  exact if_pos hc

theorem ne_of_isNameStart (hc : isNameStart c = true) :
  c ≠ '!' ∧ c ≠ '?' ∧ c ≠ '/'
  := by
  refine ⟨?_, ?_, ?_⟩
  all_goals
    rintro rfl
    exact absurd hc (by decide)

theorem readToken_of_startTag (h : p.rest = '<' :: c :: rest) (hc : isNameStart c = true) :
  readToken p = startTagToken p
  := by
  obtain ⟨hmark, hquestion, hslash⟩ := ne_of_isNameStart hc
  unfold readToken
  split <;> grind

theorem beginsMarkup_startTag (rest : Text) (hc : isNameStart c = true) :
  beginsMarkup ('<' :: c :: rest) = true
  := by
  obtain ⟨hmark, hquestion, hslash⟩ := ne_of_isNameStart hc
  simp [beginsMarkup, beginsName, hmark, hquestion, hslash, hc]

theorem readToken_of_text (h : beginsMarkup p.rest = false) :
  readToken p = textToken p
  := by
  unfold readToken
  split
  · next hshape =>
      rw [hshape] at h
      cases h
  · next hshape =>
      rw [hshape] at h
      cases h
  · next hshape =>
      rw [hshape] at h
      cases h
  · next hshape =>
      rw [hshape] at h
      exact if_neg (ne_true_of_eq_false h)
  · next hshape =>
      apply if_neg
      intro hc
      rw [hshape, beginsMarkup_startTag _ hc] at h
      cases h
  · rfl

theorem drop_textLength (s : Text) :
  s.drop (textLength s) = [] ∨ beginsMarkup (s.drop (textLength s)) = true
  := by
  induction s with
  | nil => exact Or.inl rfl
  | cons c s ih =>
      rw [textLength]
      split
      · next hbegin => exact Or.inr hbegin
      · exact ih

/-- Text goes on to the next piece of markup. -/
theorem rest_readToken_of_text (h : beginsMarkup p.rest = false) :
  (readToken p).next.rest = [] ∨ beginsMarkup (readToken p).next.rest = true
  := by
  rw [readToken_of_text h]
  have hdrop := drop_textLength p.rest.tail
  rwa [List.drop_tail] at hdrop

/-- Markup begins with a declaration or comment, an instruction, an end tag or a start tag. -/
theorem beginsMarkup_cases {t : Text} (h : beginsMarkup t = true) :
  (∃ rest, t = '<' :: '!' :: rest) ∨ (∃ rest, t = '<' :: '?' :: rest)
    ∨ (∃ c rest, t = '<' :: '/' :: c :: rest ∧ isNameStart c = true)
    ∨ ∃ c rest, t = '<' :: c :: rest ∧ isNameStart c = true
  := by
  unfold beginsMarkup at h
  split at h
  · exact Or.inl ⟨_, rfl⟩
  · exact Or.inr (Or.inl ⟨_, rfl⟩)
  · next t =>
      cases t with
      | nil => cases h
      | cons c rest => exact Or.inr (Or.inr (Or.inl ⟨c, rest, rfl, h⟩))
  · next t _ _ _ =>
      cases t with
      | nil => cases h
      | cons c rest => exact Or.inr (Or.inr (Or.inr ⟨c, rest, rfl, h⟩))
  · cases h

/-- The kinds of tokens. -/
theorem readToken_kinds (p : Place) :
  readToken p = commentToken p ∨ readToken p = declarationToken p ∨ readToken p = endTagToken p
    ∨ readToken p = startTagToken p ∨ readToken p = textToken p
  := by
  unfold readToken
  split
  · exact Or.inl rfl
  · exact Or.inr (Or.inl rfl)
  · exact Or.inr (Or.inl rfl)
  · split
    · exact Or.inr (Or.inr (Or.inl rfl))
    · exact Or.inr (Or.inr (Or.inr (Or.inr rfl)))
  · split
    · exact Or.inr (Or.inr (Or.inr (Or.inl rfl)))
    · exact Or.inr (Or.inr (Or.inr (Or.inr rfl)))
  · exact Or.inr (Or.inr (Or.inr (Or.inr rfl)))

/-- The reader goes on after a token. -/
theorem before_readToken (p : Place) :
  p.Before (readToken p).next
  := by
  rcases readToken_kinds p with h | h | h | h | h
  · rw [h, commentToken]
    split
    · next hafter => exact (p.before_skip 4).trans (Place.before_of_after? hafter)
    · exact p.before_finish
  · rw [h]
    exact p.before_tagEnd
  · rw [h]
    exact (p.before_skip 2).trans ((Place.before_nameEnd _).trans (Place.before_tagEnd _))
  · rw [h]
    exact (p.before_skip 1).trans ((Place.before_nameEnd _).trans (before_readTagRest _ _ _))
  · rw [h]
    exact p.before_skip _

/-- The reader goes forward over a token. -/
theorem offset_lt_readToken (hrest : p.rest ≠ []) :
  p.offset < (readToken p).next.offset
  := by
  have hskip {n : Nat} (hn : 0 < n) {q : Place} (h : (p.skip n).Before q) : p.offset < q.offset :=
    Nat.lt_of_lt_of_le (Place.offset_lt_skip hrest hn) h.offset_le
  rcases readToken_kinds p with h | h | h | h | h
  · rw [h, commentToken]
    split
    · next hafter => exact hskip (by decide) (Place.before_of_after? hafter)
    · exact Place.offset_lt_skip hrest (List.length_pos_iff.mpr hrest)
  · rw [h]
    exact Place.offset_lt_tagEnd hrest
  · rw [h]
    exact hskip Nat.two_pos ((Place.before_nameEnd _).trans (Place.before_tagEnd _))
  · rw [h]
    exact hskip Nat.one_pos ((Place.before_nameEnd _).trans (before_readTagRest _ _ _))
  · rw [h]
    exact hskip (Nat.succ_pos _) (.refl _)

end Shapes

/-! ### Reading on -/

/-- A piece of markup is a token, with the text in the element and its end tag if nothing but text
follows. -/
theorem readPiece_eq (b : Builder) {p : Place} (hrest : p.rest ≠ []) :
  readPiece b p
    = match (Reader.nextToken ⟨b, p, none⟩).raw with
      | some name =>
        readRaw (Reader.nextToken ⟨b, p, none⟩).builder name (Reader.nextToken ⟨b, p, none⟩).place
      | none => ((Reader.nextToken ⟨b, p, none⟩).builder, (Reader.nextToken ⟨b, p, none⟩).place)
  := by
  have htext (htoken : readToken p = textToken p) : (Reader.nextToken ⟨b, p, none⟩)
      = ⟨b.add (.text (p.spanTo (p.skip (textLength p.rest.tail + 1)))),
        p.skip (textLength p.rest.tail + 1), none⟩ := by
    simp [Reader.nextToken, htoken, textToken, Builder.noteAll, Builder.take]
  have hdeclaration (htoken : readToken p = declarationToken p) : (Reader.nextToken ⟨b, p, none⟩)
      = ⟨b.add (.doctype (p.spanTo (tagEnd p))), tagEnd p, none⟩ := by
    simp [Reader.nextToken, htoken, declarationToken, Builder.noteAll, Builder.take]
  unfold readPiece
  split
  · next hshape =>
      rw [Reader.nextToken, readToken_of_comment hshape, readComment, commentToken]
      cases (p.skip 4).after? ['-', '-', '>'] with
      | some stop => rfl
      | none => rfl
  · next hcomment hshape => rw [hdeclaration (readToken_of_declaration hshape hcomment)]
  · next hshape => rw [hdeclaration (readToken_of_instruction hshape)]
  · next hshape =>
      split
      · next hc =>
          rw [Reader.nextToken, readToken_of_endTag hshape hc]
          rfl
      · next hc =>
          rw [htext (readToken_of_text (by simpa [hshape, beginsMarkup, beginsName] using hc)),
            hshape, List.tail_cons]
  · next c t _ hmark hquestion _ hshape =>
      split
      · next hc =>
          rw [Reader.nextToken, readToken_of_startTag hshape hc]
          simp only [readStartTag, startTagToken, Builder.take]
          split <;> simp_all
      · next hc =>
          have hnone : beginsMarkup p.rest = false := by
            by_contra hbegin
            rcases beginsMarkup_cases (by simpa using hbegin) with h | h | h | h
            all_goals grind
          rw [htext (readToken_of_text hnone), hshape, List.tail_cons]
  · next hshape =>
      have hnone : beginsMarkup p.rest = false := by
        by_contra hbegin
        rcases beginsMarkup_cases (by simpa using hbegin) with h | h | h | h
        all_goals grind
      rw [htext (readToken_of_text hnone), hshape, List.tail_cons]
  · next hnil => exact absurd hnil hrest

/-- Nothing but text follows the start tag of an element that holds nothing else. -/
theorem mem_rawNames_of_take {b : Builder} {token : Token} {name : Text}
    (h : (b.take token).2 = some name) :
  name ∈ rawNames
  := by
  cases token with
  | leaf n => cases h
  | endTag name span => cases h
  | startTag name' span rest =>
      rw [Builder.take] at h
      dsimp only at h
      split at h
      · next hraw =>
          obtain rfl := Option.some.inj h
          unfold Builder.startTag at hraw
          dsimp only at hraw
          split at hraw
          · cases hraw
          · split at hraw
            · cases hraw
            · exact of_decide_eq_true hraw
      · cases h

theorem rawEnd_of_rest_eq_nil (name : Text) {p : Place} (h : p.rest = []) :
  rawEnd name p = p
  := by
  obtain ⟨rest, offset⟩ := p
  cases h
  simp [rawEnd, lower, charsBefore?, Place.finish, Place.skip]

section Invariant

variable {P : Reader → Prop} (hnext : ∀ s : Reader, s.place.rest ≠ [] → P s → P s.next)

include hnext

/-- What reading on keeps holds after the text in an element and its end tag. -/
theorem invariant_readRaw {b : Builder} {name : Text} (hname : name ∈ rawNames) {p : Place}
    (h : P ⟨b, p, some name⟩) :
  ∃ raw, P ⟨(readRaw b name p).1, (readRaw b name p).2, raw⟩
    ∧ (raw = none ∨ (readRaw b name p).2.rest = [])
  := by
  by_cases hrest : p.rest = []
  · have hstop := rawEnd_of_rest_eq_nil name hrest
    refine ⟨some name, ?_, Or.inr ?_⟩
    · simpa [readRaw, hstop, hrest] using h
    · simp [readRaw, hstop, hrest]
  · have htext : P (Reader.nextText ⟨b, p, some name⟩ name) := hnext _ hrest h
    have hend := exists_rest_rawEnd (p := p) hname
    rw [Reader.nextText] at htext
    unfold readRaw
    generalize rawEnd name p = stop at htext hend
    dsimp only at htext ⊢
    by_cases hstop : stop.rest = []
    · rw [if_pos (by simp [hstop])]
      exact ⟨none, htext, Or.inl rfl⟩
    · obtain ⟨c, rest, hshape, hc, -⟩ := hend hstop
      have htag := hnext _ hstop htext
      rw [Reader.next, Reader.nextToken, readToken_of_endTag hshape hc] at htag
      rw [if_neg (by simp [hstop])]
      exact ⟨none, htag, Or.inl rfl⟩

/-- What reading on keeps holds after a piece of markup. -/
theorem invariant_readPiece {b : Builder} {p : Place} (hrest : p.rest ≠ []) (h : P ⟨b, p, none⟩) :
  ∃ raw, P ⟨(readPiece b p).1, (readPiece b p).2, raw⟩ ∧ (raw = none ∨ (readPiece b p).2.rest = [])
  := by
  have htoken : P (Reader.nextToken ⟨b, p, none⟩) := hnext _ hrest h
  rw [readPiece_eq b hrest]
  split
  · next name hraw =>
      apply invariant_readRaw hnext (mem_rawNames_of_take hraw)
      rw [← hraw]
      exact htoken
  · next hraw =>
      refine ⟨none, ?_, Or.inl rfl⟩
      rw [← hraw]
      exact htoken

/-- What reading on keeps holds at the end of the text. -/
theorem invariant_readPieces {t : Text} (budget : Text) {b : Builder} {p : Place} (hp : p.In t)
    (hbudget : p.rest.length ≤ budget.length) (h : P ⟨b, p, none⟩) :
  ∃ raw, P ⟨(readPieces budget b p).1, (readPieces budget b p).2, raw⟩
    ∧ (readPieces budget b p).2.rest = []
  := by
  induction budget generalizing b p with
  | nil =>
      have hnil := List.eq_nil_of_length_eq_zero (Nat.le_zero.mp hbudget)
      rw [readPieces_of_rest_eq_nil _ _ hnil]
      exact ⟨none, h, hnil⟩
  | cons c budget ih =>
      by_cases hrest : p.rest = []
      · rw [readPieces_of_rest_eq_nil _ _ hrest]
        exact ⟨none, h, hrest⟩
      · have hread := reads_piece b hp hrest
        have hshorter := hread.before.length_lt hread.forward
        have hpieces : readPieces (c :: budget) b p
            = readPieces budget (readPiece b p).1 (readPiece b p).2 := by
          obtain ⟨d, rest, hd⟩ := List.exists_cons_of_ne_nil hrest
          rw [readPieces.eq_1 _ _ _ _ _ _ hd]
        rw [List.length_cons] at hbudget
        rw [hpieces]
        obtain ⟨raw, hpiece, rfl | hnil⟩ := invariant_readPiece hnext hrest h
        · exact ih (hp.before hread.before) (by omega) hpiece
        · rw [readPieces_of_rest_eq_nil _ _ hnil]
          exact ⟨raw, hpiece, hnil⟩

/-- A document is what is left when the elements are closed that are still open at the end of the
text.  What reading on keeps holds there. -/
theorem exists_reader_ofText {t : Text} (h : P ⟨{}, ⟨t, 0⟩, none⟩) :
  ∃ s : Reader, P s ∧ s.place.rest = []
    ∧ (Document.ofText t).children
      = (s.builder.closeUnclosed s.place.offset s.builder.opened.length).top.reverse
    ∧ (Document.ofText t).issues
      = (s.builder.closeUnclosed s.place.offset s.builder.opened.length).issues.reverse
  := by
  obtain ⟨raw, hend, hnil⟩ := invariant_readPieces hnext t (Place.in_start t) (Nat.le_refl _) h
  exact ⟨_, hend, hnil, rfl, rfl⟩

end Invariant

/-! ### What the reader comes to -/

namespace Reader

/-- The reader at the beginning of a text. -/
def start (t : Text) : Reader := ⟨{}, ⟨t, 0⟩, none⟩

/-- The reader goes on from the first state to the second one. -/
def GoesOn (s s' : Reader) : Prop := s.place.rest ≠ [] ∧ s' = s.next

/-- The reader comes from the first state to the second one. -/
abbrev Reaches : Reader → Reader → Prop := Relation.ReflTransGen GoesOn

variable {s s' : Reader}

theorem before_next (s : Reader) :
  s.place.Before s.next.place
  := by
  rw [Reader.next]
  split
  · next name _ => exact Place.before_rawEnd name s.place
  · exact before_readToken s.place

theorem rightUnique_goesOn :
  Relator.RightUnique GoesOn
  := by
  rintro s s₁ s₂ ⟨-, rfl⟩ ⟨-, rfl⟩
  rfl

/-- At the end of the text the reader has come past every state. -/
theorem Reaches.to_end {first : Reader} (h : first.Reaches s) (h' : first.Reaches s')
    (hrest : s'.place.rest = []) :
  s.Reaches s'
  := by
  rcases Relation.ReflTransGen.total_of_right_unique rightUnique_goesOn h h' with hon | hback
  · exact hon
  · rcases Relation.ReflTransGen.cases_head hback with rfl | ⟨_, ⟨hmore, -⟩, -⟩
    · exact .refl
    · exact absurd hrest hmore

end Reader

end Stencil.Markup
