import Stencil.Proofs.Script.Edges

/-!
# Where tokens stand

The tokens of a script are cut from its text from left to right, so each of them begins no earlier
than the one before it, and a punctuator stands in the text where its span says.  This needs that
literals, templates and comments end between characters.  The lookup by bisection returns
neighbouring tokens, the first of which begins in the span and the last of which ends in it.
-/

namespace Stencil.Script

open Text

/-- If the token is a punctuator, it is the piece of the text at its span. -/
def Token.Stands (source : Text) (k : Token) : Prop :=
  k.kind = .punctuator →
    (∃ rest, source.Cut k.span.start (k.value ++ rest))
      ∧ k.span.stop = k.span.start + width k.value

/-- The second token begins no earlier than the first one, and behind it if that is a
punctuator. -/
def Token.Before (k k' : Token) : Prop :=
  k.span.start ≤ k'.span.start ∧ (k.kind = .punctuator → k.span.stop ≤ k'.span.start)

/-- Tokens of a text in order, none of which begins before the given offset. -/
structure Laid (source : Text) (pos : Nat) (ks : List Token) : Prop where
  behind : ∀ k ∈ ks, pos ≤ k.span.start
  stands : ∀ k ∈ ks, k.Stands source
  inOrder : ks.Pairwise Token.Before

namespace Laid

variable {source : Text} {pos pos' : Nat} {ks : List Token}

theorem nil (source : Text) (pos : Nat) :
  Laid source pos []
  := ⟨by simp, by simp, .nil⟩

theorem mono (h : Laid source pos' ks) (hpos : pos ≤ pos') :
  Laid source pos ks
  := ⟨fun k hk => Nat.le_trans hpos (h.behind k hk), h.stands, h.inOrder⟩

theorem cons {k : Token} (h : Laid source pos ks) (hk : k.Stands source)
    (hstart : k.span.start ≤ pos) (hstop : k.kind = .punctuator → k.span.stop ≤ pos) :
  Laid source k.span.start (k :: ks)
  := by
  constructor
  · exact List.forall_mem_cons.mpr ⟨Nat.le_refl _, (h.mono hstart).behind⟩
  · exact List.forall_mem_cons.mpr ⟨hk, h.stands⟩
  · refine List.pairwise_cons.mpr ⟨fun m hm => ⟨?_, fun hkind => ?_⟩, h.inOrder⟩
    · exact Nat.le_trans hstart (h.behind m hm)
    · exact Nat.le_trans (hstop hkind) (h.behind m hm)

/-- A piece of the text is a token before the tokens behind it. -/
theorem piece {value rest : Text} (kind : TokenKind) (hcut : source.Cut pos (value ++ rest))
    (h : Laid source (pos + width value) ks) :
  Laid source pos (⟨kind, value, ⟨pos, pos + width value⟩⟩ :: ks)
  := by
  apply h.cons (k := ⟨kind, value, ⟨pos, pos + width value⟩⟩)
  · exact fun _ => ⟨⟨rest, hcut⟩, rfl⟩
  · apply Nat.le_add_right
  · exact fun _ => Nat.le_refl _

end Laid

/-- The atom is no punctuator and ends between characters of the text. -/
structure Atom.Fits (source : Text) (a : Atom) : Prop where
  stop : IsBoundary a.span.stop source
  kind : a.kind ≠ .punctuator

/-- Behind an atom the text is cut again. -/
theorem Atom.Fits.cut {source rest : Text} {a : Atom} (h : a.Fits source)
    (hcut : source.Cut a.span.start rest) :
  source.Cut (max a.span.start a.span.stop) (onward (a.span.stop - a.span.start) rest)
  := hcut.behind h.stop

/-- What holds of all atoms holds of those that are left. -/
theorem forall_mem_of_dropWhile {P : Atom → Prop} {atoms later : List Atom} {p : Atom → Bool}
    (hatoms : ∀ a ∈ atoms, P a) (h : atoms.dropWhile p = later) :
  ∀ a ∈ later, P a
  := by
  rw [← h]
  exact fun a ha => hatoms a ((List.dropWhile_sublist p).subset ha)

/-- The tokens of the rest of a text are laid out in it. -/
theorem laid_tokensFrom {source rest : Text} {pos : Nat} {atoms : List Atom}
    (hcut : source.Cut pos rest) (hatoms : ∀ a ∈ atoms, a.Fits source) :
  Laid source pos (tokensFrom rest pos atoms)
  := by
  fun_induction tokensFrom rest pos atoms with
  | case1 => exact .nil source _
  | case2 atoms c rest atom later hcomment hnext after ih =>
      obtain ⟨hatom, hlater⟩ := List.forall_mem_cons.mp (forall_mem_of_dropWhile hatoms hnext)
      exact (ih (hatom.cut hcut) hlater).mono (Nat.le_max_left _ _)
  | case3 atoms c rest atom later hcomment hnext after ih =>
      obtain ⟨hatom, hlater⟩ := List.forall_mem_cons.mp (forall_mem_of_dropWhile hatoms hnext)
      apply (ih (hatom.cut hcut) hlater).cons (k := ⟨atom.kind, _, atom.span⟩)
      · exact fun hkind => absurd hkind hatom.kind
      · apply Nat.le_max_left
      · exact fun hkind => absurd hkind hatom.kind
  | case4 pos atoms c rest atom later hnext hlater hgap ih =>
      exact (ih hcut.cons (forall_mem_of_dropWhile hatoms hnext)).mono (Nat.le_add_right _ _)
  | case5 pos atoms c rest atom later hnext hlater hgap piece kind more hmore value stop ih =>
      have hvalue : source.Cut pos (value ++ rest.drop more) := by
        simpa [value] using hcut
      exact (ih hvalue.append (forall_mem_of_dropWhile hatoms hnext)).piece kind hvalue
  | case6 pos atoms c rest hnext hgap ih =>
      exact (ih hcut.cons (by simp)).mono (Nat.le_add_right _ _)
  | case7 pos atoms c rest hnext hgap kind more hmore value stop ih =>
      have hvalue : source.Cut pos (value ++ rest.drop more) := by
        simpa [value] using hcut
      exact (ih hvalue.append (by simp)).piece kind hvalue

/-! ### The tokens within a span -/

/-- Bisection finds a place before which the condition holds and after which it does not. -/
theorem bisect_spec {α : Type} (condition : α → Bool) (entries : Array α) {low high : Nat}
    (h : low ≤ high) :
  low ≤ bisect condition entries low high ∧ bisect condition entries low high ≤ high
    ∧ (low < bisect condition entries low high →
      entries[bisect condition entries low high - 1]?.any condition = true)
    ∧ (bisect condition entries low high < high →
      entries[bisect condition entries low high]?.any condition = false)
  := by
  fun_induction bisect condition entries low high with
  | case1 low high hlt middle hmiddle ih =>
      obtain ⟨hlow, hhigh, hbefore, hat⟩ := ih (by omega)
      refine ⟨by omega, hhigh, fun _ => ?_, hat⟩
      rcases Nat.eq_or_lt_of_le hlow with heq | hlt
      · rw [← heq]
        exact hmiddle
      · exact hbefore hlt
  | case2 low high hlt middle hmiddle ih =>
      obtain ⟨hlow, hhigh, hbefore, hat⟩ := ih (by omega)
      refine ⟨hlow, by omega, hbefore, fun _ => ?_⟩
      rcases Nat.eq_or_lt_of_le hhigh with heq | hlt
      · rw [heq]
        simpa using hmiddle
      · exact hat hlt
  | case3 low high hle =>
      exact ⟨Nat.le_refl _, h, fun hlt => absurd hlt (Nat.lt_irrefl _), fun hlt => absurd hlt hle⟩

/-- The tokens within a span are some of the tokens in their order, of which the first one begins
in the span and the last one ends in it. -/
theorem within_spec (ks : List Token) (s : Span) :
  (within ks s).Sublist ks ∧ (∀ k ∈ (within ks s).head?, s.start ≤ k.span.start)
    ∧ ∀ k ∈ (within ks s).getLast?, k.span.stop ≤ s.stop
  := by
  have hfirst := bisect_spec (fun k : Token => decide (k.span.start < s.start)) ks.toArray
    (Nat.zero_le ks.length)
  have hlast := bisect_spec (fun k : Token => decide (k.span.stop ≤ s.stop)) ks.toArray
    (Nat.zero_le ks.length)
  unfold within
  dsimp only
  rw [List.size_toArray, Array.toList_extract, List.extract_eq_take_drop]
  generalize bisect (fun k : Token => decide (k.span.start < s.start)) ks.toArray 0 ks.length
    = first at *
  generalize bisect (fun k : Token => decide (k.span.stop ≤ s.stop)) ks.toArray 0 ks.length
    = last at *
  refine ⟨(List.take_sublist _ _).trans (List.drop_sublist _ _), ?_, ?_⟩
  · intro k hk
    rw [List.head?_take, List.head?_drop] at hk
    split at hk
    · cases hk
    · obtain ⟨hlt, -⟩ := List.getElem?_eq_some_iff.mp hk
      have hat := hfirst.2.2.2 hlt
      rw [List.getElem?_toArray, Option.mem_def.mp hk] at hat
      simpa using hat
  · intro k hk
    rw [List.getLast?_take] at hk
    split at hk
    · cases hk
    · next hne =>
        have hat := hlast.2.2.1 (by omega)
        rw [List.getElem?_toArray] at hat
        rw [List.getElem?_drop, show first + (max first last - first - 1) = last - 1 by omega] at hk
        obtain ⟨m, hm, hmstop⟩ := Option.any_eq_true _ _ |>.mp hat
        rw [hm, Option.some_or, Option.mem_some_iff] at hk
        subst hk
        simpa using hmstop

/-- The punctuators with which the tokens within a span end lie in the span. -/
theorem Laid.mem_span {source : Text} {pos : Nat} {ks : List Token} (h : Laid source pos ks)
    {s : Span} {p : Token → Bool} (hp : ∀ k, p k = true → k.kind = .punctuator) {k : Token}
    (hk : k ∈ (within ks s).reverse.takeWhile p) :
  k ∈ ks ∧ p k = true ∧ s.start ≤ k.span.start ∧ k.span.stop ≤ s.stop
  := by
  obtain ⟨hsublist, hhead, hlast⟩ := within_spec ks s
  have hkp : p k = true := List.all_eq_true.mp List.all_takeWhile k hk
  have hmem : k ∈ within ks s := List.mem_reverse.mp ((List.takeWhile_sublist p).subset hk)
  have hinOrder := h.inOrder.sublist hsublist
  refine ⟨hsublist.subset hmem, hkp, ?_, ?_⟩
  · cases hks : within ks s with
    | nil =>
        rw [hks] at hmem
        cases hmem
    | cons first rest =>
        rw [hks] at hmem hhead hinOrder
        have hfirst := hhead first rfl
        rcases List.mem_cons.mp hmem with rfl | hrest
        · exact hfirst
        · exact Nat.le_trans hfirst ((List.pairwise_cons.mp hinOrder).1 k hrest).1
  · -- the last token is a punctuator too, and the others end before it begins
    rcases List.eq_nil_or_concat (within ks s) with hks | ⟨front, final, hks⟩
    · rw [hks] at hmem
      cases hmem
    · rw [List.concat_eq_append] at hks
      have hfinal : final.span.stop ≤ s.stop := hlast final (by simp [hks])
      rw [hks] at hk hmem hinOrder
      rcases List.mem_append.mp hmem with hfront | hk'
      · rw [List.reverse_append, List.reverse_singleton, List.singleton_append,
          List.takeWhile_cons] at hk
        split at hk
        · next hpfinal =>
            have hbefore := (List.pairwise_append.mp hinOrder).2.2 k hfront final (by simp)
            have hin : final ∈ ks := hsublist.subset (by simp [hks])
            have hstop := (h.stands final hin (hp final hpfinal)).2
            have := hbefore.2 (hp k hkp)
            omega
        · cases hk
      · rwa [List.mem_singleton.mp hk']

/-! ### The tokens of a program -/

/-- The marks of a comment that would be taken for the content of another one. -/
def blurredMarks : List Text := [ofString "/*<!--", ofString "/*-->"]

variable {source : Text}

/-- A comment ends between characters, unless its mark follows that of another comment. -/
theorem HasComment.isBoundary {s : Span} (h : HasComment source s)
    (hblurred : ∀ mark ∈ blurredMarks, ¬ mark <:+: source) :
  IsBoundary (Token.commentSpan source s).stop source
  := by
  obtain ⟨body, rest, hbody, hcut, hstop⟩ := h
  have hboundary : IsBoundary s.stop source := by
    rw [hstop]
    exact hcut.append.isBoundary
  unfold Token.commentSpan
  dsimp only
  rw [hcut.onward_eq]
  split
  · exact hboundary
  · next hmark =>
      split
      · next hblock =>
          rw [Bool.or_eq_true, not_or, List.isPrefixOf_iff_prefix, List.isPrefixOf_iff_prefix]
            at hmark
          obtain ⟨front, hfront⟩ := List.isSuffixOf_iff_suffix.mp hblock
          have hsource : source = front ++ ofString "/*" ++ (body ++ rest) := by
            rw [hfront, ← hcut.onward_eq, before_append_onward]
          have hwithin (mark tail : Text)
              (h : source = front ++ ofString "/*" ++ (mark ++ tail ++ rest)) :
              ofString "/*" ++ mark <:+: source := ⟨front, tail ++ rest, by simp [h]⟩
          exfalso
          rcases hbody with ⟨⟨mark, hmem, tail, rfl⟩, -⟩ | hbegins
          · simp only [lineCommentMarks, List.mem_cons, List.not_mem_nil, or_false] at hmem
            rcases hmem with rfl | rfl | rfl
            · exact hmark.1 ⟨tail ++ rest, by simp⟩
            · exact hblurred _ (by decide) (hwithin _ tail hsource)
            · exact hblurred _ (by decide) (hwithin _ tail hsource)
          · exact hmark.2 (hbegins.trans (List.prefix_append _ _))
      · exact hboundary

/-- Literals, templates and comments are no punctuators. -/
theorem Node.kind_of_atom? {n : Node} {a : Atom} (h : n.atom? = some a) :
  a.span = n.span ∧ a.kind ≠ .punctuator
  := by
  unfold atom? at h
  split at h
  · next value raw hkind =>
      cases h
      exact ⟨rfl, by cases value <;> simp [LiteralValue.tokenKind]⟩
  · cases h
    exact ⟨rfl, by simp⟩
  · cases h

/-- Literals and templates are no comments. -/
theorem Node.isComment_of_atom? {n : Node} {a : Atom} (h : n.atom? = some a) :
  a.kind.isComment = false
  := by
  unfold atom? at h
  split at h
  · next value raw hkind =>
      cases h
      cases value <;> rfl
  · cases h
    rfl
  · cases h

theorem Token.kind_ofComment (source : Text) (s : Span) :
  (ofComment source s).kind ≠ .punctuator
  := by
  unfold ofComment
  dsimp only
  split <;> simp

theorem Token.span_ofComment (source : Text) (s : Span) :
  (ofComment source s).span = commentSpan source s
  := by
  unfold ofComment
  dsimp only
  split <;> rfl

/-- The literals and templates of a program stand between characters. -/
theorem Program.onBoundaries_of_atom? {p : Program} (h : ofText source = .ok p) {n : Node}
    (hn : n ∈ p.tree.preorder) {a : Atom} (hatom : n.atom? = some a) :
  a.span.OnBoundaries source
  := by
  obtain ⟨hspan, -⟩ := Node.kind_of_atom? hatom
  obtain ⟨hstart, hstop⟩ := endsAt_isEdge h n hn
  rw [hspan]
  exact ⟨hstart.isBoundary, hstop.isBoundary⟩

/-- The literals and templates of a program end between characters. -/
theorem Program.fits_of_atom? {p : Program} (h : ofText source = .ok p) {n : Node}
    (hn : n ∈ p.tree.preorder) {a : Atom} (hatom : n.atom? = some a) :
  a.Fits source
  := ⟨(onBoundaries_of_atom? h hn hatom).2, (Node.kind_of_atom? hatom).2⟩

/-- The tokens of a program are laid out in its text, unless the mark of a comment in it follows
that of another comment. -/
theorem Program.laid_tokens {p : Program} (h : ofText source = .ok p)
    (hblurred : ∀ mark ∈ blurredMarks, ¬ mark <:+: source) :
  Laid source 0 p.tokens
  := by
  obtain ⟨spans, hspans, hcomments⟩ := exists_comments h
  obtain ⟨-, -, -, -, htokens⟩ := parsed_of_ofText h
  rw [htokens]
  apply laid_tokensFrom (cut_zero source)
  intro a ha
  rw [atoms, List.mem_mergeSort, List.mem_append] at ha
  rcases ha with ha | ha
  · obtain ⟨n, hn, hatom⟩ := List.mem_filterMap.mp ha
    exact fits_of_atom? h hn hatom
  · obtain ⟨comment, hcomment, rfl⟩ := List.mem_map.mp ha
    rw [hcomments] at hcomment
    obtain ⟨s, hs, rfl⟩ := List.mem_map.mp hcomment
    refine ⟨?_, Token.kind_ofComment source s⟩
    rw [Token.span_ofComment]
    exact (hspans s hs).isBoundary hblurred

/-- The semicolons with which the tokens within a span end are those of the text, and they lie in
the span. -/
theorem Program.cut_of_semicolon {p : Program} (h : ofText source = .ok p)
    (hblurred : ∀ mark ∈ blurredMarks, ¬ mark <:+: source) {s : Span} {k : Token}
    (hk : k ∈ (p.tokensIn s).reverse.takeWhile (·.isPunctuator ";")) :
  (∃ rest, source.Cut k.span.start (';' :: rest)) ∧ k.span.stop = k.span.start + 1
    ∧ s.start ≤ k.span.start ∧ k.span.stop ≤ s.stop
  := by
  have hlaid := laid_tokens h hblurred
  have hpunctuator (m : Token) (hm : m.isPunctuator ";" = true) :
      m.kind = .punctuator ∧ m.value = [';'] := by
    simpa [Token.isPunctuator] using hm
  obtain ⟨hmem, hsemicolon, hstart, hstop⟩ :=
    hlaid.mem_span (fun m hm => (hpunctuator m hm).1) hk
  obtain ⟨hkind, hvalue⟩ := hpunctuator k hsemicolon
  obtain ⟨⟨rest, hcut⟩, hwidth⟩ := hlaid.stands k hmem hkind
  rw [hvalue] at hcut hwidth
  exact ⟨⟨rest, hcut⟩, hwidth, hstart, hstop⟩

end Stencil.Script
