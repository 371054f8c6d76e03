import Stencil.Proofs.Branch.ViewText

/-!
# The lines of a view

The markup view keeps the line terminators of a document where they are, with one exception.  An
output tag whose code stands on one line becomes a word of underscores as a whole, so that a line
terminator in its opening or its closing is lost.  Where no tag joins lines in this way, the line
terminators of the view are those of the document at the same offsets, and an offset has the same
line number in both.  A view of branches keeps the lines under the same condition.
-/

namespace Stencil

open Text

/-! ### The line terminators of a text -/

/-- The line terminators of a text that begins at offset `pos`, each with its offset. -/
def lineBreaksFrom (pos : Nat) : Text → List (Nat × Char)
  | [] => []
  | c :: t =>
    if isLineBreak c then (pos, c) :: lineBreaksFrom (pos + c.utf8Size) t
    else lineBreaksFrom (pos + c.utf8Size) t

/-- The line terminators of a text, each with its offset. -/
def lineBreaks (t : Text) : List (Nat × Char) := lineBreaksFrom 0 t

theorem lineBreaksFrom_append (pos : Nat) (s t : Text) :
  lineBreaksFrom pos (s ++ t) = lineBreaksFrom pos s ++ lineBreaksFrom (pos + width s) t
  := by
  induction s generalizing pos with
  | nil => rfl
  | cons c s ih =>
      rw [List.cons_append, lineBreaksFrom, lineBreaksFrom, ih, width_cons, Nat.add_assoc]
      split
      · rfl
      · rfl

theorem length_lineBreaksFrom (pos : Nat) (t : Text) :
  (lineBreaksFrom pos t).length = t.countP isLineBreak
  := by
  induction t generalizing pos with
  | nil => rfl
  | cons c t ih =>
      rw [lineBreaksFrom, List.countP_cons]
      split
      · rw [List.length_cons, ih]
      · rw [ih, Nat.add_zero]

theorem hasLineBreak_eq_false_iff {t : Text} :
  hasLineBreak t = false ↔ t.countP isLineBreak = 0
  := by
  rw [hasLineBreak, List.any_eq_false, List.countP_eq_zero]

/-- A text on one line has no line terminators. -/
theorem lineBreaksFrom_of_countP {t : Text} (h : t.countP isLineBreak = 0) (pos : Nat) :
  lineBreaksFrom pos t = []
  := by
  rw [← List.length_eq_zero_iff, length_lineBreaksFrom, h]

theorem le_of_mem_lineBreaksFrom {pos : Nat} {t : Text} :
  ∀ b ∈ lineBreaksFrom pos t, pos ≤ b.1
  := by
  induction t generalizing pos with
  | nil => simp [lineBreaksFrom]
  | cons c t ih =>
      intro b hb
      rw [lineBreaksFrom] at hb
      split at hb
      · rcases List.mem_cons.mp hb with rfl | hb
        · apply Nat.le_refl
        · have := ih b hb
          omega
      · have := ih b hb
        omega

/-- The offsets at which lines begin after the given line terminators.  A carriage return with a
line feed right after it does not count by itself. -/
def startsAfterBreaks : List (Nat × Char) → List Nat
  | [] => []
  | (p, c) :: rest =>
    if c = '\r' ∧ rest.head? = some (p + 1, '\n') then startsAfterBreaks rest
    else (p + c.utf8Size) :: startsAfterBreaks rest

/-- The terminator of a character that no line feed follows counts by itself. -/
theorem head?_lineBreaksFrom_ne {pos : Nat} {t : Text} (h : t.head? ≠ some '\n') :
  (lineBreaksFrom pos t).head? ≠ some (pos, '\n')
  := by
  cases t with
  | nil => simp [lineBreaksFrom]
  | cons d t =>
      have hd := d.utf8Size_pos
      rw [lineBreaksFrom]
      split
      · simpa using h
      · intro hhead
        have := le_of_mem_lineBreaksFrom _ (List.mem_of_head? hhead)
        omega

/-- The line terminators of a text with their offsets tell where its lines begin. -/
theorem lineStartsFrom_eq (pos : Nat) (t : Text) :
  lineStartsFrom pos t = startsAfterBreaks (lineBreaksFrom pos t)
  := by
  induction pos, t using lineStartsFrom.induct with
  | case1 pos => rfl
  | case2 pos t ih =>
      have hreturn : '\r'.utf8Size = 1 := rfl
      have hfeed : '\n'.utf8Size = 1 := rfl
      rw [lineStartsFrom, ih]
      simp [lineBreaksFrom, startsAfterBreaks, hreturn, hfeed, isLineBreak]
  | case3 pos c t hpair _ hbreak ih =>
      rw [lineStartsFrom.eq_3 pos c t hpair, if_pos hbreak, ih, lineBreaksFrom, if_pos hbreak,
        startsAfterBreaks, if_neg]
      rintro ⟨rfl, hhead⟩
      apply head?_lineBreaksFrom_ne _ hhead
      intro hfeed
      obtain ⟨rest, rfl⟩ := List.head?_eq_some_iff.mp hfeed
      exact hpair rest rfl rfl
  | case4 pos c t hpair _ hplain ih =>
      rw [lineStartsFrom.eq_3 pos c t hpair, if_neg hplain, ih, lineBreaksFrom, if_neg hplain]

/-- Texts with the same line terminators at the same offsets have the same lines. -/
theorem lineStarts_eq_of_lineBreaks {s t : Text} (h : lineBreaks s = lineBreaks t) :
  lineStarts s = lineStarts t
  := by
  rw [lineStarts, lineStarts, lineStartsFrom_eq, lineStartsFrom_eq]
  exact congrArg (0 :: startsAfterBreaks ·) h

/-- In texts of the same width with the same lines an offset has the same line number. -/
theorem line_location_eq {s t : Text} (hwidth : width s = width t)
    (hlines : lineStarts s = lineStarts t) (n : Nat) :
  ((Lines.ofText s).location n).line = ((Lines.ofText t).location n).line
  := by
  dsimp only [Lines.location, Lines.ofText]
  rw [hwidth, hlines]

/-! ### Blanking keeps the lines -/

theorem lineBreaksFrom_spaces (pos n : Nat) :
  lineBreaksFrom pos (spaces n) = []
  := by
  apply lineBreaksFrom_of_countP
  rw [List.countP_eq_zero]
  intro c hc
  rw [List.eq_of_mem_replicate hc]
  decide

theorem lineBreaksFrom_blankChar (pos : Nat) (c : Char) :
  lineBreaksFrom pos (blankChar c) = lineBreaksFrom pos [c]
  := by
  rw [blankChar]
  split
  · rfl
  · next hplain => rw [lineBreaksFrom_spaces, lineBreaksFrom, if_neg hplain, lineBreaksFrom]

@[simp]
theorem lineBreaksFrom_blank (pos : Nat) (t : Text) :
  lineBreaksFrom pos (blank t) = lineBreaksFrom pos t
  := by
  induction t generalizing pos with
  | nil => rfl
  | cons c t ih =>
      rw [blank_cons, lineBreaksFrom_append, lineBreaksFrom_blankChar, ih, width_blankChar]
      exact (lineBreaksFrom_append pos [c] t).symm

/-- A document with ranges blanked has the line terminators of the document. -/
theorem lineBreaks_blankRanges {document : Text} {ranges : List Span}
    (h : ∀ range ∈ ranges, range.OnBoundaries document) :
  lineBreaks (blankRanges document ranges) = lineBreaks document
  := by
  rw [lineBreaks, ← lineBreaksFrom_blank, blank_blankRanges h, lineBreaksFrom_blank, lineBreaks]

/-! ### What is written over a tag -/

/-- A comment over a text keeps its line terminators. -/
theorem lineBreaksFrom_commentOver? {head pos : Nat} {lead t s : Text}
    (hlead : hasLineBreak lead = false) (h : commentOver? head lead t = some s) :
  lineBreaksFrom pos s = lineBreaksFrom pos t
  := by
  simp only [commentOver?] at h
  split at h
  · cases h
  · next hlong =>
      split at h
      · cases h
      · next hfits =>
          simp only [Bool.or_eq_true, decide_eq_true_eq, not_or, Bool.not_eq_true] at hfits
          obtain ⟨⟨hfront, hback⟩, hroom⟩ := hfits
          have hopening : hasLineBreak (lead ++ ['/', '*']) = false := by
            simp only [hasLineBreak, List.any_append] at hlead ⊢
            rw [hlead]
            rfl
          have hclosing : hasLineBreak ['*', '/'] = false := by decide
          have hcut : t = t.take head ++ (t.drop head).take (t.length - head - 2)
              ++ t.drop (t.length - 2) := by
            have hdrop : t.drop (t.length - 2) = (t.drop head).drop (t.length - head - 2) := by
              rw [List.drop_drop]
              congr 1
              omega
            rw [hdrop, List.append_assoc, List.take_append_drop, List.take_append_drop]
          rw [hasLineBreak_eq_false_iff] at hfront hback hopening hclosing
          rw [← Option.some.inj h]
          conv_rhs => rw [hcut]
          simp only [lineBreaksFrom_append, lineBreaksFrom_spaces, lineBreaksFrom_blank,
            lineBreaksFrom_of_countP hfront, lineBreaksFrom_of_countP hback,
            lineBreaksFrom_of_countP hclosing, List.append_nil, List.nil_append]
          rw [← lineBreaksFrom_append, lineBreaksFrom_of_countP hopening, List.nil_append]
          congr 1
          simp only [width_append, width_spaces] at hroom ⊢
          omega

theorem lineBreaksFrom_underscoreOver (pos : Nat) (t : Text) :
  lineBreaksFrom pos (underscoreOver t) = lineBreaksFrom pos t
  := by
  induction t generalizing pos with
  | nil => rfl
  | cons c t ih =>
      unfold underscoreOver
      split
      · rw [lineBreaksFrom_append, lineBreaksFrom_blankChar, ih, width_blankChar]
        exact (lineBreaksFrom_append pos [c] t).symm
      · next hink =>
          have hplain : isLineBreak c = false := by
            rw [Bool.eq_false_iff]
            exact fun hbreak => hink (isBlank_of_isLineBreak hbreak)
          have hover : lineBreaksFrom pos (overwrite '_' c) = [] := by
            rw [overwrite, lineBreaksFrom, if_neg (by decide), lineBreaksFrom_spaces]
          rw [lineBreaksFrom_append, hover, width_overwrite rfl, lineBreaksFrom_blank,
            List.nil_append, lineBreaksFrom, if_neg (by simp [hplain])]

theorem lineBreaksFrom_overwriteEvaluate (pos : Nat) (t : Text) :
  lineBreaksFrom pos (overwriteEvaluate t) = lineBreaksFrom pos t
  := by
  unfold overwriteEvaluate
  cases h : commentOver? 2 [] t with
  | none => simp
  | some s => exact lineBreaksFrom_commentOver? rfl h

/-- An output tag whose code runs over several lines keeps them. -/
theorem lineBreaksFrom_overwriteOutput {code : Text} (hcode : hasLineBreak code = true)
    (pos : Nat) (t : Text) :
  lineBreaksFrom pos (overwriteOutput t code) = lineBreaksFrom pos t
  := by
  unfold overwriteOutput
  rw [if_pos hcode]
  cases h : commentOver? 3 ['_'] t with
  | none => exact lineBreaksFrom_underscoreOver pos t
  | some s => exact lineBreaksFrom_commentOver? rfl h

/-- An output tag whose code stands on one line is written over by a word, which has no line
terminator. -/
theorem countP_overwriteOutput {code : Text} (hcode : hasLineBreak code = false) (t : Text) :
  (overwriteOutput t code).countP isLineBreak = 0
  := by
  rw [overwriteOutput, hcode, if_neg Bool.false_ne_true, List.countP_eq_zero]
  intro c hc
  rw [List.eq_of_mem_replicate hc]
  decide

/-- The tag is an output tag that is shown as a word of underscores, because its code stands on one
line, and yet a line ends in its opening or its closing. -/
structure Tag.JoinsLines (document : Text) (striped : List Span) (tag : Tag) : Prop where
  isShown : striped.any (·.intersects tag.span) = false
  isOutput : tag.kind.isOutput = true
  onOneLine : hasLineBreak (tag.code.text document) = false
  overLines : hasLineBreak (tag.span.text document) = true

/-- What is written over a tag has the line terminators of the tag, unless the tag joins lines. -/
theorem lineBreaksFrom_overwriteTag {document : Text} {striped : List Span} {tag : Tag}
    (h : ¬ tag.JoinsLines document striped) (pos : Nat) :
  lineBreaksFrom pos (overwriteTag document striped tag)
    = lineBreaksFrom pos (tag.span.text document)
  := by
  dsimp only [overwriteTag]
  split
  · apply lineBreaksFrom_blank
  · next hshown =>
      split
      · next houtput =>
          cases hcode : hasLineBreak (tag.code.text document) with
          | true => apply lineBreaksFrom_overwriteOutput hcode
          | false =>
              have hone : hasLineBreak (tag.span.text document) = false := by
                rw [Bool.eq_false_iff]
                exact fun hover => h ⟨by simpa using hshown, houtput, hcode, hover⟩
              rw [lineBreaksFrom_of_countP (countP_overwriteOutput hcode _),
                lineBreaksFrom_of_countP (hasLineBreak_eq_false_iff.mp hone)]
      · apply lineBreaksFrom_overwriteEvaluate

/-- Over a tag that joins lines stands nothing that ends a line. -/
theorem Tag.JoinsLines.countP_overwriteTag {document : Text} {striped : List Span} {tag : Tag}
    (h : tag.JoinsLines document striped) :
  (overwriteTag document striped tag).countP isLineBreak = 0
  := by
  simp only [overwriteTag, h.isShown, h.isOutput]
  apply countP_overwriteOutput h.onOneLine

/-! ### The lines of the whole view -/

/-- The texts have the same width, and the same line terminators at the same offsets. -/
structure Text.Alike (t s : Text) : Prop where
  width : width s = width t
  lineBreaksFrom : ∀ pos, lineBreaksFrom pos s = lineBreaksFrom pos t

theorem Text.Alike.append {t s t' s' : Text} (h : Alike t s) (h' : Alike t' s') :
  Alike (t ++ t') (s ++ s')
  := by
  constructor
  · rw [width_append, width_append, h.width, h'.width]
  · intro pos
    rw [lineBreaksFrom_append, lineBreaksFrom_append, h.width, h.lineBreaksFrom, h'.lineBreaksFrom]

/-- Replacing tags by texts with no more line terminators leaves no more of them, and fewer if one
of the tags loses some. -/
theorem countP_replaceTags {document : Text} {piece : Tag → Text} (tags : List Tag) :
    ∀ {cursor : Nat}, IsBoundary cursor document → Tag.Placed document tags →
      (∀ tag ∈ tags, cursor ≤ tag.span.start) →
      (∀ tag ∈ tags,
        (piece tag).countP isLineBreak ≤ (tag.span.text document).countP isLineBreak) →
      (replaceTags document id piece cursor tags).countP isLineBreak
          ≤ (onward cursor document).countP isLineBreak
        ∧ ((∃ tag ∈ tags,
            (piece tag).countP isLineBreak < (tag.span.text document).countP isLineBreak) →
          (replaceTags document id piece cursor tags).countP isLineBreak
            < (onward cursor document).countP isLineBreak)
  := by
  induction tags with
  | nil =>
      intro cursor _ _ _ _
      simp [replaceTags]
  | cons tag rest ih =>
      intro cursor hcursor hplaced hnext hpiece
      obtain ⟨hforward, ⟨hstart, hstop⟩, hbefore, hrest⟩ := hplaced.of_cons
      obtain ⟨hfrom, -⟩ := List.forall_mem_cons.mp hnext
      obtain ⟨hpiece, hpieceRest⟩ := List.forall_mem_cons.mp hpiece
      obtain ⟨hle, hlt⟩ := ih hstop hrest hbefore hpieceRest
      rw [replaceTags, id_eq, ← slice_append_onward hcursor hstart hfrom,
        ← slice_append_onward hstart hstop hforward]
      simp only [List.countP_append, Span.text] at hpiece ⊢
      constructor
      · omega
      · rintro ⟨lost, hlost, hfewer⟩
        rcases List.mem_cons.mp hlost with rfl | hlost
        · omega
        · have := hlt ⟨lost, hlost, hfewer⟩
          omega

/-- A view has the lines of the document: their terminators stand at the same offsets, and an
offset has the same line number. -/
structure Text.SameLines (document view : Text) : Prop where
  lineBreaks : lineBreaks view = lineBreaks document
  line : ∀ n, ((Lines.ofText view).location n).line = ((Lines.ofText document).location n).line

/-- A text of the width of the document has its lines as soon as it has its line terminators. -/
theorem Text.sameLines_iff {document view : Text} (hwidth : width view = width document) :
  SameLines document view ↔ Stencil.lineBreaks view = Stencil.lineBreaks document
  := by
  constructor
  · exact SameLines.lineBreaks
  · intro hbreaks
    exact ⟨hbreaks, line_location_eq hwidth (lineStarts_eq_of_lineBreaks hbreaks)⟩

/-- What is written over a tag has no more line terminators than the tag. -/
theorem countP_overwriteTag_le (document : Text) (striped : List Span) (tag : Tag) :
  (overwriteTag document striped tag).countP isLineBreak
    ≤ (tag.span.text document).countP isLineBreak
  := by
  by_cases hjoins : tag.JoinsLines document striped
  · rw [hjoins.countP_overwriteTag]
    apply Nat.zero_le
  · apply Nat.le_of_eq
    rw [← length_lineBreaksFrom 0, ← length_lineBreaksFrom 0, lineBreaksFrom_overwriteTag hjoins]

section View

variable {document : Text} {tags : List Tag} {striped : List Span}

/-- Where no tag joins lines, the markup view has the line terminators of the document. -/
theorem lineBreaks_markupView (hplaced : Tag.Placed document tags)
    (hnone : ∀ tag ∈ tags, ¬ tag.JoinsLines document striped) :
  lineBreaks (markupView document tags striped) = lineBreaks document
  := by
  have hgap (t : Text) : Alike t (id t) := ⟨rfl, fun _ => rfl⟩
  have halike := related_replaceTags Alike.append hgap tags (isBoundary_zero document) hplaced
    (fun _ _ => Nat.zero_le _) fun tag htag =>
      ⟨width_overwriteTag document striped tag, lineBreaksFrom_overwriteTag (hnone tag htag)⟩
  have hbreaks := halike.lineBreaksFrom 0
  rwa [onward_zero] at hbreaks

/-- Where a tag joins lines, the markup view has fewer line terminators than the document. -/
theorem length_lineBreaks_markupView_lt (hplaced : Tag.Placed document tags) {tag : Tag}
    (htag : tag ∈ tags) (hjoins : tag.JoinsLines document striped) :
  (lineBreaks (markupView document tags striped)).length < (lineBreaks document).length
  := by
  obtain ⟨-, hfewer⟩ := countP_replaceTags tags (isBoundary_zero document) hplaced
    (fun _ _ => Nat.zero_le _) (fun tag _ => countP_overwriteTag_le document striped tag)
  rw [onward_zero] at hfewer
  rw [lineBreaks, lineBreaks, length_lineBreaksFrom, length_lineBreaksFrom]
  apply hfewer
  use tag, htag
  rw [hjoins.countP_overwriteTag, Nat.pos_iff_ne_zero, ne_eq, ← hasLineBreak_eq_false_iff,
    hjoins.overLines]
  simp

/-- The markup view has the lines of the document exactly if no tag joins lines. -/
theorem sameLines_markupView_iff (hplaced : Tag.Placed document tags) (striped : List Span) :
  SameLines document (markupView document tags striped)
    ↔ ∀ tag ∈ tags, ¬ tag.JoinsLines document striped
  := by
  rw [sameLines_iff (width_markupView hplaced striped)]
  constructor
  · intro hbreaks tag htag hjoins
    have hfewer := length_lineBreaks_markupView_lt hplaced htag hjoins
    rw [hbreaks] at hfewer
    exact Nat.lt_irrefl _ hfewer
  · apply lineBreaks_markupView hplaced

end View

/-! ### The lines of the views of branches -/

/-- A tag joins lines in the document with ranges blanked exactly if it does so in the document. -/
theorem Outlined.joinsLines_blankedFor_iff {settings : Settings} {o : Outlined}
    (htags : settings.tags o.document = .ok o.tags)
    (hbranches : ∀ s ∈ o.branches.spans, s.OnBoundaries o.document) {target : Nat} {tag : Tag}
    (htag : tag ∈ o.tags) :
  tag.JoinsLines (o.blankedFor target) (o.viewFor target).striped
    ↔ tag.JoinsLines o.document (o.viewFor target).striped
  := by
  have htexts (hclear : (o.viewFor target).striped.any (·.intersects tag.span) = false) :
      tag.span.text (o.blankedFor target) = tag.span.text o.document
        ∧ tag.code.text (o.blankedFor target) = tag.code.text o.document := by
    apply (Outlined.texts_blankedFor htags hbranches htag _).2
    intro n hn hhidden
    obtain ⟨r, hr, hrn⟩ := Outlined.isStriped_viewFor_iff.mp hhidden
    have hmiss := List.any_eq_false.mp hclear r hr
    rw [Span.contains_iff] at hrn hn
    rw [Span.intersects, Bool.and_eq_true, decide_eq_true_eq, decide_eq_true_eq] at hmiss
    omega
  constructor
  · rintro ⟨hshown, houtput, hone, hover⟩
    obtain ⟨hspan, hcode⟩ := htexts hshown
    exact ⟨hshown, houtput, hcode ▸ hone, hspan ▸ hover⟩
  · rintro ⟨hshown, houtput, hone, hover⟩
    obtain ⟨hspan, hcode⟩ := htexts hshown
    exact ⟨hshown, houtput, hcode.symm ▸ hone, hspan.symm ▸ hover⟩

/-- The markup view of a document has the lines of the document, whatever ranges are hidden,
exactly if no tag joins lines: if no output tag that is shown has its code on one line and a line
terminator in its opening or its closing.  The same holds of each view of branches that a store
makes. -/
theorem ViewStore.sameLines_iff_of_tags {settings : Settings} {o : Outlined}
    (htags : settings.tags o.document = .ok o.tags) :
  (∀ striped, SameLines o.document (markupView o.document o.tags striped)
      ↔ ∀ tag ∈ o.tags, ¬ tag.JoinsLines o.document striped)
    ∧ ((∀ s ∈ o.branches.spans, s.OnBoundaries o.document) →
      ∀ queries, ∀ v ∈ after o queries,
        SameLines o.document v.text ↔ ∀ tag ∈ o.tags, ¬ tag.JoinsLines o.document v.striped)
  := by
  have hplaced := settings.placed_tags htags
  constructor
  · intro striped
    apply sameLines_markupView_iff hplaced
  · intro hbranches queries v hv
    obtain ⟨target, rfl⟩ := made_after o queries v hv
    have hblanked := Outlined.placed_blankedFor hplaced hbranches target
    have hbreaks : lineBreaks (o.blankedFor target) = lineBreaks o.document :=
      lineBreaks_blankRanges (Outlined.onBoundaries_striped hbranches target)
    have hview := sameLines_markupView_iff hblanked (o.viewFor target).striped
    rw [sameLines_iff (width_markupView hblanked _), hbreaks] at hview
    rw [sameLines_iff (Outlined.width_viewFor hplaced hbranches target), Outlined.text_viewFor,
      ← Outlined.blankedFor, hview]
    exact forall₂_congr fun tag htag =>
      not_congr (Outlined.joinsLines_blankedFor_iff htags hbranches htag)

/-- Settings whose output tags open over two lines. -/
def Settings.joined : Settings where
  interpolate :=
    ⟨Text.ofString "<%=\n([\\s\\S]*?)%>",
      TagPattern.between (Text.ofString "<%=\n") (Text.ofString "%>"),
      some (Text.ofString "<%=\n")⟩

/-- A document with one such tag. -/
def Outlined.joined : Outlined where
  document := Text.ofString "<%=\na%>"
  tags := [.ofCode .interpolate ⟨0, 7⟩ ⟨4, 5⟩]
  branches := ⟨[], []⟩

theorem ViewStore.sameLines_iff_of_tags_sample :
  ¬ SameLines Outlined.joined.document
      (markupView Outlined.joined.document Outlined.joined.tags [])
    ∧ SameLines Outlined.joined.document
      (markupView Outlined.joined.document Outlined.joined.tags [⟨0, 7⟩])
    ∧ ∀ v ∈ after .joined [.cover 2], ¬ SameLines Outlined.joined.document v.text
  := by
  have hfound : Settings.joined.tags Outlined.joined.document = .ok Outlined.joined.tags := by
    decide +kernel
  have hjoins : Tag.JoinsLines Outlined.joined.document [] (.ofCode .interpolate ⟨0, 7⟩ ⟨4, 5⟩) :=
    ⟨by decide, by decide, by decide +kernel, by decide +kernel⟩
  obtain ⟨hstriped, hviews⟩ := sameLines_iff_of_tags hfound
  refine ⟨?_, ?_, ?_⟩
  · rw [hstriped]
    exact fun hnone => hnone _ List.mem_cons_self hjoins
  · rw [hstriped]
    intro tag htag hjoins
    rw [List.mem_singleton.mp htag] at hjoins
    exact absurd hjoins.isShown (by decide)
  · intro v hv
    obtain rfl := List.mem_singleton.mp hv
    have hhidden : (Outlined.joined.viewFor 2).striped = [] := by decide +kernel
    rw [hviews (by decide) _ _ hv, hhidden]
    exact fun hnone => hnone _ List.mem_cons_self hjoins

/-- An opening that runs over two lines loses its line terminator in the markup view. -/
theorem Settings.lineBreaks_lost :
  Settings.ofConfig { interpolate := some (.delimiters "<%=\n" "%>") } = .ok .joined
    ∧ Settings.joined.tags Outlined.joined.document = .ok Outlined.joined.tags
    ∧ lineBreaks Outlined.joined.document = [(3, '\n')]
    ∧ lineBreaks (markupView Outlined.joined.document Outlined.joined.tags []) = []
  := by
  refine ⟨?_, ?_, ?_, ?_⟩
  · decide +kernel
  · decide +kernel
  · decide +kernel
  · decide +kernel

end Stencil
