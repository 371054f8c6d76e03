import Stencil.Proofs.View.Marks

/-!
# The layout of the script view

The parts of a tag stand in the script view where they stand in the document: the code as it is, and
before and after it what is written over the opening and the closing.  The texts between the tags
are those of the blanked document.  So each byte of the view is one of a code, or one of the blanked
document, or a mark, and at most one byte of an opening or a closing is a semicolon.
-/

namespace Stencil

open Text

namespace Tag

/-- The tags stand in a document one after the other, and the parts of each make it up. -/
structure Tiling (document : Text) (tags : List Tag) : Prop where
  placed : Placed document tags
  tiled : ∀ tag ∈ tags, tag.Tiled document

variable {document : Text} {tags : List Tag} {tag : Tag}

/-- The tags that are found in a document make it up with the texts between them. -/
theorem tiling_of_tags {settings : Settings} (h : settings.tags document = .ok tags) :
  Tiling document tags
  := by
  constructor
  · apply settings.placed_tags h
  · intro tag htag
    apply (Settings.tiled_of_tags h tag htag).2

namespace Tiling

theorem opening_onBoundaries (h : Tiling document tags) (htag : tag ∈ tags) :
  tag.opening.OnBoundaries document
  := by
  rw [(h.tiled tag htag).opening]
  exact ⟨(h.placed.onBoundaries tag htag).1, (h.tiled tag htag).onBoundaries.1⟩

theorem closing_onBoundaries (h : Tiling document tags) (htag : tag ∈ tags) :
  tag.closing.OnBoundaries document
  := by
  rw [(h.tiled tag htag).closing]
  exact ⟨(h.tiled tag htag).onBoundaries.2, (h.placed.onBoundaries tag htag).2⟩

/-- A byte of a tag is one of its opening, its code or its closing. -/
theorem contains_cases (h : Tiling document tags) (htag : tag ∈ tags) {i : Nat}
    (hi : tag.span.contains i = true) :
  tag.opening.contains i = true ∨ tag.code.contains i = true ∨ tag.closing.contains i = true
  := by
  rw [(h.tiled tag htag).opening, (h.tiled tag htag).closing]
  simp only [Span.contains_iff] at hi ⊢
  omega

end Tiling

/-- What is written over the opening of a tag. -/
def scriptOpening (document : Text) (tag : Tag) : Text :=
  if tag.kind.isOutput then overwriteOpening (tag.opening.text document)
  else blank (tag.opening.text document)

/-- What is written over the closing of a tag. -/
def scriptClosing (document : Text) (tag : Tag) : Text :=
  overwriteClosing tag.kind.isOutput (tag.closing.text document)

theorem scriptOfTag_eq (document : Text) (tag : Tag) :
  scriptOfTag document tag
    = tag.scriptOpening document ++ tag.code.text document ++ tag.scriptClosing document
  := rfl

theorem keepsLines_scriptOpening (document : Text) (tag : Tag) :
  KeepsLines (tag.opening.text document) (tag.scriptOpening document)
  := by
  rw [scriptOpening]
  split
  · apply keepsLines_overwriteOpening
  · apply KeepsLines.blank

theorem keepsLines_scriptClosing (document : Text) (tag : Tag) :
  KeepsLines (tag.closing.text document) (tag.scriptClosing document)
  := keepsLines_overwriteClosing _ _

theorem Tiling.keepsLines_scriptOfTag (h : Tiling document tags) (htag : tag ∈ tags) :
  KeepsLines (tag.span.text document) (scriptOfTag document tag)
  := by
  rw [← (h.tiled tag htag).partsText_eq (h.placed.onBoundaries tag htag), partsText, scriptOfTag_eq]
  apply ((tag.keepsLines_scriptOpening document).append (.refl _)).append
    (tag.keepsLines_scriptClosing document)

end Tag

/-! ### The parts of the view -/

section View

variable {document : Text} {tags : List Tag} {tag : Tag}

/-- The script view has the width of the document and its line terminators. -/
theorem keepsLines_scriptView (h : Tag.Tiling document tags) :
  KeepsLines document (scriptView document tags)
  := by
  have hkeeps := related_replaceTags KeepsLines.append KeepsLines.blank tags
    (isBoundary_zero document) h.placed (fun _ _ => Nat.zero_le _) fun tag htag =>
      h.keepsLines_scriptOfTag htag
  rwa [onward_zero] at hkeeps

/-- The opening, the code and the closing of a tag begin in the script view where they begin in the
document. -/
theorem exists_cut_scriptView (h : Tag.Tiling document tags) (htag : tag ∈ tags) :
  ∃ rest, (scriptView document tags).Cut tag.opening.start (tag.scriptOpening document
      ++ (tag.code.text document ++ (tag.scriptClosing document ++ rest)))
    ∧ (scriptView document tags).Cut tag.code.start
      (tag.code.text document ++ (tag.scriptClosing document ++ rest))
    ∧ (scriptView document tags).Cut tag.closing.start (tag.scriptClosing document ++ rest)
  := by
  obtain ⟨front, rest, hview, hfront⟩ := exists_replaceTags_eq width_blank tags
    (isBoundary_zero document) h.placed (fun _ _ => Nat.zero_le _)
    (fun tag htag => (h.keepsLines_scriptOfTag htag).width) tag htag
  have htile := h.tiled tag htag
  obtain ⟨hstart, -⟩ := h.placed.onBoundaries tag htag
  obtain ⟨hopening, hcode, -⟩ := htile.inOrder
  have hopeningStart : tag.opening.start = tag.span.start := by rw [htile.opening]
  have hclosingStart : tag.closing.start = tag.code.stop := by rw [htile.closing]
  have hopeningWidth : width (tag.scriptOpening document) = tag.code.start - tag.span.start := by
    rw [(tag.keepsLines_scriptOpening document).width, htile.opening]
    apply width_slice hstart htile.onBoundaries.1 hopening
  have hcodeWidth : width (tag.code.text document) = tag.code.stop - tag.code.start :=
    width_slice htile.onBoundaries.1 htile.onBoundaries.2 hcode
  have hcut : (scriptView document tags).Cut tag.opening.start (tag.scriptOpening document
      ++ (tag.code.text document ++ (tag.scriptClosing document ++ rest))) := by
    use front
    constructor
    · rw [scriptView, hview, Tag.scriptOfTag_eq]
      simp only [List.append_assoc]
    · omega
  have hcodeCut := hcut.append
  rw [hopeningWidth, hopeningStart, Nat.add_sub_cancel' hopening] at hcodeCut
  have hclosingCut := hcodeCut.append
  rw [hcodeWidth, Nat.add_sub_cancel' hcode, ← hclosingStart] at hclosingCut
  exact ⟨rest, hcut, hcodeCut, hclosingCut⟩

/-- Blanking the texts between the tags comes to replacing the tags in the blanked document. -/
theorem replaceTags_blank {piece : Tag → Text} (tags : List Tag) :
    ∀ {cursor : Nat}, IsBoundary cursor document → Tag.Placed document tags →
      (∀ tag ∈ tags, cursor ≤ tag.span.start) →
      replaceTags document blank piece cursor tags
        = replaceTags (blank document) id piece cursor tags
  := by
  induction tags with
  | nil =>
      intro cursor hcursor _ _
      apply (onward_blank hcursor).symm
  | cons tag rest ih =>
      intro cursor hcursor hplaced hnext
      obtain ⟨-, ⟨hstart, hstop⟩, hbefore, hrest⟩ := hplaced.of_cons
      obtain ⟨hfrom, -⟩ := List.forall_mem_cons.mp hnext
      rw [replaceTags, replaceTags, id_eq, slice_blank hcursor hstart hfrom, ih hstop hrest hbefore]

/-! ### The bytes of the view -/

/-- The script view has the bytes of the blanked document that are in no tag. -/
theorem getElem?_bytes_scriptView_of_outside (h : Tag.Tiling document tags) {i : Nat}
    (hi : ∀ tag ∈ tags, tag.span.contains i = false) :
  (bytes (scriptView document tags))[i]? = (bytes (blank document))[i]?
  := by
  have hwidth : ∀ tag ∈ tags,
      width (scriptOfTag document tag) = width (tag.span.text (blank document)) := by
    intro tag htag
    obtain ⟨hstart, hstop⟩ := h.placed.onBoundaries tag htag
    rw [Span.text, slice_blank hstart hstop (h.placed.forward tag htag), width_blank]
    apply (h.keepsLines_scriptOfTag htag).width
  have hbytes := getElem?_bytes_replaceTags tags (i := i) (isBoundary_zero (blank document))
    (h.placed.over (over_blank document)) (fun _ _ => Nat.zero_le _) hwidth
  rw [Nat.zero_add] at hbytes
  rw [scriptView, replaceTags_blank tags (isBoundary_zero document) h.placed
    fun _ _ => Nat.zero_le _]
  apply hbytes hi

/-- A piece of a view in place of a part of the document has its bytes there. -/
theorem getElem?_bytes_of_cut {view piece rest : Text} {part : Span}
    (hpart : part.OnBoundaries document) (hcut : view.Cut part.start (piece ++ rest))
    (hwidth : width piece = width (part.text document)) {i : Nat} (hi : part.contains i = true) :
  i - part.start < width (part.text document)
    ∧ (bytes view)[i]? = (bytes piece)[i - part.start]?
    ∧ (bytes document)[i]? = (bytes (part.text document))[i - part.start]?
    ∧ (bytes (blank document))[i]? = (bytes (blank (part.text document)))[i - part.start]?
  := by
  obtain ⟨hstart, hstop⟩ := hpart
  obtain ⟨hfrom, hto⟩ := Span.contains_iff.mp hi
  have hin : i - part.start < width (part.text document) := by
    rw [Span.text, width_slice hstart hstop (by omega)]
    omega
  have hplace : part.start + (i - part.start) = i := Nat.add_sub_cancel' hfrom
  have hpiece := hcut.getElem?_bytes (hwidth.symm ▸ hin)
  have hdocument := getElem?_bytes_slice hstart hstop (hplace.symm ▸ hto)
  have hblank := getElem?_bytes_blank_slice hstart hstop (hplace.symm ▸ hto)
  rw [hplace] at hpiece hdocument hblank
  exact ⟨hin, hpiece, hdocument.symm, hblank.symm⟩

/-- Over the opening of a tag the script view has the bytes of the blanked document, but for a
semicolon at the end of an output tag. -/
theorem getElem?_bytes_scriptView_opening (h : Tag.Tiling document tags) (htag : tag ∈ tags)
    {i : Nat} (hi : tag.opening.contains i = true) :
  (bytes (scriptView document tags))[i]? = (bytes (blank document))[i]?
    ∨ tag.kind.isOutput = true ∧ i + 1 = tag.opening.stop
      ∧ (bytes (scriptView document tags))[i]? = some 59
  := by
  obtain ⟨rest, hcut, -, -⟩ := exists_cut_scriptView h htag
  have hpart := h.opening_onBoundaries htag
  obtain ⟨hin, hbytes, -, hblank⟩ :=
    getElem?_bytes_of_cut hpart hcut (tag.keepsLines_scriptOpening document).width hi
  obtain ⟨hfrom, hto⟩ := Span.contains_iff.mp hi
  have hwidth : width (tag.opening.text document) = tag.opening.stop - tag.opening.start :=
    width_slice hpart.1 hpart.2 (by omega)
  rw [hbytes, hblank, Tag.scriptOpening]
  split
  · next houtput =>
      rcases bytes_overwriteOpening (tag.opening.text document) with heq | heq
      · left
        rw [heq]
      · rw [heq]
        apply (getElem?_set_eq_or (by rwa [length_bytes, width_blank])).imp_right
        rintro ⟨hlast, hsemicolon⟩
        exact ⟨houtput, by omega, hsemicolon⟩
  · left
    rfl

/-- Over the closing of a tag the script view has the bytes of the blanked document, but for a line
feed at the beginning and a semicolon at the second character of an output tag. -/
theorem getElem?_bytes_scriptView_closing (h : Tag.Tiling document tags) (htag : tag ∈ tags)
    {i : Nat} (hi : tag.closing.contains i = true) :
  (bytes (scriptView document tags))[i]? = (bytes (blank document))[i]?
    ∨ i = tag.closing.start ∧ (bytes (scriptView document tags))[i]? = some 10
    ∨ tag.kind.isOutput = true
      ∧ i = tag.closing.start + width ((tag.closing.text document).take 1)
      ∧ (bytes (scriptView document tags))[i]? = some 59
  := by
  obtain ⟨rest, -, -, hcut⟩ := exists_cut_scriptView h htag
  have hpart := h.closing_onBoundaries htag
  obtain ⟨hin, hbytes, -, hblank⟩ :=
    getElem?_bytes_of_cut hpart hcut (tag.keepsLines_scriptClosing document).width hi
  obtain ⟨hfrom, hto⟩ := Span.contains_iff.mp hi
  obtain ⟨l, hl, hclosing⟩ :=
    bytes_overwriteClosing tag.kind.isOutput (tag.closing.text document)
  have hlength : i - tag.closing.start < l.length := by
    rcases hl with rfl | rfl
    · rwa [length_bytes, width_blank]
    · rwa [List.length_set, length_bytes, width_blank]
  have hfirst : l[i - tag.closing.start]?
        = (bytes (blank (tag.closing.text document)))[i - tag.closing.start]?
      ∨ i = tag.closing.start ∧ l[i - tag.closing.start]? = some 10 := by
    rcases hl with rfl | rfl
    · left
      rfl
    · apply (getElem?_set_eq_or (by rwa [length_bytes, width_blank])).imp_right
      rintro ⟨hstart, hfeed⟩
      exact ⟨by omega, hfeed⟩
  rw [hbytes, hblank, Tag.scriptClosing]
  rcases hclosing with heq | ⟨houtput, heq⟩
  · rw [heq]
    exact hfirst.imp_right Or.inl
  · rw [heq]
    rcases getElem?_set_eq_or hlength with hsame | ⟨hplace, hsemicolon⟩
    · rw [hsame]
      exact hfirst.imp_right Or.inl
    · right
      right
      exact ⟨houtput, by omega, hsemicolon⟩

/-- The script view has the bytes of the codes of the tags. -/
theorem getElem?_bytes_scriptView_code (h : Tag.Tiling document tags) (htag : tag ∈ tags)
    {i : Nat} (hi : tag.code.contains i = true) :
  (bytes (scriptView document tags))[i]? = (bytes document)[i]?
  := by
  obtain ⟨rest, -, hcut, -⟩ := exists_cut_scriptView h htag
  obtain ⟨-, hbytes, hdocument, -⟩ :=
    getElem?_bytes_of_cut (h.tiled tag htag).onBoundaries hcut rfl hi
  rw [hbytes, hdocument]

/-- A line ends where a closing begins that is not empty. -/
theorem exists_lineBreak_closing (h : Tag.Tiling document tags) (htag : tag ∈ tags)
    (hclosing : tag.closing.isEmpty = false) :
  ∃ c, (tag.closing.start, c) ∈ lineBreaks (scriptView document tags)
  := by
  obtain ⟨rest, -, -, hcut⟩ := exists_cut_scriptView h htag
  have hpart := h.closing_onBoundaries htag
  have hwidth : width (tag.closing.text document) ≠ 0 := by
    rw [Span.isEmpty, decide_eq_false_iff_not] at hclosing
    rw [Span.text, width_slice hpart.1 hpart.2 (by omega)]
    omega
  cases htext : tag.closing.text document with
  | nil => exact absurd (congrArg width htext) hwidth
  | cons first behind =>
      rw [Tag.scriptClosing, htext, overwriteClosing_cons, overwriteFirst] at hcut
      split at hcut
      · next hbreak =>
          use first
          apply mem_lineBreaks_of_cut hcut hbreak
      · use '\n'
        apply mem_lineBreaks_of_cut hcut rfl

end View

/-! ### The layout -/

/-- How the script view of a document is laid out. -/
structure ScriptLayout (document : Text) (tags : List Tag) (view : Text) : Prop where
  /-- The view has the width of the document. -/
  width : Text.width view = Text.width document
  /-- The code of each tag stays as it is, byte for byte. -/
  code : ∀ tag ∈ tags, ∀ i, tag.code.contains i = true → (bytes view)[i]? = (bytes document)[i]?
  /-- Each line terminator of the document stands at its offset. -/
  lineBreaks : (Stencil.lineBreaks document).Sublist (Stencil.lineBreaks view)
  /-- A line ends at the beginning of each closing that is not empty. -/
  closing : ∀ tag ∈ tags, tag.closing.isEmpty = false →
    ∃ c, (tag.closing.start, c) ∈ Stencil.lineBreaks view
  /-- All the other bytes are spaces (32), but for semicolons (59) in the openings and closings of
  output tags. -/
  filling : ∀ i c, charAt? i document = some c → isLineBreak c = false →
    (∀ tag ∈ tags, tag.code.contains i = false
      ∧ (tag.closing.isEmpty = false → i ≠ tag.closing.start)) →
    (bytes view)[i]? = some 32
      ∨ (bytes view)[i]? = some 59 ∧ ∃ tag ∈ tags, tag.kind.isOutput = true
        ∧ (tag.opening.contains i = true ∨ tag.closing.contains i = true)
  /-- No opening and no closing has two semicolons. -/
  once : ∀ tag ∈ tags, ∀ part ∈ [tag.opening, tag.closing], ∀ i j,
    part.contains i = true → part.contains j = true →
    (bytes view)[i]? = some 59 → (bytes view)[j]? = some 59 → i = j

section Layout

variable {document : Text} {tags : List Tag} {tag : Tag}

/-- Where no code, no line terminator and no beginning of a closing is, the script view has a space
or a semicolon. -/
theorem filling_scriptView (h : Tag.Tiling document tags) {i : Nat} {c : Char}
    (hc : charAt? i document = some c) (hplain : isLineBreak c = false)
    (hrest : ∀ tag ∈ tags, tag.code.contains i = false
      ∧ (tag.closing.isEmpty = false → i ≠ tag.closing.start)) :
  (bytes (scriptView document tags))[i]? = some 32
    ∨ (bytes (scriptView document tags))[i]? = some 59 ∧ ∃ tag ∈ tags, tag.kind.isOutput = true
      ∧ (tag.opening.contains i = true ∨ tag.closing.contains i = true)
  := by
  have hblank : (bytes (blank document))[i]? = some 32 := by
    rw [getElem?_bytes_blank hc, if_neg (by simp [hplain])]
  by_cases hin : ∃ tag ∈ tags, tag.span.contains i = true
  · obtain ⟨tag, htag, hspan⟩ := hin
    obtain ⟨hcode, hfirst⟩ := hrest tag htag
    rcases h.contains_cases htag hspan with hi | hi | hi
    · rcases getElem?_bytes_scriptView_opening h htag hi with
        hsame | ⟨houtput, -, hsemicolon⟩
      · left
        rw [hsame, hblank]
      · right
        exact ⟨hsemicolon, tag, htag, houtput, Or.inl hi⟩
    · rw [hi] at hcode
      cases hcode
    · rcases getElem?_bytes_scriptView_closing h htag hi with
        hsame | ⟨hstart, -⟩ | ⟨houtput, -, hsemicolon⟩
      · left
        rw [hsame, hblank]
      · refine absurd hstart (hfirst ?_)
        rw [Span.contains_iff] at hi
        rw [Span.isEmpty, decide_eq_false_iff_not]
        omega
      · right
        exact ⟨hsemicolon, tag, htag, houtput, Or.inr hi⟩
  · left
    rw [getElem?_bytes_scriptView_of_outside h (by simpa using hin), hblank]

/-- Two semicolons of the script view do not stand in one opening or one closing. -/
theorem once_scriptView (h : Tag.Tiling document tags) (htag : tag ∈ tags) :
  ∀ part ∈ [tag.opening, tag.closing], ∀ i j,
    part.contains i = true → part.contains j = true →
    (bytes (scriptView document tags))[i]? = some 59 →
    (bytes (scriptView document tags))[j]? = some 59 → i = j
  := by
  have hblank {i : Nat} : (bytes (blank document))[i]? ≠ some 59 :=
    fun hbyte => notMem_bytes_blank document (List.mem_of_getElem? hbyte)
  have hopening {i : Nat} (hi : tag.opening.contains i = true)
      (hbyte : (bytes (scriptView document tags))[i]? = some 59) :
      i + 1 = tag.opening.stop := by
    rcases getElem?_bytes_scriptView_opening h htag hi with hsame | ⟨-, hlast, -⟩
    · exact absurd (hsame.symm.trans hbyte) hblank
    · exact hlast
  have hclosing {i : Nat} (hi : tag.closing.contains i = true)
      (hbyte : (bytes (scriptView document tags))[i]? = some 59) :
      i = tag.closing.start + width ((tag.closing.text document).take 1) := by
    rcases getElem?_bytes_scriptView_closing h htag hi with
      hsame | ⟨-, hfeed⟩ | ⟨-, hplace, -⟩
    · exact absurd (hsame.symm.trans hbyte) hblank
    · rw [hfeed] at hbyte
      cases hbyte
    · exact hplace
  intro part hpart i j hi hj hhere hthere
  rcases List.mem_pair.mp hpart with rfl | rfl
  · have := hopening hi hhere
    have := hopening hj hthere
    omega
  · rw [hclosing hi hhere, hclosing hj hthere]

/-- The script view of a document has the width of the document, the code of its tags and its line
terminators in their places, a line terminator at the beginning of each closing, and spaces
otherwise, but for at most one semicolon in the opening and one in the closing of an output tag. -/
theorem Settings.scriptLayout_scriptView {settings : Settings}
    (htags : settings.tags document = .ok tags) :
  ScriptLayout document tags (scriptView document tags)
  := by
  have h := Tag.tiling_of_tags htags
  have hkeeps := keepsLines_scriptView h
  constructor
  · exact hkeeps.width
  · intro tag htag i
    apply getElem?_bytes_scriptView_code h htag
  · apply hkeeps.lineBreaksFrom
  · intro tag htag
    apply exists_lineBreak_closing h htag
  · intro i c
    apply filling_scriptView h
  · intro tag htag
    apply once_scriptView h htag

end Layout

/-- Delimiters with characters of several bytes and with line terminators. -/
def spreadConfig : SettingsConfig :=
  ⟨some (.delimiters "[\n" "»"), some (.delimiters "«" "\u2028»"), none⟩

/-- A document with such delimiters. -/
def spreadDocument : Text := ofString "ü[\nx»\r\n«y\u2028»!"

theorem Settings.scriptLayout_scriptView_spread :
  ∃ s, Settings.ofConfig spreadConfig = .ok s
    ∧ ∃ tags, s.tags spreadDocument = .ok tags
      ∧ scriptView spreadDocument tags = ofString "   \nx\n \r\n ;y\u2028;  "
      ∧ ScriptLayout spreadDocument tags (scriptView spreadDocument tags)
  := by
  obtain ⟨s, hs⟩ : ∃ s, Settings.ofConfig spreadConfig = .ok s := ⟨_, rfl⟩
  have hfound : (Settings.ofConfig spreadConfig).toOption.map (·.tags spreadDocument)
      = some (.ok [.ofCode .evaluate ⟨2, 7⟩ ⟨4, 5⟩, .ofCode .interpolate ⟨9, 17⟩ ⟨11, 12⟩]) := by
    decide +kernel
  rw [hs] at hfound
  have htags := Option.some.inj hfound
  exact ⟨s, hs, _, htags, by decide, scriptLayout_scriptView htags⟩

end Stencil
