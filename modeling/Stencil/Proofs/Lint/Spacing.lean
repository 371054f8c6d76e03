import Stencil.Proofs.Lint.Fixing
import Stencil.Proofs.Lint.Repeats

/-!
# Spacing that is right after one pass

The rule for the spacing in tags, where it asks for one space, replaces each gap between a delimiter
and a code by a space, unless a line ends in the gap.  A code is a core between two gaps, and the
core is not touched, so the fixes of all tags lie apart and are all made.  They leave pieces with
the same texts, kinds and cores, whose gaps the rule accepts.
-/

namespace Stencil.Lint

open Text

/-! ### Making all fixes -/

variable {document : Text} {ds : List Diagnostic} {fs gs : List Fix} {pos bound : Nat}

/-- Fixes before a bound and fixes behind it lie apart together. -/
theorem Apart.append (hfs : Apart pos fs) (hgs : Apart bound gs) (hpos : pos ≤ bound)
    (hstop : ∀ f ∈ fs, f.span.stop < bound) :
  Apart pos (fs ++ gs)
  := by
  induction hfs with
  | nil => exact hgs.mono hpos
  | cons hstart hforward _ ih =>
      obtain ⟨hf, hrest⟩ := List.forall_mem_cons.mp hstop
      exact .cons hstart hforward (ih hf hrest)

/-- Of fixes that lie apart in a document all are chosen. -/
theorem chooseFixes_of_apart {size : Nat} {last : Option Nat} (hapart : Apart pos fs)
    (hlast : ∀ n ∈ last, n < pos) (hsize : ∀ f ∈ fs, f.span.stop ≤ size) :
  chooseFixes size last fs = fs
  := by
  induction hapart generalizing last with
  | nil => rfl
  | @cons pos f rest hstart _ _ ih =>
      obtain ⟨hf, hrest⟩ := List.forall_mem_cons.mp hsize
      have hfree : last.any (f.span.start ≤ ·) = false := by
        rw [Option.any_eq_false]
        intro n hn
        have := hlast n hn
        exact decide_eq_false (by omega)
      rw [chooseFixes, hfree, Bool.false_or, if_neg (by simpa using hf), ih _ hrest]
      intro n hn
      obtain rfl := Option.some.inj hn
      exact Nat.lt_succ_self _

/-- If the fixes of diagnostics lie apart in a document, then all of them are made. -/
theorem applyFixes_of_apart (hapart : Apart 0 (ds.filterMap (·.fix)))
    (hlies : ∀ f ∈ ds.filterMap (·.fix), f.Lies 0 document) :
  applyFixes document ds
    = (edited 0 document (ds.filterMap (·.fix)), (ds.filterMap (·.fix)).length)
  := by
  have hordered : orderedFixes ds = ds.filterMap (·.fix) := by
    apply List.mergeSort_of_pairwise
    apply hapart.pairwise.imp_of_mem
    intro f g hf _ hlt
    have hforward := (hlies f hf).forward
    exact Span.le_iff.mpr (.inl (by omega))
  have hsize : ∀ f ∈ ds.filterMap (·.fix), f.span.stop ≤ width document := by
    intro f hf
    have hstop := (hlies f hf).le.2
    omega
  rw [applyFixes, hordered, chooseFixes_of_apart hapart (by simp) hsize,
    makeFixes_eq (cut_zero document) hapart hlies]

/-! ### Findings that mend a text -/

/-- Findings in the order of a text at the offset `pos`, whose fixes, one for each of them, make
`t'` of the text. -/
structure Mends (pos : Nat) (t t' : Text) (found : List Finding) : Prop where
  inOrder : found.Pairwise (·.span.start < ·.span.start)
  inside : ∀ f ∈ found, pos ≤ f.span.start ∧ f.span.start < pos + width t
  fixed : ∀ f ∈ found, f.fix.isSome = true
  apart : Apart pos (found.filterMap (·.fix))
  before : ∀ x ∈ found.filterMap (·.fix), x.span.stop < pos + width t
  lies : ∀ x ∈ found.filterMap (·.fix), x.Lies pos t
  edited : edited pos t (found.filterMap (·.fix)) = t'

namespace Mends

variable {s s' t t' : Text} {found found' : List Finding}

theorem nil (pos : Nat) (t : Text) :
  Mends pos t t []
  := ⟨.nil, by simp, by simp, .nil, by simp, by simp, rfl⟩

/-- Two texts that stand behind each other are mended one after the other. -/
theorem append (h : Mends pos s s' found) (h' : Mends (pos + width s) t t' found') :
  Mends pos (s ++ t) (s' ++ t') (found ++ found')
  := by
  have hlies : ∀ x ∈ found.filterMap (·.fix), x.Lies pos (s ++ t) := by
    intro x hx
    simpa using Fix.Lies.append (s := []) (h.lies x hx) t
  have hlies' : ∀ x ∈ found'.filterMap (·.fix), x.Lies pos (s ++ t) := by
    intro x hx
    simpa using (h'.lies x hx).append []
  have hapart : Apart pos (found.filterMap (·.fix) ++ found'.filterMap (·.fix)) :=
    h.apart.append h'.apart (Nat.le_add_right _ _) h.before
  constructor
  · rw [List.pairwise_append]
    refine ⟨h.inOrder, h'.inOrder, fun f hf g hg => ?_⟩
    have := (h.inside f hf).2
    have := (h'.inside g hg).1
    omega
  · rw [List.forall_mem_append, width_append]
    constructor
    · intro f hf
      have := h.inside f hf
      omega
    · intro f hf
      have := h'.inside f hf
      omega
  · exact List.forall_mem_append.mpr ⟨h.fixed, h'.fixed⟩
  · rwa [List.filterMap_append]
  · rw [List.filterMap_append, List.forall_mem_append, width_append]
    constructor
    · intro x hx
      have := h.before x hx
      omega
    · intro x hx
      have := h'.before x hx
      omega
  · rw [List.filterMap_append]
    exact List.forall_mem_append.mpr ⟨hlies, hlies'⟩
  · rw [List.filterMap_append, edited_append hapart h.lies, h.edited, h'.edited]
    intro x hx
    exact ⟨(h'.lies x hx).le.1, hlies' x hx⟩

/-- Findings that mend a document stand in strict order as diagnostics, and all of their fixes are
made. -/
theorem applyFixes_eq (h : Mends 0 document t' found) (rule : String) (severity : Severity)
    (lines : Lines) :
  normalize (found.map (.ofFinding rule severity lines))
      = found.map (.ofFinding rule severity lines)
    ∧ applyFixes document (found.map (.ofFinding rule severity lines)) = (t', found.length)
  := by
  have hfixes : (found.map (Diagnostic.ofFinding rule severity lines)).filterMap (·.fix)
      = found.filterMap (·.fix) := List.filterMap_map
  have hlength : (found.filterMap (·.fix)).length = found.length :=
    List.filterMap_length_eq_length.mpr h.fixed
  constructor
  · apply normalize_eq_self
    rw [List.pairwise_map]
    apply h.inOrder.imp
    intro f g hlt
    exact Prod.Lex.toLex_lt_toLex.mpr (.inl hlt)
  · rw [applyFixes_of_apart] <;> rw [hfixes]
    · rw [h.edited, hlength]
    · exact h.apart
    · exact h.lies

end Mends

/-! ### Gaps -/

/-- The gap is a single space, or a line ends in it. -/
def isEven (gap : Text) : Bool := gap = [' '] || gap.any isLineBreak

/-- The gap that the rule makes of a gap. -/
def evened (gap : Text) : Text := if isEven gap then gap else [' ']

variable {gap : Text}

theorem isEven_evened (gap : Text) :
  isEven (evened gap) = true
  := by
  unfold evened
  split
  · assumption
  · rfl

theorem evened_ne_nil (gap : Text) :
  evened gap ≠ []
  := by
  intro h
  have heven := isEven_evened gap
  rw [h] at heven
  cases heven

theorem isBlank_of_mem_evened (hgap : ∀ c ∈ gap, isBlank c = true) :
  ∀ c ∈ evened gap, isBlank c = true
  := by
  unfold evened
  split
  · exact hgap
  · exact List.all_eq_true.mp (by decide)

/-- A gap that is not even is found at its place, or at the delimiter if it is empty. -/
theorem oneSpace_eq {n : Nat} {rest : Text} (hcut : document.Cut n (gap ++ rest)) (delimiter : Span)
    (message : String) :
  oneSpace document delimiter ⟨n, n + width gap⟩ message
    = if isEven gap then []
      else [⟨if gap = [] then delimiter else ⟨n, n + width gap⟩, message,
        some ⟨⟨n, n + width gap⟩, [' ']⟩⟩]
  := by
  unfold oneSpace
  cases gap with
  | nil =>
      have hempty : Span.isEmpty ⟨n, n + width []⟩ = true := by simp [Span.isEmpty]
      rw [if_pos hempty, if_neg (by decide), if_pos rfl]
      rfl
  | cons c gap =>
      have hwidth := Char.utf8Size_pos c
      have hshown : ¬ Span.isEmpty ⟨n, n + width (c :: gap)⟩ = true := by
        intro hempty
        have hle : n + (c.utf8Size + width gap) ≤ n := of_decide_eq_true hempty
        omega
      have htext : Span.text ⟨n, n + width (c :: gap)⟩ document = c :: gap := hcut.slice_eq
      rw [if_neg hshown, if_neg (List.cons_ne_nil c gap), htext]
      rfl

/-- The finding for a gap mends the text around it, in which the delimiter begins no later than the
gap if that is empty. -/
theorem mends_oneSpace {delimiter : Span} {message : String} {front back rest : Text}
    (hcut : document.Cut pos (front ++ (gap ++ back) ++ rest)) (hback : back ≠ [])
    (hdelimiter : gap = [] → pos ≤ delimiter.start ∧ delimiter.start ≤ pos + width front) :
  Mends pos (front ++ (gap ++ back)) (front ++ (evened gap ++ back))
    (oneSpace document delimiter ⟨pos + width front, pos + width front + width gap⟩ message)
  := by
  have hgap : document.Cut (pos + width front) (gap ++ (back ++ rest)) := by
    apply Cut.append
    simpa using hcut
  have hwidth : 0 < width back :=
    Nat.lt_of_lt_of_le (List.length_pos_iff.mpr hback) (length_le_width back)
  rw [oneSpace_eq hgap]
  unfold evened
  split
  · apply Mends.nil
  · let fix : Fix := ⟨⟨pos + width front, pos + width front + width gap⟩, [' ']⟩
    have hlies : fix.Lies pos (front ++ (gap ++ back)) := ⟨front, gap, back, rfl, rfl, trivial⟩
    constructor
    · apply List.pairwise_singleton
    · rw [List.forall_mem_singleton, width_append, width_append]
      dsimp only
      split
      · next hnil =>
          have := hdelimiter hnil
          omega
      · exact ⟨Nat.le_add_right _ _, by dsimp only; omega⟩
    · simp
    · exact .cons (Nat.le_add_right _ _) (Nat.le_add_right _ _) .nil
    · simp only [List.filterMap_cons, List.filterMap_nil, List.forall_mem_singleton, width_append]
      omega
    · simpa using hlies
    · have hedited : Lint.edited pos (front ++ (gap ++ back)) [fix] = front ++ [' '] ++ back :=
        edited_cons rfl
      rw [List.append_assoc] at hedited
      exact hedited

/-! ### Codes -/

/-- The code with even gaps around its core, if it has one. -/
def evenCode (code : Text) : Text :=
  if code.all isBlank then code
  else evened (code.takeWhile isBlank)
    ++ (trim isBlank code ++ evened (code.reverse.takeWhile isBlank).reverse)

/-- The text is a code whose core stands between two gaps. -/
structure IsCode (lead core trail : Text) : Prop where
  lead : ∀ c ∈ lead, isBlank c = true
  core : IsCore isBlank core
  trail : ∀ c ∈ trail, isBlank c = true

/-- A code that is not blank has a core between two gaps. -/
theorem exists_isCode {code : Text} (h : code.all isBlank = false) :
  ∃ lead core trail, code = lead ++ (core ++ trail) ∧ IsCode lead core trail
  := by
  obtain ⟨lead, trail, hcode, hlead, htrail⟩ := exists_eq_trim isBlank code
  refine ⟨lead, trim isBlank code, trail, by rwa [← List.append_assoc], hlead, ?_, htrail⟩
  apply isCore_trim
  simpa using h

namespace IsCode

variable {lead core trail : Text}

theorem not_blank (h : IsCode lead core trail) :
  (lead ++ (core ++ trail)).all isBlank = false
  := by
  obtain ⟨c, hc, hblank⟩ := h.core.head
  rw [List.all_eq_false]
  exact ⟨c, by simp [List.mem_of_mem_head? hc], by simp [hblank]⟩

theorem evenCode_eq (h : IsCode lead core trail) :
  evenCode (lead ++ (core ++ trail)) = evened lead ++ (core ++ evened trail)
  := by
  obtain ⟨hlead, htrail, hcore⟩ := h.core.parts h.lead h.trail
  rw [evenCode, h.not_blank, if_neg Bool.false_ne_true, hlead, htrail, hcore, List.reverse_reverse]

theorem evened (h : IsCode lead core trail) :
  IsCode (evened lead) core (evened trail)
  := ⟨isBlank_of_mem_evened h.lead, h.core, isBlank_of_mem_evened h.trail⟩

end IsCode

theorem trim_evenCode (code : Text) :
  trim isBlank (evenCode code) = trim isBlank code
  := by
  cases hblank : code.all isBlank with
  | true => rw [evenCode, if_pos hblank]
  | false =>
      obtain ⟨lead, core, trail, rfl, h⟩ := exists_isCode hblank
      rw [h.evenCode_eq, (h.core.parts h.lead h.trail).2.2,
        (h.core.parts h.evened.lead h.evened.trail).2.2]

/-- The piece with even gaps in its code. -/
def evenPiece (p : Piece) : Piece := { p with code := evenCode p.code }

/-- The tag of a piece is found where it stands also when its gaps are made even. -/
theorem sound_evenPiece {p : Piece} (h : p.Sound) :
  (evenPiece p).Sound
  := by
  refine ⟨h.gap, ?_, ?_⟩
  · have hblank : ∀ c ∈ ['%', '>'], isBlank c = false :=
      List.forall_mem_cons.mpr ⟨rfl, List.forall_mem_singleton.mpr rfl⟩
    change ¬ ['%', '>'] <:+: evenCode p.code
    rw [← infix_trim_iff (by simp) hblank, trim_evenCode, infix_trim_iff (by simp) hblank]
    exact h.code
  · change Piece.Opens p.kind (evenCode p.code)
    cases hblank : p.code.all isBlank with
    | true =>
        rw [evenCode, if_pos hblank]
        exact h.opens
    | false =>
        obtain ⟨lead, core, trail, hcode, hparts⟩ := exists_isCode hblank
        rw [hcode, hparts.evenCode_eq]
        apply opens_of_blank
        intro c hc
        rw [List.head?_append_of_ne_nil _ (evened_ne_nil lead)] at hc
        exact hparts.evened.lead c (List.mem_of_mem_head? hc)

/-! ### The findings for pieces -/

variable {a : Analysis} {p : Piece} {pieces : List Piece} {last rest : Text}

theorem isEmptyTag_tag (hcut : a.document.Cut pos (p.text ++ rest)) :
  isEmptyTag a (p.tag pos) = p.code.all isBlank
  := by rw [isEmptyTag, Piece.text_code hcut]

/-- The findings for a tag whose code has a core are those for its two gaps. -/
theorem exists_spacingFindings_eq (hcut : a.document.Cut pos (p.text ++ rest))
    {lead core trail : Text} (hcode : p.code = lead ++ (core ++ trail))
    (hparts : IsCode lead core trail) :
  ∃ before after, spacingFindings .always a (p.tag pos)
    = oneSpace a.document (p.tag pos).opening
        ⟨p.codeStart pos, p.codeStart pos + width lead⟩ before
      ++ oneSpace a.document (p.tag pos).closing
        ⟨p.codeStart pos + width (lead ++ core),
          p.codeStart pos + width (lead ++ core) + width trail⟩ after
  := by
  obtain ⟨hlead, htrail, -⟩ := hparts.core.parts hparts.lead hparts.trail
  have hbefore : gapBefore a (p.tag pos)
      = ⟨p.codeStart pos, p.codeStart pos + width lead⟩ := by
    rw [gapBefore, Piece.text_code hcut, hcode, hlead]
    rfl
  have hstop : p.codeStart pos + width (lead ++ core) + width trail = p.codeStop pos := by
    rw [Piece.codeStop, hcode, width_append, width_append, width_append]
    omega
  have hafter : gapAfter a (p.tag pos) = ⟨p.codeStart pos + width (lead ++ core),
      p.codeStart pos + width (lead ++ core) + width trail⟩ := by
    rw [gapAfter, Piece.text_code hcut, hcode, htrail, width_reverse, hstop]
    change Span.mk (p.codeStop pos - width trail) (p.codeStop pos) = _
    rw [← hstop, Nat.add_sub_cancel]
  rw [spacingFindings, hbefore, hafter]
  exact ⟨_, _, rfl⟩

/-- The findings for the spacing in some tags. -/
def spacingOf (a : Analysis) (tags : List Tag) : List Finding :=
  (tags.filter (!isEmptyTag a ·)).flatMap (spacingFindings .always a)

theorem spacingOf_cons_of_blank {tag : Tag} (h : isEmptyTag a tag = true) (tags : List Tag) :
  spacingOf a (tag :: tags) = spacingOf a tags
  := by rw [spacingOf, List.filter_cons_of_neg (by simp [h]), spacingOf]

theorem spacingOf_cons {tag : Tag} (h : isEmptyTag a tag = false) (tags : List Tag) :
  spacingOf a (tag :: tags) = spacingFindings .always a tag ++ spacingOf a tags
  := by rw [spacingOf, List.filter_cons_of_pos (by simp [h]), List.flatMap_cons, spacingOf]

/-- The findings for a tag make the gaps of its piece even. -/
theorem mends_piece (hcut : a.document.Cut pos (p.text ++ rest))
    (hblank : p.code.all isBlank = false) :
  Mends pos p.text (evenPiece p).text (spacingFindings .always a (p.tag pos))
  := by
  obtain ⟨lead, core, trail, hcode, hparts⟩ := exists_isCode hblank
  obtain ⟨before, after, hfound⟩ := exists_spacingFindings_eq hcut hcode hparts
  have htext : p.text = (p.gap ++ p.kind.opening) ++ (lead ++ core)
      ++ ([] ++ (trail ++ ['%', '>'])) := by
    simp [Piece.text, hcode]
  have heven : (evenPiece p).text = (p.gap ++ p.kind.opening) ++ (evened lead ++ core)
      ++ ([] ++ (evened trail ++ ['%', '>'])) := by
    simp [Piece.text, evenPiece, hcode, hparts.evenCode_eq]
  have hopening : pos + width (p.gap ++ p.kind.opening) = p.codeStart pos := by
    rw [width_append, ← Nat.add_assoc, Piece.codeStart]
  have hclosing : pos + width ((p.gap ++ p.kind.opening) ++ (lead ++ core))
      = p.codeStart pos + width (lead ++ core) := by
    rw [width_append, ← Nat.add_assoc, hopening]
  rw [htext] at hcut ⊢
  rw [hfound, heven]
  apply Mends.append
  · rw [← hopening]
    apply mends_oneSpace (by simpa using hcut) hparts.core.ne_nil
    intro _
    rw [hopening]
    exact ⟨Nat.le_add_right _ _, Nat.le_add_right _ _⟩
  · rw [hclosing]
    have hbehind := hcut
    rw [List.append_assoc] at hbehind
    have hbehind := hbehind.append
    rw [hclosing] at hbehind
    refine mends_oneSpace hbehind (by simp) ?_
    rintro rfl
    have hstart : (p.tag pos).closing.start = p.codeStart pos + width (lead ++ core) := by
      change p.codeStart pos + width p.code = _
      rw [hcode, List.append_nil]
    rw [hstart]
    exact ⟨Nat.le_refl _, Nat.le_refl _⟩

/-- The findings for the tags of pieces make all gaps even. -/
theorem mends_render (hcut : a.document.Cut pos (Piece.render pieces last)) :
  Mends pos (Piece.render pieces last) (Piece.render (pieces.map evenPiece) last)
    (spacingOf a (Piece.tags pos pieces))
  := by
  induction pieces generalizing pos with
  | nil => exact .nil pos _
  | cons p pieces ih =>
      rw [Piece.render_cons] at hcut
      have hbehind := ih (Piece.cut_behind hcut)
      rw [← p.width_text] at hbehind
      rw [Piece.tags, ← p.width_text, List.map_cons, Piece.render_cons, Piece.render_cons]
      have hempty := isEmptyTag_tag hcut
      cases hblank : p.code.all isBlank with
      | true =>
          have hsame : evenPiece p = p := by rw [evenPiece, evenCode, if_pos hblank]
          rw [hblank] at hempty
          rw [spacingOf_cons_of_blank hempty, hsame]
          exact (Mends.nil pos p.text).append hbehind
      | false =>
          rw [hblank] at hempty
          rw [spacingOf_cons hempty]
          exact (mends_piece hcut hblank).append hbehind

theorem spacingFindings_evenPiece (hcut : a.document.Cut pos ((evenPiece p).text ++ rest))
    (hblank : p.code.all isBlank = false) :
  spacingFindings .always a ((evenPiece p).tag pos) = []
  := by
  obtain ⟨lead, core, trail, hcode, hparts⟩ := exists_isCode hblank
  have heven : (evenPiece p).code = evened lead ++ (core ++ evened trail) := by
    rw [evenPiece, hcode, hparts.evenCode_eq]
  obtain ⟨before, after, hfound⟩ := exists_spacingFindings_eq hcut heven hparts.evened
  have hlead := (Piece.cut_parts hcut).2.2.1
  rw [heven, List.append_assoc] at hlead
  have htrail := hlead
  rw [List.append_assoc, ← List.append_assoc] at htrail
  rw [hfound, oneSpace_eq hlead, oneSpace_eq htrail.append, isEven_evened, isEven_evened]
  rfl

/-- Nothing is found in tags whose gaps are even. -/
theorem spacingOf_even (hcut : a.document.Cut pos (Piece.render (pieces.map evenPiece) last)) :
  spacingOf a (Piece.tags pos (pieces.map evenPiece)) = []
  := by
  induction pieces generalizing pos with
  | nil => rfl
  | cons p pieces ih =>
      rw [List.map_cons, Piece.render_cons] at hcut
      rw [List.map_cons, Piece.tags]
      have hrest := ih (Piece.cut_behind hcut)
      cases hempty : isEmptyTag a ((evenPiece p).tag pos) with
      | true => rw [spacingOf_cons_of_blank hempty, hrest]
      | false =>
          have hblank : p.code.all isBlank = false := by
            rw [isEmptyTag_tag hcut] at hempty
            by_contra hall
            rw [Bool.not_eq_false] at hall
            rw [evenPiece, evenCode, if_pos hall, hall] at hempty
            cases hempty
          rw [spacingOf_cons hempty, spacingFindings_evenPiece hcut hblank, hrest, List.nil_append]

/-- The trimmed codes of the tags of pieces. -/
theorem trim_code_tags (hcut : document.Cut pos (Piece.render pieces last)) :
  (Piece.tags pos pieces).map (fun tag => trim isBlank (tag.code.text document))
    = pieces.map fun p => trim isBlank p.code
  := by
  induction pieces generalizing pos with
  | nil => rfl
  | cons p pieces ih =>
      rw [Piece.render_cons] at hcut
      rw [Piece.tags, List.map_cons, List.map_cons, Piece.text_code hcut,
        ih (Piece.cut_behind hcut)]

/-! ### The rule in a linter -/

namespace Linter

variable {l : Linter} {config : Config} {r : ActiveRule} {tags : List Tag}

/-- The rule for spacing is on in a linter only as its configuration sets it. -/
theorem filter_rules_spacing (hconfig : ofConfig .builtin config = .ok l) (hr : r ∈ l.rules)
    (hname : r.rule.name = tagSpacing.name) :
  l.rules.filter (·.rule.name = tagSpacing.name) = [r] ∧ r.rule = tagSpacing
  := by
  have hregistry : Registry.builtin.rules.filter (·.name = tagSpacing.name) = [tagSpacing] := by
    rfl
  have honly := filter_activate .builtin config tagSpacing.name
  rw [← (eq_of_ofConfig hconfig).1, hregistry, List.map_singleton] at honly
  have hmem : r ∈ l.rules.filter (·.rule.name = tagSpacing.name) :=
    List.mem_filter.mpr ⟨hr, by simpa using hname⟩
  rw [honly] at hmem ⊢
  obtain ⟨hmem, hon⟩ := List.mem_filter.mp hmem
  obtain rfl := List.mem_singleton.mp hmem
  exact ⟨List.filter_eq_self.mpr (by simpa using hon), rule_activate config tagSpacing⟩

/-- What a linter with the rule for spacing reports under its name. -/
theorem filter_lint_spacing (hconfig : ofConfig .builtin config = .ok l)
    (hsettings : config.settings = {}) (hr : r ∈ l.rules)
    (hname : r.rule.name = tagSpacing.name) (hoptions : Spacing.ofJson r.options = .ok .always)
    (htags : ({} : Settings).tags document = .ok tags) :
  ∃ a : Analysis, a.document = document ∧ (l.lint document).filter (·.rule = tagSpacing.name)
    = normalize ((spacingOf a tags).map (.ofFinding tagSpacing.name r.severity a.lines))
  := by
  obtain ⟨honly, hrule⟩ := filter_rules_spacing hconfig hr hname
  have hread := (Analysis.tags_program_ofDocument htags).1
  refine ⟨.ofDocument readProgram {} document, Analysis.document_ofDocument .., ?_⟩
  rw [lint_eq, filter_normalize, found, settings_eq_default hconfig hsettings,
    filter_runAll (Analysis.apart_branches {} document) (isSteady_of_ofConfig hconfig) (.inl rfl),
    honly, List.flatMap_singleton, spacingOf, ← hread]
  obtain ⟨rule, severity, options⟩ := r
  obtain rfl : rule = tagSpacing := hrule
  have hcheck (a : Analysis) : tagSpacing.check options a = pure (spacingOf a a.tags) := by
    simp only [tagSpacing, hoptions]
    rfl
  rw [run, hcheck]
  rfl

/-- Where the rule for spacing asks for one space, all of its fixes are made at once, in every
document that has tags.  The tags of the document are of the same kinds afterwards, in the same
order and with the same codes but for blank characters at their ends, and the rule reports nothing
more. -/
theorem spacing_fixed (hconfig : ofConfig .builtin config = .ok l)
    (hsettings : config.settings = {}) (hr : r ∈ l.rules)
    (hname : r.rule.name = tagSpacing.name) (hoptions : Spacing.ofJson r.options = .ok .always)
    (htags : ({} : Settings).tags document = .ok tags) :
  let reported := (l.lint document).filter (·.rule = tagSpacing.name)
  let fixed := applyFixes document reported
  (∀ d ∈ reported, d.fix.isSome = true) ∧ fixed.2 = reported.length
    ∧ (l.lint fixed.1).filter (·.rule = tagSpacing.name) = []
    ∧ ∃ tags', ({} : Settings).tags fixed.1 = .ok tags'
      ∧ tags'.map (·.kind) = tags.map (·.kind)
      ∧ tags'.map (fun tag => trim isBlank (tag.code.text fixed.1))
        = tags.map fun tag => trim isBlank (tag.code.text document)
  := by
  intro reported fixed
  obtain ⟨pieces, last, hsound, hlast, rfl, rfl⟩ := Piece.exists_pieces htags
  obtain ⟨a, ha, hreported⟩ := filter_lint_spacing hconfig hsettings hr hname hoptions htags
  have hmends : Mends 0 (Piece.render pieces last) (Piece.render (pieces.map evenPiece) last)
      (spacingOf a (Piece.tags 0 pieces)) := mends_render (by rw [ha]; exact cut_zero _)
  obtain ⟨hordered, hfixed⟩ := hmends.applyFixes_eq tagSpacing.name r.severity a.lines
  have hreported : reported
      = (spacingOf a (Piece.tags 0 pieces)).map (.ofFinding tagSpacing.name r.severity a.lines) :=
    hreported.trans hordered
  rw [← hreported] at hfixed
  have hfixed : fixed = (Piece.render (pieces.map evenPiece) last, _) := hfixed
  have hdocument : fixed.1 = Piece.render (pieces.map evenPiece) last := congrArg (·.1) hfixed
  have hsound' : ∀ p ∈ pieces.map evenPiece, p.Sound := by
    simpa using fun p hp => sound_evenPiece (hsound p hp)
  have htags' := Piece.tags_render hsound' hlast
  rw [hdocument]
  refine ⟨?_, ?_, ?_, _, htags', ?_, ?_⟩
  · rw [hreported, List.forall_mem_map]
    exact hmends.fixed
  · rw [hfixed, hreported, List.length_map]
  · obtain ⟨a', ha', hrest⟩ := filter_lint_spacing hconfig hsettings hr hname hoptions htags'
    rw [hrest, spacingOf_even (by rw [ha']; exact cut_zero _), List.map_nil, normalize,
      List.mergeSort_nil, dropRepeats]
  · rw [Piece.kind_tags, Piece.kind_tags, List.map_map]
    rfl
  · rw [trim_code_tags (cut_zero _), trim_code_tags (cut_zero _), List.map_map]
    exact List.map_congr_left fun p _ => trim_evenCode p.code

/-- A document with no space, with other space and with a line break around its codes. -/
def uneven : Text := ofString "<%a%%><%=\t>=%%><%- \n- %>"

theorem spacing_fixed_uneven :
  ∃ l r tags, ofConfig .builtin {} = .ok l ∧ ({} : Config).settings = {} ∧ r ∈ l.rules
    ∧ r.rule.name = tagSpacing.name ∧ Spacing.ofJson r.options = .ok .always
    ∧ ({} : Settings).tags uneven = .ok tags ∧ tags.length = 3
    ∧ let reported := (l.lint uneven).filter (·.rule = tagSpacing.name)
      let fixed := applyFixes uneven reported
      (∀ d ∈ reported, d.fix.isSome = true) ∧ fixed.2 = reported.length
        ∧ (l.lint fixed.1).filter (·.rule = tagSpacing.name) = []
        ∧ ∃ tags', ({} : Settings).tags fixed.1 = .ok tags'
          ∧ tags'.map (·.kind) = tags.map (·.kind)
          ∧ tags'.map (fun tag => trim isBlank (tag.code.text fixed.1))
            = tags.map fun tag => trim isBlank (tag.code.text uneven)
  := by
  have hon : (ofConfig .builtin {}).toOption.map (fun l =>
      (l.rules.filter (·.rule.name = tagSpacing.name)).map fun r =>
        (Spacing.ofJson r.options).toOption) = some [some .always] := by
    decide +kernel
  have hread : (({} : Settings).tags uneven).toOption.map List.length = some 3 := by
    decide +kernel
  obtain ⟨l, hl, hon⟩ := Option.map_eq_some_iff.mp hon
  obtain ⟨tags, htags, hlength⟩ := Option.map_eq_some_iff.mp hread
  obtain ⟨r, hr, hoptions⟩ := List.map_eq_singleton_iff.mp hon
  have hmem : r ∈ l.rules.filter (·.rule.name = tagSpacing.name) := by
    rw [hr]
    exact List.mem_singleton_self r
  obtain ⟨hr, hname⟩ := List.mem_filter.mp hmem
  have hl := Analysis.eq_ok_of_toOption hl
  have htags := Analysis.eq_ok_of_toOption htags
  have hoptions := Analysis.eq_ok_of_toOption hoptions
  have hname : r.rule.name = tagSpacing.name := of_decide_eq_true hname
  exact ⟨l, r, tags, hl, rfl, hr, hname, hoptions, htags, hlength,
    spacing_fixed hl rfl hr hname hoptions htags⟩

end Linter

end Stencil.Lint
