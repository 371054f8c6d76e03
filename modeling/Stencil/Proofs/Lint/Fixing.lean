import Mathlib.Data.List.Infix
import Stencil.Proofs.Lint.Findings

/-!
# Fixing keeps the tags

One pass of fixes leaves a document made up of pieces with the same texts and kinds of tags, and so
does any number of passes.  So the tags of a fixed document are of the same kinds in the same order
as those of the document, provided that no fix lets a code run into a delimiter: where openings and
codes are joined, no code of an evaluate tag may go on with a character that belongs to another
opening, and where semicolons are removed, no closing may be left.
-/

namespace Stencil.Lint

open Text

/-- Fixes of the given reach do not let the code of a kind of tag run into a delimiter. -/
structure Reach.Clear (r : Reach) (kind : Tag.Kind) (code : Text) : Prop where
  apart : r.joins = true → kind = .evaluate → StaysApart code
  marks : r.strips = true → ∀ mark ∈ r.marks, ¬ mark <:+: r.bare kind code

instance Reach.decidableClear (r : Reach) (kind : Tag.Kind) (code : Text) :
    Decidable (r.Clear kind code) :=
  decidable_of_iff
    ((r.joins = true → kind = .evaluate → StaysApart code)
      ∧ (r.strips = true → ∀ mark ∈ r.marks, ¬ mark <:+: r.bare kind code))
    ⟨fun h => ⟨h.1, h.2⟩, fun h => ⟨h.apart, h.marks⟩⟩

variable {document last : Text} {pieces : List Piece} {pos : Nat} {tags : List Tag}

/-- Each piece has a tag with its kind and its code. -/
theorem exists_tag_of_mem_pieces (hcut : document.Cut pos (Piece.render pieces last)) {p : Piece}
    (hp : p ∈ pieces) :
  ∃ tag ∈ Piece.tags pos pieces, tag.kind = p.kind ∧ tag.code.text document = p.code
  := by
  induction pieces generalizing pos with
  | nil => cases hp
  | cons q pieces ih =>
      rw [Piece.render_cons] at hcut
      rcases List.mem_cons.mp hp with rfl | hlater
      · exact ⟨_, List.mem_cons_self .., rfl, Piece.text_code hcut⟩
      · obtain ⟨tag, htag, h⟩ := ih (Piece.cut_behind hcut) hlater
        exact ⟨tag, List.mem_cons_of_mem _ htag, h⟩

theorem Reach.Clear.safe {r : Reach} {p : Piece} (h : r.Clear p.kind p.code) (hp : p.Sound) :
  r.Safe p.kind p.code
  := by
  refine ⟨hp.opens, h.apart, fun mark hmark => ?_⟩
  cases hstrips : r.strips with
  | true => exact h.marks hstrips mark hmark
  | false =>
      rw [Reach.marks, hstrips] at hmark
      obtain rfl := List.mem_singleton.mp hmark
      rw [Reach.bare, hstrips]
      exact hp.code

namespace Linter

variable {l : Linter}

/-- Passes of fixes leave a document made up of pieces with the same kinds of tags. -/
theorem exists_pieces_fixFrom (hsettings : l.settings = {})
    (hrules : ∀ r ∈ l.rules, r.rule ∈ Registry.builtinRules) (hlast : ¬ ['<', '%'] <:+: last)
    (passes : Nat) {ds : List Diagnostic} (hkeeps : ∀ p ∈ pieces, l.reach.Keeps p)
    (hds : ∀ d ∈ ds, ∀ f ∈ d.fix,
      TidiesSome l.reach (Piece.render pieces last) (Piece.tags 0 pieces) f) :
  ∃ pieces', (l.fixFrom passes (Piece.render pieces last) ds).document = Piece.render pieces' last
    ∧ (∀ p ∈ pieces', l.reach.Keeps p) ∧ pieces'.map (·.kind) = pieces.map (·.kind)
  := by
  induction passes generalizing pieces ds with
  | zero => exact ⟨pieces, rfl, hkeeps, rfl⟩
  | succ passes ih =>
      unfold fixFrom
      split
      · exact ⟨pieces, rfl, hkeeps, rfl⟩
      · next next count _ hnext =>
          obtain ⟨fs, hapart, hfs, hedited⟩ :=
            exists_applyFixes_eq fun d hd f hf => (hds d hd f hf).lies (cut_zero _)
          obtain ⟨middle, hmiddle, hkeeps', hkinds⟩ :=
            exists_pieces_edited (cut_zero _) hkeeps hapart fun f hf => by
              obtain ⟨d, hd, hfix⟩ := hfs f hf
              exact hds d hd f hfix
          rw [hnext, hmiddle] at hedited
          obtain rfl : next = Piece.render middle last := hedited
          obtain ⟨pieces', hfixed, hkeeps'', hkinds'⟩ := ih hkeeps'
            fun d hd f hf => tidiesSome_of_mem_lint hsettings hrules hkeeps' hlast hd hf
          exact ⟨pieces', hfixed, hkeeps'', hkinds'.trans hkinds⟩

/-- The tags of a document that is fixed are of the same kinds as before, in the same order, unless
a code runs into its delimiters. -/
theorem kinds_fix {config : Config} (hconfig : ofConfig .builtin config = .ok l)
    (hsettings : config.settings = {}) (htags : ({} : Settings).tags document = .ok tags)
    (hclear : ∀ tag ∈ tags, l.reach.Clear tag.kind (tag.code.text document)) :
  ∃ tags', ({} : Settings).tags (l.fix document).document = .ok tags'
    ∧ tags'.map (·.kind) = tags.map (·.kind)
  := by
  obtain ⟨hrules, hof⟩ := rules_ofConfig hconfig
  have hdefault : l.settings = {} := by
    rw [hsettings] at hof
    exact (Except.ok.inj hof).symm
  have hbuiltin : ∀ r ∈ l.rules, r.rule ∈ Registry.builtinRules := fun r hr =>
    (Registry.mem_rules_addAll (hrules r hr)).resolve_right (by simp [Registry.rules])
  obtain ⟨pieces, last, hsound, hlast, rfl, rfl⟩ := Piece.exists_pieces htags
  have hkeeps : ∀ p ∈ pieces, l.reach.Keeps p := by
    intro p hp
    obtain ⟨tag, htag, hkind, hcode⟩ :=
      exists_tag_of_mem_pieces (cut_zero (Piece.render pieces last)) hp
    have hsafe := hclear tag htag
    rw [hkind, hcode] at hsafe
    exact ⟨(hsound p hp).gap, hsafe.safe (hsound p hp)⟩
  obtain ⟨pieces', hfixed, hkeeps', hkinds⟩ := exists_pieces_fixFrom hdefault hbuiltin hlast
    passLimit hkeeps fun d hd f hf => tidiesSome_of_mem_lint hdefault hbuiltin hkeeps hlast hd hf
  refine ⟨Piece.tags 0 pieces', ?_, ?_⟩
  · rw [fix, hfixed]
    exact Piece.tags_render (fun p hp => (hkeeps' p hp).sound) hlast
  · rw [Piece.kind_tags, Piece.kind_tags, hkinds]

/-- A configuration in which the rule for spacing asks for no spaces. -/
def withoutSpaces : Config :=
  { rules := [(tagSpacing.name, .withOptions .warn (.string "never"))] }

/-- A document with an output tag and an evaluate tag. -/
def outputThenCode : Text := ofString "<%= a; %><% b %>"

theorem kinds_fix_sample :
  ∃ l tags tags', ofConfig .builtin withoutSpaces = .ok l ∧ withoutSpaces.settings = {}
    ∧ l.reach = ⟨true, true⟩ ∧ ({} : Settings).tags outputThenCode = .ok tags
    ∧ (∀ tag ∈ tags, l.reach.Clear tag.kind (tag.code.text outputThenCode))
    ∧ ({} : Settings).tags (l.fix outputThenCode).document = .ok tags'
    ∧ tags'.map (·.kind) = tags.map (·.kind) ∧ tags.map (·.kind) = [.interpolate, .evaluate]
  := by
  have hreach : (ofConfig .builtin withoutSpaces).toOption.map reach = some ⟨true, true⟩ := by
    decide +kernel
  have hread : (({} : Settings).tags outputThenCode).toOption.map (fun tags =>
      (tags.map (·.kind),
        decide (∀ tag ∈ tags, Reach.Clear ⟨true, true⟩ tag.kind (tag.code.text outputThenCode))))
      = some ([.interpolate, .evaluate], true) := by
    decide +kernel
  obtain ⟨l, hl, hreach⟩ := Option.map_eq_some_iff.mp hreach
  obtain ⟨tags, htags, hknown⟩ := Option.map_eq_some_iff.mp hread
  obtain ⟨hkinds, hclear⟩ := Prod.mk.inj hknown
  have hl := Analysis.eq_ok_of_toOption hl
  have htags := Analysis.eq_ok_of_toOption htags
  have hclear := of_decide_eq_true hclear
  rw [← hreach] at hclear
  obtain ⟨tags', htags', hsame⟩ := kinds_fix hl rfl htags hclear
  exact ⟨l, tags, tags', hl, rfl, hreach, htags, hclear, htags', hsame, hkinds⟩

/-- A configuration in which only the rule for spacing is on and asks for no spaces. -/
def spacingOnly : Config :=
  { rules := Registry.builtin.names.map fun name =>
      if name = tagSpacing.name then (name, .withOptions .warn (.string "never"))
      else (name, .severity .off) }

/-- A document with an evaluate tag. -/
def negation : Text := ofString "<% -a%>"

/-- Where the fixes may join an opening and a code, an evaluate tag may become an output tag. -/
theorem kinds_change :
  ∃ l tags tags', ofConfig .builtin spacingOnly = .ok l ∧ spacingOnly.settings = {}
    ∧ ({} : Settings).tags negation = .ok tags
    ∧ ({} : Settings).tags (l.fix negation).document = .ok tags'
    ∧ tags.map (·.kind) = [.evaluate] ∧ tags'.map (·.kind) = [.escape]
  := by
  have hfound : (ofConfig .builtin spacingOnly).toOption.map (fun l =>
      ((l.found negation).map (·.fix), l.found (ofString "<%-a%>")))
      = some ([some (.remove ⟨2, 3⟩)], []) := by
    decide +kernel
  obtain ⟨l, hl, hfound⟩ := Option.map_eq_some_iff.mp hfound
  obtain ⟨hfirst, hsecond⟩ := Prod.mk.inj hfound
  obtain ⟨d, hd, hfix⟩ := List.map_eq_singleton_iff.mp hfirst
  have hfixes : applyFixes negation [d] = (ofString "<%-a%>", 1) := by
    rw [applyFixes, orderedFixes, List.filterMap_cons, hfix]
    dsimp only
    rw [List.filterMap_nil, List.mergeSort_singleton]
    decide
  have hlast : applyFixes (ofString "<%-a%>") [] = (ofString "<%-a%>", 0) := by
    rw [applyFixes, orderedFixes, List.filterMap_nil, List.mergeSort_nil]
    decide
  have hnone : l.lint (ofString "<%-a%>") = [] := by
    rw [lint_eq, hsecond, normalize, List.mergeSort_nil]
    rfl
  have hfixed : (l.fix negation).document = ofString "<%-a%>" := by
    rw [fix, lint_eq, hd, normalize, List.mergeSort_singleton, dropRepeats]
    simp only [passLimit, fixFrom, hfixes, hnone, hlast]
  have hread : (({} : Settings).tags negation).toOption.map (fun tags => tags.map (·.kind))
      = some [.evaluate] := by
    decide +kernel
  have hread' : (({} : Settings).tags (ofString "<%-a%>")).toOption.map
      (fun tags => tags.map (·.kind)) = some [.escape] := by
    decide +kernel
  obtain ⟨tags, htags, hkinds⟩ := Option.map_eq_some_iff.mp hread
  obtain ⟨tags', htags', hkinds'⟩ := Option.map_eq_some_iff.mp hread'
  have hl := Analysis.eq_ok_of_toOption hl
  have htags := Analysis.eq_ok_of_toOption htags
  have htags' := Analysis.eq_ok_of_toOption htags'
  rw [← hfixed] at htags'
  exact ⟨l, tags, tags', hl, rfl, htags, htags', hkinds, hkinds'⟩

end Linter

end Stencil.Lint
