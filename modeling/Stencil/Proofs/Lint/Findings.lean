import Stencil.Lint.Linter
import Stencil.Proofs.Branch.Boundaries
import Stencil.Proofs.Json.Entries
import Stencil.Proofs.Lint.Pass

/-!
# The fixes that rules offer

Of the built-in rules two offer fixes.  The one for the spacing in tags replaces the space at the
ends of codes, and the one for semicolons removes those with which the tokens of a code end.  So all
fixes of a linter tidy the codes of tags.
-/

namespace Stencil

open Text Script

namespace Lint

/-! ### The rules of a linter -/

/-- A registry holds only rules that were added. -/
theorem Registry.mem_rules_addAll {r : Registry} {rules : List Rule} {rule : Rule}
    (h : rule ∈ (r.addAll rules).rules) :
  rule ∈ rules ∨ rule ∈ r.rules
  := by
  induction rules generalizing r with
  | nil => exact Or.inr h
  | cons first rest ih =>
      rcases ih h with hrest | hadded
      · exact Or.inl (List.mem_cons_of_mem first hrest)
      · obtain ⟨entry, hentry, rfl⟩ := List.mem_map.mp hadded
        rcases Json.mem_insertEntry hentry with rfl | hentry
        · exact Or.inl (List.mem_cons_self ..)
        · exact Or.inr (List.mem_map_of_mem hentry)

namespace Linter

/-- The rules that are on are those whose severity says so. -/
theorem eq_filter_of_acceptAll {active accepted : List ActiveRule}
    (h : acceptAll active = .ok accepted) :
  accepted = active.filter (·.severity ≠ .off)
  := by
  induction active generalizing accepted with
  | nil =>
      cases h
      rfl
  | cons r rest ih =>
      unfold acceptAll at h
      split at h
      · next hoff => rw [ih h, List.filter_cons_of_neg (by simpa using hoff)]
      · next hon =>
          cases haccepts : r.rule.accepts r.options with
          | error e =>
              rw [haccepts] at h
              cases h
          | ok _ =>
              cases hrest : acceptAll rest with
              | error e =>
                  rw [haccepts, hrest] at h
                  cases h
              | ok later =>
                  rw [haccepts, hrest] at h
                  cases h
                  rw [ih hrest, List.filter_cons_of_pos (by simpa using hon)]

theorem rule_activate (config : Config) (rule : Rule) :
  (activate config rule).rule = rule
  := by
  unfold activate
  split <;> rfl

/-- The rules of a linter are those of its registry that its configuration leaves on, and its
settings are those of its configuration. -/
theorem eq_of_ofConfig {registry : Registry} {config : Config} {l : Linter}
    (h : ofConfig registry config = .ok l) :
  l.rules = (registry.rules.map (activate config)).filter (·.severity ≠ .off)
    ∧ Settings.ofConfig config.settings = .ok l.settings
  := by
  unfold ofConfig at h
  cases hsettings : Settings.ofConfig config.settings with
  | error e =>
      rw [hsettings] at h
      cases h
  | ok settings =>
      rw [hsettings] at h
      simp only [Except.mapError] at h
      split at h
      · cases h
      · cases haccepted : acceptAll (registry.rules.map (activate config)) with
        | error e =>
            rw [haccepted] at h
            cases h
        | ok rules =>
            rw [haccepted] at h
            cases h
            exact ⟨eq_filter_of_acceptAll haccepted, rfl⟩

/-- The rules that a linter has on are rules of its registry, and its settings are those of its
configuration. -/
theorem rules_ofConfig {registry : Registry} {config : Config} {l : Linter}
    (h : ofConfig registry config = .ok l) :
  (∀ r ∈ l.rules, r.rule ∈ registry.rules) ∧ Settings.ofConfig config.settings = .ok l.settings
  := by
  obtain ⟨hrules, hsettings⟩ := eq_of_ofConfig h
  refine ⟨fun r hr => ?_, hsettings⟩
  rw [hrules] at hr
  obtain ⟨rule, hrule, rfl⟩ := List.mem_map.mp (List.mem_filter.mp hr).1
  rwa [rule_activate]

/-- A configuration that leaves the tags as they are has the default settings. -/
theorem settings_eq_default {registry : Registry} {config : Config} {l : Linter}
    (h : ofConfig registry config = .ok l) (hsettings : config.settings = {}) :
  l.settings = {}
  := by
  have hof := (rules_ofConfig h).2
  rw [hsettings] at hof
  exact (Except.ok.inj hof).symm

/-- How far the fixes of a linter reach: they join openings and codes if the rule for spacing asks
for no spaces, and they strip codes of semicolons if the rule for these is on. -/
def reach (l : Linter) : Reach where
  joins := l.rules.any fun r =>
    r.rule.name == tagSpacing.name &&
      match Spacing.ofJson r.options with
      | .ok .never => true
      | _ => false
  strips := l.rules.any (·.rule.name == trailingSemicolon.name)

end Linter

/-! ### Findings of rules -/

theorem mem_of_mem_dropRepeats {α : Type} [DecidableEq α] {xs : List α} {a : α}
    (h : a ∈ dropRepeats xs) :
  a ∈ xs
  := by
  fun_induction dropRepeats xs with
  | case1 => exact h
  | case2 => exact h
  | case3 b rest ih => exact List.mem_cons_of_mem b (ih h)
  | case4 b c rest _ ih =>
      rcases List.mem_cons.mp h with rfl | h
      · exact List.mem_cons_self ..
      · exact List.mem_cons_of_mem b (ih h)

namespace Linter

variable {l : Linter} {a : Analysis} {document : Text} {d : Diagnostic}

/-- The diagnostics of rules are made of the findings of each of them. -/
theorem exists_finding_of_mem_runAll {rules : List ActiveRule} {store : ViewStore}
    (h : d ∈ ((runAll a rules).run store).1) :
  ∃ r ∈ rules, ∃ before, ∃ finding ∈ ((r.rule.check r.options a).run before).1,
    d.fix = finding.fix
  := by
  induction rules generalizing store with
  | nil => cases h
  | cons r rest ih =>
      rcases List.mem_append.mp h with hfound | hlater
      · obtain ⟨finding, hfinding, rfl⟩ := List.mem_map.mp hfound
        exact ⟨r, List.mem_cons_self .., store, finding, hfinding, rfl⟩
      · obtain ⟨r', hr', hfound⟩ := ih hlater
        exact ⟨r', List.mem_cons_of_mem r hr', hfound⟩

/-- The diagnostics of a document before they are brought in order. -/
def found (l : Linter) (document : Text) : List Diagnostic :=
  ((runAll (.ofDocument readProgram l.settings document) l.rules).run []).1

theorem lint_eq (l : Linter) (document : Text) :
  l.lint document = normalize (l.found document)
  := rfl

theorem exists_finding (h : d ∈ l.lint document) :
  ∃ r ∈ l.rules, ∃ store,
    ∃ finding ∈
      ((r.rule.check r.options (.ofDocument readProgram l.settings document)).run store).1,
      d.fix = finding.fix
  := by
  rw [lint_eq] at h
  have hfound := mem_of_mem_dropRepeats h
  rw [List.mem_mergeSort] at hfound
  exact exists_finding_of_mem_runAll hfound

end Linter

/-! ### The rules without fixes -/

/-- The rule offers no fixes. -/
def Rule.OnlyReports (rule : Rule) : Prop :=
  ∀ options a store, ∀ finding ∈ ((rule.check options a).run store).1, finding.fix = none

theorem onlyReports_endTagMatch :
  endTagMatch.OnlyReports
  := by
  intro options a store finding h
  obtain ⟨v, -, hv⟩ := List.mem_flatMap.mp h
  obtain ⟨i, -, rfl⟩ := List.mem_map.mp hv
  rfl

theorem onlyReports_duplicateAttributes :
  duplicateAttributes.OnlyReports
  := by
  intro options a store finding h
  obtain ⟨repeated, -, rfl⟩ := List.mem_map.mp h
  rfl

theorem onlyReports_emptyTag :
  emptyTag.OnlyReports
  := by
  intro options a store finding h
  obtain ⟨tag, -, rfl⟩ := List.mem_map.mp h
  rfl

theorem onlyReports_multipleExpressions :
  multipleExpressions.OnlyReports
  := by
  intro options a store finding h
  change finding ∈ (if _ then _ else _) at h
  split at h
  · cases h
  · obtain ⟨tag, -, rfl⟩ := List.mem_map.mp h
    rfl

theorem onlyReports_parsingError :
  parsingError.OnlyReports
  := by
  intro options a store finding h
  obtain ⟨e, -, rfl⟩ := List.mem_map.mp h
  rfl

theorem onlyReports_preferEscape :
  preferEscape.OnlyReports
  := by
  intro options a store finding h
  obtain ⟨tag, -, rfl⟩ := List.mem_map.mp h
  rfl

theorem onlyReports_warningTerms :
  warningTerms.OnlyReports
  := by
  intro options a store finding h
  cases hpatterns : termPatternsOf options with
  | error e =>
      simp only [warningTerms, hpatterns] at h
      cases h
  | ok patterns =>
      simp only [warningTerms, hpatterns] at h
      obtain ⟨tag, -, htag⟩ := List.mem_flatMap.mp h
      split at htag
      · cases htag
      · obtain ⟨comment, -, hcomment⟩ := List.mem_filterMap.mp htag
        obtain ⟨term, -, rfl⟩ := Option.map_eq_some_iff.mp hcomment
        rfl

/-- Of the built-in rules only two offer fixes. -/
theorem onlyReports_or_fixes {rule : Rule} (h : rule ∈ Registry.builtinRules) :
  rule.OnlyReports ∨ rule = trailingSemicolon ∨ rule = tagSpacing
  := by
  simp only [Registry.builtinRules, List.mem_cons, List.not_mem_nil, or_false] at h
  rcases h with rfl | rfl | rfl | rfl | rfl | rfl | rfl | rfl | rfl
  · exact .inl onlyReports_endTagMatch
  · exact .inl onlyReports_duplicateAttributes
  · exact .inl onlyReports_emptyTag
  · exact .inl onlyReports_multipleExpressions
  · exact .inl onlyReports_parsingError
  · exact .inr (.inl rfl)
  · exact .inl onlyReports_warningTerms
  · exact .inl onlyReports_preferEscape
  · exact .inr (.inr rfl)

/-! ### The rule for the spacing in tags -/

section Spacing

variable {document : Text} {delimiter gap : Span} {message : String} {finding : Finding} {f : Fix}

/-- What is replaced by one space is the gap, and no line ends in it. -/
theorem fix_oneSpace (hgap : gap.start ≤ gap.stop)
    (h : finding ∈ oneSpace document delimiter gap message) (hf : f ∈ finding.fix) :
  f = ⟨gap, [' ']⟩ ∧ (gap.text document).any isLineBreak = false
  := by
  obtain ⟨start, stop⟩ := gap
  unfold oneSpace at h
  dsimp only at h hgap
  split at h
  · next hempty =>
      obtain rfl : stop = start := Nat.le_antisymm (of_decide_eq_true hempty) hgap
      obtain rfl := List.mem_singleton.mp h
      cases hf
      refine ⟨rfl, ?_⟩
      rw [Span.text, slice, Nat.sub_self]
      exact congrArg (List.any · isLineBreak) (before_append [] _)
  · split at h
    · cases h
    · next hbreak =>
        obtain rfl := List.mem_singleton.mp h
        cases hf
        rw [Bool.or_eq_true, not_or] at hbreak
        exact ⟨rfl, by simpa using hbreak.2⟩

theorem fix_noSpace (h : finding ∈ noSpace document gap message) (hf : f ∈ finding.fix) :
  f = ⟨gap, []⟩ ∧ (gap.text document).any isLineBreak = false
  := by
  unfold noSpace at h
  split at h
  · cases h
  · next hgap =>
      obtain rfl := List.mem_singleton.mp h
      cases hf
      rw [Bool.or_eq_true, not_or] at hgap
      exact ⟨rfl, by simpa using hgap.2⟩

/-- The fixes for the gaps of a tag replace them by a space, or by nothing if no spaces are asked
for, and no line ends in what they replace. -/
theorem fix_spacingFindings {spacing : Spacing} {a : Analysis} {tag : Tag}
    (hbefore : (gapBefore a tag).start ≤ (gapBefore a tag).stop)
    (hafter : (gapAfter a tag).start ≤ (gapAfter a tag).stop)
    (h : finding ∈ spacingFindings spacing a tag) (hf : f ∈ finding.fix) :
  ∃ gap replacement, f = ⟨gap, replacement⟩ ∧ (gap = gapBefore a tag ∨ gap = gapAfter a tag)
    ∧ (gap.text a.document).any isLineBreak = false ∧ (∀ c ∈ replacement, isBlank c = true)
    ∧ (replacement = [] → spacing = .never)
  := by
  cases spacing with
  | always =>
      rcases List.mem_append.mp h with h | h
      · obtain ⟨rfl, hbreak⟩ := fix_oneSpace hbefore h hf
        exact ⟨_, _, rfl, .inl rfl, hbreak, List.all_eq_true.mp (by decide), by simp⟩
      · obtain ⟨rfl, hbreak⟩ := fix_oneSpace hafter h hf
        exact ⟨_, _, rfl, .inr rfl, hbreak, List.all_eq_true.mp (by decide), by simp⟩
  | never =>
      rcases List.mem_append.mp h with h | h
      · obtain ⟨rfl, hbreak⟩ := fix_noSpace h hf
        exact ⟨_, _, rfl, .inl rfl, hbreak, by simp, fun _ => rfl⟩
      · obtain ⟨rfl, hbreak⟩ := fix_noSpace h hf
        exact ⟨_, _, rfl, .inr rfl, hbreak, by simp, fun _ => rfl⟩

variable {r : Reach} {spacing : Spacing} {a : Analysis} {tag : Tag} {code after : Text}

/-- A fix for the gaps of a tag with code tidies the code. -/
theorem tidies_of_spacing (hcut : a.document.Cut tag.code.start (code ++ after))
    (hstop : tag.code.stop = tag.code.start + width code) (hcode : ∃ c ∈ code, isBlank c = false)
    (hjoins : spacing = .never → r.joins = true)
    (hapart : r.joins = true → tag.kind = .evaluate → StaysApart code)
    (h : finding ∈ spacingFindings spacing a tag) (hf : f ∈ finding.fix) :
  Tidies r tag.kind code tag.code.start f
  := by
  have htext : tag.code.text a.document = code := by
    rw [Span.text, hstop, hcut.slice_eq]
  obtain ⟨front, trail, hfront, htrail, hwidth, hleft⟩ := exists_eq_append_trail isBlank code
  have hafter : gapAfter a tag
      = ⟨tag.code.start + width front, tag.code.start + width front + width trail⟩ := by
    rw [gapAfter, htext, ← hwidth, hstop, Nat.add_assoc, ← width_append, ← hfront]
    congr 1
    rw [hfront, width_append, ← Nat.add_assoc, Nat.add_sub_cancel]
  have hbefore : gapBefore a tag
      = ⟨tag.code.start, tag.code.start + width (code.takeWhile isBlank)⟩ := by
    rw [gapBefore, htext]
  obtain ⟨gap, replacement, rfl, hgap, hbreak, hreplacement, hnever⟩ := fix_spacingFindings
    (by rw [hbefore]; apply Nat.le_add_right) (by rw [hafter]; apply Nat.le_add_right) h hf
  rcases hgap with rfl | rfl
  · rw [hbefore] at hbreak ⊢
    have hcode' : a.document.Cut tag.code.start
        (code.takeWhile isBlank ++ (code.dropWhile isBlank ++ after)) := by
      rwa [← List.append_assoc, List.takeWhile_append_dropWhile]
    rw [Span.text, hcode'.slice_eq] at hbreak
    refine .opening List.takeWhile_append_dropWhile.symm (List.all_eq_true.mp List.all_takeWhile) ?_
      hreplacement (fun hnil => hjoins (hnever hnil)) fun hj hkind => ?_
    · obtain ⟨s, c, rest, rfl, hs, hc⟩ := exists_eq_blank_append hcode
      rw [List.dropWhile_append_of_pos hs, List.dropWhile_cons, hc]
      exact ⟨c, rfl, hc⟩
    · have hopens := (hapart hj hkind).resolve_left (by rw [hbreak]; decide)
      exact hopens rfl
  · rw [hafter]
    exact .closing hfront (hleft hcode) htrail hreplacement

end Spacing

/-! ### The rule for semicolons -/

/-- A text without semicolons stands in a code also when semicolons are removed from that. -/
theorem Reach.infix_bare {mark code : Text} (hmark : ∀ c ∈ mark, c ≠ ';') (h : mark <:+: code)
    (r : Reach) (kind : Tag.Kind) :
  mark <:+: r.bare kind code
  := by
  unfold bare
  split
  · have hfilter := List.IsInfix.filter (fun c => decide (c ≠ ';')) h
    rwa [List.filter_eq_self.mpr (by simpa using hmark)] at hfilter
  · exact h

theorem Reach.Keeps.sound {r : Reach} {p : Piece} (h : r.Keeps p) :
  p.Sound
  := by
  refine ⟨h.gap, fun hin => ?_, h.code.opens⟩
  exact h.code.marks _ (List.mem_cons_self ..) (infix_bare (by simp) hin r p.kind)

section Pieces

variable {r : Reach} {pieces : List Piece} {last : Text}

/-- No mark of a comment follows that of another one in the script view if semicolons are removed
from codes. -/
theorem Reach.Keeps.not_blurred (hkeeps : ∀ p ∈ pieces, r.Keeps p) (hstrips : r.strips = true) :
  ∀ mark ∈ blurredMarks, ¬ mark <:+: Piece.renderScript pieces last
  := by
  have hmarks : ∀ mark ∈ blurredMarks,
      mark ≠ [] ∧ (∀ c ∈ mark, Piece.isFiller c = false) ∧ ∀ c ∈ mark, c ≠ ';' := by
    have hall : (blurredMarks.all fun mark =>
        !mark.isEmpty && (mark.all (!Piece.isFiller ·) && mark.all (· != ';'))) = true := by
      decide
    simpa [List.all_eq_true] using hall
  intro mark hmark h
  obtain ⟨hne, hfiller, hplain⟩ := hmarks mark hmark
  obtain ⟨p, hp, hcode⟩ := Piece.exists_infix_code hne hfiller h
  apply (hkeeps p hp).code.marks mark _ (infix_bare hplain hcode r p.kind)
  rw [Reach.marks, if_pos hstrips]
  exact List.mem_cons_of_mem _ hmark

end Pieces

end Lint

/-- If the tags of a document can be read, they are those of its analysis, and the program of the
analysis is that of the script view. -/
theorem Analysis.tags_program_ofDocument {settings : Settings} {document : Text} {tags : List Tag}
    (htags : settings.tags document = .ok tags) :
  (ofDocument readProgram settings document).tags = tags
    ∧ ∀ p ∈ (ofDocument readProgram settings document).program,
      Program.ofText (scriptView document tags) = .ok p
  := by
  unfold ofDocument
  rw [htags]
  dsimp only
  split
  · next p hp =>
      refine ⟨rfl, fun q hq => ?_⟩
      obtain rfl : p = q := Option.some.inj hq
      exact program_of_readProgram hp
  · exact ⟨rfl, fun q hq => by cases hq⟩

namespace Lint

section Lint

variable {l : Linter} {pieces : List Piece} {last : Text} {d : Diagnostic} {f : Fix}

/-- A fix that removes a semicolon tidies a tag. -/
theorem tidiesSome_of_semicolon {r : Reach} {a : Analysis} {options : Json} {store : ViewStore}
    {finding : Finding} (hkeeps : ∀ p ∈ pieces, r.Keeps p) (hstrips : r.strips = true)
    (htags : a.tags = Piece.tags 0 pieces)
    (hprogram : ∀ p ∈ a.program, Program.ofText (Piece.renderScript pieces last) = .ok p)
    (h : finding ∈ ((trailingSemicolon.check options a).run store).1) (hf : f ∈ finding.fix) :
  TidiesSome r (Piece.render pieces last) (Piece.tags 0 pieces) f
  := by
  obtain ⟨tag, htag, hfinding⟩ := List.mem_flatMap.mp h
  obtain ⟨htag, houtput⟩ := List.mem_filter.mp htag
  rw [htags] at htag
  split at hfinding
  · cases hfinding
  · next info hinfo =>
      obtain ⟨p, hp, rfl⟩ := Option.map_eq_some_iff.mp hinfo
      obtain ⟨token, htoken, rfl⟩ := List.mem_map.mp hfinding
      cases hf
      obtain ⟨⟨rest, hcut⟩, hstop, hstart, hend⟩ := Program.cut_of_semicolon (hprogram p hp)
        (Reach.Keeps.not_blurred hkeeps hstrips) htoken
      obtain ⟨q, hq, hkind, hcode, hwidth, -, after, hscript⟩ :=
        Piece.exists_cut_code (cut_zero (Piece.render pieces last)) (cut_zero _) htag
      have hpiece : (Piece.renderScript pieces last).Cut token.span.start ([';'] ++ rest) := hcut
      have hsemicolon : width [';'] = 1 := rfl
      obtain ⟨front, back, hparts, hfront⟩ := hscript.exists_within hpiece hstart (by omega)
      have hspan : token.span
          = ⟨tag.code.start + width front, tag.code.start + width front + 1⟩ := by
        rw [← hfront, ← hstop]
      use tag, htag
      rw [hcode, hspan]
      exact .semicolon (by simpa using hparts) hstrips houtput

/-- A fix for the spacing in tags tidies a tag. -/
theorem tidiesSome_of_spacing {r : Reach} {a : Analysis} {options : Json} {store : ViewStore}
    {finding : Finding} (hkeeps : ∀ p ∈ pieces, r.Keeps p)
    (hjoins : Spacing.ofJson options = .ok .never → r.joins = true)
    (hdocument : a.document = Piece.render pieces last) (htags : a.tags = Piece.tags 0 pieces)
    (h : finding ∈ ((tagSpacing.check options a).run store).1) (hf : f ∈ finding.fix) :
  TidiesSome r (Piece.render pieces last) (Piece.tags 0 pieces) f
  := by
  cases hspacing : Spacing.ofJson options with
  | error e =>
      simp only [tagSpacing, hspacing] at h
      cases h
  | ok spacing =>
      simp only [tagSpacing, hspacing] at h
      obtain ⟨tag, htag, hfinding⟩ := List.mem_flatMap.mp h
      obtain ⟨htag, hcode⟩ := List.mem_filter.mp htag
      rw [htags] at htag
      obtain ⟨p, hp, hkind, htext, hwidth, ⟨after, hcut⟩, -⟩ :=
        Piece.exists_cut_code (cut_zero _) (cut_zero (Piece.renderScript pieces last)) htag
      rw [isEmptyTag, hdocument, htext] at hcode
      use tag, htag
      rw [htext]
      refine tidies_of_spacing (hdocument ▸ hcut) hwidth (by simpa using hcode) ?_ ?_ hfinding hf
      · rintro rfl
        exact hjoins hspacing
      · rw [hkind]
        exact (hkeeps p hp).code.apart

/-- All fixes of a linter with built-in rules tidy tags. -/
theorem tidiesSome_of_mem_lint (hsettings : l.settings = {})
    (hrules : ∀ r ∈ l.rules, r.rule ∈ Registry.builtinRules)
    (hkeeps : ∀ p ∈ pieces, l.reach.Keeps p) (hlast : ¬ ['<', '%'] <:+: last)
    (hd : d ∈ l.lint (Piece.render pieces last)) (hf : f ∈ d.fix) :
  TidiesSome l.reach (Piece.render pieces last) (Piece.tags 0 pieces) f
  := by
  obtain ⟨r, hr, store, finding, hfinding, hfix⟩ := Linter.exists_finding hd
  have hread := Piece.tags_render (fun p hp => (hkeeps p hp).sound) hlast
  rw [← hsettings] at hread
  obtain ⟨htags, hprogram⟩ := Analysis.tags_program_ofDocument hread
  rw [Piece.scriptView_render] at hprogram
  rw [hfix] at hf
  rcases onlyReports_or_fixes (hrules r hr) with hnone | hsemicolon | hspacing
  · rw [hnone _ _ _ finding hfinding] at hf
    cases hf
  · rw [hsemicolon] at hfinding
    apply tidiesSome_of_semicolon hkeeps _ htags hprogram hfinding hf
    exact List.any_eq_true.mpr ⟨r, hr, by rw [hsemicolon]; decide⟩
  · rw [hspacing] at hfinding
    apply tidiesSome_of_spacing hkeeps _ (Analysis.document_ofDocument ..) htags hfinding hf
    intro hnever
    refine List.any_eq_true.mpr ⟨r, hr, ?_⟩
    rw [hnever, hspacing]
    decide

end Lint

end Lint

end Stencil
