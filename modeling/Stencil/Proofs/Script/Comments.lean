import Stencil.Proofs.Branch.Boundaries
import Stencil.Proofs.Script.Partition

/-!
# Where comments stand

A comment begins with `//`, `/*`, `<!--` or `-->`.  Its token is made from its range, which is taken
for the range of the content of a comment unless `//` or `/*` stands there.  So the token of a
comment that begins with `<!--` or `-->` begins two bytes before it, or with the text.  If no such
comment follows other characters, the tokens of all comments stand where the comments do, and no
byte of the text is missing from the tokens, the comments and the blanks between them.
-/

namespace Stencil.Script

open Text

/-! ### One comment -/

/-- The marks of comments that scripts take over from markup. -/
def markupMarks : List Text := [ofString "<!--", ofString "-->"]

/-- One of the marks that are taken over from markup stands at the beginning of the range. -/
def BeginsMarkup (source : Text) (s : Span) : Prop :=
  ∃ mark ∈ markupMarks, mark <+: onward s.start source

instance decidableBeginsMarkup (source : Text) (s : Span) : Decidable (BeginsMarkup source s) :=
  inferInstanceAs (Decidable (∃ mark ∈ markupMarks, mark <+: onward s.start source))

/-- One of the marks with which the other comments begin stands at the beginning of the range. -/
def BeginsSlash (source : Text) (s : Span) : Prop :=
  ofString "//" <+: onward s.start source ∨ ofString "/*" <+: onward s.start source

variable {source : Text} {s : Span}

theorem Token.commentSpan_of_beginsSlash (h : BeginsSlash source s) :
  commentSpan source s = s
  := by
  unfold commentSpan
  dsimp only
  rw [if_pos]
  rwa [Bool.or_eq_true, List.isPrefixOf_iff_prefix, List.isPrefixOf_iff_prefix]

/-- Where neither mark stands, the range is taken for that of the content. -/
theorem Token.commentSpan_of_not_beginsSlash (h : ¬ BeginsSlash source s) :
  (commentSpan source s).start = s.start - 2 ∧ (s.start = 0 → commentSpan source s = s)
  := by
  unfold commentSpan
  dsimp only
  rw [if_neg (by rwa [Bool.or_eq_true, List.isPrefixOf_iff_prefix, List.isPrefixOf_iff_prefix])]
  split
  · next hopening =>
      refine ⟨rfl, fun hstart => ?_⟩
      rw [hstart, before_zero] at hopening
      cases hopening
  · refine ⟨rfl, fun hstart => ?_⟩
    rw [hstart, Nat.zero_sub, ← hstart]

namespace HasComment

/-- A comment begins with one of the marks that are taken over from markup or with another one, and
not with both. -/
theorem beginsMarkup_iff (h : HasComment source s) :
  BeginsMarkup source s ↔ ¬ BeginsSlash source s
  := by
  obtain ⟨body, rest, hbody, hcut, -⟩ := h
  rw [BeginsMarkup, BeginsSlash, hcut.onward_eq]
  constructor
  · rintro ⟨mark, hmark, more, hmore⟩ hslash
    rw [← hmore] at hslash
    simp only [markupMarks, List.mem_cons, List.not_mem_nil, or_false] at hmark
    rcases hmark with rfl | rfl <;> simp [ofString, List.cons_prefix_cons] at hslash
  · intro hslash
    rcases hbody with ⟨⟨mark, hmark, hbegins⟩, -⟩ | hbegins
    · have hmark' : mark ∈ ofString "//" :: markupMarks := hmark
      rcases List.mem_cons.mp hmark' with rfl | hmark'
      · exact absurd (Or.inl (hbegins.trans (List.prefix_append _ _))) hslash
      · exact ⟨mark, hmark', hbegins.trans (List.prefix_append _ _)⟩
    · exact absurd (Or.inr (hbegins.trans (List.prefix_append _ _))) hslash

/-- A comment is not empty, and it stands between characters of the text. -/
theorem nonempty_onBoundaries (h : HasComment source s) :
  s.start < s.stop ∧ s.OnBoundaries source
  := by
  obtain ⟨body, rest, hbody, hcut, hstop⟩ := h
  have hne : body ≠ [] := by
    rintro rfl
    rcases hbody with ⟨⟨mark, hmark, hbegins⟩, -⟩ | hbegins
    · rw [List.prefix_nil.mp hbegins] at hmark
      exact absurd hmark (by decide)
    · exact absurd (List.prefix_nil.mp hbegins) (by decide)
  obtain ⟨c, t, rfl⟩ := List.exists_cons_of_ne_nil hne
  refine ⟨?_, hcut.isBoundary, ?_⟩
  · rw [hstop]
    apply lt_add_width
  · rw [hstop]
    exact hcut.append.isBoundary

/-- The token of a comment stands where the comment does, unless this begins with a mark that is
taken over from markup, and not with the text. -/
theorem span_eq_iff (h : HasComment source s) :
  (Token.ofComment source s).span = s ↔ s.start = 0 ∨ ¬ BeginsMarkup source s
  := by
  rw [h.beginsMarkup_iff, not_not, Token.span_ofComment]
  by_cases hslash : BeginsSlash source s
  · exact iff_of_true (Token.commentSpan_of_beginsSlash hslash) (Or.inr hslash)
  · obtain ⟨hstart, hzero⟩ := Token.commentSpan_of_not_beginsSlash hslash
    constructor
    · intro hspan
      rw [hspan] at hstart
      exact Or.inl (by omega)
    · exact fun hor => hzero (hor.resolve_right hslash)

/-- The token of a comment that begins with a mark that is taken over from markup begins two bytes
before it, or with the text. -/
theorem start_eq (h : HasComment source s) (hmarkup : BeginsMarkup source s) :
  (Token.ofComment source s).span.start = s.start - 2
  := by
  rw [Token.span_ofComment]
  exact (Token.commentSpan_of_not_beginsSlash (h.beginsMarkup_iff.mp hmarkup)).1

end HasComment

/-! ### The comments of a program -/

namespace Program

/-- Where the tokens of the comments stand between characters, those of the program do too, and each
byte of the text lies in one of all these or in a blank. -/
theorem covered {p : Program} (h : ofText source = .ok p)
    (hcomments : ∀ k ∈ p.comments, k.span.OnBoundaries source) :
  (∀ k ∈ p.tokens, k.span.OnBoundaries source)
    ∧ ∀ n < width source, (∃ k ∈ p.tokens, k.span.contains n = true)
      ∨ (∃ c, charAt? n source = some c ∧ Token.isGap c = true)
      ∨ ∃ k ∈ p.comments, k.span.contains n = true
  := by
  have hatoms : ∀ a ∈ atoms p.tree p.comments, a.span.OnBoundaries source := by
    intro a ha
    rcases mem_atoms.mp ha with ⟨n, hn, hatom⟩ | ⟨k, hk, rfl⟩
    · exact onBoundaries_of_atom? h hn hatom
    · exact hcomments k hk
  obtain ⟨portions, hsplits⟩ := exists_splits hatoms
  obtain ⟨-, -, -, -, htokens⟩ := parsed_of_ofText h
  rw [← htokens] at hsplits
  constructor
  · intro k hk
    have hstands := hsplits.stands _ (hsplits.mem_token.mp hk)
    exact (Portion.of_stands_token hstands hatoms).1
  · intro n hn
    obtain ⟨r, hr, hcontains⟩ := hsplits.leads.exists_contains (Nat.zero_le n) hn
    obtain ⟨q, hq, rfl⟩ := List.mem_map.mp hr
    cases q with
    | token k => exact Or.inl ⟨k, hsplits.mem_token.mpr hq, hcontains⟩
    | gap s =>
        obtain ⟨c, rest, hgap, hcut, hstop⟩ := Portion.of_stands_gap (hsplits.stands _ hq)
        obtain ⟨hstart, hlt⟩ := Span.contains_iff.mp hcontains
        obtain ⟨i, rfl⟩ := Nat.exists_eq_add_of_le hstart
        have hi : i < c.utf8Size := Nat.lt_of_add_lt_add_left (hstop ▸ hlt)
        exact Or.inr (Or.inl ⟨c, hcut.charAt?_eq hi, hgap⟩)
    | comment s =>
        obtain ⟨k, hk, rfl⟩ := exists_comment_of_stands (hsplits.stands _ hq)
        exact Or.inr (Or.inr ⟨k, hk, hcontains⟩)

/-- The comments of a program are not empty, and they stand between characters of its text.  The
token of a comment stands where the comment does, unless this begins with a mark that is taken over
from markup and other characters stand before it; then the token begins two bytes before the
comment, or with the text.  If the tokens of all comments stand where these do, the tokens of the
program stand between characters, and each byte of the text lies in one of them, in a blank or in a
comment. -/
theorem comment_spans {p : Program} (h : ofText source = .ok p) :
  ∃ parsed, Parsed.ofText source = .ok parsed
    ∧ p.comments = parsed.comments.map (Token.ofComment source)
    ∧ (∀ s ∈ parsed.comments, s.start < s.stop ∧ s.OnBoundaries source
      ∧ ((Token.ofComment source s).span = s ↔ s.start = 0 ∨ ¬ BeginsMarkup source s)
      ∧ (BeginsMarkup source s → (Token.ofComment source s).span.start = s.start - 2))
    ∧ ((∀ s ∈ parsed.comments, s.start = 0 ∨ ¬ BeginsMarkup source s) →
      (∀ k ∈ p.tokens, k.span.OnBoundaries source)
        ∧ ∀ n < width source, (∃ k ∈ p.tokens, k.span.contains n = true)
          ∨ (∃ c, charAt? n source = some c ∧ Token.isGap c = true)
          ∨ ∃ s ∈ parsed.comments, s.contains n = true)
  := by
  obtain ⟨parsed, hparsed, -, hcomments, -⟩ := parsed_of_ofText h
  have hcomment : ∀ s ∈ parsed.comments, HasComment source s :=
    (Parsed.stands_of_ofText (bears_edges source) hparsed).2
  refine ⟨parsed, hparsed, hcomments, fun s hs => ?_, fun hexact => ?_⟩
  · obtain ⟨hne, hends⟩ := (hcomment s hs).nonempty_onBoundaries
    exact ⟨hne, hends, (hcomment s hs).span_eq_iff, (hcomment s hs).start_eq⟩
  · have hspan : ∀ k ∈ p.comments, ∃ s ∈ parsed.comments, s = k.span := by
      intro k hk
      rw [hcomments] at hk
      obtain ⟨s, hs, rfl⟩ := List.mem_map.mp hk
      exact ⟨s, hs, ((hcomment s hs).span_eq_iff.mpr (hexact s hs)).symm⟩
    have hends : ∀ k ∈ p.comments, k.span.OnBoundaries source := by
      intro k hk
      obtain ⟨s, hs, rfl⟩ := hspan k hk
      exact (hcomment _ hs).nonempty_onBoundaries.2
    obtain ⟨htokens, hcovered⟩ := covered h hends
    refine ⟨htokens, fun n hn => (hcovered n hn).imp_right (Or.imp_right ?_)⟩
    rintro ⟨k, hk, hcontains⟩
    obtain ⟨s, hs, rfl⟩ := hspan k hk
    exact ⟨k.span, hs, hcontains⟩

/-- Comments behind characters of more than one byte. -/
def commentedSource : Text := ofString "f('é') /*ü*/ // y"

theorem comment_spans_commentedSource :
  ∃ p parsed, ofText commentedSource = .ok p ∧ Parsed.ofText commentedSource = .ok parsed
    ∧ parsed.comments = [⟨8, 14⟩, ⟨15, 19⟩]
    ∧ (∀ s ∈ parsed.comments, (Token.ofComment commentedSource s).span = s)
    ∧ (∀ k ∈ p.tokens, k.span.OnBoundaries commentedSource)
    ∧ ∀ n < width commentedSource, (∃ k ∈ p.tokens, k.span.contains n = true)
      ∨ (∃ c, charAt? n commentedSource = some c ∧ Token.isGap c = true)
      ∨ ∃ s ∈ parsed.comments, s.contains n = true
  := by
  have hread : (ofText commentedSource).toOption.isSome = true := by decide +kernel
  have hranges : (Parsed.ofText commentedSource).toOption.map (·.comments)
      = some [⟨8, 14⟩, ⟨15, 19⟩] := by decide +kernel
  obtain ⟨p, hp⟩ := Option.isSome_iff_exists.mp hread
  have hp := Analysis.eq_ok_of_toOption hp
  obtain ⟨parsed, hparsed, -, hspans, hcovered⟩ := comment_spans hp
  rw [hparsed] at hranges
  have hcomments : parsed.comments = [⟨8, 14⟩, ⟨15, 19⟩] := Option.some.inj hranges
  have hexact : ∀ s ∈ parsed.comments, s.start = 0 ∨ ¬ BeginsMarkup commentedSource s := by
    rw [hcomments]
    decide +kernel
  obtain ⟨htokens, hbytes⟩ := hcovered hexact
  exact ⟨p, parsed, hp, hparsed, hcomments,
    fun s hs => (hspans s hs).2.2.1.mpr (hexact s hs), htokens, hbytes⟩

/-- A comment with a mark of markup, behind a name. -/
def markupAfterName : Text := ofString "x <!-- c"

/-- Such a comment, behind a character of two bytes and a quotation mark. -/
def markupAfterQuote : Text := ofString "'é'<!-- c"

/-- The token of the comment takes up the name, which is missing from the tokens.  Behind the
quotation mark it begins within a character. -/
theorem comment_span_moved :
  (∃ p parsed, ofText markupAfterName = .ok p ∧ Parsed.ofText markupAfterName = .ok parsed
      ∧ parsed.comments = [⟨2, 8⟩] ∧ p.comments.map (·.span) = [⟨0, 8⟩] ∧ p.tokens = [])
    ∧ ∃ p parsed, ofText markupAfterQuote = .ok p ∧ Parsed.ofText markupAfterQuote = .ok parsed
      ∧ parsed.comments = [⟨4, 10⟩] ∧ p.comments.map (·.span) = [⟨2, 10⟩]
      ∧ ¬ Span.OnBoundaries markupAfterQuote ⟨2, 10⟩
  := by
  constructor
  · have hread : ((ofText markupAfterName).toOption.bind fun p =>
        (p.tokensWithin? markupAfterName 8).map fun ks => (p.comments.map (·.span), ks))
        = some ([⟨0, 8⟩], []) := by decide +kernel
    have hranges : (Parsed.ofText markupAfterName).toOption.map (·.comments)
        = some [⟨2, 8⟩] := by decide +kernel
    obtain ⟨p, hp, hread⟩ := Option.bind_eq_some_iff.mp hread
    obtain ⟨ks, hks, heq⟩ := Option.map_eq_some_iff.mp hread
    obtain ⟨hspans, rfl⟩ := Prod.mk.inj heq
    obtain ⟨parsed, hparsed, hcomments⟩ := Option.map_eq_some_iff.mp hranges
    have hp := Analysis.eq_ok_of_toOption hp
    exact ⟨p, parsed, hp, Analysis.eq_ok_of_toOption hparsed, hcomments, hspans,
      tokens_of_tokensWithin? hp hks⟩
  · have hread : (ofText markupAfterQuote).toOption.map (·.comments.map (·.span))
        = some [⟨2, 10⟩] := by decide +kernel
    have hranges : (Parsed.ofText markupAfterQuote).toOption.map (·.comments)
        = some [⟨4, 10⟩] := by decide +kernel
    obtain ⟨p, hp, hspans⟩ := Option.map_eq_some_iff.mp hread
    obtain ⟨parsed, hparsed, hcomments⟩ := Option.map_eq_some_iff.mp hranges
    exact ⟨p, parsed, Analysis.eq_ok_of_toOption hp, Analysis.eq_ok_of_toOption hparsed, hcomments,
      hspans, by decide⟩

end Program

end Stencil.Script
