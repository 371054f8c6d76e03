import Stencil.Proofs.Analysis.Statements
import Stencil.Proofs.Script.TokenOrder
import Stencil.Proofs.View.Layout

/-!
# The tokens of a tag

The tokens and comments of a tag are found by bisection in those of the program.  They are exactly
those that lie in its code.  The code of a tag stands in the script view as it stands in the
document, so none of them has a byte that the view adds, and none has a byte of another tag.
-/

namespace Stencil

open Text Script

/-- Different tags share no byte. -/
theorem Tag.Placed.apart {document : Text} {tags : List Tag} {tag other : Tag}
    (h : Tag.Placed document tags) (htag : tag ∈ tags) (hother : other ∈ tags)
    (hne : tag ≠ other) :
  tag.span.Apart other.span
  := by
  have hapart : tags.Pairwise fun a b => a.span.Apart b.span :=
    h.inOrder.imp Span.apart_of_stop_le_start
  have : Std.Symm fun a b : Tag => a.span.Apart b.span := ⟨fun _ _ hab => hab.symm⟩
  exact hapart.forall htag hother hne

namespace Analysis

variable {settings : Settings} {document : Text} {tags : List Tag} {p : Program} {tag : Tag}

/-- A byte of a code stands in the script view as in the document, and belongs to no other tag. -/
theorem own_of_code (htags : settings.tags document = .ok tags) (htag : tag ∈ tags) {i : Nat}
    (hi : tag.code.contains i = true) :
  (bytes (scriptView document tags))[i]? = (bytes document)[i]?
    ∧ ∀ other ∈ tags, other ≠ tag → other.span.contains i = false
  := by
  have htiling := Tag.tiling_of_tags htags
  refine ⟨getElem?_bytes_scriptView_code htiling htag hi, fun other hother hne => ?_⟩
  have hspan : tag.span.contains i = true := by
    obtain ⟨hstart, -, hstop⟩ := (htiling.tiled tag htag).inOrder
    exact Span.contains_of_encloses (Span.encloses_iff.mpr ⟨hstart, hstop⟩) hi
  rw [Bool.eq_false_iff]
  intro hin
  exact htiling.placed.apart hother htag hne i hin hspan

/-- Of tokens that lie apart, bisection finds exactly those that lie in a span.  The tokens of a
program lie apart, so the tokens of a tag are exactly those that lie in its code, and so are its
comments.  No byte of them is one that the script view adds, or one of another tag. -/
theorem tokens_of_tag :
  (∀ (ks : List Token) (s : Span), Script.Apart ks →
      within ks s = ks.filter (s.encloses ·.span))
    ∧ ∀ (settings : Settings) (document : Text) (tags : List Tag) (p : Program),
      settings.tags document = .ok tags → Program.ofText (scriptView document tags) = .ok p →
      Script.Apart p.tokens ∧ ∀ tag ∈ tags, ∃ info,
        (ofDocument readProgram settings document).tokensOf? tag = some info
          ∧ info.tokens = p.tokens.filter (tag.code.encloses ·.span)
          ∧ info.comments = p.comments.filter (tag.code.encloses ·.span)
          ∧ ∀ k ∈ info.tokens ++ info.comments, ∀ i, k.span.contains i = true →
            tag.code.contains i = true
              ∧ (bytes (scriptView document tags))[i]? = (bytes document)[i]?
              ∧ ∀ other ∈ tags, other ≠ tag → other.span.contains i = false
  := by
  refine ⟨fun ks s h => h.within_eq s, fun settings document tags p htags hp => ?_⟩
  refine ⟨Program.apart_tokens hp, fun tag htag => ?_⟩
  have htokens := Program.tokensIn_eq hp tag.code
  have hcomments := Program.commentsIn_eq hp tag.code
  rw [ofDocument_eq htags hp]
  refine ⟨_, rfl, htokens, hcomments, fun k hk i hi => ?_⟩
  have hcode : tag.code.encloses k.span = true := by
    dsimp only at hk
    rw [htokens, hcomments, ← List.filter_append] at hk
    exact (List.mem_filter.mp hk).2
  have hin := Span.contains_of_encloses hcode hi
  exact ⟨hin, own_of_code htags htag hin⟩

/-- The spans of the tokens of a program, and of the tokens and comments that lie in the code of a
tag, if the tree is not deeper than given. -/
def spansIn (document : Text) (place depth : Nat) : Option (List Span × List Span × List Span) := do
  let tags ← (({} : Settings).tags document).toOption
  let tag ← tags[place]?
  let p ← (Program.ofText (scriptView document tags)).toOption
  let ks ← p.tokensWithin? (scriptView document tags) depth
  some (ks.map (·.span), (ks.filter (tag.code.encloses ·.span)).map (·.span),
    (p.comments.filter (tag.code.encloses ·.span)).map (·.span))

/-- Two tags whose codes stand between semicolons in the script view, the second one with a
comment. -/
def outputsWithComment : Text := Text.ofString "<%= a %><%- b /* c */ %>"

/-- The only token of the second tag is its name, and not one of the semicolons around it. -/
theorem tokens_of_tag_outputsWithComment :
  ∃ p tag info, (ofDocument readProgram {} outputsWithComment).program = some p
    ∧ tag ∈ (ofDocument readProgram {} outputsWithComment).tags
    ∧ (ofDocument readProgram {} outputsWithComment).tokensOf? tag = some info
    ∧ p.tokens.map (·.span) = [⟨2, 3⟩, ⟨4, 5⟩, ⟨7, 8⟩, ⟨10, 11⟩, ⟨12, 13⟩, ⟨23, 24⟩]
    ∧ info.tokens.map (·.span) = [⟨12, 13⟩]
    ∧ info.comments.map (·.span) = [⟨14, 21⟩]
  := by
  have hspans : spansIn outputsWithComment 1 8
      = some ([⟨2, 3⟩, ⟨4, 5⟩, ⟨7, 8⟩, ⟨10, 11⟩, ⟨12, 13⟩, ⟨23, 24⟩], [⟨12, 13⟩],
        [⟨14, 21⟩]) := by
    decide +kernel
  unfold spansIn at hspans
  obtain ⟨tags, htags, h⟩ := Option.bind_eq_some_iff.mp hspans
  obtain ⟨tag, htag, h⟩ := Option.bind_eq_some_iff.mp h
  obtain ⟨p, hp, h⟩ := Option.bind_eq_some_iff.mp h
  obtain ⟨ks, hks, h⟩ := Option.bind_eq_some_iff.mp h
  have htags := eq_ok_of_toOption htags
  have hp := eq_ok_of_toOption hp
  have htag := List.mem_of_getElem? htag
  rw [← Program.tokens_of_tokensWithin? hp hks] at h
  obtain ⟨info, hinfo, htokens, hcomments, -⟩ := (tokens_of_tag.2 {} _ tags p htags hp).2 tag htag
  rw [ofDocument_eq htags hp] at hinfo ⊢
  rw [← htokens, ← hcomments] at h
  simp only [Option.some.injEq, Prod.mk.injEq] at h
  exact ⟨p, tag, info, rfl, htag, hinfo, h⟩

end Analysis

end Stencil
