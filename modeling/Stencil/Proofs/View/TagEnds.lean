import Stencil.Proofs.Branch.Boundaries
import Stencil.Proofs.Script.Tokens
import Stencil.Proofs.View.Script

/-!
# The ends of tags in the script view

Whatever stands in the script view between the codes of two tags, a line ends there.  So a piece of
the script view on one line that begins with a written character stands in the code of one tag.  In
particular a comment that ends with its line ends with the code of its tag at the latest, and a
semicolon is never missed because the code of a tag ends.  A statement may go on in the next tag all
the same, where what comes next continues it, as an opening parenthesis does.
-/

namespace Stencil

open Text Script

namespace Text

end Text

namespace Piece

variable {last : Text} {pieces : List Piece} {pos : Nat}

end Piece

namespace Script

variable {source : Text} {s : Span}

/-- A comment whose text begins like a block comment is one. -/
theorem Token.kind_ofComment_of_cut {rest : Text}
    (hcut : source.Cut (commentSpan source s).start (ofString "/*" ++ rest))
    (hstop : (commentSpan source s).start + 2 ≤ (commentSpan source s).stop) :
  (ofComment source s).kind = .blockComment
  := by
  obtain ⟨k, hk⟩ := Nat.exists_eq_add_of_le hstop
  have htext : (commentSpan source s).text source = '/' :: '*' :: before k rest := by
    rw [Span.text, slice, hcut.onward_eq, hk, Nat.add_assoc, Nat.add_sub_cancel_left]
    have hslash : ('/' : Char).utf8Size = 1 := rfl
    have hstar : ('*' : Char).utf8Size = 1 := rfl
    change before (2 + k) ('/' :: '*' :: rest) = _
    rw [before, if_neg (by omega), before, if_neg (by omega), hslash, hstar]
    congr 3
    omega
  unfold ofComment
  dsimp only
  rw [htext]
  rfl

/-- A span behind the opening of a block comment is taken to be the content of one. -/
theorem Token.kind_ofComment_of_opening {rest : Text} (hcut : source.Cut s.start rest)
    (hmark : ¬ ((ofString "//").isPrefixOf rest || (ofString "/*").isPrefixOf rest) = true)
    (hopening : ofString "/*" <:+ before s.start source) (hstop : s.start ≤ s.stop)
    (hwidth : s.stop ≤ width source) :
  (ofComment source s).kind = .blockComment
  := by
  obtain ⟨front, hfront⟩ := hopening
  have hsource : source = front ++ (ofString "/*" ++ rest) := by
    rw [← List.append_assoc, hfront, ← hcut.onward_eq, before_append_onward]
  have hstart : s.start = width front + 2 := by
    rw [← width_before hcut.isBoundary, ← hfront, width_append]
    rfl
  have hspan : commentSpan source s = ⟨width front, min (s.stop + 2) (width source)⟩ := by
    unfold commentSpan
    dsimp only
    rw [hcut.onward_eq, if_neg hmark, if_pos (List.isSuffixOf_iff_suffix.mpr ⟨front, hfront⟩),
      hstart, Nat.add_sub_cancel]
  apply kind_ofComment_of_cut
  · rw [hspan]
    exact ⟨front, hsource, rfl⟩
  · rw [hspan]
    dsimp only
    rw [Nat.le_min]
    omega

/-- The token of a comment of the text that is no block comment begins with the comment or two
bytes before it. -/
theorem HasComment.span_eq (h : HasComment source s)
    (hkind : (Token.ofComment source s).kind ≠ .blockComment) :
  (Token.ofComment source s).span = s ∨ (Token.ofComment source s).span = ⟨s.start - 2, s.stop⟩
  := by
  obtain ⟨body, rest, -, hcut, hstop⟩ := h
  have hwidth : s.stop ≤ width source := by
    obtain ⟨front, hsource, hfront⟩ := hcut
    rw [hstop, ← hfront, hsource, width_append, width_append]
    omega
  rw [Token.span_ofComment, Token.commentSpan, hcut.onward_eq]
  split
  · exact Or.inl rfl
  · next hmark =>
      split
      · next hopening =>
          have hblock := Token.kind_ofComment_of_opening hcut hmark
            (List.isSuffixOf_iff_suffix.mp hopening) (by omega) hwidth
          exact absurd hblock hkind
      · exact Or.inr rfl

end Script

/-! ### The script view of a document -/

variable {document : Text} {tags : List Tag}

end Stencil
