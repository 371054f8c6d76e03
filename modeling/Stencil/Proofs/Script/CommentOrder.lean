import Stencil.Proofs.Script.Comments
import Stencil.Proofs.Script.Enclosing

/-!
# The order of comments

A reader meets the comments of a script from left to right, and it never comes back to one.  So the
comments stand one before the other.  The token of a comment may begin two bytes too early and end
two bytes too late, but each comment has at least two bytes, and three where its token does not
stand where the comment does.  So the tokens of comments begin and end in order as well, and no two
of them have the same span.  Those that lie in a span are therefore found by bisection.
-/

namespace Stencil.Script

open Text

/-- The comments of a script stand one before the other. -/
theorem Parsed.pairwise_comments {t : Text} {parsed : Parsed} (h : ofText t = .ok parsed) :
  parsed.comments.Pairwise fun s later => s.stop ≤ later.start
  := by
  obtain ⟨body, r, hrun, hfaults, rfl⟩ := exists_run_of_ofText h
  have hkeeps : (edges t).Keeps True (Parse.script (Level.ofHeight (t.length + 2))) :=
    Footing.keeps_script _
  obtain ⟨hstart, hholds⟩ := hkeeps.keeps hrun (r.lexFaults_of_allFaults hfaults)
  have hend := (hholds trivial ((bears_edges t).first hstart)).1
  exact List.pairwise_reverse.mpr hend.descend.pairwise

variable {source : Text} {s : Span}

/-- A comment has two bytes, and three if it begins with a mark that is taken over from markup. -/
theorem HasComment.le_stop (h : HasComment source s) :
  s.start + 2 ≤ s.stop ∧ (¬ BeginsSlash source s → s.start + 3 ≤ s.stop)
    ∧ s.stop ≤ width source
  := by
  obtain ⟨body, rest, hbody, hcut, hstop⟩ := h
  obtain ⟨mark, hmark, tail, rfl⟩ : ∃ mark ∈ ofString "/*" :: lineCommentMarks, mark <+: body := by
    rcases hbody with ⟨⟨mark, hmark, hbegins⟩, -⟩ | hbegins
    · exact ⟨mark, List.mem_cons_of_mem _ hmark, hbegins⟩
    · exact ⟨_, List.mem_cons_self .., hbegins⟩
  rw [hstop, width_append]
  refine ⟨?_, fun hslash => ?_, ?_⟩
  · have hwidth : ∀ mark ∈ ofString "/*" :: lineCommentMarks, 2 ≤ width mark := by decide
    have := hwidth mark hmark
    omega
  · rw [BeginsSlash, hcut.onward_eq, List.append_assoc] at hslash
    have hwidth : 3 ≤ width mark := by
      simp only [lineCommentMarks, List.mem_cons, List.not_mem_nil, or_false] at hmark
      rcases hmark with rfl | rfl | rfl | rfl
      · exact absurd (Or.inr (List.prefix_append ..)) hslash
      · exact absurd (Or.inl (List.prefix_append ..)) hslash
      · decide
      · decide
    omega
  · rw [← width_append]
    exact hcut.append.isBoundary.le_width

/-- The token of a comment takes up the comment.  Where it takes up more, this is at most two bytes
at each end, and the comment has three bytes. -/
theorem HasComment.commentSpan_bounds (h : HasComment source s) :
  Token.commentSpan source s = s
    ∨ s.start + 3 ≤ s.stop ∧ (Token.commentSpan source s).start = s.start - 2
      ∧ s.stop ≤ (Token.commentSpan source s).stop
      ∧ (Token.commentSpan source s).stop ≤ s.stop + 2
  := by
  obtain ⟨-, hlong, hwidth⟩ := h.le_stop
  by_cases hslash : BeginsSlash source s
  · exact .inl (Token.commentSpan_of_beginsSlash hslash)
  · right
    refine ⟨hlong hslash, (Token.commentSpan_of_not_beginsSlash hslash).1, ?_⟩
    unfold Token.commentSpan
    dsimp only
    split
    · omega
    · split
      · exact ⟨Nat.le_min.mpr ⟨by omega, hwidth⟩, Nat.min_le_left ..⟩
      · dsimp only
        omega

/-- The first span begins and ends no later than the second one, and they are not the same. -/
structure Precedes (a b : Span) : Prop where
  start : a.start ≤ b.start
  stop : a.stop ≤ b.stop
  ne : a ≠ b

/-- The token of a comment precedes that of a comment behind it. -/
theorem HasComment.precedes {later : Span} (h : HasComment source s)
    (hlater : HasComment source later) (hle : s.stop ≤ later.start) :
  Precedes (Token.commentSpan source s) (Token.commentSpan source later)
  := by
  obtain ⟨hlength, -, -⟩ := h.le_stop
  obtain ⟨hlaterLength, -, -⟩ := hlater.le_stop
  have hbounds := h.commentSpan_bounds
  have hlaterBounds := hlater.commentSpan_bounds
  generalize Token.commentSpan source s = a at *
  generalize Token.commentSpan source later = b at *
  obtain ⟨start, stop⟩ := a
  obtain ⟨laterStart, laterStop⟩ := b
  rcases hbounds with rfl | hbounds <;> rcases hlaterBounds with rfl | hlaterBounds <;>
    exact ⟨by dsimp only at *; omega, by dsimp only at *; omega,
      by simp only [ne_eq, Span.mk.injEq] at *; omega⟩

namespace Program

variable {p : Program}

/-- The tokens of the comments of a program precede each other. -/
theorem pairwise_comments (h : ofText source = .ok p) :
  p.comments.Pairwise fun k later => Precedes k.span later.span
  := by
  obtain ⟨parsed, hparsed, -, hcomments, -⟩ := parsed_of_ofText h
  have hcomment := (Parsed.stands_of_ofText (bears_edges source) hparsed).2
  rw [hcomments, List.pairwise_map]
  apply (Parsed.pairwise_comments hparsed).imp_of_mem
  intro s later hs hlater hle
  rw [Token.span_ofComment, Token.span_ofComment]
  exact (hcomment s hs).precedes (hcomment later hlater) hle

/-- The comments of a program are found that lie in a span. -/
theorem commentsIn_eq (h : ofText source = .ok p) (s : Span) :
  p.commentsIn s = p.comments.filter (s.encloses ·.span)
  := by
  have hpairwise := pairwise_comments h
  apply InOrder.within_eq
  exact ⟨hpairwise.imp Precedes.start, hpairwise.imp Precedes.stop⟩

/-- The token of a comment is not empty. -/
theorem comment_nonempty (h : ofText source = .ok p) {k : Token} (hk : k ∈ p.comments) :
  k.span.start < k.span.stop
  := by
  obtain ⟨spans, hspans, hcomments⟩ := exists_comments h
  rw [hcomments] at hk
  obtain ⟨s, hs, rfl⟩ := List.mem_map.mp hk
  rw [Token.span_ofComment]
  have hlength := (hspans s hs).le_stop.1
  rcases (hspans s hs).commentSpan_bounds with heq | hbounds
  · rw [heq]
    omega
  · omega

end Program

end Stencil.Script
