import Stencil.Tag.Settings

/-!
# Finding the tags

`Settings.tags` lists the tags of a document from left to right.  At each place the tag that
begins first is taken, and among tags that begin together the preferred kind.  The text
between two tags may not hold the opener of any kind, and no tag may be empty.
-/

namespace Stencil

/-- The reasons why a document has no list of tags. -/
inductive TagError where
  | unterminated (span : Span)
  | emptyMatch (span : Span)
  deriving DecidableEq, Repr

namespace TagError

/-- The wording of an error. -/
def message : TagError → String
  | unterminated _ => "unterminated template tag"
  | emptyMatch _ => "tag pattern matched an empty string"

/-- The place of an error. -/
def span : TagError → Span
  | unterminated s => s
  | emptyMatch s => s

end TagError

namespace Settings

/-- The tag of a match.  Where the first group took no part, the code is empty and stands at
the end. -/
def tagOfMatch (kind : Tag.Kind) (m : Pattern.Match) : Tag :=
  .ofCode kind m.span (m.code.getD ⟨m.span.stop, m.span.stop⟩)

/-- The better of the tag found so far and another candidate. -/
def better (best : Option Tag) (candidate : Tag) : Tag :=
  match best with
  | none => candidate
  | some tag => if tag.span.start ≤ candidate.span.start then tag else candidate

/-- The next tag that begins at offset `start` or later. -/
def nextTag? (s : Settings) (document : Text) (start : Nat) : Option Tag :=
  s.ordered.foldl
    (fun best (kind, p) =>
      match p.pattern.find? document start with
      | none => best
      | some m => some (better best (tagOfMatch kind m)))
    none

/-- The first place in a text where an opener stands. -/
def openerIn? (s : Settings) (t : Text) : Option Nat :=
  (s.ordered.filterMap fun (_, p) => p.opener.bind (Text.find? · t)).min?

/-- The tags from offset `start` on, at most `limit` of them. -/
def tagsFrom (s : Settings) (document : Text) : Nat → Nat → Except TagError (List Tag)
  | 0, _ => .ok []
  | limit + 1, start =>
    let size := Text.width document
    let next := s.nextTag? document start
    let gapEnd := (next.map (·.span.start)).getD size
    match s.openerIn? (Text.slice document start gapEnd) with
    | some pos => .error (.unterminated ⟨start + pos, size⟩)
    | none =>
      match next with
      | none => .ok []
      | some tag =>
        if tag.span.isEmpty then .error (.emptyMatch tag.span)
        else (tagsFrom s document limit tag.span.stop).map (tag :: ·)

/-- The tags of a document. -/
def tags (s : Settings) (document : Text) : Except TagError (List Tag) :=
  s.tagsFrom document (document.length + 1) 0

end Settings

end Stencil
