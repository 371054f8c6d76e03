import Stencil.Text.Basic

/-!
# Spans

A span is a half-open range of offsets, from `start` up to but not including `stop`.  A span
whose `stop` does not exceed its `start` holds no offset.  `Span.merge` brings a list of spans
into its canonical form: in increasing order, without empty spans, and with a gap between
neighbours.
-/

namespace Stencil

/-- A half-open range of offsets. -/
structure Span where
  start : Nat
  stop : Nat
  deriving DecidableEq, Repr, Inhabited

namespace Span

/-- The number of offsets in a span. -/
def length (s : Span) : Nat := s.stop - s.start

/-- The span holds no offset. -/
def isEmpty (s : Span) : Bool := s.stop ≤ s.start

/-- The span holds the offset `n`. -/
def contains (s : Span) (n : Nat) : Bool := s.start ≤ n && n < s.stop

theorem contains_iff {s : Span} {n : Nat} :
  s.contains n = true ↔ s.start ≤ n ∧ n < s.stop
  := by
  simp [contains]

/-- The ends of `t` lie between the ends of `s`. -/
def encloses (s t : Span) : Bool := s.start ≤ t.start && t.stop ≤ s.stop

/-- Each of the two spans begins before the other one ends. -/
def intersects (s t : Span) : Bool := s.start < t.stop && t.start < s.stop

/-- The least span that encloses both. -/
def cover (s t : Span) : Span := ⟨min s.start t.start, max s.stop t.stop⟩

/-- The order of spans: by the beginning, then by the end. -/
def before (s t : Span) : Bool :=
  s.start < t.start || (s.start == t.start && s.stop < t.stop)

/-- The order of spans as a comparison that sorting can use. -/
def le (s t : Span) : Bool := !t.before s

instance : ToString Span where
  toString s := s!"{s.start}..{s.stop}"

/-- The piece of a text that a span covers. -/
def text (s : Span) (document : Text) : Text := Text.slice document s.start s.stop

/-- Adds one span after spans that begin no later, joining it to the last when they touch.
The spans already taken are given in reverse. -/
def joinStep (taken : List Span) (s : Span) : List Span :=
  match taken with
  | [] => [s]
  | last :: rest =>
    if s.start ≤ last.stop then ⟨last.start, max last.stop s.stop⟩ :: rest
    else s :: last :: rest

/-- The canonical form of a list of spans. -/
def merge (spans : List Span) : List Span :=
  (((spans.filter (!·.isEmpty)).mergeSort le).foldl joinStep []).reverse

end Span

end Stencil
