import Stencil.Text.Lines
import Stencil.Text.Category
import Stencil.Text.Letter

/-!
# Sets of characters

A set of characters is built from ranges and named properties by the set operations and by
closing under letter case.
-/

namespace Stencil

/-- A named property of characters. -/
inductive Property where
  | blank
  | word
  | digit
  | letter
  | uppercase
  | lowercase
  | mark
  | number
  | letterNumber
  | otherNumber
  | connector
  | alphabetic
  | any
  deriving DecidableEq, Repr

/-- The character has the property. -/
def Property.holds : Property → Char → Bool
  | blank => isBlank
  | word => Category.isWord
  | digit => Category.isDigit
  | letter => Category.isLetter
  | uppercase => Category.isUppercase
  | lowercase => Category.isLowercase
  | mark => Category.isMark
  | number => Category.isNumeric
  | letterNumber => Category.isLetterNumber
  | otherNumber => Category.isOtherNumber
  | connector => Category.isConnector
  | alphabetic => Category.isAlphabetic
  | any => fun _ => true

/-- A set of characters. -/
inductive CharSet where
  | none
  | range (first last : Char)
  | having (p : Property)
  | union (s t : CharSet)
  | inter (s t : CharSet)
  | diff (s t : CharSet)
  | compl (s : CharSet)
  | caseless (s : CharSet)
  deriving DecidableEq, Repr

namespace CharSet

/-- Membership in a set. -/
def mem : CharSet → Char → Bool
  | none, _ => false
  | range a b, c => a ≤ c && c ≤ b
  | having p, c => p.holds c
  | union s t, c => s.mem c || t.mem c
  | inter s t, c => s.mem c && t.mem c
  | diff s t, c => s.mem c && !t.mem c
  | compl s, c => !s.mem c
  | caseless s, c => (Letter.variants c).any s.mem

/-- The set with one member. -/
def single (c : Char) : CharSet := range c c

@[simp]
theorem mem_single (a c : Char) :
  (single a).mem c = (a == c)
  := by
  have h : a ≤ c ∧ c ≤ a ↔ a = c := ⟨fun h => Char.le_antisymm h.1 h.2, by rintro rfl; simp⟩
  rw [Bool.eq_iff_iff]
  simpa [single, mem] using h

/-- The characters that lie in exactly one of the two sets. -/
def symmDiff (s t : CharSet) : CharSet := union (diff s t) (diff t s)

/-- Every character. -/
def all : CharSet := having .any

/-- The union of a list of sets. -/
def unions : List CharSet → CharSet
  | [] => none
  | [s] => s
  | s :: rest => union s (unions rest)

end CharSet

end Stencil
