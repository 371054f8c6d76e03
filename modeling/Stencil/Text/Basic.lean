/-!
# Texts

A text is the list of its characters.  A place in a text is an offset in bytes of its UTF-8
encoding, so the character `c` occupies `c.utf8Size` consecutive offsets and the offsets at
which a character begins, together with the end of the text, are its boundaries.
`Text.before` and `Text.onward` cut a text at an offset; at a boundary `n` they split the text
into two pieces, the first of which has width `n`.
-/

namespace Stencil

/-- A text, as the list of its characters. -/
abbrev Text := List Char

instance instLawfulBEqText : LawfulBEq Text := inferInstance

namespace Text

/-- The number of bytes of a text. -/
def width : Text → Nat
  | [] => 0
  | c :: t => c.utf8Size + width t

@[simp]
theorem width_nil :
  width [] = 0
  := rfl

@[simp]
theorem width_cons (c : Char) (t : Text) :
  width (c :: t) = c.utf8Size + width t
  := rfl

@[simp]
theorem width_append (s t : Text) :
  width (s ++ t) = width s + width t
  := by
  induction s with
  | nil => simp
  | cons c s ih => simp [ih, Nat.add_assoc]

/-- The characters that begin at offset `n` or later. -/
def onward : Nat → Text → Text
  | _, [] => []
  | n, c :: t => if n = 0 then c :: t else onward (n - c.utf8Size) t

/-- The characters that begin before offset `n`. -/
def before : Nat → Text → Text
  | _, [] => []
  | n, c :: t => if n = 0 then [] else c :: before (n - c.utf8Size) t

theorem before_append_onward (n : Nat) (t : Text) :
  before n t ++ onward n t = t
  := by
  induction t generalizing n with
  | nil => rfl
  | cons c t ih => by_cases h : n = 0 <;> simp [before, onward, h, ih]

theorem length_onward_le (n : Nat) (t : Text) :
  (onward n t).length ≤ t.length
  := by
  induction t generalizing n with
  | nil => simp [onward]
  | cons c t ih =>
    unfold onward
    split
    · simp
    · exact Nat.le_succ_of_le (ih _)

/-- The offset `n` is the end of the text or the beginning of one of its characters. -/
def IsBoundary : Nat → Text → Prop
  | n, [] => n = 0
  | n, c :: t => n = 0 ∨ (c.utf8Size ≤ n ∧ IsBoundary (n - c.utf8Size) t)

instance decidableIsBoundary : (n : Nat) → (t : Text) → Decidable (IsBoundary n t)
  | n, [] => inferInstanceAs (Decidable (n = 0))
  | n, c :: t =>
    have := decidableIsBoundary (n - c.utf8Size) t
    inferInstanceAs (Decidable (n = 0 ∨ (c.utf8Size ≤ n ∧ IsBoundary (n - c.utf8Size) t)))

theorem width_before {n : Nat} {t : Text} (h : IsBoundary n t) :
  width (before n t) = n
  := by
  induction t generalizing n with
  | nil => exact h.symm
  | cons c t ih =>
    by_cases hn : n = 0
    · simp [before, hn]
    · obtain ⟨hc, ht⟩ := h.resolve_left hn
      simp [before, hn, ih ht]
      omega

/-- The piece of `t` from offset `a` to offset `b`. -/
def slice (t : Text) (a b : Nat) : Text :=
  before (b - a) (onward a t)

/-- The offset of the first occurrence of `needle` in `t`. -/
def find? (needle : Text) : Text → Option Nat
  | [] => if needle.isEmpty then some 0 else none
  | c :: t =>
    if needle.isPrefixOf (c :: t) then some 0
    else (find? needle t).map (c.utf8Size + ·)

/-- The text without the blank characters at its two ends, where `blank` decides which are. -/
def trim (blank : Char → Bool) (t : Text) : Text :=
  ((t.dropWhile blank).reverse.dropWhile blank).reverse

/-- The text of a string literal. -/
def ofString (s : String) : Text := s.toList

end Text

/-- The value of a hexadecimal digit. -/
def hexDigit? (c : Char) : Option Nat :=
  if '0' ≤ c && c ≤ '9' then some (c.toNat - '0'.toNat)
  else if 'a' ≤ c && c ≤ 'f' then some (c.toNat - 'a'.toNat + 10)
  else if 'A' ≤ c && c ≤ 'F' then some (c.toNat - 'A'.toNat + 10)
  else none

end Stencil
