import Stencil.Proofs.View.Edges
import Stencil.Proofs.View.Lines

/-!
# The marks of the script view

What the script view writes over the opening or the closing of a tag is the blanked form of it with
a mark or two: a line feed for the first byte of a closing that does not begin with a line
terminator itself, and semicolons for the last byte of the opening and for the second character of
the closing of an output tag.  A mark takes one byte away from what blanking would write, and never
one of a line terminator.  So widths stay as they are, and line terminators stay in their places.
-/

namespace Stencil

open Text

/-- What ends a line after a cut of a text is one of its line terminators. -/
theorem mem_lineBreaks_of_cut {t rest : Text} {n : Nat} {c : Char} (h : t.Cut n (c :: rest))
    (hc : isLineBreak c = true) :
  (n, c) ∈ lineBreaks t
  := by
  obtain ⟨front, rfl, rfl⟩ := h
  rw [lineBreaks, lineBreaksFrom_append, Nat.zero_add, lineBreaksFrom, if_pos hc]
  simp

/-! ### What is written over an opening or a closing -/

/-- A byte that is replaced is the new one, and the others stay. -/
theorem getElem?_set_eq_or {l : List UInt8} {k n : Nat} {byte : UInt8} (hn : n < l.length) :
  (l.set k byte)[n]? = l[n]? ∨ n = k ∧ (l.set k byte)[n]? = some byte
  := by
  rw [List.getElem?_set]
  split
  · next heq =>
      right
      exact ⟨heq.symm, by rw [if_pos (heq ▸ hn)]⟩
  · left
    rfl

/-- Nothing that is blanked has the byte of a semicolon. -/
theorem notMem_bytes_blank (t : Text) :
  59 ∉ bytes (blank t)
  := by
  intro hin
  obtain ⟨c, hc, hbyte⟩ := List.mem_flatMap.mp hin
  revert hbyte
  rcases isLineBreak_or_eq_space_of_mem_blank hc with hbreak | rfl
  · simp only [isLineBreak, Bool.or_eq_true, beq_iff_eq] at hbreak
    rcases hbreak with ((rfl | rfl) | rfl) | rfl <;> decide
  · decide

/-- A character over another one replaces the first of the spaces that blanking would write. -/
theorem bytes_overwrite {c old : Char} {byte : UInt8} (hc : bytes [c] = [byte])
    (hold : isLineBreak old = false) :
  bytes (overwrite c old) = (bytes (blankChar old)).set 0 byte
  := by
  have hsize : old.utf8Size = old.utf8Size - 1 + 1 :=
    (Nat.sub_add_cancel old.utf8Size_pos).symm
  have hover : bytes (overwrite c old) = bytes [c] ++ bytes (spaces (old.utf8Size - 1)) :=
    bytes_append [c] _
  rw [hover, hc, blankChar, if_neg (by simp [hold]), bytes_spaces, bytes_spaces]
  conv_rhs => rw [hsize]
  rw [List.replicate_succ, List.set_cons_zero, List.singleton_append]

/-- What is written over the opening of an output tag is its blanked form, possibly with a semicolon
for the last byte. -/
theorem bytes_overwriteOpening (t : Text) :
  bytes (overwriteOpening t) = bytes (blank t)
    ∨ bytes (overwriteOpening t) = (bytes (blank t)).set (width t - 1) 59
  := by
  rw [overwriteOpening]
  split
  · left
    rfl
  · next hplain =>
      right
      simp only [Bool.or_eq_true, not_or, Bool.not_eq_true] at hplain
      have hsemicolon : bytes [';'] = [59] := by decide
      have hpos : width t = width t - 1 + 1 := by
        have hlength := length_le_width t
        have hnonempty : t ≠ [] := by simpa using hplain.1
        have := List.length_pos_iff.mpr hnonempty
        omega
      rw [blank_eq_spaces hplain.2, bytes_append, bytes_spaces, bytes_spaces, hsemicolon]
      conv_rhs => rw [hpos]
      rw [List.replicate_succ', Nat.add_sub_cancel, List.set_append_right _ _ (by simp)]
      simp

/-- What is written over the first character of a closing. -/
def overwriteFirst (c : Char) : Text := if isLineBreak c then [c] else overwrite '\n' c

/-- What is written over the closing of a tag behind its first character. -/
def overwriteBehind (semicolon : Bool) : Text → Text
  | [] => []
  | second :: rest =>
    if semicolon && !isLineBreak second then overwrite ';' second ++ blank rest
    else blank (second :: rest)

theorem overwriteClosing_cons (semicolon : Bool) (first : Char) (rest : Text) :
  overwriteClosing semicolon (first :: rest)
    = overwriteFirst first ++ overwriteBehind semicolon rest
  := by
  cases rest <;> rfl

theorem length_bytes_blankChar_pos (c : Char) :
  0 < (bytes (blankChar c)).length
  := by
  rw [length_bytes, width_blankChar]
  apply c.utf8Size_pos

theorem bytes_overwriteFirst (c : Char) :
  bytes (overwriteFirst c) = bytes (blankChar c)
    ∨ bytes (overwriteFirst c) = (bytes (blankChar c)).set 0 10
  := by
  rw [overwriteFirst]
  split
  · next hbreak =>
      left
      rw [blankChar, if_pos hbreak]
  · next hplain =>
      right
      apply bytes_overwrite (by decide) (by simpa using hplain)

theorem bytes_overwriteBehind (semicolon : Bool) (t : Text) :
  bytes (overwriteBehind semicolon t) = bytes (blank t)
    ∨ semicolon = true ∧ bytes (overwriteBehind semicolon t) = (bytes (blank t)).set 0 59
  := by
  cases t with
  | nil => exact Or.inl rfl
  | cons second rest =>
      rw [overwriteBehind]
      split
      · next hplain =>
          right
          simp only [Bool.and_eq_true, Bool.not_eq_true'] at hplain
          have hsemicolon : bytes [';'] = [59] := by decide
          refine ⟨hplain.1, ?_⟩
          rw [blank_cons, bytes_append, bytes_append, bytes_overwrite hsemicolon hplain.2,
            List.set_append_left _ _ (length_bytes_blankChar_pos second)]
      · left
        rfl

/-- What is written over the closing of a tag is its blanked form, possibly with a line feed for the
first byte and, if that is asked for, with a semicolon for the first byte of the second
character. -/
theorem bytes_overwriteClosing (semicolon : Bool) (t : Text) :
  ∃ l, (l = bytes (blank t) ∨ l = (bytes (blank t)).set 0 10)
    ∧ (bytes (overwriteClosing semicolon t) = l
      ∨ semicolon = true ∧ bytes (overwriteClosing semicolon t) = l.set (width (t.take 1)) 59)
  := by
  cases t with
  | nil => exact ⟨_, Or.inl rfl, Or.inl rfl⟩
  | cons first rest =>
      have hfirst : (bytes (overwriteFirst first)).length = width ((first :: rest).take 1) := by
        rcases bytes_overwriteFirst first with h | h <;> rw [h] <;> simp
      use bytes (overwriteFirst first) ++ bytes (blank rest)
      constructor
      · rw [blank_cons, bytes_append]
        apply (bytes_overwriteFirst first).imp
        · intro h
          rw [h]
        · intro h
          rw [h, List.set_append_left _ _ (length_bytes_blankChar_pos first)]
      · rw [overwriteClosing_cons, bytes_append, ← hfirst]
        apply (bytes_overwriteBehind semicolon rest).imp
        · intro h
          rw [h]
        · rintro ⟨hset, h⟩
          refine ⟨hset, ?_⟩
          rw [h, List.set_append_right _ _ (Nat.le_refl _), Nat.sub_self]

/-! ### Widths and line terminators -/

/-- A text has the width of another one and, where that one has a line terminator, the same line
terminator. -/
structure Text.KeepsLines (t s : Text) : Prop where
  width : width s = width t
  lineBreaksFrom : ∀ pos, (lineBreaksFrom pos t).Sublist (lineBreaksFrom pos s)

namespace Text.KeepsLines

theorem refl (t : Text) :
  KeepsLines t t
  := ⟨rfl, fun _ => List.Sublist.refl _⟩

theorem append {t s t' s' : Text} (h : KeepsLines t s) (h' : KeepsLines t' s') :
  KeepsLines (t ++ t') (s ++ s')
  := by
  constructor
  · rw [width_append, width_append, h.width, h'.width]
  · intro pos
    rw [lineBreaksFrom_append, lineBreaksFrom_append, h.width]
    apply (h.lineBreaksFrom pos).append (h'.lineBreaksFrom _)

theorem blank (t : Text) :
  KeepsLines t (blank t)
  := by
  constructor
  · apply width_blank
  · intro pos
    rw [lineBreaksFrom_blank]

/-- Any text keeps the lines of a text on one line. -/
theorem of_onOneLine {t s : Text} (hwidth : Text.width s = Text.width t)
    (ht : hasLineBreak t = false) :
  KeepsLines t s
  := by
  constructor
  · exact hwidth
  · intro pos
    rw [lineBreaksFrom_of_countP (hasLineBreak_eq_false_iff.mp ht)]
    apply List.nil_sublist

theorem overwrite {c old : Char} (hc : c.utf8Size = 1) (hold : isLineBreak old = false) :
  KeepsLines [old] (overwrite c old)
  := by
  apply of_onOneLine
  · rw [width_overwrite hc, width_cons, width_nil, Nat.add_zero]
  · simp [hasLineBreak, hold]

end Text.KeepsLines

theorem keepsLines_overwriteOpening (t : Text) :
  KeepsLines t (overwriteOpening t)
  := by
  have hwidth : width (overwriteOpening t) = width t := by
    rw [← length_bytes, ← width_blank t, ← length_bytes]
    rcases bytes_overwriteOpening t with h | h <;> rw [h]
    rw [List.length_set]
  rw [overwriteOpening] at *
  split
  · apply KeepsLines.blank
  · next hplain =>
      rw [if_neg hplain] at hwidth
      simp only [Bool.or_eq_true, not_or, Bool.not_eq_true] at hplain
      apply KeepsLines.of_onOneLine hwidth hplain.2

theorem keepsLines_overwriteClosing (semicolon : Bool) (t : Text) :
  KeepsLines t (overwriteClosing semicolon t)
  := by
  cases t with
  | nil => exact .refl []
  | cons first rest =>
      rw [overwriteClosing_cons, ← List.singleton_append]
      apply KeepsLines.append
      · rw [overwriteFirst]
        split
        · apply KeepsLines.refl
        · next hplain => exact KeepsLines.overwrite rfl (by simpa using hplain)
      · cases rest with
        | nil => exact .refl []
        | cons second rest =>
            rw [overwriteBehind]
            split
            · next hplain =>
                simp only [Bool.and_eq_true, Bool.not_eq_true'] at hplain
                rw [← List.singleton_append]
                exact (KeepsLines.overwrite rfl hplain.2).append (.blank rest)
            · apply KeepsLines.blank

end Stencil
