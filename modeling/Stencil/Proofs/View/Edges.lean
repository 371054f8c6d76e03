import Stencil.Proofs.Tag.Tiling
import Stencil.View.Script

/-!
# Edges of the script view

An edge of a text is an offset next to something that is written: to a character that is neither a
space nor the end of a line, or else to the end of a line or of the text.  The lexemes of a script
begin and end at edges.  What blanking puts over a character has no edge inside it, and so the
edges of the script view are boundaries of the document, unless a semicolon is written over a part
of a character that has several bytes.
-/

namespace Stencil

open Text

/-- The character is neither a space nor the end of a line. -/
def isInk (c : Char) : Bool := c != ' ' && !isLineBreak c

/-- The offset is the beginning of the text, or next to a character that is written, or before the
end of a line or of the text. -/
def Text.IsEdge (t : Text) (n : Nat) : Prop :=
  ∃ front back, t = front ++ back ∧ width front = n
    ∧ (front = [] ∨ (∃ c ∈ front.getLast?, isInk c = true) ∨ back.head? ≠ some ' ')

/-- The text may stand in place of a character: it has the width of the character and no edge
inside it. -/
structure Text.Conceals (c : Char) (piece : Text) : Prop where
  width_eq : width piece = c.utf8Size
  noEdge : ∀ front back, piece = front ++ back → front ≠ [] → back ≠ [] →
    (∀ d ∈ front.getLast?, isInk d = false) ∧ back.head? = some ' '

/-- The text stands in place of another one, with a text that has no edge inside it in place of
each character. -/
inductive Text.Veils : Text → Text → Prop where
  | nil : Veils [] []
  | cons {c : Char} {piece t s : Text} (h : Conceals c piece) (rest : Veils t s) :
      Veils (c :: t) (piece ++ s)

namespace Text.Veils

theorem append {t s t' s' : Text} (h : Veils t s) (h' : Veils t' s') :
  Veils (t ++ t') (s ++ s')
  := by
  induction h with
  | nil => exact h'
  | cons hpiece _ ih =>
      rw [List.cons_append, List.append_assoc]
      apply cons hpiece ih

theorem singleton {c : Char} {piece : Text} (h : Conceals c piece) :
  Veils [c] piece
  := by
  have hcons := cons h nil
  rwa [List.append_nil] at hcons

/-- The edges of a text that stands in place of another one are boundaries of the other one. -/
theorem isBoundary_of_isEdge {t s : Text} (h : Veils t s) {n : Nat} (hn : s.IsEdge n) :
  IsBoundary n t
  := by
  induction h generalizing n with
  | nil =>
      obtain ⟨front, back, hsplit, rfl, -⟩ := hn
      obtain ⟨rfl, -⟩ := List.append_eq_nil_iff.mp hsplit.symm
      apply isBoundary_zero
  | @cons c piece t s hpiece _ ih =>
      obtain ⟨front, back, hsplit, rfl, hedge⟩ := hn
      rcases List.append_eq_append_iff.mp hsplit with ⟨past, rfl, rfl⟩ | ⟨rest, hfront, rfl⟩
      · -- the edge stands after what is in place of the first character
        right
        rw [width_append, hpiece.width_eq, Nat.add_sub_cancel_left]
        refine ⟨Nat.le_add_right _ _, ih ⟨past, back, rfl, rfl, ?_⟩⟩
        by_cases hpast : past = []
        · exact Or.inl hpast
        · rw [List.getLast?_append_of_ne_nil _ hpast] at hedge
          exact Or.inr (hedge.resolve_left (by simp [hpast]))
      · by_cases hnil : front = []
        · rw [hnil]
          apply isBoundary_zero
        by_cases hrest : rest = []
        · right
          rw [hrest, List.append_nil] at hfront
          rw [← hfront, hpiece.width_eq, Nat.sub_self]
          exact ⟨Nat.le_refl _, isBoundary_zero t⟩
        · obtain ⟨hlast, hhead⟩ := hpiece.noEdge front rest hfront hnil hrest
          rw [List.head?_append_of_ne_nil _ hrest, hhead] at hedge
          rcases hedge with hedge | ⟨d, hd, hink⟩ | hedge
          · exact absurd hedge hnil
          · rw [hlast d hd] at hink
            cases hink
          · exact absurd rfl hedge

end Text.Veils

/-! ### What stands in place of a character -/

theorem conceals_self (c : Char) :
  Conceals c [c]
  := by
  refine ⟨rfl, ?_⟩
  intro front back hsplit hfront hback
  have hlength := congrArg List.length hsplit
  have := List.length_pos_iff.mpr hfront
  have := List.length_pos_iff.mpr hback
  rw [List.length_append, List.length_singleton] at hlength
  omega

/-- A character with spaces after it has no edge inside, unless there is a space and the character
is written. -/
theorem conceals_overwrite {d c : Char} (hwidth : d.utf8Size = 1)
    (h : isInk d = true → c.utf8Size = 1) :
  Conceals c (overwrite d c)
  := by
  have hc := c.utf8Size_pos
  constructor
  · rw [overwrite, width_cons, width_spaces, hwidth]
    omega
  · intro front back hsplit hfront hback
    obtain ⟨first, front, rfl⟩ := List.exists_cons_of_ne_nil hfront
    rw [overwrite, List.cons_append] at hsplit
    obtain ⟨rfl, hspaces⟩ := List.cons_eq_cons.mp hsplit
    have hblank : ∀ e ∈ front ++ back, e = ' ' := by
      rw [← hspaces]
      exact fun e he => List.eq_of_mem_replicate he
    obtain ⟨second, back, rfl⟩ := List.exists_cons_of_ne_nil hback
    constructor
    · intro e he
      by_cases hnil : front = []
      · rw [hnil, List.getLast?_singleton, Option.mem_some_iff] at he
        rw [← he, Bool.eq_false_iff]
        intro hink
        rw [h hink, hnil, List.nil_append] at hspaces
        cases hspaces
      · have hmem : e ∈ front := by
          rw [← List.singleton_append, List.getLast?_append_of_ne_nil _ hnil] at he
          exact List.mem_of_getLast? he
        rw [hblank e (List.mem_append_left _ hmem)]
        rfl
    · rw [List.head?_cons, hblank second (List.mem_append_right _ List.mem_cons_self)]

theorem conceals_blankChar (c : Char) :
  Conceals c (blankChar c)
  := by
  have hc := c.utf8Size_pos
  rw [blankChar]
  split
  · apply conceals_self
  · have hover : spaces c.utf8Size = overwrite ' ' c := by
      rw [overwrite, spaces, spaces, ← List.replicate_succ, Nat.sub_add_cancel hc]
    rw [hover]
    apply conceals_overwrite rfl
    simp [isInk]

theorem veils_self (t : Text) :
  Veils t t
  := by
  induction t with
  | nil => exact .nil
  | cons c t ih => exact .cons (conceals_self c) ih

theorem veils_blank (t : Text) :
  Veils t (blank t)
  := by
  induction t with
  | nil => exact .nil
  | cons c t ih => exact .cons (conceals_blankChar c) ih

/-! ### The parts of a tag -/

/-- No semicolon of the script view is written over a part of a character with several bytes: at the
end of the opening of an output tag stands a character of one byte, and one at the second place of
its closing, unless the opening holds or that character is the end of a line. -/
structure Tag.SemicolonsFit (document : Text) (tag : Tag) : Prop where
  opening : tag.kind.isOutput = true → hasLineBreak (tag.opening.text document) = false →
    ∀ c ∈ (tag.opening.text document).getLast?, c.utf8Size = 1
  closing : tag.kind.isOutput = true →
    ∀ c ∈ (tag.closing.text document)[1]?, isLineBreak c = false → c.utf8Size = 1

instance Tag.decidableSemicolonsFit (document : Text) (tag : Tag) :
    Decidable (tag.SemicolonsFit document) :=
  decidable_of_iff
    ((tag.kind.isOutput = true → hasLineBreak (tag.opening.text document) = false →
        (tag.opening.text document).getLast?.toList.all (·.utf8Size == 1) = true)
      ∧ (tag.kind.isOutput = true →
        (tag.closing.text document)[1]?.toList.all (fun c => isLineBreak c || c.utf8Size == 1)
          = true))
    ⟨fun ⟨h₁, h₂⟩ => ⟨by simpa using h₁, by simpa [or_iff_not_imp_left] using h₂⟩,
      fun h => ⟨by simpa using h.opening, by simpa [or_iff_not_imp_left] using h.closing⟩⟩

theorem blank_eq_spaces {t : Text} (h : hasLineBreak t = false) :
  blank t = spaces (width t)
  := by
  induction t with
  | nil => rfl
  | cons c t ih =>
      rw [hasLineBreak, List.any_cons, Bool.or_eq_false_iff] at h
      rw [blank_cons, ih h.2, blankChar, if_neg (by simp [h.1]), width_cons, spaces, spaces, spaces,
        ← List.replicate_add]

theorem veils_overwriteOpening {t : Text}
    (h : hasLineBreak t = false → ∀ c ∈ t.getLast?, c.utf8Size = 1) :
  Veils t (overwriteOpening t)
  := by
  rw [overwriteOpening]
  split
  · apply veils_blank
  · next hplain =>
      simp only [Bool.or_eq_true, not_or, Bool.not_eq_true] at hplain
      obtain ⟨hnonempty, hbreak⟩ := hplain
      obtain ⟨front, last, rfl⟩ :=
        (List.eq_nil_or_concat' t).resolve_left (by simpa using hnonempty)
      have hlast : last.utf8Size = 1 := h hbreak last (by simp)
      have hfront : hasLineBreak front = false := by
        rw [hasLineBreak, List.any_append, Bool.or_eq_false_iff] at hbreak
        exact hbreak.1
      have hmark : overwrite ';' last = [';'] := by
        rw [overwrite, hlast]
        rfl
      have hsemicolon : Conceals last (overwrite ';' last) :=
        conceals_overwrite rfl fun _ => hlast
      rw [width_append, width_cons, width_nil, hlast, Nat.add_sub_cancel, ← blank_eq_spaces hfront,
        ← hmark]
      apply (veils_blank front).append (.singleton hsemicolon)

theorem veils_overwriteClosing {semicolon : Bool} {t : Text}
    (h : semicolon = true → ∀ c ∈ t[1]?, isLineBreak c = false → c.utf8Size = 1) :
  Veils t (overwriteClosing semicolon t)
  := by
  cases t with
  | nil => exact .nil
  | cons first rest =>
      have hfirst :
          Conceals first (if isLineBreak first then [first] else overwrite '\n' first) := by
        split
        · apply conceals_self
        · exact conceals_overwrite rfl fun hink => absurd hink (by decide)
      unfold overwriteClosing
      apply Veils.cons hfirst
      cases rest with
      | nil => exact .nil
      | cons second rest =>
          dsimp only
          split
          · next hplain =>
              simp only [Bool.and_eq_true, Bool.not_eq_true'] at hplain
              have hsecond := h hplain.1 second (by simp) hplain.2
              exact .cons (conceals_overwrite rfl fun _ => hsecond) (veils_blank rest)
          · apply veils_blank

/-- The text for a tag in the script view has no edge inside a character of the tag. -/
theorem veils_scriptOfTag {document : Text} {tag : Tag} (hspan : tag.span.OnBoundaries document)
    (htiled : tag.Tiled document) (hfit : tag.SemicolonsFit document) :
  Veils (tag.span.text document) (scriptOfTag document tag)
  := by
  rw [← htiled.partsText_eq hspan, Tag.partsText, scriptOfTag]
  apply Veils.append
  · apply Veils.append
    · split
      · next houtput => exact veils_overwriteOpening (hfit.opening houtput)
      · apply veils_blank
    · apply veils_self
  · exact veils_overwriteClosing hfit.closing

/-- The edges of the script view are boundaries of the document. -/
theorem Settings.isBoundary_of_isEdge_scriptView {settings : Settings} {document : Text}
    {tags : List Tag} (htags : settings.tags document = .ok tags)
    (hfit : ∀ tag ∈ tags, tag.SemicolonsFit document) {n : Nat}
    (hn : (scriptView document tags).IsEdge n) :
  IsBoundary n document
  := by
  have hplaced := settings.placed_tags htags
  have hveils := related_replaceTags Veils.append veils_blank tags (isBoundary_zero document)
    hplaced (fun _ _ => Nat.zero_le _) fun tag htag =>
      veils_scriptOfTag (hplaced.onBoundaries tag htag) (tiled_of_tags htags tag htag).2
        (hfit tag htag)
  rw [onward_zero] at hveils
  exact hveils.isBoundary_of_isEdge hn

end Stencil
