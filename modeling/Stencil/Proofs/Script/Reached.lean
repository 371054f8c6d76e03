import Stencil.Proofs.Script.Keeping
import Stencil.Proofs.Script.Locality

/-!
# Lexemes further on

What a reader meets further on in a text stands in the text that it has not read yet.  So where no
arrow is written, no arrow is met, whether there are faults or not.
-/

namespace Stencil.Script

open Text

variable {c : Char} {s t : Text}

/-! ### What is left of a text -/

theorem suffix_readString (quote : Char) (t : Text) :
  (readString quote t).rest <:+ t
  := by
  fun_induction readString quote t with
  | case1 => exact List.suffix_refl _
  | case2 => exact List.suffix_cons _ _
  | case3 t ih => exact ih.trans (List.suffix_append ['\\', '\r', '\n'] t)
  | case4 c t _ ih => exact ih.trans (List.suffix_append ['\\', c] t)
  | case5 | case6 => exact List.suffix_cons _ _
  | case7 c t _ _ _ _ _ ih => exact ih.trans (List.suffix_cons c t)

theorem suffix_readTemplate (t : Text) :
  (readTemplate t).rest <:+ t
  := by
  fun_induction readTemplate t with
  | case1 => exact List.suffix_refl _
  | case2 | case4 => exact List.suffix_cons _ _
  | case3 c t ih => exact ih.trans (List.suffix_append ['\\', c] t)
  | case5 t => exact List.suffix_append ['$', '{'] t
  | case6 c t _ _ _ _ ih => exact ih.trans (List.suffix_cons c t)

theorem suffix_readRegex (escaped inClass : Bool) (t : Text) :
  (readRegex escaped inClass t).rest <:+ t
  := by
  fun_induction readRegex escaped inClass t with
  | case1 => exact List.suffix_refl _
  | case2 | case4 => exact List.suffix_cons _ _
  | case3 | case5 | case6 | case7 =>
      rename_i ih
      exact ih.trans (List.suffix_cons _ _)

theorem suffix_templateLexeme (atStart : Bool) (t : Text) :
  (templateLexeme atStart t).2.2 <:+ t
  := by
  unfold templateLexeme
  dsimp only
  split <;> exact suffix_readTemplate t

theorem suffix_skipTrivia (mode : TriviaMode) (offset : Nat) (newLine : Bool)
    (comments : List Span) (t : Text) :
  (skipTrivia mode offset newLine comments t).rest <:+ t
  := by
  obtain ⟨gap, heq, -⟩ := passes_skipTrivia mode offset newLine comments t
  conv_rhs => rw [heq]
  exact List.suffix_append gap _

/-! ### What a lexeme shows -/

/-- A lexeme leaves a part of the text that it begins, and an arrow is written as one. -/
structure Lexed.Shows (l : Lexed) : Prop where
  rest : l.rest <:+ l.here
  arrow : l.lexeme = .mark "=>" → ['=', '>'] <+: l.here

theorem arrow_lexemeAt (h : (lexemeAt c t).1 = .mark "=>") :
  ['=', '>'] <+: c :: t
  := ⟨_, (eq_append_of_lexemeAt h).symm⟩

theorem shows_lexHere (start : Nat) (newLine : Bool) (comments : List Span)
    (hhead : ∀ c ∈ t.head?, isInk c = true) :
  (lexHere start newLine comments t).Shows
  := by
  unfold lexHere
  split
  · exact ⟨List.suffix_refl _, by rintro ⟨⟩⟩
  · next c t =>
      dsimp only
      split
      · split <;> exact ⟨(suffix_readString c t).trans (List.suffix_cons c t), by rintro ⟨⟩⟩
      split
      · exact ⟨(suffix_templateLexeme true t).trans (List.suffix_cons c t),
          fun h => (ne_mark_templateLexeme true t _ h).elim⟩
      · exact ⟨(writes_lexemeAt (hhead c rfl)).suffix, arrow_lexemeAt⟩

theorem shows_lex (offset : Nat) (atStart : Bool) (t : Text) :
  (lex offset atStart t).Shows ∧ (lex offset atStart t).here <:+ t
  := by
  unfold lex
  dsimp only
  split
  · refine ⟨shows_lexHere _ _ _ (head?_skipTrivia _ _ _ _ _), ?_⟩
    rw [(here_lexHere ..).1]
    apply suffix_skipTrivia
  · exact ⟨⟨List.suffix_refl _, by rintro ⟨⟩⟩, List.nil_suffix⟩

namespace Lexed

variable {l m : Lexed}

theorem Shows.asRegex (h : l.Shows) :
  l.asRegex.Shows
  := by
  unfold Lexed.asRegex
  split
  · refine ⟨?_, nofun⟩
    exact (List.drop_suffix _ _).trans
      ((suffix_readRegex false false _).trans (List.drop_suffix 1 l.here))
  · exact h

theorem Shows.asTemplate (h : l.Shows) :
  l.asTemplate.Shows
  := by
  unfold Lexed.asTemplate
  split
  · exact ⟨(suffix_templateLexeme false _).trans (List.drop_suffix 1 l.here),
      fun h => (ne_mark_templateLexeme false _ _ h).elim⟩
  · exact h

theorem Shows.asOperator (h : l.Shows) :
  l.asOperator.Shows
  := by
  unfold Lexed.asOperator
  split
  · next _ m length _ hmark =>
      refine ⟨List.drop_suffix length l.here, ?_⟩
      intro harrow
      cases harrow
      exact ⟨_, (eq_append_of_markAt? hmark).symm⟩
  · exact h

/-- What is met further on is a part of the text. -/
theorem Reaches.shows (h : l.Reaches m) (hl : l.Shows) :
  m.Shows ∧ m.here <:+ l.here
  := by
  induction h with
  | refl => exact ⟨hl, List.suffix_refl _⟩
  | next _ ih =>
      obtain ⟨hnext, hhere⟩ := shows_lex _ _ _
      obtain ⟨hm, hsuffix⟩ := ih hnext
      exact ⟨hm, hsuffix.trans (hhere.trans hl.rest)⟩
  | @regex l m _ ih =>
      rw [← l.asRegex_eq.1]
      exact ih hl.asRegex
  | @template l m _ ih =>
      rw [← l.asTemplate_eq.1]
      exact ih hl.asTemplate
  | @operator l m _ ih =>
      rw [← l.asOperator_eq.1]
      exact ih hl.asOperator

/-- An arrow that is met further on is written there. -/
theorem Reaches.infix_of_arrow (h : l.Reaches m) (hl : l.Shows) (hm : m.lexeme = .mark "=>") :
  ['=', '>'] <:+: l.here
  := by
  obtain ⟨hshows, hsuffix⟩ := h.shows hl
  exact (hshows.arrow hm).isInfix.trans hsuffix.isInfix

/-- Where a lexeme is read in one way only, another one that is met further on is met behind the
next one. -/
theorem Reaches.next_of_ne (h : l.Reaches m) (hne : m.lexeme ≠ l.lexeme)
    (hregex : l.asRegex = l) (htemplate : l.asTemplate = l) (hoperator : l.asOperator = l) :
  (lex l.stop false l.rest).Reaches m
  := by
  induction h with
  | refl => exact (hne rfl).elim
  | next h => exact h
  | regex _ ih => rw [hregex] at ih; exact ih hne hregex htemplate hoperator
  | template _ ih => rw [htemplate] at ih; exact ih hne hregex htemplate hoperator
  | operator _ ih => rw [hoperator] at ih; exact ih hne hregex htemplate hoperator

end Lexed

end Stencil.Script
