import Stencil.Proofs.Script.Parts
import Stencil.Proofs.Script.Reached
import Stencil.Proofs.Script.Seam.Forms
import Stencil.Proofs.Text.Trim

/-!
# Two readers of arrow functions

Whether an opening parenthesis begins an arrow function is told from the lexemes behind it, and
where these do not tell it, by trying.  Both readers come to the same result unless the first one
tries in vain before an arrow.
-/

namespace Stencil.Script

open Carries (carry)
open Parse (ArrowSign)

/-! ### What the lexemes say -/

/-- The lexeme after a given one. -/
abbrev Lexed.after (l : Lexed) : Lexed := lex l.stop false l.rest

namespace Parse

/-- What the lexeme after the first name in parentheses says. -/
def signOfName (l : Lexed) : ArrowSign :=
  if l.lexeme.isMark ":" then .arrow
  else if l.lexeme.isMark "?" then
    if l.after.lexeme.isMark ":" || l.after.lexeme.isMark "," || l.after.lexeme.isMark "="
        || l.after.lexeme.isMark ")" then .arrow
    else .noArrow
  else if l.lexeme.isMark "," || l.lexeme.isMark "=" || l.lexeme.isMark ")" then .unclear
  else .noArrow

/-- What the lexeme after an opening parenthesis says. -/
def signOfFirst (l : Lexed) : ArrowSign :=
  if l.lexeme.isMark ")" then
    if l.after.lexeme.isMark "=>" || l.after.lexeme.isMark ":" || l.after.lexeme.isMark "\x7b" then
      .arrow
    else .noArrow
  else if l.lexeme.isMark "[" || l.lexeme.isMark "\x7b" then .unclear
  else if l.lexeme.isMark "..." then .arrow
  else if l.lexeme.spelling ∈ modifierWords && l.lexeme.isAnyWord && l.lexeme.spelling != "async"
      && l.after.lexeme.isName then
    if l.after.lexeme.isWord "as" then .noArrow else .arrow
  else if !l.lexeme.isName && !l.lexeme.isWord "this" then .noArrow
  else signOfName l.after

/-- What the lexemes from a given one on say. -/
def signAt (l : Lexed) : ArrowSign :=
  if l.lexeme.isWord "async" then
    if !l.after.lexeme.isMark "(" || l.after.newLine then .noArrow else signOfFirst l.after.after
  else if !l.lexeme.isMark "(" then .noArrow
  else signOfFirst l.after

/-- The parse gets through with the given result. -/
def Yields {α : Type} (p : Parse α) (r : Reader) (a : α) : Prop := ∃ s, p r = .ok a s

theorem yields_pure {α : Type} (a : α) (r : Reader) :
  Yields (pure a) r a
  := ⟨r, rfl⟩

theorem yields_ite {α : Type} {c : Prop} [Decidable c] {p q : Parse α} {r : Reader} {a b : α}
    (hp : Yields p r a) (hq : Yields q r b) :
  Yields (if c then p else q) r (if c then a else b)
  := by
  split
  · exact hp
  · exact hq

theorem yields_signAfterName (r : Reader) :
  Yields signAfterName r (signOfName r.lexed)
  := by
  change Yields (if _ then _ else _) r _
  apply yields_ite (yields_pure _ r)
  apply yields_ite
  · exact ⟨r.next, rfl⟩
  · apply yields_ite (yields_pure _ r) (yields_pure _ r)

theorem yields_signAfterOpening (r : Reader) :
  Yields signAfterOpening r (signOfFirst r.lexed)
  := by
  change Yields (if _ then _ else _) r _
  apply yields_ite
  · exact ⟨r.next, rfl⟩
  apply yields_ite (yields_pure _ r)
  apply yields_ite (yields_pure _ r)
  change Yields (if _ then _ else _) r _
  apply yields_ite
  · exact ⟨r, rfl⟩
  apply yields_ite (yields_pure _ r)
  exact yields_signAfterName r.next

theorem yields_arrowSign (r : Reader) :
  Yields arrowSign r (signAt r.lexed)
  := by
  unfold signAt arrowSign
  rw [Seam.eatWord_bind]
  change Yields (if _ then _ else _) r _
  apply yields_ite
  · obtain ⟨faults, hadvance⟩ := Footing.advance_eq r
    unfold Yields
    rw [Seam.bind_of_ok _ hadvance]
    change Yields (if _ then _ else _) { r.next with faults := faults } _
    apply yields_ite (yields_pure _ _)
    exact yields_signAfterOpening { r.next with faults := faults }.next
  · change Yields (if _ then _ else _) r _
    rw [Bool.false_and, Bool.or_false]
    apply yields_ite (yields_pure _ r)
    exact yields_signAfterOpening r.next

theorem ahead_arrowSign (r : Reader) :
  ahead arrowSign .noArrow r = .ok (signAt r.lexed) r
  := by
  obtain ⟨s, hs⟩ := yields_arrowSign r
  unfold ahead
  rw [hs]

end Parse

/-! ### Lexemes without a fault -/

/-- Only a string is read although it has a fault. -/
theorem faults_lexHere {n : Nat} {newLine : Bool} {comments : List Span} {t : Text}
    (hend : (lexHere n newLine comments t).lexeme.isEnd = false)
    (hstring : ∀ v, (lexHere n newLine comments t).lexeme ≠ .string v) :
  (lexHere n newLine comments t).faults = []
  := by
  unfold lexHere at *
  split at *
  · rfl
  · next c t =>
      dsimp only at *
      split at hend
      · next hquote =>
          rw [if_pos hquote] at hstring ⊢
          split at hend
          · next hclosed =>
              rw [if_pos hclosed] at hstring
              exact (hstring _ rfl).elim
          · cases hend
      · next hquote =>
          rw [if_neg hquote]
          split at hend
          · next hback =>
              rw [if_pos hback]
              dsimp only at *
              rw [isEnd_templateLexeme] at hend
              rw [hend]
              rfl
          · next hback =>
              rw [if_neg hback]
              dsimp only at *
              rw [isEnd_lexemeAt] at hend
              rw [hend]
              rfl

theorem faults_lex {n : Nat} {atStart : Bool} {t : Text}
    (hend : (lex n atStart t).lexeme.isEnd = false)
    (hstring : ∀ v, (lex n atStart t).lexeme ≠ .string v) :
  (lex n atStart t).faults = []
  := by
  unfold lex at *
  dsimp only at *
  split at hend
  · next hnone =>
      rw [hnone] at hstring
      exact faults_lexHere hend hstring
  · cases hend

namespace Seam

variable {E : Seam} {v w : Text} {l l' : Lexed}

/-! ### What both readers see -/

/-- A mark or a word that comes next is the same one for both readers, or the one behind the
code. -/
theorem Reads.after (h : E.Reads v w l l') (hend : l.after.lexeme.isEnd = false)
    (hstring : ∀ v, l.after.lexeme ≠ .string v) :
  E.Twin l.after l'.after ∨ l.after.Meets l'.after
  := by
  rcases h.next (faults_lex hend hstring) with htwin | hmeets | hpast
  · exact .inl htwin
  · exact .inr hmeets
  · rw [hpast.lexeme] at hend
    cases hend

/-- A mark that comes next for both readers is the same lexeme for them. -/
theorem Reads.after_twin (h : E.Reads v w l l') (hsame : l'.after.lexeme = l.after.lexeme)
    (hend : l.after.lexeme.isEnd = false) (hstring : ∀ v, l.after.lexeme ≠ .string v) :
  E.Twin l.after l'.after
  := by
  rcases h.after hend hstring with htwin | hmeets
  · exact htwin
  · rw [hmeets.edge.lexeme, hmeets.lexeme] at hsame
    exact absurd (Lexeme.mark.inj hsame) (by decide)

theorem plain_of_isMark {l : Lexeme} {m : String} (h : l.isMark m = true) :
  l.isEnd = false ∧ ∀ v, l ≠ .string v
  := by cases l <;> simp_all [Lexeme.isMark, Lexeme.isEnd]

theorem plain_of_isAnyWord {l : Lexeme} (h : l.isAnyWord = true) :
  l.isEnd = false ∧ ∀ v, l ≠ .string v
  := by cases l <;> simp_all [Lexeme.isAnyWord, Lexeme.isEnd]

/-- Only the name of a parameter and the mark that it may be left out stand before the end of the
code. -/
def Dangles (l : Lexed) : Prop :=
  l.IsEdge ∨ l.lexeme.isMark "?" = true ∧ l.after.IsEdge

/-- Behind the code nothing says that an arrow function begins. -/
theorem signOfName_behind (h : l'.lexeme = .mark ";" ∨ l'.lexeme.isEnd = true) :
  Parse.signOfName l' = .noArrow
  := by
  unfold Parse.signOfName
  cases hl : l'.lexeme <;> simp_all [Lexeme.isMark, Lexeme.isEnd]

theorem signOfName_eq_of_lexeme (h : l'.lexeme = l.lexeme) (hmark : l.lexeme.isMark "?" = false) :
  Parse.signOfName l' = Parse.signOfName l
  := by
  unfold Parse.signOfName
  rw [h, hmark]
  rfl

theorem signOfName_question (h : l.lexeme.isMark "?" = true) :
  Parse.signOfName l
    = if l.after.lexeme.isMark ":" || l.after.lexeme.isMark "," || l.after.lexeme.isMark "="
        || l.after.lexeme.isMark ")" then .arrow
      else .noArrow
  := by
  have hcolon : l.lexeme.isMark ":" = false := by
    cases hl : l.lexeme <;> simp_all [Lexeme.isMark]
  unfold Parse.signOfName
  rw [h, hcolon]
  rfl

theorem signOfName_question_behind (h : l.lexeme.isMark "?" = true)
    (hbehind : l.after.lexeme = .mark ";" ∨ l.after.lexeme.isEnd = true) :
  Parse.signOfName l = .noArrow
  := by
  rw [signOfName_question h]
  cases hl : l.after.lexeme <;> simp_all [Lexeme.isMark, Lexeme.isEnd]

/-- The lexemes behind the first name in parentheses say the same to both readers, unless the first
one sees the end of the code. -/
theorem Reads.signOfName (h : E.Reads v w l l') :
  Parse.signOfName l'.after = Parse.signOfName l.after
    ∨ Parse.signOfName l'.after = .noArrow ∧ Dangles l.after
  := by
  rcases h.looks with ⟨hsame, -⟩ | ⟨hbehind, hbehind'⟩
  · cases hmark : l.after.lexeme.isMark "?" with
    | false => exact .inl (signOfName_eq_of_lexeme hsame hmark)
    | true =>
        obtain ⟨hend, hstring⟩ := plain_of_isMark hmark
        obtain ⟨v', w', hreads⟩ := h.after_twin hsame hend hstring
        have hmark' : l'.after.lexeme.isMark "?" = true := by rwa [hsame]
        rcases hreads.looks with ⟨hsame', -⟩ | ⟨hbehind, hbehind'⟩
        · rw [signOfName_question hmark, signOfName_question hmark', hsame']
          exact .inl rfl
        · have hsign := signOfName_question_behind hmark' hbehind'
          rcases hbehind with hedge | hend
          · exact .inr ⟨hsign, .inr ⟨hmark, hedge⟩⟩
          · exact .inl (hsign.trans (signOfName_question_behind hmark (.inr hend)).symm)
  · have hsign := signOfName_behind hbehind'
    rcases hbehind with hedge | hend
    · exact .inr ⟨hsign, .inl hedge⟩
    · exact .inl (hsign.trans (signOfName_behind (.inr hend)).symm)

theorem signOfFirst_behind (h : l'.lexeme = .mark ";" ∨ l'.lexeme.isEnd = true) :
  Parse.signOfFirst l' = .noArrow
  := by
  unfold Parse.signOfFirst
  cases hl : l'.lexeme <;>
    simp_all [Lexeme.isMark, Lexeme.isEnd, Lexeme.isAnyWord, Lexeme.isName, Lexeme.isWord]

theorem signOfFirst_edge (h : l.IsEdge) :
  Parse.signOfFirst l = .noArrow
  := by
  have hafter : l.after.lexeme = .stop := by
    unfold Lexed.after
    rw [h.rest]
    rfl
  unfold Parse.signOfFirst
  rw [h.lexeme, hafter]
  rfl

/-- Neither a word nor the closing parenthesis needs a look at what follows. -/
theorem signOfFirst_eq_of_lexeme (h : l'.lexeme = l.lexeme) (hclose : l.lexeme.isMark ")" = false)
    (hword : l.lexeme.isAnyWord = false) :
  Parse.signOfFirst l' = Parse.signOfFirst l
  := by
  have hname : l.lexeme.isName = false ∧ l.lexeme.isWord "this" = false := by
    cases hl : l.lexeme <;> simp_all [Lexeme.isAnyWord, Lexeme.isName, Lexeme.isWord]
  unfold Parse.signOfFirst
  rw [h, hclose, hword, hname.1, hname.2]
  simp

/-- The lexemes behind an opening parenthesis say the same to both readers, unless there is only a
name before the end of the code. -/
theorem Reads.signOfFirst (h : E.Reads v w l l') :
  Parse.signOfFirst l'.after = Parse.signOfFirst l.after
    ∨ Parse.signOfFirst l'.after = .noArrow ∧ l.after.lexeme.isAnyWord = true
      ∧ Dangles l.after.after
  := by
  rcases h.looks with ⟨hsame, -⟩ | ⟨hbehind, hbehind'⟩
  · cases hclose : l.after.lexeme.isMark ")" with
    | true =>
        obtain ⟨hend, hstring⟩ := plain_of_isMark hclose
        obtain ⟨v', w', hreads⟩ := h.after_twin hsame hend hstring
        have harrow := (deaf_isMark "=>").eq_of_looks hreads.looks
        have hcolon := (deaf_isMark ":").eq_of_looks hreads.looks
        have hbrace := (deaf_isMark "\x7b").eq_of_looks hreads.looks
        unfold Parse.signOfFirst
        rw [hsame, hclose, harrow, hcolon, hbrace]
        exact .inl rfl
    | false =>
        cases hword : l.after.lexeme.isAnyWord with
        | false => exact .inl (signOfFirst_eq_of_lexeme hsame hclose hword)
        | true =>
            obtain ⟨hend, hstring⟩ := plain_of_isAnyWord hword
            obtain ⟨v', w', hreads⟩ := h.after_twin hsame hend hstring
            have hname := deaf_isName.eq_of_looks hreads.looks
            have has := (deaf_isWord "as").eq_of_looks hreads.looks
            unfold Parse.signOfFirst
            rw [hsame, hclose, hword, hname, has, if_neg Bool.false_ne_true,
              if_neg Bool.false_ne_true]
            rcases hreads.signOfName with hsign | ⟨hsign, hdangles⟩
            · rw [hsign]
              exact .inl rfl
            · rw [hsign]
              split_ifs <;> first | exact .inl rfl | exact .inr ⟨rfl, rfl, hdangles⟩
  · rw [signOfFirst_behind hbehind']
    rcases hbehind with hedge | hend
    · exact .inl (signOfFirst_edge hedge).symm
    · exact .inl (signOfFirst_behind (.inr hend)).symm

/-- A mark that does not stand behind the code is the same lexeme for both readers. -/
theorem Reads.after_of_isMark (h : E.Reads v w l l') {m : String} [hm : DeafMark m]
    (hmark : l.after.lexeme.isMark m = true) :
  l'.after.newLine = l.after.newLine ∧ E.Twin l.after l'.after
  := by
  obtain ⟨hend, hstring⟩ := plain_of_isMark hmark
  rcases h.looks with ⟨hsame, hnewLine⟩ | ⟨hbehind, -⟩
  · exact ⟨hnewLine, h.after_twin hsame hend hstring⟩
  · rcases hbehind with hedge | hend'
    · rw [hedge.lexeme, hm.isMark_eq_false.1] at hmark
      cases hmark
    · rw [hend] at hend'
      cases hend'

/-- The parenthesis that stands at a lexeme, or behind `async` there, is not closed before the end
of the code: there is a name in it, and perhaps the mark that it may be left out. -/
def OpensDangling (l : Lexed) : Prop :=
  ∃ o : Lexed, (l.lexeme.isWord "async" = true ∧ o = l.after ∨ l.lexeme.isMark "(" = true ∧ o = l)
    ∧ o.lexeme.isMark "(" = true ∧ o.after.lexeme.isAnyWord = true ∧ Dangles o.after.after

/-- The lexemes behind a parenthesis say the same to both readers, unless it is not closed before
the end of the code. -/
theorem Reads.signAt (h : E.Reads v w l l') :
  Parse.signAt l' = Parse.signAt l ∨ Parse.signAt l' = .noArrow ∧ OpensDangling l
  := by
  unfold Parse.signAt
  rw [h.lexeme]
  cases hasync : l.lexeme.isWord "async" with
  | true =>
      rw [if_pos rfl, if_pos rfl]
      have hopen := (deaf_isMark "(").eq_of_looks h.looks
      rw [hopen]
      cases hmark : l.after.lexeme.isMark "(" with
      | false => exact .inl rfl
      | true =>
          obtain ⟨hnewLine, v', w', hreads⟩ := h.after_of_isMark hmark
          rw [hnewLine]
          cases l.after.newLine with
          | true => exact .inl rfl
          | false =>
              rcases hreads.signOfFirst with hsign | ⟨hsign, hword, hdangles⟩
              · exact .inl hsign
              · exact .inr ⟨hsign, l.after, .inl ⟨hasync, rfl⟩, hmark, hword, hdangles⟩
  | false =>
      rw [if_neg Bool.false_ne_true, if_neg Bool.false_ne_true]
      cases hmark : l.lexeme.isMark "(" with
      | false => exact .inl rfl
      | true =>
          rcases h.signOfFirst with hsign | ⟨hsign, hword, hdangles⟩
          · exact .inl hsign
          · exact .inr ⟨hsign, l, .inr ⟨hmark, rfl⟩, hmark, hword, hdangles⟩

/-! ### Parameters that are not closed -/

/-- A lexeme that is read in one way only. -/
theorem reread_eq_self (hslash : l.lexeme.isMark "/" = false ∧ l.lexeme.isMark "/=" = false)
    (hbrace : l.lexeme.isMark "\x7d" = false) (hgreater : l.lexeme.isMark ">" = false) :
  l.asRegex = l ∧ l.asTemplate = l ∧ l.asOperator = l
  := by
  unfold Lexed.asRegex Lexed.asTemplate Lexed.asOperator
  rw [hslash.1, hslash.2, hbrace, hgreater]
  exact ⟨rfl, rfl, rfl⟩

/-- From a word or a question mark on, a closing parenthesis is met behind the next lexeme. -/
theorem reaches_after {m : Lexed} (h : l.Reaches m) (hm : m.lexeme.isMark ")" = true)
    (hl : l.lexeme.isAnyWord = true ∨ l.lexeme.isMark "?" = true) :
  l.after.Reaches m
  := by
  have hne : m.lexeme ≠ l.lexeme := by
    intro heq
    rw [heq] at hm
    cases hlexeme : l.lexeme <;> simp_all [Lexeme.isAnyWord, Lexeme.isMark]
  have hself : l.asRegex = l ∧ l.asTemplate = l ∧ l.asOperator = l := by
    apply reread_eq_self <;>
      cases hlexeme : l.lexeme <;> simp_all [Lexeme.isAnyWord, Lexeme.isMark]
  exact h.next_of_ne hne hself.1 hself.2.1 hself.2.2

theorem isEdge_of_dangles {m : Lexed} (hdangles : Dangles l) (h : l.Reaches m)
    (hm : m.lexeme.isMark ")" = true) :
  m.IsEdge
  := by
  have hpast : ¬ m.IsPast := by
    intro hpast
    rw [hpast.lexeme] at hm
    cases hm
  rcases hdangles with hedge | ⟨hmark, hedge⟩
  · exact isEdge_of_reaches h hedge hpast
  · exact isEdge_of_reaches (reaches_after h hm (.inr hmark)) hedge hpast

theorem eq_mark_of_isMark {l : Lexeme} {m : String} (h : l.isMark m = true) :
  l = .mark m
  := by
  cases l with
  | mark m' => exact congrArg _ (beq_iff_eq.mp h)
  | _ => cases h

/-- Before a mark nothing has to be checked. -/
theorem advance_mark {m : String} {r : Reader} (h : r.lexed.lexeme = .mark m) :
  Parse.advance r = .ok () r.next
  := by
  obtain ⟨⟨lexeme, _, _, _, _, _, _, _⟩, _, _, _, _, _, _, _⟩ := r
  obtain rfl : lexeme = .mark m := h
  rfl

theorem expect_eq_ok {m : String} {r s : Reader} {a : Unit} (h : Parse.expect m r = .ok a s) :
  r.lexed.lexeme = .mark m ∧ s = r.next
  := by
  change (if r.lexed.lexeme.isMark m = true then Parse.advance else Parse.expected m) r = _ at h
  split at h
  · next hmark =>
      rw [advance_mark (eq_mark_of_isMark hmark)] at h
      cases h
      exact ⟨eq_mark_of_isMark hmark, rfl⟩
  · exact (expected_ne_ok h).elim

section Heads

variable (g : Level) [g.Lawful] (scope : Scope) {r r' s : Reader}

theorem not_clean_of_parameters {params : List Node}
    (hword : r.lexed.after.lexeme.isAnyWord = true) (hdangles : Dangles r.lexed.after.after)
    (hrun : Parse.parameters g scope r = .ok params s) :
  ¬ E.Clean s
  := by
  intro hclean
  obtain ⟨_, r₁, hopen, hrun⟩ := Footing.bind_eq_ok hrun
  obtain ⟨items, r₂, hitems, hrun⟩ := Footing.bind_eq_ok hrun
  obtain ⟨_, r₃, hclose, hrun⟩ := Footing.bind_eq_ok hrun
  cases hrun
  have hreaches := (grows_of_keeps inferInstance hitems).lexed
  rw [(expect_eq_ok hopen).2] at hreaches
  obtain ⟨hlexeme, rfl⟩ := expect_eq_ok hclose
  have hmark : r₂.lexed.lexeme.isMark ")" = true := by
    rw [hlexeme]
    rfl
  have hedge := isEdge_of_dangles hdangles (reaches_after hreaches hmark (.inl hword)) hmark
  apply hclean.inside
  change r₂.lexed.after.IsPast
  rw [Lexed.after, hedge.rest]
  exact ⟨rfl, rfl⟩

/-- What dangles at the end of the code is no head of an arrow function. -/
theorem not_clean_of_arrowHead {head : Bool × List Node} (hopens : OpensDangling r.lexed)
    (hrun : Parse.arrowHead g scope r = .ok head s) :
  ¬ E.Clean s
  := by
  intro hclean
  have harrow (isAsync : Bool) (params : List Node) : E.Onward (do
      Parse.arrow
      pure (isAsync, params)) := .of_keeps inferInstance
  obtain ⟨o, ho, hmark, hword, hdangles⟩ := hopens
  unfold Parse.arrowHead at hrun
  rw [eatWord_bind] at hrun
  change (if r.lexed.lexeme.isWord "async" = true then _ else _ : Parse _) r = _ at hrun
  rcases ho with ⟨hasync, rfl⟩ | ⟨hopen, rfl⟩
  · rw [if_pos hasync] at hrun
    obtain ⟨_, r₁, hadvance, hrun⟩ := Footing.bind_eq_ok hrun
    obtain ⟨faults, hadvance'⟩ := Footing.advance_eq r
    rw [hadvance'] at hadvance
    cases hadvance
    obtain ⟨params, r₂, hparams, hrun⟩ := Footing.bind_eq_ok hrun
    exact not_clean_of_parameters g _ hword hdangles hparams ((harrow _ _).back hrun hclean)
  · have hasync : ¬ r.lexed.lexeme.isWord "async" = true := by
      cases hl : r.lexed.lexeme <;> simp_all [Lexeme.isMark, Lexeme.isWord]
    rw [if_neg hasync] at hrun
    obtain ⟨params, r₂, hparams, hrun⟩ := Footing.bind_eq_ok hrun
    exact not_clean_of_parameters g _ hword hdangles hparams ((harrow _ _).back hrun hclean)

/-- The head of an arrow function ends with an arrow, which is written in the text. -/
theorem infix_of_arrowHead {head : Bool × List Node} (hshows : r.lexed.Shows)
    (hrun : Parse.arrowHead g scope r = .ok head s) :
  ['=', '>'] <:+: r.lexed.here
  := by
  obtain ⟨isAsync, r₁, hasync, hrun⟩ := Footing.bind_eq_ok hrun
  obtain ⟨params, r₂, hparams, hrun⟩ := Footing.bind_eq_ok hrun
  obtain ⟨_, r₃, harrow, -⟩ := Footing.bind_eq_ok hrun
  obtain ⟨newLine, r₄, hnewLine, harrow⟩ := Footing.bind_eq_ok harrow
  obtain ⟨_, r₅, hnote, harrow⟩ := Footing.bind_eq_ok harrow
  have hreaches := (grows_of_keeps inferInstance hasync).lexed
    |>.trans (grows_of_keeps inferInstance hparams).lexed
    |>.trans (grows_of_keeps inferInstance hnewLine).lexed
    |>.trans (grows_of_keeps inferInstance hnote).lexed
  exact hreaches.infix_of_arrow hshows (expect_eq_ok harrow).1

/-! ### Arrow functions that are tried -/

/-- An arrow function from its parameters on. -/
def arrowFrom (g : Level) (scope : Scope) (start : Nat) : Parse (Option Node) := do
  let (isAsync, params) ← Parse.arrowHead g scope
  some <$> Parse.arrowBody g scope start isAsync params

/-- The part of an arrow function before its body, where it is tried to read one. -/
def triedHead (g : Level) (scope : Scope) : Parse (Bool × List Node) := do
  let head ← Parse.arrowHead g scope
  if ← Parse.atEnd then Parse.unexpected else pure head

/-- What follows where the lexemes do not tell what a parenthesis begins. -/
def arrowTried (g : Level) (scope : Scope) (start : Nat) : Parse (Option Node) := do
  match ← Parse.attempt (triedHead g scope) with
  | some (isAsync, params) => some <$> Parse.arrowBody g scope start isAsync params
  | none =>
    modify fun r => { r with notArrows := start :: r.notArrows }
    pure none

omit [g.Lawful] in
theorem parenthesizedArrow_apply (r : Reader) :
  Parse.parenthesizedArrow? g scope r
    = (if !(r.lexed.lexeme.isMark "(" || r.lexed.lexeme.isWord "async") then pure none
      else match Parse.signAt r.lexed with
        | .noArrow => pure none
        | .arrow => arrowFrom g scope r.lexed.start
        | .unclear =>
          if r.notArrows.contains r.lexed.start then pure none
          else arrowTried g scope r.lexed.start : Parse (Option Node)) r
  := by
  change (if _ then _ else _ : Parse (Option Node)) r = _
  split
  · rfl
  · change (Parse.ahead Parse.arrowSign .noArrow >>= _) r = _
    rw [bind_of_ok _ (Parse.ahead_arrowSign r)]
    cases Parse.signAt r.lexed <;> rfl

theorem Reads.shows (h : E.Reads v w l l')
    (hopen : (l.lexeme.isMark "(" || l.lexeme.isWord "async") = true) :
  l.Shows ∧ l'.Shows
  := by
  have harrow : l.lexeme ≠ .mark "=>" := by
    intro heq
    rw [heq] at hopen
    exact absurd hopen (by decide)
  obtain ⟨front, rfl⟩ := h.leaves
  refine ⟨⟨?_, fun heq => (harrow heq).elim⟩, ⟨?_, fun heq => (harrow (h.lexeme ▸ heq)).elim⟩⟩
  · rw [h.rest, h.here, List.append_assoc]
    exact List.suffix_append front _
  · rw [h.rest', h.here', List.append_assoc]
    exact List.suffix_append front _

/-- An arrow that is written before the end of either text is written in the code. -/
theorem Reads.live (h : E.Reads v w l l') (hin : ['=', '>'] <:+: l.here ∨ ['=', '>'] <:+: l'.here) :
  E.Live l.start
  := by
  refine ⟨v, h.suffix, h.start, ?_⟩
  rcases hin with hin | hin
  · rw [h.here] at hin
    exact Text.infix_of_append_right (by simp) (by simp [tail]) hin
  · rw [h.here'] at hin
    exact Text.infix_of_append_right (by simp) (by simp [tail']) hin

theorem attempt_eq_ok {α : Type} {p : Parse α} {r s : Reader} {o : Option α}
    (hrun : Parse.attempt p r = .ok o s) :
  (∃ a, o = some a ∧ p r = .ok a s)
    ∨ o = none ∧ ∃ f m, p r = .error f m ∧ s = { r with notArrows := m.notArrows }
  := by
  unfold Parse.attempt at hrun
  split at hrun
  · next a s' hp =>
      cases hrun
      exact .inl ⟨a, rfl, hp⟩
  · next f m hp =>
      cases hrun
      exact .inr ⟨rfl, f, m, hp, rfl⟩

/-- What is written further on is written from a lexeme of the code on. -/
theorem Live.of_le {n : Nat} (hlive : E.Live n) (h : E.Reads v w l l') (hn : l.start ≤ n) :
  E.Live l.start
  := by
  obtain ⟨u, hu, hwidth, hin⟩ := hlive
  refine ⟨v, h.suffix, h.start, ?_⟩
  rcases List.suffix_or_suffix_of_suffix hu h.suffix with huv | hvu
  · exact hin.trans huv.isInfix
  · obtain ⟨front, rfl⟩ := hvu
    have hstart := h.start
    have hlength := Text.length_le_width front
    rw [Text.width_append] at hwidth
    obtain rfl : front = [] := List.eq_nil_of_length_eq_zero (by omega)
    exact hin

/-- Both readers remember nothing that matters of an arrow function that was tried in vain where no
arrow is written any more. -/
theorem Paired.forget (h : E.Paired r r') (hlive : ¬ E.Live r.lexed.start)
    (places places' : List Nat) :
  E.Paired { r with notArrows := places } { r' with notArrows := places' }
  := by
  refine ⟨⟨h.lastEnd, h.lastEnd_le, h.uncovered, h.trailing, h.lexFaults', h.faults', ?_⟩, h.twin⟩
  intro n hn hnlive
  obtain ⟨v, w, hreads⟩ := h.twin
  exact (hlive (hnlive.of_le hreads hn)).elim

/-- The second reader finds no arrow function where no arrow is written any more. -/
theorem Paired.exists_none (h : E.Paired r r') (hlive : ¬ E.Live r.lexed.start)
    (hopen : (r.lexed.lexeme.isMark "(" || r.lexed.lexeme.isWord "async") = true)
    (hsign : Parse.signAt r'.lexed = .unclear ∨ Parse.signAt r'.lexed = .noArrow)
    (places : List Nat) :
  ∃ s', Parse.parenthesizedArrow? g scope r' = .ok none s'
    ∧ E.Paired { r with notArrows := places } s'
  := by
  obtain ⟨v, w, hreads⟩ := h.twin
  rw [parenthesizedArrow_apply, hreads.lexeme, hopen, if_neg (by decide)]
  rcases hsign with hsign | hsign
  · rw [hsign]
    dsimp only
    split
    · exact ⟨r', rfl, h.forget hlive places r'.notArrows⟩
    · cases htried : triedHead g scope r' with
      | ok head m =>
          obtain ⟨head', m', hhead, -⟩ := Footing.bind_eq_ok htried
          have hin := infix_of_arrowHead g scope (hreads.shows hopen).2 hhead
          exact (hlive (hreads.live (.inr hin))).elim
      | error f m =>
          have hattempt : Parse.attempt (triedHead g scope) r'
              = .ok none { r' with notArrows := m.notArrows } := by
            unfold Parse.attempt
            rw [htried]
          unfold arrowTried
          rw [bind_of_ok _ hattempt]
          exact ⟨_, rfl, h.forget hlive places _⟩
  · rw [hsign]
    exact ⟨r', rfl, h.forget hlive places r'.notArrows⟩

end Heads

section Arrows

variable (g g' : Level) [h : E.Parallel g g'] [E.Refuses g] [g.Lawful] [g'.Lawful] (scope : Scope)
  {t : Bool} {r r' s : Reader}

/-! ### Arrow functions -/

set_option synthInstance.maxSize 1000

instance agree_arrow : E.Agree t Parse.arrow Parse.arrow := by
  unfold Parse.arrow
  infer_instance

instance oversteps_arrow : E.Oversteps Parse.arrow := by
  unfold Parse.arrow
  infer_instance

instance agree_arrowBody (start start' : Nat) (isAsync isAsync' : Bool) (params params' : List Node)
    [E.Carried start start'] [hasync : E.Carried isAsync isAsync'] [E.Carried params params'] :
    E.Agree t (Parse.arrowBody g scope start isAsync params)
      (Parse.arrowBody g' scope start' isAsync' params') := by
  apply Agree.loose
  obtain rfl : isAsync' = isAsync := hasync.eq
  unfold Parse.arrowBody
  infer_instance

instance oversteps_arrowBody (start : Nat) (isAsync : Bool) (params : List Node) :
    E.Oversteps (Parse.arrowBody g scope start isAsync params) := by
  unfold Parse.arrowBody
  infer_instance

instance agree_arrowHead : E.Agree false (Parse.arrowHead g scope) (Parse.arrowHead g' scope) := by
  unfold Parse.arrowHead
  infer_instance

instance agree_arrowFrom (start : Nat) :
    E.Agree true (arrowFrom g scope start) (arrowFrom g' scope (carry E start)) := by
  unfold arrowFrom
  infer_instance

instance agree_triedHead : E.Agree false (triedHead g scope) (triedHead g' scope) := by
  unfold triedHead
  infer_instance

omit [g'.Lawful] in
/-- An arrow function that the first reader finds by trying is found by the second one as well. -/
theorem Paired.goes_of_tried {head : Bool × List Node} {a : Option Node} {m : Reader}
    (hpaired : E.Paired r r')
    (hopen : (r.lexed.lexeme.isMark "(" || r.lexed.lexeme.isWord "async") = true)
    (hsign : Parse.signAt r'.lexed = .unclear
      ∨ Parse.signAt r'.lexed = .noArrow ∧ OpensDangling r.lexed)
    (htried : triedHead g scope r = .ok head m)
    (hbody : (some <$> Parse.arrowBody g scope r.lexed.start head.1 head.2) m = .ok a s)
    (hclean : E.Clean s) :
  E.Outcome true a s (Parse.parenthesizedArrow? g' scope r')
  := by
  obtain ⟨v, w, hreads⟩ := hpaired.twin
  have hover : E.Oversteps (some <$> Parse.arrowBody g scope r.lexed.start head.1 head.2) :=
    inferInstance
  have hm := hover.back hbody hclean
  obtain ⟨head', m₀, hhead, hrest⟩ := Footing.bind_eq_ok htried
  have hm₀ : E.Clean m₀ := by
    have honward : E.Onward (do if ← Parse.atEnd then Parse.unexpected else pure head') :=
      .of_keeps inferInstance
    exact honward.back hrest hm
  have hlive := hreads.live (.inl (infix_of_arrowHead g scope (hreads.shows hopen).1 hhead))
  rcases hsign with hsign | ⟨-, hopens⟩
  · rw [parenthesizedArrow_apply, hreads.lexeme, hopen, if_neg (by decide), hsign, hreads.start']
    have hnever : ¬ r'.notArrows.contains (r.lexed.start + E.shift) = true := by
      rw [List.contains_iff_mem]
      exact hpaired.notArrows' _ (Nat.le_refl _) hlive
    dsimp only
    rw [if_neg hnever]
    rcases (agree_triedHead g g' scope).goes hpaired htried hm with
      ⟨m', htried', hm' | ⟨⟨⟩, -⟩⟩ | ⟨-, hedge⟩
    · have hattempt : Parse.attempt (triedHead g' scope) r' = .ok (some (carry E head)) m' := by
        unfold Parse.attempt
        rw [htried']
      unfold arrowTried
      rw [bind_of_ok _ hattempt]
      have hagree : E.Agree true (some <$> Parse.arrowBody g scope r.lexed.start head.1 head.2)
          (some <$> Parse.arrowBody g' scope (carry E r.lexed.start) head.1 (carry E head.2)) :=
        inferInstance
      exact hagree.goes hm' hbody hclean
    · exact (hover.never hedge hbody hclean).elim
  · exact (not_clean_of_arrowHead g scope hopens hhead hm₀).elim

instance agree_parenthesizedArrow :
    E.Agree true (Parse.parenthesizedArrow? g scope) (Parse.parenthesizedArrow? g' scope) := by
  constructor
  · exact .of_keeps inferInstance
  · intro r r' a s hpaired hrun hclean
    obtain ⟨v, w, hreads⟩ := hpaired.twin
    rw [parenthesizedArrow_apply] at hrun
    cases hopen : r.lexed.lexeme.isMark "(" || r.lexed.lexeme.isWord "async" with
    | false =>
        rw [hopen] at hrun
        rw [parenthesizedArrow_apply, hreads.lexeme, hopen]
        cases hrun
        exact .inl ⟨r', rfl, .inl hpaired⟩
    | true =>
        rw [hopen, if_neg (by decide)] at hrun
        have hsign := hreads.signAt
        cases hfirst : Parse.signAt r.lexed with
        | noArrow =>
            rw [hfirst] at hrun hsign
            rw [parenthesizedArrow_apply, hreads.lexeme, hopen, if_neg (by decide),
              hsign.elim id And.left]
            cases hrun
            exact .inl ⟨r', rfl, .inl hpaired⟩
        | arrow =>
            rw [hfirst] at hrun hsign
            rcases hsign with hsecond | ⟨-, hopens⟩
            · rw [parenthesizedArrow_apply, hreads.lexeme, hopen, if_neg (by decide), hsecond,
                hreads.start']
              exact (agree_arrowFrom g g' scope _).goes hpaired hrun hclean
            · obtain ⟨⟨isAsync, params⟩, m, hhead, hbody⟩ := Footing.bind_eq_ok hrun
              have honward : E.Onward
                  (some <$> Parse.arrowBody g scope r.lexed.start isAsync params) :=
                .of_keeps inferInstance
              exact (not_clean_of_arrowHead g scope hopens hhead (honward.back hbody hclean)).elim
        | unclear =>
            rw [hfirst] at hrun hsign
            have hsecond := hsign.imp_right And.left
            dsimp only at hrun
            split at hrun
            · next hknown =>
                cases hrun
                have hlive := hclean.notArrows _ (List.contains_iff_mem.mp hknown)
                obtain ⟨s', hrun', hs⟩ :=
                  hpaired.exists_none g' scope hlive hopen hsecond r.notArrows
                exact .inl ⟨s', hrun', .inl hs⟩
            · obtain ⟨o, m, hattempt, hrest⟩ := Footing.bind_eq_ok hrun
              rcases attempt_eq_ok hattempt with ⟨head, rfl, htried⟩ | ⟨rfl, f, m, -, rfl⟩
              · exact hpaired.goes_of_tried g g' scope hopen hsign htried hrest hclean
              · cases hrest
                have hlive := hclean.notArrows _ (List.mem_cons_self ..)
                obtain ⟨s', hrun', hs⟩ := hpaired.exists_none g' scope hlive hopen hsecond _
                exact .inl ⟨s', hrun', .inl hs⟩

end Arrows

/-- A name and an arrow follow. -/
def asyncSignAt (l : Lexed) : Bool :=
  if l.lexeme.isWord "async" then
    l.after.lexeme.isName && !l.after.newLine && l.after.after.lexeme.isMark "=>"
  else l.lexeme.isName && !l.newLine && l.after.lexeme.isMark "=>"

theorem yields_nameBeforeArrow (r : Reader) :
  Parse.Yields Parse.nameBeforeArrow r (asyncSignAt r.lexed)
  := by
  unfold asyncSignAt Parse.nameBeforeArrow Parse.Yields
  change ∃ s, ((Parse.eatWord "async" >>= fun _ => pure ()) >>= fun _ => _) r = _
  rw [bind_assoc, eatWord_bind]
  change ∃ s, (if r.lexed.lexeme.isWord "async" then _ else _ : Parse Bool) r = _
  split
  · obtain ⟨faults, hadvance⟩ := Footing.advance_eq r
    rw [bind_of_ok _ hadvance]
    exact ⟨{ r.next with faults := faults }.next, rfl⟩
  · exact ⟨r.next, rfl⟩

theorem ahead_nameBeforeArrow (r : Reader) :
  Parse.ahead Parse.nameBeforeArrow false r = .ok (asyncSignAt r.lexed) r
  := by
  obtain ⟨s, hs⟩ := yields_nameBeforeArrow r
  unfold Parse.ahead
  rw [hs]

theorem plain_of_isName {l : Lexeme} (h : l.isName = true) :
  l.isEnd = false ∧ ∀ v, l ≠ .string v
  := by cases l <;> simp_all [Lexeme.isName, Lexeme.isEnd]

/-- A look at an arrow tells both readers the same. -/
theorem Reads.isArrow_after {v w : Text} {l l' : Lexed} (h : E.Reads v w l l') :
  l'.after.lexeme.isMark "=>" = l.after.lexeme.isMark "=>"
  := (deaf_isMark "=>").eq_of_looks h.looks

/-- Both readers see the same of a name with an arrow behind it. -/
theorem Reads.asyncSignAt {v w : Text} {l l' : Lexed} (h : E.Reads v w l l') :
  asyncSignAt l' = asyncSignAt l
  := by
  unfold Seam.asyncSignAt
  rw [h.lexeme, h.newLine, h.isArrow_after]
  split
  · have hname : Deaf fun l newLine => l.isName && !newLine := inferInstance
    have hsame := hname.eq_of_looks h.looks
    rw [hsame]
    cases hnext : l.after.lexeme.isName && !l.after.newLine with
    | false => rfl
    | true =>
        have hisName := (Bool.and_eq_true_iff.mp hnext).1
        have hisName' := (Bool.and_eq_true_iff.mp (hsame.trans hnext)).1
        obtain ⟨hend, hstring⟩ := plain_of_isName hisName
        rcases h.after hend hstring with ⟨v, w, hreads⟩ | hmeets
        · rw [hreads.isArrow_after]
        · rw [hmeets.lexeme] at hisName'
          cases hisName'
  · rfl

instance stands_nameBeforeArrow :
    E.Stands (Parse.ahead Parse.nameBeforeArrow false)
      (Parse.ahead Parse.nameBeforeArrow false) := by
  apply Stands.of_read ahead_nameBeforeArrow ahead_nameBeforeArrow
  rintro r r' ⟨-, v, w, hreads⟩
  exact hreads.asyncSignAt

section

variable (g g' : Level) [h : E.Parallel g g'] [E.Refuses g] [g.Lawful] [g'.Lawful] (scope : Scope)

set_option synthInstance.maxSize 1000 in
instance agree_asyncArrow :
    E.Agree true (Parse.asyncArrow? g scope) (Parse.asyncArrow? g' scope) := by
  unfold Parse.asyncArrow?
  infer_instance

end

end Seam

end Stencil.Script
