import Stencil.Proofs.Tag.Pieces
import Stencil.Proofs.Text.Trim
import Stencil.Proofs.View.Blanking
import Stencil.View.Script

/-!
# The script view piece by piece

With the default patterns the script view of a document keeps the code of each piece at its place,
and between the codes there are only blank characters and semicolons.  So a text without these
stands in the script view only where it stands in a code.
-/

namespace Stencil

open Text

namespace Piece

/-- What stands in the script view before the code of a piece. -/
def scriptFront (p : Piece) : Text :=
  blank p.gap ++ if p.kind.isOutput then overwriteOpening p.kind.opening else blank p.kind.opening

/-- What stands in the script view after the code of a piece. -/
def scriptBack (p : Piece) : Text := overwriteClosing p.kind.isOutput ['%', '>']

/-- The text of a piece in the script view. -/
def script (p : Piece) : Text := p.scriptFront ++ (p.code ++ p.scriptBack)

/-- The script view of the document that is made up of pieces and a last text. -/
def renderScript (pieces : List Piece) (last : Text) : Text := pieces.flatMap script ++ blank last

theorem renderScript_cons (p : Piece) (rest : List Piece) (last : Text) :
  renderScript (p :: rest) last = p.script ++ renderScript rest last
  := by rw [renderScript, List.flatMap_cons, List.append_assoc, renderScript]

theorem width_scriptFront (p : Piece) :
  width p.scriptFront = width p.gap + width p.kind.opening
  := by
  rw [scriptFront, width_append, width_blank]
  cases p.kind <;> rfl

theorem width_scriptBack (p : Piece) :
  width p.scriptBack = 2
  := by
  rw [scriptBack]
  cases p.kind <;> rfl

theorem width_script (p : Piece) :
  width p.script = width p.text
  := by
  have hclosing : width ['%', '>'] = 2 := rfl
  simp only [script, text, width_append, width_scriptFront, width_scriptBack, hclosing]
  omega

variable {document source last : Text} {pieces : List Piece} {pos : Nat} {tag : Tag}

/-- The parts of a piece follow each other in a document. -/
theorem cut_parts {p : Piece} {rest : Text} (h : document.Cut pos (p.text ++ rest)) :
  document.Cut pos (p.gap ++ (p.kind.opening ++ (p.code ++ ('%' :: '>' :: rest))))
    ∧ document.Cut (pos + width p.gap) (p.kind.opening ++ (p.code ++ ('%' :: '>' :: rest)))
    ∧ document.Cut (p.codeStart pos) (p.code ++ ('%' :: '>' :: rest))
    ∧ document.Cut (p.codeStop pos) (['%', '>'] ++ rest)
  := by
  have hgap : document.Cut pos (p.gap ++ (p.kind.opening ++ (p.code ++ ('%' :: '>' :: rest)))) := by
    simpa [text] using h
  exact ⟨hgap, hgap.append, hgap.append.append, hgap.append.append.append⟩

/-- The text of the code of a tag is the code of its piece. -/
theorem text_code {p : Piece} {rest : Text} (h : document.Cut pos (p.text ++ rest)) :
  (p.tag pos).code.text document = p.code
  := (cut_parts h).2.2.1.slice_eq

/-- A document is cut behind each of its pieces. -/
theorem cut_behind {p : Piece} {rest : Text} (h : document.Cut pos (p.text ++ rest)) :
  document.Cut (p.codeStop pos + 2) rest
  := by
  rw [← p.width_text]
  exact h.append

theorem cut_scriptCode {p : Piece} {rest : Text} (h : source.Cut pos (p.script ++ rest)) :
  source.Cut (p.codeStart pos) (p.code ++ (p.scriptBack ++ rest))
  := by
  rw [script, List.append_assoc, List.append_assoc] at h
  have hcut := h.append
  rwa [width_scriptFront, ← Nat.add_assoc] at hcut

/-- A tag becomes the text of its piece in the script view, but for the text before it. -/
theorem scriptOfTag_tag {p : Piece} {rest : Text} (h : document.Cut pos (p.text ++ rest)) :
  blank (slice document pos (p.tag pos).span.start) ++ scriptOfTag document (p.tag pos) = p.script
  := by
  obtain ⟨hgap, hopening, hcode, hclosing⟩ := cut_parts h
  have hgapText : slice document pos (p.tag pos).span.start = p.gap := hgap.slice_eq
  have hopeningText : (p.tag pos).opening.text document = p.kind.opening := hopening.slice_eq
  have hcodeText : (p.tag pos).code.text document = p.code := hcode.slice_eq
  have hclosingText : (p.tag pos).closing.text document = ['%', '>'] := hclosing.slice_eq
  rw [scriptOfTag, hgapText, hopeningText, hcodeText, hclosingText, script, scriptFront, scriptBack,
    List.append_assoc, List.append_assoc]
  rfl

/-- The script view of what is left of a document. -/
theorem replaceTags_render (hcut : document.Cut pos (render pieces last)) :
  replaceTags document blank (scriptOfTag document) pos (tags pos pieces)
    = renderScript pieces last
  := by
  induction pieces generalizing pos with
  | nil =>
      rw [tags, replaceTags, hcut.onward_eq]
      rfl
  | cons p pieces ih =>
      rw [render_cons] at hcut
      rw [tags, replaceTags, scriptOfTag_tag hcut, renderScript_cons]
      exact congrArg _ (ih (cut_behind hcut))

/-- The script view of a document that is made up of pieces. -/
theorem scriptView_render (pieces : List Piece) (last : Text) :
  scriptView (render pieces last) (tags 0 pieces) = renderScript pieces last
  := replaceTags_render (cut_zero _)

/-- The code of a tag stands at the same place in the document and in the script view. -/
theorem exists_cut_code (hcut : document.Cut pos (render pieces last))
    (hscript : source.Cut pos (renderScript pieces last)) (htag : tag ∈ tags pos pieces) :
  ∃ p ∈ pieces, tag.kind = p.kind ∧ tag.code.text document = p.code
    ∧ tag.code.stop = tag.code.start + width p.code
    ∧ (∃ after, document.Cut tag.code.start (p.code ++ after))
    ∧ ∃ after, source.Cut tag.code.start (p.code ++ after)
  := by
  induction pieces generalizing pos with
  | nil => cases htag
  | cons p pieces ih =>
      rw [render_cons] at hcut
      rw [renderScript_cons] at hscript
      rcases List.mem_cons.mp htag with rfl | hlater
      · exact ⟨p, List.mem_cons_self .., rfl, text_code hcut, rfl, ⟨_, (cut_parts hcut).2.2.1⟩, _,
          cut_scriptCode hscript⟩
      · have hbehind := hscript.append
        rw [width_script, width_text] at hbehind
        obtain ⟨q, hq, h⟩ := ih (cut_behind hcut) hbehind hlater
        exact ⟨q, List.mem_cons_of_mem p hq, h⟩

/-! ### What stands in the script view -/

/-- The character is blank or a semicolon. -/
def isFiller (c : Char) : Bool := isBlank c || c == ';'

theorem isFiller_blank (t : Text) :
  ∀ c ∈ blank t, isFiller c = true
  := by
  intro c hc
  rcases isLineBreak_or_eq_space_of_mem_blank hc with hbreak | rfl
  · rw [isFiller, isBlank_of_isLineBreak hbreak, Bool.true_or]
  · rfl

theorem isFiller_scriptFront (p : Piece) :
  ∀ c ∈ p.scriptFront, isFiller c = true
  := by
  rw [scriptFront, List.forall_mem_append]
  refine ⟨isFiller_blank p.gap, List.all_eq_true.mp ?_⟩
  cases p.kind <;> decide

theorem isFiller_scriptBack (p : Piece) :
  p.scriptBack ≠ [] ∧ ∀ c ∈ p.scriptBack, isFiller c = true
  := by
  rw [scriptBack]
  refine ⟨?_, List.all_eq_true.mp ?_⟩ <;> cases p.kind <;> decide

/-- A text without blank characters and semicolons stands in the script view only within a code. -/
theorem exists_infix_code {mark : Text} (hmark : mark ≠ [])
    (hfiller : ∀ c ∈ mark, isFiller c = false) (h : mark <:+: renderScript pieces last) :
  ∃ p ∈ pieces, mark <:+: p.code
  := by
  have hdisjoint {s : Text} (hs : ∀ c ∈ s, isFiller c = true) : ∀ c ∈ mark, c ∉ s := by
    intro c hc hin
    simpa [hfiller c hc] using hs c hin
  induction pieces with
  | nil =>
      have hlast : mark <:+: blank last ++ [] := by simpa [renderScript] using h
      have hnil := infix_of_append_left hmark (hdisjoint (isFiller_blank last)) hlast
      exact absurd (List.infix_nil.mp hnil) hmark
  | cons p pieces ih =>
      rw [renderScript_cons, script, List.append_assoc, List.append_assoc] at h
      have hcode := infix_of_append_left hmark (hdisjoint p.isFiller_scriptFront) h
      obtain ⟨hback, hfillerBack⟩ := p.isFiller_scriptBack
      rcases infix_or_infix_of_append hmark hback (hdisjoint hfillerBack) hcode with hin | hin
      · exact ⟨p, List.mem_cons_self .., hin⟩
      · obtain ⟨q, hq, h⟩ := ih hin
        exact ⟨q, List.mem_cons_of_mem p hq, h⟩

end Piece

end Stencil
