import Stencil.Proofs.Lint.Tidy
import Stencil.Proofs.View.Script

/-!
# Fixes that tidy the tags of a document

Fixes each of which tidies the code of some tag are made piece by piece: those of the first tag in
its code, and the others behind it.  So a document that is made up of pieces is made up of as many
pieces after them, with the same texts and kinds of tags, in which only the codes have changed.
-/

namespace Stencil.Lint

open Text

/-- The fix tidies the code of one of the tags. -/
def TidiesSome (r : Reach) (document : Text) (tags : List Tag) (f : Fix) : Prop :=
  ∃ tag ∈ tags, Tidies r tag.kind (tag.code.text document) tag.code.start f

/-- The piece goes on as such, whichever fixes are made. -/
structure Reach.Keeps (r : Reach) (p : Piece) : Prop where
  gap : ¬ ['<', '%'] <:+: p.gap
  code : r.Safe p.kind p.code

variable {r : Reach} {document last s t u : Text} {pieces : List Piece} {tag : Tag}
  {pos pos' : Nat} {f : Fix} {fs gs : List Fix}

theorem Tidies.lies {kind : Tag.Kind} {code : Text} {start : Nat} (h : Tidies r kind code start f) :
  f.Lies start code
  := by
  rcases h.opens_or_spares with ⟨lead, rest, hcode, -, -, hspan, -⟩ | hspares
  · exact ⟨[], lead, rest, hcode, hspan, trivial⟩
  · exact hspares.lies

/-- A fix that lies in a piece of a text lies in the text. -/
theorem Fix.Lies.append (h : f.Lies (pos + width s) t) (u : Text) :
  f.Lies pos (s ++ (t ++ u))
  := by
  obtain ⟨front, old, back, rfl, hspan, -⟩ := h
  refine ⟨s ++ front, old, back ++ u, by simp, ?_, trivial⟩
  simp only [hspan, width_append, Nat.add_assoc]

theorem Fix.Lies.le (h : f.Lies pos t) :
  pos ≤ f.span.start ∧ f.span.stop ≤ pos + width t
  := by
  obtain ⟨front, old, back, rfl, hspan, -⟩ := h
  simp only [hspan, width_append]
  omega

theorem Apart.of_append (h : Apart pos (fs ++ gs)) :
  Apart pos fs ∧ Apart pos gs
  := by
  induction fs generalizing pos with
  | nil => exact ⟨.nil, h⟩
  | cons f fs ih =>
      cases h with
      | cons hstart hforward h =>
          obtain ⟨hfs, hgs⟩ := ih h
          exact ⟨.cons hstart hforward hfs, hgs.mono (by omega)⟩

/-- Fixes that lie apart do so behind any offset before all of them. -/
theorem Apart.of_le (h : Apart pos fs) (hle : ∀ f ∈ fs, pos' ≤ f.span.start) :
  Apart pos' fs
  := by
  cases h with
  | nil => exact .nil
  | cons hstart hforward h => exact .cons (hle _ (List.mem_cons_self ..)) hforward h

/-- Fixes that lie apart are those before a bound and those behind it. -/
theorem Apart.exists_split {A B : Fix → Prop} {bound : Nat} (hapart : Apart pos fs)
    (h : ∀ f ∈ fs, A f ∧ f.span.start ≤ bound ∨ B f ∧ bound < f.span.start) :
  ∃ before behind, fs = before ++ behind ∧ (∀ f ∈ before, A f)
    ∧ ∀ f ∈ behind, B f ∧ bound < f.span.start
  := by
  induction hapart with
  | nil => exact ⟨[], [], rfl, by simp, by simp⟩
  | @cons pos f fs _ hforward hrest ih =>
      obtain ⟨hf, hfs⟩ := List.forall_mem_cons.mp h
      rcases hf with hA | hB
      · obtain ⟨before, behind, rfl, hbefore, hbehind⟩ := ih hfs
        exact ⟨f :: before, behind, rfl, List.forall_mem_cons.mpr ⟨hA.1, hbefore⟩, hbehind⟩
      · refine ⟨[], f :: fs, rfl, by simp, List.forall_mem_cons.mpr ⟨hB, fun g hg => ?_⟩⟩
        have := hrest.le_start g hg
        rcases hfs g hg with ⟨-, hg⟩ | hg
        · omega
        · exact hg

/-- A fix that tidies a tag of a piece or of later ones lies in them. -/
theorem TidiesSome.lies (hcut : document.Cut pos (Piece.render pieces last))
    (h : TidiesSome r document (Piece.tags pos pieces) f) :
  f.Lies pos (Piece.render pieces last)
  := by
  induction pieces generalizing pos with
  | nil =>
      obtain ⟨tag, htag, -⟩ := h
      cases htag
  | cons p pieces ih =>
      rw [Piece.render_cons] at hcut ⊢
      obtain ⟨tag, htag, hf⟩ := h
      rcases List.mem_cons.mp htag with rfl | hlater
      · rw [Piece.text_code hcut] at hf
        have hlies : f.Lies (pos + width (p.gap ++ p.kind.opening)) p.code := by
          rw [width_append, ← Nat.add_assoc]
          exact hf.lies
        simpa [Piece.text] using hlies.append ('%' :: '>' :: Piece.render pieces last)
      · have hlies := ih (Piece.cut_behind hcut) ⟨tag, hlater, hf⟩
        rw [← p.width_text] at hlies
        simpa using hlies.append []

/-- A fix that tidies a tag of a piece or of later ones tidies the code of the piece, or it lies
behind the piece. -/
theorem TidiesSome.of_cons {p : Piece} (hcut : document.Cut pos (Piece.render (p :: pieces) last))
    (h : TidiesSome r document (Piece.tags pos (p :: pieces)) f) :
  Tidies r p.kind p.code (p.codeStart pos) f ∧ f.span.start ≤ p.codeStop pos
    ∨ (TidiesSome r document (Piece.tags (p.codeStop pos + 2) pieces) f
      ∧ p.codeStop pos + 2 ≤ f.span.start) ∧ p.codeStop pos < f.span.start
  := by
  rw [Piece.render_cons] at hcut
  obtain ⟨tag, htag, hf⟩ := h
  rcases List.mem_cons.mp htag with rfl | hlater
  · left
    rw [Piece.text_code hcut] at hf
    exact ⟨hf, Nat.le_trans hf.lies.forward hf.lies.le.2⟩
  · right
    have hsome : TidiesSome r document (Piece.tags (p.codeStop pos + 2) pieces) f :=
      ⟨tag, hlater, hf⟩
    have hle := (hsome.lies (Piece.cut_behind hcut)).le.1
    exact ⟨⟨hsome, hle⟩, by omega⟩

/-- Fixes of the code of a piece and fixes behind the piece are made separately. -/
theorem edited_piece {p : Piece} (hapart : Apart pos (fs ++ gs))
    (hlies : ∀ f ∈ fs ++ gs, f.Lies pos (p.text ++ t))
    (hfs : ∀ f ∈ fs, f.Lies (p.codeStart pos) p.code)
    (hgs : ∀ g ∈ gs, p.codeStop pos + 2 ≤ g.span.start) :
  edited pos (p.text ++ t) (fs ++ gs)
    = (Piece.mk p.gap p.kind (edited (p.codeStart pos) p.code fs)).text
      ++ edited (p.codeStop pos + 2) t gs
  := by
  have htext : p.text ++ t = (p.gap ++ p.kind.opening) ++ (p.code ++ (['%', '>'] ++ t)) := by
    simp [Piece.text]
  have hcodeStart : pos + width (p.gap ++ p.kind.opening) = p.codeStart pos := by
    rw [width_append, ← Nat.add_assoc, Piece.codeStart]
  have hcodeStop : p.codeStart pos + width p.code = p.codeStop pos := rfl
  rw [htext] at hlies ⊢
  have hstart : ∀ f ∈ fs ++ gs, p.codeStart pos ≤ f.span.start := by
    intro f hf
    rcases List.mem_append.mp hf with hf | hf
    · exact (hfs f hf).le.1
    · have := hgs f hf
      omega
  have hcode : ∀ f ∈ fs ++ gs, f.Lies (p.codeStart pos) (p.code ++ (['%', '>'] ++ t)) := by
    intro f hf
    have hright := Fix.Replaces.right (hlies f hf) (by rw [hcodeStart]; exact hstart f hf)
    rwa [hcodeStart] at hright
  have hclosing : ∀ g ∈ gs, g.Lies (p.codeStop pos) (['%', '>'] ++ t) := by
    intro g hg
    apply Fix.Replaces.right (hcode g (List.mem_append_right fs hg))
    have := hgs g hg
    omega
  calc
    edited pos ((p.gap ++ p.kind.opening) ++ (p.code ++ (['%', '>'] ++ t))) (fs ++ gs)
      = (p.gap ++ p.kind.opening)
          ++ edited (p.codeStart pos) (p.code ++ (['%', '>'] ++ t)) (fs ++ gs) := by
        rw [edited_append_left fun f hf => ⟨by rw [hcodeStart]; exact hstart f hf, hlies f hf⟩,
          hcodeStart]
    _ = (p.gap ++ p.kind.opening) ++ (edited (p.codeStart pos) p.code fs
          ++ edited (p.codeStop pos) (['%', '>'] ++ t) gs) := by
        rw [edited_append (hapart.of_le hstart) hfs, hcodeStop]
        intro g hg
        refine ⟨?_, hcode g (List.mem_append_right fs hg)⟩
        have := hgs g hg
        omega
    _ = (p.gap ++ p.kind.opening) ++ (edited (p.codeStart pos) p.code fs
          ++ (['%', '>'] ++ edited (p.codeStop pos + 2) t gs)) := by
        rw [edited_append_left fun g hg => ⟨hgs g hg, hclosing g hg⟩]
        rfl
    _ = (Piece.mk p.gap p.kind (edited (p.codeStart pos) p.code fs)).text
          ++ edited (p.codeStop pos + 2) t gs := by
        simp [Piece.text]

/-- Fixes that tidy tags are made in the codes of pieces. -/
theorem exists_pieces_edited (hcut : document.Cut pos (Piece.render pieces last))
    (hkeeps : ∀ p ∈ pieces, r.Keeps p) (hapart : Apart pos fs)
    (hfs : ∀ f ∈ fs, TidiesSome r document (Piece.tags pos pieces) f) :
  ∃ pieces', edited pos (Piece.render pieces last) fs = Piece.render pieces' last
    ∧ (∀ p ∈ pieces', r.Keeps p) ∧ pieces'.map (·.kind) = pieces.map (·.kind)
  := by
  induction pieces generalizing pos fs with
  | nil =>
      cases fs with
      | nil => exact ⟨[], rfl, by simp, rfl⟩
      | cons f fs =>
          obtain ⟨tag, htag, -⟩ := hfs f (List.mem_cons_self ..)
          cases htag
  | cons p pieces ih =>
      obtain ⟨before, behind, rfl, hbefore, hbehind⟩ :=
        hapart.exists_split fun f hf => (hfs f hf).of_cons hcut
      have hlies := fun f hf => (hfs f hf).lies hcut
      rw [Piece.render_cons] at hcut hlies ⊢
      obtain ⟨hp, hpieces⟩ := List.forall_mem_cons.mp hkeeps
      obtain ⟨hfirst, hlater⟩ := hapart.of_append
      have hstart : ∀ g ∈ behind, p.codeStop pos + 2 ≤ g.span.start :=
        fun g hg => (hbehind g hg).1.2
      obtain ⟨pieces', hedited, hkeeps', hkinds⟩ := ih (Piece.cut_behind hcut) hpieces
        (hlater.of_le hstart) fun g hg => (hbehind g hg).1.1
      have hcode : Apart (p.codeStart pos) before :=
        hfirst.of_le fun f hf => (hbefore f hf).lies.le.1
      refine ⟨⟨p.gap, p.kind, edited (p.codeStart pos) p.code before⟩ :: pieces', ?_, ?_, ?_⟩
      · rw [edited_piece hapart hlies (fun f hf => (hbefore f hf).lies) hstart, hedited,
          Piece.render_cons]
      · exact List.forall_mem_cons.mpr ⟨⟨hp.gap, hp.code.edited hcode hbefore⟩, hkeeps'⟩
      · rw [List.map_cons, List.map_cons, hkinds]

end Stencil.Lint
