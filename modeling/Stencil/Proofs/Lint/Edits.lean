import Stencil.Lint.Diagnostic
import Stencil.Proofs.Text.Trim

/-!
# Fixes make edits

Fixes that lie apart are made from left to right.  Each of them replaces a piece of the text, so
fixes that lie in the first of two texts and fixes that lie in the second one can be made in the two
texts separately.
-/

namespace Stencil.Lint

open Text

/-- The text at the offset `pos` with fixes made that lie in order. -/
def edited (pos : Nat) (t : Text) : List Fix → Text
  | [] => t
  | f :: rest =>
    before (f.span.start - pos) t ++ f.replacement
      ++ edited f.span.stop (onward (f.span.stop - pos) t) rest

/-- The fix replaces a piece of the text at the offset `pos`, and something holds of the piece and
of what is left behind it. -/
def Fix.Replaces (P : Text → Text → Prop) (pos : Nat) (t : Text) (f : Fix) : Prop :=
  ∃ front old back, t = front ++ (old ++ back)
    ∧ f.span = ⟨pos + width front, pos + width front + width old⟩ ∧ P old back

/-- The fix replaces a piece of the text at the offset `pos`. -/
def Fix.Lies (pos : Nat) (t : Text) (f : Fix) : Prop := f.Replaces (fun _ _ => True) pos t

/-- Fixes behind an offset, each of which begins behind the end of the one before it. -/
inductive Apart : Nat → List Fix → Prop where
  | nil {pos : Nat} : Apart pos []
  | cons {pos : Nat} {f : Fix} {rest : List Fix} (hstart : pos ≤ f.span.start)
      (hforward : f.span.start ≤ f.span.stop) (h : Apart (f.span.stop + 1) rest) :
      Apart pos (f :: rest)

variable {P : Text → Text → Prop} {pos pos' : Nat} {s t : Text} {f : Fix} {fs gs : List Fix}

theorem Apart.mono (h : Apart pos' fs) (hpos : pos ≤ pos') :
  Apart pos fs
  := by
  cases h with
  | nil => exact .nil
  | cons hstart hforward h => exact .cons (Nat.le_trans hpos hstart) hforward h

/-- Each of the fixes begins behind the offset. -/
theorem Apart.le_start (h : Apart pos fs) :
  ∀ f ∈ fs, pos ≤ f.span.start
  := by
  induction h with
  | nil => simp
  | @cons pos f rest hstart hforward _ ih =>
      refine List.forall_mem_cons.mpr ⟨hstart, fun g hg => ?_⟩
      have := ih g hg
      omega

theorem Apart.of_cons (h : Apart pos (f :: fs)) :
  f.span.start ≤ f.span.stop ∧ Apart (f.span.stop + 1) fs
  := by
  cases h with
  | cons _ hforward h => exact ⟨hforward, h⟩

theorem Fix.Replaces.lies (h : f.Replaces P pos t) :
  f.Lies pos t
  := by
  obtain ⟨front, old, back, htext, hspan, -⟩ := h
  exact ⟨front, old, back, htext, hspan, trivial⟩

theorem Fix.Lies.forward (h : f.Lies pos t) :
  f.span.start ≤ f.span.stop
  := by
  obtain ⟨front, old, back, -, hspan, -⟩ := h
  rw [hspan]
  apply Nat.le_add_right

/-- A fix in the second of two texts lies in it. -/
theorem Fix.Replaces.right (h : f.Replaces P pos (s ++ t)) (hstart : pos + width s ≤ f.span.start) :
  f.Replaces P (pos + width s) t
  := by
  obtain ⟨front, old, back, htext, hspan, hP⟩ := h
  rw [hspan] at hstart
  obtain ⟨more, rfl, rfl⟩ := exists_append_of_width_le htext (by simpa using hstart)
  refine ⟨more, old, back, rfl, ?_, hP⟩
  simp only [hspan, width_append, Nat.add_assoc]

/-- A fix that follows another one lies in what is left behind that. -/
theorem Fix.Replaces.behind {front old back : Text}
    (hspan : f.span = ⟨pos + width front, pos + width front + width old⟩) {g : Fix}
    (h : g.Replaces P pos (front ++ (old ++ back))) (hstart : f.span.stop ≤ g.span.start) :
  g.Replaces P f.span.stop back
  := by
  have hstop : f.span.stop = pos + width (front ++ old) := by
    rw [hspan, width_append, Nat.add_assoc]
  rw [← List.append_assoc] at h
  rw [hstop] at hstart ⊢
  exact h.right hstart

/-- The fixes that follow a fix lie in what is left behind it. -/
theorem Apart.behind {P : Fix → Text → Text → Prop} {front old back : Text}
    (hapart : Apart pos (f :: fs))
    (hspan : f.span = ⟨pos + width front, pos + width front + width old⟩)
    (hfs : ∀ g ∈ fs, g.Replaces (P g) pos (front ++ (old ++ back))) :
  Apart f.span.stop fs ∧ ∀ g ∈ fs, g.Replaces (P g) f.span.stop back
  := by
  have hrest := hapart.of_cons.2.mono (Nat.le_succ _)
  exact ⟨hrest, fun g hg => (hfs g hg).behind hspan (hrest.le_start g hg)⟩

/-- What is left behind a fix. -/
theorem onward_of_lies {front old back : Text} :
  onward (pos + width front + width old - pos) (front ++ (old ++ back)) = back
  := by
  rw [Nat.add_assoc, Nat.add_sub_cancel_left, ← width_append, ← List.append_assoc, onward_append]

/-- Making a fix replaces the piece on which it lies. -/
theorem edited_cons {front old back : Text} (hspan : f.span = ⟨pos + width front,
    pos + width front + width old⟩) :
  edited pos (front ++ (old ++ back)) (f :: fs)
    = front ++ f.replacement ++ edited f.span.stop back fs
  := by
  rw [edited, hspan, Nat.add_sub_cancel_left, before_append, onward_of_lies]

/-- Fixes that lie in the second of two texts are made there. -/
theorem edited_append_left (hgs : ∀ g ∈ gs, pos + width s ≤ g.span.start ∧ g.Lies pos (s ++ t)) :
  edited pos (s ++ t) gs = s ++ edited (pos + width s) t gs
  := by
  cases gs with
  | nil => rfl
  | cons g gs =>
      obtain ⟨hstart, hlies⟩ := hgs g (List.mem_cons_self ..)
      obtain ⟨front, old, back, rfl, hspan, -⟩ := hlies.right hstart
      rw [edited_cons hspan, ← List.append_assoc, edited_cons, List.append_assoc, List.append_assoc,
        List.append_assoc]
      rw [hspan, width_append, Nat.add_assoc pos]

/-- Fixes that lie in the first of two texts and fixes that lie in the second one are made
separately. -/
theorem edited_append (hapart : Apart pos (fs ++ gs)) (hfs : ∀ f ∈ fs, f.Lies pos s)
    (hgs : ∀ g ∈ gs, pos + width s ≤ g.span.start ∧ g.Lies pos (s ++ t)) :
  edited pos (s ++ t) (fs ++ gs) = edited pos s fs ++ edited (pos + width s) t gs
  := by
  induction fs generalizing pos s with
  | nil => exact edited_append_left hgs
  | cons f fs ih =>
      obtain ⟨hf, hrest⟩ := List.forall_mem_cons.mp hfs
      obtain ⟨front, old, back, rfl, hspan, -⟩ := hf
      have hstop : f.span.stop + width back = pos + width (front ++ (old ++ back)) := by
        simp only [hspan, width_append]
        omega
      have hapart' : Apart f.span.stop (fs ++ gs) := hapart.of_cons.2.mono (Nat.le_succ _)
      have hfs' : ∀ g ∈ fs, g.Lies f.span.stop back := fun g hg =>
        (hrest g hg).behind hspan (hapart'.le_start g (List.mem_append_left gs hg))
      have hgs' : ∀ g ∈ gs,
          f.span.stop + width back ≤ g.span.start ∧ g.Lies f.span.stop (back ++ t) := by
        intro g hg
        obtain ⟨hstart, hlies⟩ := hgs g hg
        rw [hstop]
        refine ⟨hstart, ?_⟩
        rw [List.append_assoc, List.append_assoc] at hlies
        exact hlies.behind hspan (hapart'.le_start g (List.mem_append_right fs hg))
      rw [List.cons_append, List.append_assoc, List.append_assoc, edited_cons hspan,
        edited_cons hspan, ih hapart' hfs' hgs', hstop]
      simp only [List.append_assoc]

/-! ### The fixes of a document -/

/-- Fixes that lie apart in what is left of a document are made as edits. -/
theorem makeFixes_eq {document : Text} (hcut : document.Cut pos t) (hapart : Apart pos fs)
    (hfs : ∀ f ∈ fs, f.Lies pos t) :
  makeFixes document pos fs = edited pos t fs
  := by
  induction fs generalizing pos t with
  | nil => exact hcut.onward_eq
  | cons f fs ih =>
      obtain ⟨hf, hrest⟩ := List.forall_mem_cons.mp hfs
      obtain ⟨front, old, back, rfl, hspan, -⟩ := hf
      obtain ⟨hapart', hfs'⟩ := hapart.behind hspan hrest
      have hcut' : document.Cut f.span.stop back := by
        rw [hspan]
        exact hcut.append.append
      rw [makeFixes, slice, hcut.onward_eq, ih hcut' hapart' hfs', edited, hspan, onward_of_lies]

theorem orderedFixes_perm (ds : List Diagnostic) :
  (orderedFixes ds).Perm (ds.filterMap (·.fix))
  := List.mergeSort_perm _ _

/-- The fixes that are chosen are taken in order from those that are tried. -/
theorem sublist_chooseFixes (size : Nat) (last : Option Nat) (fs : List Fix) :
  (chooseFixes size last fs).Sublist fs
  := by
  fun_induction chooseFixes size last fs with
  | case1 => exact .slnil
  | case2 last f fs _ ih => exact ih.cons f
  | case3 last f fs _ ih => exact ih.cons_cons f

/-- The fixes that are chosen lie apart. -/
theorem apart_chooseFixes (size : Nat) (last : Option Nat)
    (hfs : ∀ f ∈ fs, f.span.start ≤ f.span.stop) :
  Apart (last.elim 0 (· + 1)) (chooseFixes size last fs)
  := by
  fun_induction chooseFixes size last fs with
  | case1 => exact .nil
  | case2 last f fs _ ih => exact ih (List.forall_mem_cons.mp hfs).2
  | case3 last f fs hchosen ih =>
      obtain ⟨hforward, hrest⟩ := List.forall_mem_cons.mp hfs
      refine .cons ?_ hforward (ih hrest)
      cases last with
      | none => exact Nat.zero_le _
      | some n =>
          rw [Bool.or_eq_true, not_or] at hchosen
          have hlast := hchosen.1
          simp only [Option.any_some, decide_eq_true_eq, Nat.not_le] at hlast
          exact hlast

variable {document : Text} {ds : List Diagnostic}

/-- The fixes that are chosen are fixes of the diagnostics. -/
theorem mem_of_mem_chooseFixes {size : Nat} {last : Option Nat}
    (hf : f ∈ chooseFixes size last (orderedFixes ds)) :
  f ∈ ds.filterMap (·.fix)
  := (orderedFixes_perm ds).subset ((sublist_chooseFixes size last _).subset hf)

/-- The fixes that are chosen are made as edits if they lie in the document. -/
theorem applyFixes_eq_edited (hforward : ∀ f ∈ ds.filterMap (·.fix), f.span.start ≤ f.span.stop)
    (hlies : ∀ f ∈ chooseFixes (width document) none (orderedFixes ds), f.Lies 0 document) :
  Apart 0 (chooseFixes (width document) none (orderedFixes ds))
    ∧ (applyFixes document ds).1
      = edited 0 document (chooseFixes (width document) none (orderedFixes ds))
  := by
  have hapart := apart_chooseFixes (width document) none fun f hf =>
    hforward f ((orderedFixes_perm ds).subset hf)
  exact ⟨hapart, makeFixes_eq (cut_zero document) hapart hlies⟩

/-- If the fixes of diagnostics lie in a document, then some of them that lie apart are made. -/
theorem exists_applyFixes_eq (h : ∀ d ∈ ds, ∀ f ∈ d.fix, f.Lies 0 document) :
  ∃ fs, Apart 0 fs ∧ (∀ f ∈ fs, ∃ d ∈ ds, f ∈ d.fix)
    ∧ (applyFixes document ds).1 = edited 0 document fs
  := by
  have hlies : ∀ f ∈ ds.filterMap (·.fix), f.Lies 0 document := by
    intro f hf
    obtain ⟨d, hd, hfix⟩ := List.mem_filterMap.mp hf
    exact h d hd f hfix
  obtain ⟨hapart, hedited⟩ := applyFixes_eq_edited (fun f hf => (hlies f hf).forward)
    fun f hf => hlies f (mem_of_mem_chooseFixes hf)
  exact ⟨_, hapart, fun f hf => List.mem_filterMap.mp (mem_of_mem_chooseFixes hf), hedited⟩

end Stencil.Lint
