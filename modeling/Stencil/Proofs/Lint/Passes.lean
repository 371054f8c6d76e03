import Mathlib.Algebra.GroupWithZero.Nat
import Stencil.Lint.Linter
import Stencil.Proofs.Lint.Choosing

/-!
# Passes of fixes

To fix a document its fixes are made in passes, and after each pass the result is linted.  The
passes end where no fix is left to be made or where the limit is reached.  Either way the
diagnostics that are returned are those of the document that is returned, and the number of fixes is
that of all passes together.  Where the limit is not reached no fix is left, and to fix the result
changes nothing.
-/

namespace Stencil.Lint.Linter

open Text

variable {l : Linter} {document t last : Text} {ds : List Diagnostic} {counts : List Nat}

/-- Passes that lead from one document to another, with the number of fixes that each of them
makes.  No pass makes none. -/
inductive Passes (l : Linter) : List Nat → Text → Text → Prop where
  | nil {t : Text} : Passes l [] t t
  | cons {count : Nat} {counts : List Nat} {t next last : Text}
      (hpass : applyFixes t (l.lint t) = (next, count)) (hcount : 0 < count)
      (h : Passes l counts next last) : Passes l (count :: counts) t last

/-- Passes that make no fix at all are none, and they lead nowhere. -/
theorem Passes.eq_of_sum_eq_zero (h : l.Passes counts t last) (hsum : counts.sum = 0) :
  counts = [] ∧ last = t
  := by
  cases h with
  | nil => exact ⟨rfl, rfl⟩
  | cons _ hcount _ =>
      rw [List.sum_cons] at hsum
      omega

/-! ### One pass -/

theorem fixFrom_of_not_hasFix (h : ¬ HasFix document ds) (passes : Nat) :
  l.fixFrom passes document ds = ⟨document, 0, ds⟩
  := by
  cases passes with
  | zero => rfl
  | succ passes =>
      rw [fixFrom]
      split
      · rfl
      · next next count hnone hpass =>
          rw [← snd_applyFixes_eq_zero_iff, hpass] at h
          exact absurd h hnone

theorem fixFrom_of_hasFix (h : HasFix document ds) (passes : Nat) :
  l.fixFrom (passes + 1) document ds
    = let (next, count) := applyFixes document ds
      let later := l.fixFrom passes next (l.lint next)
      { later with applied := count + later.applied }
  := by
  rw [fixFrom]
  split
  · next next hpass =>
      rw [← not_not (a := HasFix document ds), ← snd_applyFixes_eq_zero_iff, hpass] at h
      exact absurd rfl h
  · next next count _ hpass => rw [hpass]

/-! ### All passes -/

/-- Passes are made as long as there are fixes and the limit allows for another one. -/
theorem exists_passes_fixFrom (l : Linter) (passes : Nat) (document : Text) :
  let fixed := l.fixFrom passes document (l.lint document)
  ∃ counts, counts.length ≤ passes ∧ l.Passes counts document fixed.document
    ∧ fixed.applied = counts.sum ∧ fixed.diagnostics = l.lint fixed.document
    ∧ (counts.length < passes → ¬ HasFix fixed.document fixed.diagnostics)
  := by
  induction passes generalizing document with
  | zero => exact ⟨[], Nat.le_refl _, .nil, rfl, rfl, fun h => absurd h (Nat.lt_irrefl _)⟩
  | succ passes ih =>
      by_cases hfix : HasFix document (l.lint document)
      · rw [fixFrom_of_hasFix hfix]
        cases hpass : applyFixes document (l.lint document) with
        | mk next count =>
            have hcount : 0 < count := by
              rw [Nat.pos_iff_ne_zero]
              rintro rfl
              exact snd_applyFixes_eq_zero_iff.mp (congrArg Prod.snd hpass) hfix
            obtain ⟨counts, hlength, hpasses, hsum, hlint, hend⟩ := ih next
            refine ⟨count :: counts, Nat.succ_le_succ hlength, .cons hpass hcount hpasses, ?_,
              hlint, fun h => hend (Nat.lt_of_succ_lt_succ h)⟩
            rw [List.sum_cons, ← hsum]
      · rw [fixFrom_of_not_hasFix hfix]
        exact ⟨[], Nat.zero_le _, .nil, rfl, rfl, fun _ => hfix⟩

/-- A document is fixed in passes, no more than the limit allows.  The number of fixes is that of
all passes together, and the diagnostics are those of the result.  No fix is made exactly if none
lies within the document, and then the document stays as it is.  If there are fewer passes than the
limit allows, no fix is left that lies within the result, and to fix it again changes nothing. -/
theorem passes_fix (l : Linter) (document : Text) :
  let fixed := l.fix document
  (∃ counts, counts.length ≤ passLimit ∧ l.Passes counts document fixed.document
      ∧ fixed.applied = counts.sum
      ∧ (counts.length < passLimit → ¬ HasFix fixed.document fixed.diagnostics
        ∧ l.fix fixed.document = ⟨fixed.document, 0, fixed.diagnostics⟩))
    ∧ fixed.diagnostics = l.lint fixed.document
    ∧ (fixed.applied = 0 ↔ ¬ HasFix document (l.lint document))
    ∧ (fixed.applied = 0 → fixed.document = document)
  := by
  obtain ⟨counts, hlength, hpasses, hsum, hlint, hend⟩ := exists_passes_fixFrom l passLimit document
  refine ⟨⟨counts, hlength, hpasses, hsum, ?settled⟩, hlint, ⟨?none, ?many⟩, ?same⟩
  case settled =>
    intro hfew
    have hnone := hend hfew
    refine ⟨hnone, ?_⟩
    rw [hlint] at hnone
    rw [fix, fix, hlint, fixFrom_of_not_hasFix hnone]
  case none =>
    intro hzero
    obtain ⟨rfl, hsame⟩ := hpasses.eq_of_sum_eq_zero (hsum.symm.trans hzero)
    have hnone := hend (by decide)
    rw [hlint, hsame] at hnone
    exact hnone
  case many =>
    intro hnone
    rw [fix, fixFrom_of_not_hasFix hnone]
  case same =>
    intro hzero
    exact (hpasses.eq_of_sum_eq_zero (hsum.symm.trans hzero)).2

end Stencil.Lint.Linter
