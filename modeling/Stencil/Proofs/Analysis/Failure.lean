import Mathlib.Data.List.Induction
import Stencil.Proofs.Branch.Boundaries

/-!
# Analyses of what cannot be read

An analysis can fail at the tags, at the program and at the branches.  Each failure stops what would
come after it, so there is one error at most, and nothing is left of what was found before it but
the tags and the program.  A document whose analysis has failed has no branches, and without
branches a store never holds any view but the whole document, which is the answer to every query.
-/

namespace Stencil

open Text Script

/-! ### Documents without branches -/

/-- If there are no branches, every view is the whole document. -/
theorem Outlined.viewFor_of_branches_eq {o : Outlined} (h : o.branches = {}) (target : Nat) :
  o.viewFor target = o.wholeView
  := by
  have hpath : o.pathTo target = {} := by simp [pathTo, h]
  have hmerge : Span.merge [] = [] := by simp [Span.merge]
  have hblank : blankRanges o.document [] = o.document := onward_zero o.document
  simp only [viewFor, hpath, viewWithout, hmerge, hblank, wholeView]

namespace ViewStore

variable {o : Outlined}

/-- The store holds no view but the whole document, and this once at most. -/
def IsWhole (o : Outlined) (views : ViewStore) : Prop := views = [] ∨ views = [o.wholeView]

theorem run_cover_of_isWhole (h : o.branches = {}) (target : Nat) {views : ViewStore}
    (hviews : IsWhole o views) :
  (cover o target).run views = ((0, o.wholeView), [o.wholeView])
  := by
  rw [run_cover]
  rcases hviews with rfl | rfl
  · rw [Outlined.viewFor_of_branches_eq h]
    rfl
  · rfl

theorem run_all_of_isWhole (h : o.branches = {}) {views : ViewStore} (hviews : IsWhole o views) :
  (all o).run views = ([(0, o.wholeView)], [o.wholeView])
  := by
  have hcover := run_cover_of_isWhole h 0 hviews
  have hask : ask o views (.cover 0) = [o.wholeView] := congrArg Prod.snd hcover
  rw [all, run_collect_succ, hcover, hask]
  rfl

theorem isWhole_after (h : o.branches = {}) (queries : List Query) :
  IsWhole o (after o queries)
  := by
  induction queries using List.reverseRecOn with
  | nil => exact Or.inl rfl
  | append_singleton queries q ih =>
      right
      rw [after_concat]
      cases q with
      | cover target => exact congrArg Prod.snd (run_cover_of_isWhole h target ih)
      | all => exact congrArg Prod.snd (run_all_of_isWhole h ih)

end ViewStore

namespace Analysis

/-! ### The outcomes of an analysis -/

/-- What can become of an analysis: it fails at the tags, at the program or at the branches, or it
gets through. -/
inductive Outcome (read : ProgramReader) (settings : Settings) (document : Text) :
    Analysis → Prop where
  | tags {a : Analysis} {e : TagError} (h : settings.tags document = .error e)
      (herror : a.parseError = some (.tag e)) (hbranches : a.branchError = none)
      (htags : a.tags = []) (hprogram : a.program = none) (hscript : a.script = blank document)
      (hnone : a.outlined.branches = {}) : Outcome read settings document a
  | program {a : Analysis} {e : ScriptError} (h : settings.tags document = .ok a.tags)
      (hread : read (scriptView document a.tags) = .error e)
      (herror : a.parseError = some (.script e)) (hbranches : a.branchError = none)
      (hprogram : a.program = none) (hnone : a.outlined.branches = {}) :
      Outcome read settings document a
  | branches {a : Analysis} {p : Program} {e : BranchError}
      (h : settings.tags document = .ok a.tags)
      (hread : read (scriptView document a.tags) = .ok p) (herror : a.parseError = none)
      (hbranches : a.branchError = some e) (hprogram : a.program = some p)
      (hnone : a.outlined.branches = {}) : Outcome read settings document a
  | complete {a : Analysis} {p : Program} (h : settings.tags document = .ok a.tags)
      (hread : read (scriptView document a.tags) = .ok p) (herror : a.parseError = none)
      (hbranches : a.branchError = none) (hprogram : a.program = some p) :
      Outcome read settings document a

theorem outcome (read : ProgramReader) (settings : Settings) (document : Text) :
  Outcome read settings document (ofDocument read settings document)
  := by
  unfold ofDocument
  cases htags : settings.tags document with
  | error e =>
      have hscript : scriptView document [] = blank document := by
        rw [scriptView, replaceTags, onward_zero]
      exact .tags htags rfl rfl rfl rfl hscript rfl
  | ok tags =>
      dsimp only
      cases hread : read (scriptView document tags) with
      | error e => exact .program htags hread rfl rfl rfl rfl
      | ok p =>
          dsimp only [ofParts]
          cases hbranches : Branches.ofTree document p.tree with
          | error e =>
              have hfound : branchesOf document (some p) = ({}, some e) := by
                simp [branchesOf, hbranches]
              rw [hfound]
              exact .branches htags hread rfl rfl rfl rfl
          | ok b =>
              have hfound : branchesOf document (some p) = (b, none) := by
                simp [branchesOf, hbranches]
              rw [hfound]
              exact .complete htags hread rfl rfl rfl

/-- An analysis keeps at most one of the two kinds of errors.  An error of the tags is kept exactly
if the tags cannot be found, and then there are no tags and no program, and the script view is
blank.  After any error, whatever the store was asked before, the answer for every target is one and
the same view, which is the whole document with nothing hidden, and it is the only view. -/
theorem whole_view_of_error (read : ProgramReader) (settings : Settings) (document : Text) :
  let a := ofDocument read settings document
  ¬(a.parseError.isSome ∧ a.branchError.isSome)
    ∧ (∀ e, a.parseError = some (.tag e) ↔ settings.tags document = .error e)
    ∧ ((∃ e, a.parseError = some (.tag e)) →
      a.tags = [] ∧ a.program = none ∧ a.script = blank document)
    ∧ (a.parseError.isSome ∨ a.branchError.isSome → ∀ queries : List Query,
      (∀ target, ViewStore.answer a.outlined queries target = (0, ⟨a.outlined.wholeView.text, []⟩))
      ∧ ViewStore.listing a.outlined queries = [(0, ⟨a.outlined.wholeView.text, []⟩)])
  := by
  intro a
  have houtcome : Outcome read settings document a := outcome read settings document
  have hviews (hnone : a.outlined.branches = {}) (queries : List Query) :
      (∀ target, ViewStore.answer a.outlined queries target = (0, a.outlined.wholeView))
        ∧ ViewStore.listing a.outlined queries = [(0, a.outlined.wholeView)] := by
    have hwhole := ViewStore.isWhole_after hnone queries
    constructor
    · intro target
      rw [ViewStore.answer, ViewStore.run_cover_of_isWhole hnone target hwhole]
    · rw [ViewStore.listing, ViewStore.run_all_of_isWhole hnone hwhole]
  cases houtcome with
  | tags h herror hbranches htags hprogram hscript hnone =>
      rw [herror, hbranches, h]
      refine ⟨by simp, by simp, fun _ => ⟨htags, hprogram, hscript⟩, fun _ => hviews hnone⟩
  | program h hread herror hbranches hprogram hnone =>
      rw [herror, hbranches, h]
      refine ⟨by simp, by simp, by simp, fun _ => hviews hnone⟩
  | branches h hread herror hbranches hprogram hnone =>
      rw [herror, hbranches, h]
      refine ⟨by simp, by simp, by simp, fun _ => hviews hnone⟩
  | complete h hread herror hbranches hprogram =>
      rw [herror, hbranches, h]
      refine ⟨by simp, by simp, by simp, by simp⟩

/-- A program with a choice whose consequent is no statement. -/
def badChoice : Program :=
  let name (start : Nat) : Node := .mk start ⟨start, start + 1⟩ (.identifier ['x'])
  let choice : Node := .mk 2 ⟨3, 9⟩ (.ifStatement (name 3) (name 8) none)
  ⟨.mk 3 ⟨0, 12⟩ (.program [choice]), [], []⟩

theorem whole_view_of_error_sample :
  let document := Text.ofString "<% x %>A<%= x %>B"
  let a := ofDocument (fun _ => .ok badChoice) {} document
  a.parseError = none ∧ a.branchError = some (.consequent ⟨8, 9⟩)
    ∧ ViewStore.answer a.outlined [.cover 5, .all] 30
      = (0, ⟨Text.ofString "/*   */A________B", []⟩)
    ∧ ViewStore.listing a.outlined [.cover 5, .all]
      = [(0, ⟨Text.ofString "/*   */A________B", []⟩)]
  := by
  intro document a
  obtain ⟨tags, htags, hview⟩ : ∃ tags, ({} : Settings).tags document = .ok tags
      ∧ markupView document tags [] = Text.ofString "/*   */A________B" :=
    ⟨[.ofCode .evaluate ⟨0, 7⟩ ⟨2, 5⟩, .ofCode .interpolate ⟨8, 16⟩ ⟨11, 14⟩], by decide +kernel⟩
  have hdepth : badChoice.tree.endsWithin 4 = true := by decide +kernel
  have hbranches : Branches.ofTree document badChoice.tree = .error (.consequent ⟨8, 9⟩) := by
    rw [Branches.ofTree_eq_ofNodes hdepth]
    decide +kernel
  have ha : a = ofParts document tags (some badChoice) none := by
    simp only [a, ofDocument, htags]
  have herror : a.branchError = some (.consequent ⟨8, 9⟩) := by
    simp [ha, ofParts, branchesOf, hbranches]
  have htext : a.outlined.wholeView.text = Text.ofString "/*   */A________B" := by
    rw [ha, ← hview]
    simp [ofParts, branchesOf, hbranches, Outlined.wholeView]
  obtain ⟨-, -, -, hviews⟩ := whole_view_of_error (fun _ => .ok badChoice) {} document
  have hall := hviews (Or.inr (by rw [herror]; rfl)) [.cover 5, .all]
  rw [← htext]
  exact ⟨by rw [ha]; rfl, herror, hall.1 30, hall.2⟩

end Analysis

end Stencil
