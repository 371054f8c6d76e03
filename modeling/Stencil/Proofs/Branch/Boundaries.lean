import Stencil.Analysis
import Stencil.Proofs.Branch.ViewText
import Stencil.Proofs.Script.Edges

/-!
# Branches on boundaries

The branches of a document are told from its script view, which has as many bytes as the document
but other characters.  A branch begins and ends at edges of the script view, and these are
boundaries of the document unless a semicolon is written over a part of a character.  Then whatever
views are asked for, the document is cut into its characters only where one begins or ends.
-/

namespace Stencil

open Text Script

/-- The branches of a tree can be collected by recursion on a bound for its depth. -/
theorem Branches.ofTree_eq_ofNodes {depth : Nat} {source : Text} {tree : Node}
    (h : tree.endsWithin depth = true) :
  ofTree source tree = ((ofNodes source (tree.preorderWithin depth)).run.run {}).1
  := by
  rw [ofTree, Node.preorder_eq_preorderWithin h]

namespace Analysis

variable {settings : Settings} {document : Text}

theorem document_ofDocument (read : ProgramReader) (settings : Settings) (document : Text) :
  (ofDocument read settings document).document = document
  := by
  unfold ofDocument
  split
  · rfl
  · split <;> rfl

/-- The tags of an analysis are those of the document, or none if these cannot be found. -/
theorem tags_ofDocument (read : ProgramReader) (settings : Settings) (document : Text) :
  settings.tags document = .ok (ofDocument read settings document).tags
    ∨ (ofDocument read settings document).tags = []
  := by
  unfold ofDocument
  split
  · exact Or.inr rfl
  · next htags =>
      left
      split <;> exact htags

/-- The branches of an analysis are those of a program in the script view, if there are any. -/
theorem branches_ofDocument (read : ProgramReader) (settings : Settings) (document : Text) :
  (∃ tags p, settings.tags document = .ok tags ∧ (ofDocument read settings document).tags = tags
      ∧ read (scriptView document tags) = .ok p
      ∧ Branches.ofTree document p.tree = .ok (ofDocument read settings document).outlined.branches)
    ∨ (ofDocument read settings document).outlined.branches = {}
  := by
  unfold ofDocument
  split
  · exact Or.inr rfl
  · next tags htags =>
      split
      · next p hp =>
          cases hbranches : Branches.ofTree document p.tree with
          | error e =>
              right
              simp [ofParts, branchesOf, hbranches]
          | ok b =>
              left
              refine ⟨tags, p, htags, rfl, hp, ?_⟩
              simp [ofParts, branchesOf, hbranches]
      · exact Or.inr rfl

theorem program_of_readProgram {t : Text} {p : Program} (h : readProgram t = .ok p) :
  Program.ofText t = .ok p
  := by
  unfold readProgram at h
  cases hp : Program.ofText t with
  | error f =>
      rw [hp] at h
      cases h
  | ok q =>
      rw [hp] at h
      cases h
      rfl

/-- The tags of an analysis are placed in the document. -/
theorem placed_tags (read : ProgramReader) (settings : Settings) (document : Text) :
  Tag.Placed document (ofDocument read settings document).tags
  := by
  rcases tags_ofDocument read settings document with htags | hnone
  · exact settings.placed_tags htags
  · rw [hnone]
    exact ⟨by simp, by simp, by simp⟩

/-- The branches of a document lie apart. -/
theorem apart_branches (settings : Settings) (document : Text) :
  (ofDocument readProgram settings document).outlined.branches.Apart
  := by
  rcases branches_ofDocument readProgram settings document with
    ⟨tags, p, -, -, hread, hbranches⟩ | hnone
  · have hp := program_of_readProgram hread
    exact Branches.apart_of_ofTree (Program.diverges_of_ofText (bears_edges _) hp) hbranches
  · rw [hnone]
    exact ⟨by simp, by simp⟩

/-- Branches begin and end at boundaries if no semicolon is written over a part of a character. -/
theorem onBoundaries_branches
    (hfit : ∀ tag ∈ (ofDocument readProgram settings document).tags,
      tag.SemicolonsFit document) :
  ∀ s ∈ (ofDocument readProgram settings document).outlined.branches.spans,
    s.OnBoundaries document
  := by
  rcases branches_ofDocument readProgram settings document with
    ⟨tags, p, htags, rfl, hread, hbranches⟩ | hnone
  · intro s hs
    have hends := Program.endsAt_isEdge (program_of_readProgram hread)
    obtain ⟨hstart, hstop⟩ := Branches.endsAt_of_ofTree hends hbranches s hs
    constructor
    · exact settings.isBoundary_of_isEdge_scriptView htags hfit hstart
    · exact settings.isBoundary_of_isEdge_scriptView htags hfit hstop
  · rw [hnone]
    simp [Branches.spans]

/-- If no semicolon of the script view is written over a part of a character, every branch and
every group of cases begins and ends at a boundary of the document.  The tags and their code do so
anyway.  Whatever views are asked for, the ranges that are hidden in them lie on boundaries as well,
and each view has the width of the document. -/
theorem cuts_onBoundaries
    (hfit : ∀ tag ∈ (ofDocument readProgram settings document).tags,
      tag.SemicolonsFit document) (queries : List Query) :
  (∀ s ∈ (ofDocument readProgram settings document).outlined.branches.spans,
      s.OnBoundaries document)
    ∧ (∀ tag ∈ (ofDocument readProgram settings document).tags,
      tag.span.OnBoundaries document ∧ tag.code.OnBoundaries document)
    ∧ ∀ v ∈ ViewStore.after (ofDocument readProgram settings document).outlined queries,
      (∀ r ∈ v.striped, r.OnBoundaries document) ∧ width v.text = width document
  := by
  have hbranches := onBoundaries_branches hfit
  have hplaced := placed_tags readProgram settings document
  have hdocument := document_ofDocument readProgram settings document
  refine ⟨hbranches, ?tags, ?views⟩
  case tags =>
    intro tag htag
    refine ⟨hplaced.onBoundaries tag htag, ?_⟩
    rcases tags_ofDocument readProgram settings document with htags | hnone
    · exact (Settings.tiled_of_tags htags tag htag).2.onBoundaries
    · rw [hnone] at htag
      cases htag
  case views =>
    change Tag.Placed document (ofDocument readProgram settings document).outlined.tags at hplaced
    change (ofDocument readProgram settings document).outlined.document = document at hdocument
    generalize (ofDocument readProgram settings document).outlined = o at *
    subst hdocument
    intro v hv
    obtain ⟨target, rfl⟩ := ViewStore.made_after o queries v hv
    exact ⟨Outlined.onBoundaries_striped hbranches target,
      Outlined.width_viewFor hplaced hbranches target⟩

/-! ### Two documents with delimiters of two bytes -/

/-- Settings for output tags between the given delimiters. -/
def outputBetween (opening closing : String) : SettingsConfig :=
  { interpolate := some (.delimiters opening closing) }

/-- A document with its tags and its branches, if these can be read and the tree of its program has
at most the given depth. -/
def outlinedWithin (depth : Nat) (config : SettingsConfig) (document : Text) : Option Outlined := do
  let settings ← (Settings.ofConfig config).toOption
  let tags ← (settings.tags document).toOption
  let p ← (Program.ofText (scriptView document tags)).toOption
  if p.tree.endsWithin depth then
    let b ← ((Branches.ofNodes document (p.tree.preorderWithin depth)).run.run {}).1.toOption
    pure ⟨document, tags, b⟩
  else none

/-- Of such a document the tags and the spans of the branches. -/
def outlineWithin (depth : Nat) (config : SettingsConfig) (document : Text) :
    Option (List Tag × List Span) :=
  (outlinedWithin depth config document).map fun o => (o.tags, o.branches.spans)

theorem eq_ok_of_toOption {ε α : Type} {x : Except ε α} {a : α} (h : x.toOption = some a) :
  x = .ok a
  := by
  cases x with
  | error e => cases h
  | ok b =>
      cases h
      rfl

theorem of_outlinedWithin {depth : Nat} {config : SettingsConfig} {o : Outlined}
    (h : outlinedWithin depth config document = some o) :
  ∃ settings, Settings.ofConfig config = .ok settings
    ∧ (ofDocument readProgram settings document).outlined = o
  := by
  unfold outlinedWithin at h
  simp only [Option.bind_eq_bind, Option.bind_eq_some_iff] at h
  obtain ⟨settings, hsettings, tags, htags, p, hp, h⟩ := h
  have htags := eq_ok_of_toOption htags
  have hp := eq_ok_of_toOption hp
  have hdepth : p.tree.endsWithin depth = true := by
    by_contra hdeep
    rw [if_neg hdeep] at h
    cases h
  rw [if_pos hdepth, Option.bind_eq_some_iff] at h
  obtain ⟨b, hb, houtlined⟩ := h
  cases houtlined
  have hb := eq_ok_of_toOption hb
  rw [← Branches.ofTree_eq_ofNodes hdepth] at hb
  have hread : readProgram (scriptView document tags) = .ok p := by
    rw [readProgram, hp]
    rfl
  refine ⟨settings, eq_ok_of_toOption hsettings, ?_⟩
  unfold ofDocument
  rw [htags]
  dsimp only
  rw [hread]
  dsimp only
  unfold ofParts branchesOf
  dsimp only
  rw [hb]

theorem of_outlineWithin {depth : Nat} {config : SettingsConfig} {tags : List Tag}
    {spans : List Span} (h : outlineWithin depth config document = some (tags, spans)) :
  ∃ settings, Settings.ofConfig config = .ok settings
    ∧ (ofDocument readProgram settings document).tags = tags
    ∧ (ofDocument readProgram settings document).outlined.branches.spans = spans
  := by
  obtain ⟨o, ho, h⟩ := Option.map_eq_some_iff.mp h
  obtain ⟨rfl, rfl⟩ := Prod.mk.inj h
  obtain ⟨settings, hsettings, houtlined⟩ := of_outlinedWithin ho
  exact ⟨settings, hsettings, congrArg Outlined.tags houtlined,
    congrArg (·.branches.spans) houtlined⟩

/-- A document with an output tag in a branch. -/
def outputInBranch : Text := Text.ofString "<%if(x)\x7b%>«=y»<%\x7delse z%>"

theorem cuts_onBoundaries_sample :
  ∃ settings, Settings.ofConfig (outputBetween "«=" "»") = .ok settings
    ∧ (ofDocument readProgram settings outputInBranch).outlined.branches.spans
      = [⟨7, 19⟩, ⟨24, 25⟩]
    ∧ (∀ tag ∈ (ofDocument readProgram settings outputInBranch).tags,
      tag.SemicolonsFit outputInBranch)
    ∧ (∀ tag ∈ (ofDocument readProgram settings outputInBranch).tags,
      tag.span.OnBoundaries outputInBranch ∧ tag.code.OnBoundaries outputInBranch)
    ∧ ∀ v ∈ ViewStore.after (ofDocument readProgram settings outputInBranch).outlined
        [.cover 10, .all],
      (∀ r ∈ v.striped, r.OnBoundaries outputInBranch) ∧ width v.text = width outputInBranch
  := by
  have houtline : (outlineWithin 8 (outputBetween "«=" "»") outputInBranch).map
      (fun o => (o.1.all (·.SemicolonsFit outputInBranch), o.2))
      = some (true, [⟨7, 19⟩, ⟨24, 25⟩]) := by
    decide +kernel
  obtain ⟨⟨tags, spans⟩, h, hknown⟩ := Option.map_eq_some_iff.mp houtline
  obtain ⟨settings, hsettings, htags, hbranches⟩ := of_outlineWithin h
  simp only [Prod.mk.injEq, List.all_eq_true, decide_eq_true_eq] at hknown
  have hfit : ∀ tag ∈ (ofDocument readProgram settings outputInBranch).tags,
      tag.SemicolonsFit outputInBranch := by
    rw [htags]
    exact hknown.1
  obtain ⟨-, htagged, hviews⟩ := cuts_onBoundaries hfit [.cover 10, .all]
  exact ⟨settings, hsettings, hbranches.trans hknown.2, hfit, htagged, hviews⟩

/-- A document with an output tag in the place of a branch. -/
def outputAsBranch : Text := Text.ofString "<% if (x) %>« else y »"

/-- A branch that is nothing but the semicolon at the end of an opening begins inside a character
if the opening ends with one of several bytes. -/
theorem cuts_inside_character :
  ∃ settings, Settings.ofConfig (outputBetween "«" "»") = .ok settings
    ∧ ∃ s ∈ (ofDocument readProgram settings outputAsBranch).outlined.branches.spans,
      ¬ s.OnBoundaries outputAsBranch
  := by
  have houtline : (outlineWithin 8 (outputBetween "«" "»") outputAsBranch).map (·.2)
      = some [⟨13, 14⟩, ⟨20, 21⟩] := by
    decide +kernel
  obtain ⟨⟨tags, spans⟩, h, hspans⟩ := Option.map_eq_some_iff.mp houtline
  obtain ⟨settings, hsettings, -, hbranches⟩ := of_outlineWithin h
  use settings, hsettings, ⟨13, 14⟩
  rw [hbranches]
  cases hspans
  decide

end Analysis

end Stencil
