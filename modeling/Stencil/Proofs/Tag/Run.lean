import Stencil.Proofs.Tag.Scan

/-!
# The scan as a run of steps

A scan goes on step by step.  Each step faults, or finds that there is no further tag, or takes the
next tag and goes on at its end.  `Tag.Scans` is such a run, of any number of steps.  A tag that is
taken is not empty, so every step of the scan for the tags of a document uses up some of its
characters.  So the scan has exactly one run, which comes to an end, and `Settings.tags` is what it
results in: there is always room for one more tag than the document has characters.
-/

namespace Stencil

open Text

/-- The runs of a scan from an offset on, by what it does at an offset: the scan faults there, ends
there, or takes a tag and goes on at its end. -/
inductive Tag.Scans (step : Nat → Except TagError (Option Tag)) :
    Nat → Except TagError (List Tag) → Prop where
  | fault {start : Nat} {e : TagError} (h : step start = .error e) : Scans step start (.error e)
  | done {start : Nat} (h : step start = .ok none) : Scans step start (.ok [])
  | tag {start : Nat} {tag : Tag} {r : Except TagError (List Tag)}
      (h : step start = .ok (some tag)) (rest : Scans step tag.span.stop r) :
      Scans step start (r.map (tag :: ·))

namespace Tag.Scans

variable {step : Nat → Except TagError (Option Tag)} {start : Nat}

/-- A scan has one result at most. -/
theorem unique {r r' : Except TagError (List Tag)} (h : Scans step start r)
    (h' : Scans step start r') :
  r = r'
  := by
  induction h generalizing r' with
  | fault hstep => cases h' <;> simp_all
  | done hstep => cases h' <;> simp_all
  | @tag start tag r hstep _ ih =>
      cases h' with
      | fault hstep' => simp_all
      | done hstep' => simp_all
      | @tag _ tag' r' hstep' hrest' =>
          obtain rfl : tag = tag' := by simpa [hstep] using hstep'
          rw [ih hrest']

end Tag.Scans

namespace Settings

variable {s : Settings} {document : Text}

/-- What the scan for the tags of a document does at an offset.  The text up to the next tag, or up
to the end if there is none, may not hold an opener, and the next tag may not be empty. -/
def step (s : Settings) (document : Text) (start : Nat) : Except TagError (Option Tag) :=
  let next := s.nextTag? document start
  let gap := slice document start ((next.map (·.span.start)).getD (width document))
  match s.openerIn? gap, next with
  | some pos, _ => .error (.unterminated ⟨start + pos, width document⟩)
  | none, none => .ok none
  | none, some tag => if tag.span.isEmpty then .error (.emptyMatch tag.span) else .ok (some tag)

/-- The scan takes one step and goes on from there. -/
theorem tagsFrom_succ (limit start : Nat) :
  s.tagsFrom document (limit + 1) start
    = match s.step document start with
      | .error e => .error e
      | .ok none => .ok []
      | .ok (some tag) => (s.tagsFrom document limit tag.span.stop).map (tag :: ·)
  := by
  rw [tagsFrom, step]
  cases s.nextTag? document start with
  | none =>
      dsimp only [Option.map_none, Option.getD_none]
      cases s.openerIn? _ with
      | none => rfl
      | some pos => rfl
  | some tag =>
      dsimp only [Option.map_some, Option.getD_some]
      cases s.openerIn? _ with
      | none =>
          cases hempty : tag.span.isEmpty with
          | true => simp [hempty]
          | false => simp [hempty]
      | some pos => rfl

/-- A step that takes a tag takes the next one, which is not empty, and skips no opener. -/
theorem step_eq_some {start : Nat} {tag : Tag} (h : s.step document start = .ok (some tag)) :
  s.nextTag? document start = some tag
    ∧ s.openerIn? (slice document start tag.span.start) = none
    ∧ tag.span.start < tag.span.stop
  := by
  unfold step at h
  cases hnext : s.nextTag? document start with
  | none =>
      simp only [hnext, Option.map_none, Option.getD_none] at h
      cases hgap : s.openerIn? (slice document start (width document)) with
      | none => simp [hgap] at h
      | some pos => simp [hgap] at h
  | some next =>
      simp only [hnext, Option.map_some, Option.getD_some] at h
      cases hgap : s.openerIn? (slice document start next.span.start) with
      | none =>
          simp only [hgap] at h
          split at h
          · simp at h
          · next hempty =>
              obtain rfl : next = tag := by simpa using h
              exact ⟨rfl, hgap, by simpa [Span.isEmpty] using hempty⟩
      | some pos => simp [hgap] at h

/-- A step that ends the scan finds no tag, and no opener in the text that is left. -/
theorem step_eq_none {start : Nat} (h : s.step document start = .ok none) :
  s.nextTag? document start = none ∧ s.openerIn? (slice document start (width document)) = none
  := by
  unfold step at h
  cases hnext : s.nextTag? document start with
  | none =>
      simp only [hnext, Option.map_none, Option.getD_none] at h
      cases hgap : s.openerIn? (slice document start (width document)) with
      | none => exact ⟨rfl, rfl⟩
      | some pos => simp [hgap] at h
  | some next =>
      simp only [hnext, Option.map_some, Option.getD_some] at h
      cases hgap : s.openerIn? (slice document start next.span.start) with
      | none =>
          simp only [hgap] at h
          split at h <;> simp at h
      | some pos => simp [hgap] at h

/-- The next tag lies in the document after the place where the scan stands. -/
theorem placed_of_nextTag? {start : Nat} {tag : Tag} (hstart : IsBoundary start document)
    (h : s.nextTag? document start = some tag) :
  ∃ kind m, tag = tagOfMatch kind m ∧ m.Placed document start
  := by
  obtain ⟨entry, -, m, hm, rfl⟩ := exists_find?_of_nextTag? h
  exact ⟨entry.1, m, rfl, Pattern.placed_of_find? hstart hm⟩

/-- From a boundary on a scan takes at most one tag for each character that is left. -/
theorem scans_tagsFrom (limit : Nat) :
    ∀ {start : Nat}, IsBoundary start document → (onward start document).length < limit →
      Tag.Scans (s.step document) start (s.tagsFrom document limit start)
  := by
  induction limit with
  | zero =>
      intro start _ hlimit
      omega
  | succ limit ih =>
      intro start hstart hlimit
      rw [tagsFrom_succ]
      match hstep : s.step document start with
      | .error e => exact .fault hstep
      | .ok none => exact .done hstep
      | .ok (some tag) =>
          apply Tag.Scans.tag hstep
          obtain ⟨hnext, -, hnonempty⟩ := step_eq_some hstep
          obtain ⟨kind, m, rfl, hplaced⟩ := placed_of_nextTag? hstart hnext
          have hstop := hplaced.onBoundaries.2
          have hshorter := length_onward_lt hstart hstop
            (Nat.lt_of_le_of_lt hplaced.fromFirst hnonempty)
          apply ih hstop
          exact Nat.lt_of_lt_of_le hshorter (Nat.le_of_lt_succ hlimit)

/-- The tags of a document, or the fault instead of them, are the result of the one run of the
scan from its beginning. -/
theorem scans_iff {r : Except TagError (List Tag)} :
  Tag.Scans (s.step document) 0 r ↔ s.tags document = r
  := by
  have hrun : Tag.Scans (s.step document) 0 (s.tags document) := by
    apply scans_tagsFrom _ (isBoundary_zero document)
    exact Nat.lt_succ_of_le (length_onward_le 0 document)
  constructor
  · intro h
    exact hrun.unique h
  · rintro rfl
    exact hrun

end Settings

end Stencil
