import Stencil.Proofs.Branch.History
import Stencil.Proofs.Tag.Scan

/-!
# All views together show the document

The view for an offset shows everything from the offset up to the next beginning of a range that
it hides, and the search for all views goes on from there.  So every offset is shown in one of the
views that are found.  A view shows an offset outside the tags as the byte that the document has
there, and this is a matter of the text of the view alone, so it does no harm that a view with the
text of an earlier one is left out.
-/

namespace Stencil

open Text

/-- The tags stand in the document one after the other, the branches of a statement share no
offset, and branches begin and end at boundaries of the document. -/
structure Outlined.Placed (o : Outlined) : Prop where
  tags : Tag.Placed o.document o.tags
  apart : o.branches.Apart
  onBoundaries : ∀ s ∈ o.branches.spans, s.OnBoundaries o.document

namespace Outlined

variable {o : Outlined}

/-- The tags that are found in a document are placed, so it remains to place the branches. -/
theorem placed_of_tags {settings : Settings} (htags : settings.tags o.document = .ok o.tags)
    (hapart : o.branches.Apart) (hbranches : ∀ s ∈ o.branches.spans, s.OnBoundaries o.document) :
  o.Placed
  where
  tags := settings.placed_tags htags
  apart := hapart
  onBoundaries := hbranches

/-! ### What a view shows -/

/-- The hidden ranges of a view begin and end where branches do. -/
theorem exists_branch_ends {target : Nat} {r : Span} (hr : r ∈ (o.viewFor target).striped) :
  (∃ s ∈ o.branches.spans, s.start = r.start) ∧ (∃ s ∈ o.branches.spans, s.stop = r.stop)
  := by
  obtain ⟨⟨a, ha, hstart⟩, ⟨b, hb, hstop⟩⟩ := Span.exists_ends_of_mem_merge hr
  exact ⟨⟨a, (o.hides_pathTo target a ha).mem_spans, hstart⟩,
    ⟨b, (o.hides_pathTo target b hb).mem_spans, hstop⟩⟩

/-- The hidden ranges of a view lie between boundaries if the branches do. -/
theorem onBoundaries_striped (hbranches : ∀ s ∈ o.branches.spans, s.OnBoundaries o.document)
    (target : Nat) :
  ∀ r ∈ (o.viewFor target).striped, r.OnBoundaries o.document
  := by
  intro r hr
  obtain ⟨⟨a, ha, hstart⟩, ⟨b, hb, hstop⟩⟩ := exists_branch_ends hr
  have hboundaries := And.intro (hbranches a ha).1 (hbranches b hb).2
  rwa [hstart, hstop] at hboundaries

theorem text_viewFor (o : Outlined) (target : Nat) :
  (o.viewFor target).text
    = markupView (blankRanges o.document (o.viewFor target).striped) o.tags
        (o.viewFor target).striped
  := rfl

/-- An offset that a view does not hide and that lies in no tag has the byte of the document. -/
theorem getElem?_bytes_viewFor (h : o.Placed) {target i : Nat}
    (hshown : (o.viewFor target).isStriped i = false)
    (htags : ∀ tag ∈ o.tags, tag.span.contains i = false) :
  (bytes (o.viewFor target).text)[i]? = (bytes o.document)[i]?
  := by
  have hboundaries := onBoundaries_striped h.onBoundaries target
  have hout : ∀ r ∈ (o.viewFor target).striped, r.contains i = false := by
    simpa [View.isStriped] using hshown
  rw [text_viewFor, getElem?_bytes_markupView (h.tags.over (over_blankRanges hboundaries)) htags]
  apply getElem?_bytes_blankRanges hboundaries hout

end Outlined

namespace ViewStore

variable {o : Outlined}

/-! ### The next offset -/

theorem nextStart?_eq_some {v : View} {offset next : Nat} (h : nextStart? v offset = some next) :
  offset < next ∧ (∃ r ∈ v.striped, r.start = next)
    ∧ ∀ r ∈ v.striped, offset < r.start → next ≤ r.start
  := by
  obtain ⟨hmem, hleast⟩ := List.min?_eq_some_iff.mp h
  simp only [List.mem_filter, List.mem_map, decide_eq_true_eq] at hmem hleast
  exact ⟨hmem.2, hmem.1, fun r hr hlt => hleast r.start ⟨⟨r, hr, rfl⟩, hlt⟩⟩

theorem nextStart?_eq_none {v : View} {offset : Nat} (h : nextStart? v offset = none) :
  ∀ r ∈ v.striped, r.start ≤ offset
  := by
  intro r hr
  rw [nextStart?, List.min?_eq_none_iff, List.filter_eq_nil_iff] at h
  simpa using h r.start (List.mem_map_of_mem hr)

/-- A view that shows an offset shows everything up to the next beginning of a hidden range. -/
theorem isStriped_of_le {v : View} {offset i : Nat} (hshown : v.isStriped offset = false)
    (hle : offset ≤ i) (hnext : ∀ r ∈ v.striped, offset < r.start → i < r.start) :
  v.isStriped i = false
  := by
  rw [View.isStriped, List.any_eq_false] at *
  intro r hr hin
  have hout := hshown r hr
  have hnext := hnext r hr
  rw [Span.contains_iff] at hin hout
  omega

/-- The beginnings of branches after an offset. -/
def startsAfter (b : Branches) (offset : Nat) : List Nat :=
  (branchStarts b).filter (offset < ·)

theorem branchStarts_eq_map (b : Branches) :
  branchStarts b = b.spans.map (·.start)
  := by
  simp [branchStarts, Branches.spans, List.map_flatMap]

/-- The next offset is one of the beginnings of branches, so fewer are left after it. -/
theorem length_startsAfter_lt {target offset next : Nat}
    (h : nextStart? (o.viewFor target) offset = some next) :
  (startsAfter o.branches next).length < (startsAfter o.branches offset).length
  := by
  obtain ⟨hlt, ⟨r, hr, hstart⟩, -⟩ := nextStart?_eq_some h
  obtain ⟨s, hs, hsr⟩ := (Outlined.exists_branch_ends hr).1
  have hmem : next ∈ startsAfter o.branches offset := by
    rw [startsAfter, branchStarts_eq_map, List.mem_filter, List.mem_map]
    exact ⟨⟨s, hs, hsr.trans hstart⟩, by simpa using hlt⟩
  have hfewer : startsAfter o.branches next
      = (startsAfter o.branches offset).filter (next < ·) := by
    rw [startsAfter, startsAfter, List.filter_filter]
    congr 1
    funext n
    rw [Bool.eq_iff_iff]
    simp only [decide_eq_true_eq, Bool.and_eq_true]
    omega
  rw [hfewer, List.length_filter_lt_length_iff_exists]
  use next, hmem
  simp

/-! ### The search for all views -/

theorem subset_addDistinct (found : List (Nat × View)) (a : Nat × View) :
  found ⊆ addDistinct found a
  := by
  unfold addDistinct
  split
  · apply List.Subset.refl
  · apply List.subset_append_left

/-- The text of an answer that is added is there afterwards. -/
theorem exists_mem_addDistinct (found : List (Nat × View)) (a : Nat × View) :
  ∃ b ∈ addDistinct found a, b.2.text = a.2.text
  := by
  unfold addDistinct
  split
  · next h => simpa using h
  · use a
    simp

theorem subset_run_collect (o : Outlined) (limit : Nat) :
    ∀ (offset : Nat) (found : List (Nat × View)) (views : ViewStore),
      found ⊆ ((collect o limit offset found).run views).1
  := by
  induction limit with
  | zero =>
      intro offset found views
      apply List.Subset.refl
  | succ limit ih =>
      intro offset found views
      rw [run_collect_succ]
      have hfound := subset_addDistinct found ((cover o offset).run views).1
      cases nextStart? ((cover o offset).run views).1.2 offset with
      | some next => apply List.Subset.trans hfound (ih next _ _)
      | none => exact hfound

/-- The answer for a target is a view that was made for some target. -/
theorem Made.exists_run_cover {views : ViewStore} (h : Made o views) (target : Nat) :
  ∃ t, ((cover o target).run views).1.2 = o.viewFor t
  := h.ask_cover target _ (List.mem_of_getElem? (getElem?_run_cover o target views))

/-- The search from an offset on finds, for each later offset outside the tags, a view that has
the byte of the document there, provided that it may ask for more views than there are beginnings
of branches left. -/
theorem exists_mem_run_collect (h : o.Placed) (limit : Nat) :
    ∀ {offset : Nat} (found : List (Nat × View)) {views : ViewStore} {i : Nat},
      (startsAfter o.branches offset).length < limit → Made o views → offset ≤ i →
      (∀ tag ∈ o.tags, tag.span.contains i = false) →
      ∃ a ∈ ((collect o limit offset found).run views).1,
        (bytes a.2.text)[i]? = (bytes o.document)[i]?
  := by
  induction limit with
  | zero =>
      intro offset found views i hlimit
      omega
  | succ limit ih =>
      intro offset found views i hlimit hmade hle htags
      obtain ⟨target, hview⟩ := hmade.exists_run_cover offset
      have hoffset := isStriped_run_cover h.apart offset views
      -- the view for the offset is found, or another view with its text
      have hhere (hshown : ((cover o offset).run views).1.2.isStriped i = false) :
          ∃ a ∈ addDistinct found ((cover o offset).run views).1,
            (bytes a.2.text)[i]? = (bytes o.document)[i]? := by
        obtain ⟨a, ha, htext⟩ := exists_mem_addDistinct found ((cover o offset).run views).1
        use a, ha
        rw [htext, hview]
        rw [hview] at hshown
        apply Outlined.getElem?_bytes_viewFor h hshown htags
      rw [run_collect_succ]
      cases hnext : nextStart? ((cover o offset).run views).1.2 offset with
      | some next =>
          by_cases hi : next ≤ i
          · have hfewer : (startsAfter o.branches next).length < limit := by
              rw [hview] at hnext
              have := length_startsAfter_lt hnext
              omega
            apply ih _ hfewer (hmade.ask_cover offset) hi htags
          · obtain ⟨-, -, hleast⟩ := nextStart?_eq_some hnext
            obtain ⟨a, ha, hbyte⟩ := hhere
              (isStriped_of_le hoffset hle fun r hr hlt => by have := hleast r hr hlt; omega)
            exact ⟨a, subset_run_collect o limit next _ _ ha, hbyte⟩
      | none =>
          have hleast := nextStart?_eq_none hnext
          apply hhere (isStriped_of_le hoffset hle fun r hr hlt => by have := hleast r hr; omega)

/-- Every byte of the document that lies in no tag stands at its place in one of the views that a
store lists when it is asked for all views, whatever it was asked for before. -/
theorem exists_listing_byte (h : o.Placed) (queries : List Query) {i : Nat} {byte : UInt8}
    (hbyte : (bytes o.document)[i]? = some byte)
    (htags : ∀ tag ∈ o.tags, tag.span.contains i = false) :
  ∃ a ∈ listing o queries, (bytes a.2.text)[i]? = some byte
  := by
  have hlimit : (startsAfter o.branches 0).length < (branchStarts o.branches).length + 1 :=
    Nat.lt_succ_of_le (List.length_filter_le _ _)
  obtain ⟨a, ha, hsame⟩ :=
    exists_mem_run_collect h _ [] hlimit (made_after o queries) (Nat.zero_le i) htags
  exact ⟨a, ha, hsame.trans hbyte⟩

theorem exists_listing_byte_sample :
  Outlined.sample.Placed
    ∧ (bytes Outlined.sample.document)[83]? = some 68
    ∧ (∀ tag ∈ Outlined.sample.tags, tag.span.contains 83 = false)
    ∧ ∃ a ∈ listing .sample [.cover 104, .cover 14], (bytes a.2.text)[83]? = some 68
  := by
  have hfound : Settings.tags {} Outlined.sample.document = .ok Outlined.sample.tags := by
    decide +kernel
  have hplaced : Outlined.sample.Placed :=
    Outlined.placed_of_tags hfound ⟨by decide, by decide⟩ (by decide +kernel)
  have hbyte : (bytes Outlined.sample.document)[83]? = some 68 := by decide +kernel
  have htags : ∀ tag ∈ Outlined.sample.tags, tag.span.contains 83 = false := by decide
  exact ⟨hplaced, hbyte, htags, exists_listing_byte hplaced _ hbyte htags⟩

end ViewStore

end Stencil
