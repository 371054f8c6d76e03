import Stencil.Proofs.Pattern.Place
import Stencil.Proofs.View.Markup
import Stencil.Tag.Scan

/-!
# The tags of a document stand one after the other

The tag that is taken next is a match of one of the patterns, sought from the end of the last tag
on.  A match lies in the text after the place where its search began, so each tag lies after the
ones before it.
-/

namespace Stencil.Settings

open Text

variable {s : Settings} {document : Text}

/-- The next tag is a match of one of the patterns. -/
theorem exists_find?_of_nextTag? {start : Nat} {tag : Tag}
    (h : s.nextTag? document start = some tag) :
  ∃ entry ∈ s.ordered, ∃ m,
    entry.2.pattern.find? document start = some m ∧ tag = tagOfMatch entry.1 m
  := by
  revert tag
  unfold nextTag?
  apply List.foldlRecOn s.ordered _
    (motive := fun best => ∀ tag, best = some tag → ∃ entry ∈ s.ordered, ∃ m,
      entry.2.pattern.find? document start = some m ∧ tag = tagOfMatch entry.1 m)
  · simp
  · intro best hbest entry hentry tag htag
    cases hm : entry.2.pattern.find? document start with
    | none =>
        simp only [hm] at htag
        apply hbest tag htag
    | some m =>
        simp only [hm] at htag
        obtain rfl := Option.some.inj htag
        cases best with
        | none => exact ⟨entry, hentry, m, hm, rfl⟩
        | some earlier =>
            rw [better]
            split
            · apply hbest earlier rfl
            · exact ⟨entry, hentry, m, hm, rfl⟩

/-- One step of the scan finds no tag, or it takes the next one and goes on behind it.  In both
cases the text that it skips has no opener. -/
theorem tagsFrom_succ_eq_ok {limit start : Nat} {tags : List Tag}
    (h : s.tagsFrom document (limit + 1) start = .ok tags) :
  (s.nextTag? document start = none
      ∧ s.openerIn? (slice document start (width document)) = none ∧ tags = [])
    ∨ ∃ tag rest, s.nextTag? document start = some tag
      ∧ s.openerIn? (slice document start tag.span.start) = none ∧ tag.span.isEmpty = false
      ∧ s.tagsFrom document limit tag.span.stop = .ok rest ∧ tags = tag :: rest
  := by
  unfold tagsFrom at h
  cases hnext : s.nextTag? document start with
  | none =>
      simp only [hnext, Option.map_none, Option.getD_none] at h
      split at h
      · cases h
      · left
        exact ⟨rfl, ‹_›, (Except.ok.inj h).symm⟩
  | some tag =>
      simp only [hnext, Option.map_some, Option.getD_some] at h
      split at h
      · cases h
      · split at h
        · cases h
        · right
          cases hrest : s.tagsFrom document limit tag.span.stop with
          | error e =>
              rw [hrest] at h
              cases h
          | ok rest =>
              rw [hrest] at h
              exact ⟨tag, rest, rfl, ‹_›, by simp_all, hrest, (Except.ok.inj h).symm⟩

/-- The tags from a boundary on stand after it, one after the other. -/
theorem placed_of_tagsFrom (limit : Nat) :
    ∀ {start : Nat} {tags : List Tag}, IsBoundary start document →
      s.tagsFrom document limit start = .ok tags →
      Tag.Placed document tags ∧ ∀ tag ∈ tags, start ≤ tag.span.start
  := by
  induction limit with
  | zero =>
      intro start tags _ h
      obtain rfl : [] = tags := Except.ok.inj h
      exact ⟨⟨by simp, by simp, .nil⟩, by simp⟩
  | succ limit ih =>
      intro start tags hstart h
      rcases tagsFrom_succ_eq_ok h with ⟨-, -, rfl⟩ | ⟨tag, rest, hnext, -, -, hrest, rfl⟩
      · exact ⟨⟨by simp, by simp, .nil⟩, by simp⟩
      · obtain ⟨entry, -, m, hm, rfl⟩ := exists_find?_of_nextTag? hnext
        have hmatch := Pattern.placed_of_find? hstart hm
        obtain ⟨hplaced, hbehind⟩ := ih hmatch.onBoundaries.2 hrest
        have hlater : ∀ next ∈ rest, start ≤ next.span.start := fun next hin =>
          Nat.le_trans hmatch.fromFirst (Nat.le_trans hmatch.forward (hbehind next hin))
        constructor
        · constructor
          · exact List.forall_mem_cons.mpr ⟨hmatch.forward, hplaced.forward⟩
          · exact List.forall_mem_cons.mpr ⟨hmatch.onBoundaries, hplaced.onBoundaries⟩
          · exact .cons hbehind hplaced.inOrder
        · exact List.forall_mem_cons.mpr ⟨hmatch.fromFirst, hlater⟩

/-- The tags of a document stand in it one after the other. -/
theorem placed_tags {tags : List Tag} (h : s.tags document = .ok tags) :
  Tag.Placed document tags
  := (placed_of_tagsFrom _ (isBoundary_zero document) h).1

end Stencil.Settings
