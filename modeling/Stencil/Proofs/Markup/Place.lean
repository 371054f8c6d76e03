import Stencil.Markup.Reader
import Stencil.Proofs.Text.Bytes

/-!
# Going through a markup text

Markup is read from place to place, and never back.  A place stands in a text if the reader can
come to it from the beginning.  Such a place is a boundary of the text, and what lies between two
of them is the slice between their offsets.
-/

namespace Stencil.Markup.Place

open Text

/-- The second place is the first one or one after it, in the same text. -/
def Before (p q : Place) : Prop := ∃ mid, p.rest = mid ++ q.rest ∧ q.offset = p.offset + width mid

/-- The place is a place of the text. -/
def In (t : Text) (p : Place) : Prop := Before ⟨t, 0⟩ p

variable {p q r : Place}

theorem Before.refl (p : Place) :
  p.Before p
  := ⟨[], rfl, rfl⟩

theorem Before.trans (hpq : p.Before q) (hqr : q.Before r) :
  p.Before r
  := by
  obtain ⟨front, hrest, hoffset⟩ := hpq
  obtain ⟨back, hrest', hoffset'⟩ := hqr
  use front ++ back
  constructor
  · rw [hrest, hrest', List.append_assoc]
  · rw [hoffset', hoffset, width_append, Nat.add_assoc]

theorem Before.offset_le (h : p.Before q) :
  p.offset ≤ q.offset
  := by
  obtain ⟨mid, -, hoffset⟩ := h
  omega

theorem Before.length_le (h : p.Before q) :
  q.rest.length ≤ p.rest.length
  := by
  obtain ⟨mid, hrest, -⟩ := h
  rw [hrest, List.length_append]
  omega

theorem Before.offset_add_width (h : p.Before q) :
  q.offset + width q.rest = p.offset + width p.rest
  := by
  obtain ⟨mid, hrest, hoffset⟩ := h
  rw [hrest, hoffset, width_append, Nat.add_assoc]

/-- A place that is not the same has less text after it. -/
theorem Before.length_lt (h : p.Before q) (hlt : p.offset < q.offset) :
  q.rest.length < p.rest.length
  := by
  obtain ⟨mid, hrest, hoffset⟩ := h
  have hmid : mid ≠ [] := by
    rintro rfl
    rw [width_nil] at hoffset
    omega
  have hpos := List.length_pos_iff.mpr hmid
  rw [hrest, List.length_append]
  omega

/-! ### How the reader goes on -/

theorem before_skip (p : Place) (n : Nat) :
  p.Before (p.skip n)
  := by
  use p.rest.take n
  constructor
  · apply (List.take_append_drop n p.rest).symm
  · rfl

/-- Skipping characters goes on, as long as there are some. -/
theorem offset_lt_skip {n : Nat} (hrest : p.rest ≠ []) (hn : 0 < n) :
  p.offset < (p.skip n).offset
  := by
  obtain ⟨c, t, hct⟩ := List.exists_cons_of_ne_nil hrest
  obtain ⟨m, rfl⟩ := Nat.exists_eq_succ_of_ne_zero (Nat.ne_of_gt hn)
  have hc := c.utf8Size_pos
  rw [skip, hct, List.take_succ_cons, width_cons]
  dsimp only
  omega

theorem textTo_skip {n : Nat} (hn : n ≤ p.rest.length) :
  p.textTo (p.skip n) = p.rest.take n
  := by
  rw [textTo, skip, List.length_drop, Nat.sub_sub_self hn]

theorem before_skipWhile (p : Place) (condition : Char → Bool) :
  p.Before (p.skipWhile condition)
  := before_skip p _

theorem rest_skipWhile (p : Place) (condition : Char → Bool) :
  (p.skipWhile condition).rest = p.rest.dropWhile condition
  := calc
  p.rest.drop (p.rest.takeWhile condition).length
  _ = (p.rest.takeWhile condition ++ p.rest.dropWhile condition).drop
      (p.rest.takeWhile condition).length := by rw [List.takeWhile_append_dropWhile]
  _ = p.rest.dropWhile condition := List.drop_left

theorem offset_skipWhile (p : Place) (condition : Char → Bool) :
  (p.skipWhile condition).offset = p.offset + width (p.rest.takeWhile condition)
  := by
  rw [skipWhile, skip, ← List.prefix_iff_eq_take.mp (List.takeWhile_prefix condition)]

theorem before_finish (p : Place) :
  p.Before p.finish
  := before_skip p _

@[simp]
theorem rest_finish (p : Place) :
  p.finish.rest = []
  := List.drop_length

theorem before_of_after? {needle : Text} (h : p.after? needle = some q) :
  p.Before q
  := by
  obtain ⟨n, -, rfl⟩ := Option.map_eq_some_iff.mp h
  apply before_skip

theorem before_nameEnd (p : Place) :
  p.Before (nameEnd p)
  := before_skipWhile p _

theorem before_tagEnd (p : Place) :
  p.Before (tagEnd p)
  := by
  rw [tagEnd]
  cases h : p.after? ['>'] with
  | none => apply before_finish
  | some q => exact before_of_after? h

theorem offset_lt_tagEnd (hrest : p.rest ≠ []) :
  p.offset < (tagEnd p).offset
  := by
  rw [tagEnd]
  cases h : p.after? ['>'] with
  | none => exact offset_lt_skip hrest (List.length_pos_iff.mpr hrest)
  | some q =>
      obtain ⟨n, -, rfl⟩ := Option.map_eq_some_iff.mp h
      exact offset_lt_skip hrest n.succ_pos

theorem before_rawEnd (name : Text) (p : Place) :
  p.Before (rawEnd name p)
  := by
  rw [rawEnd]
  split
  · apply before_skip
  · apply before_finish

/-! ### Places of a text -/

section In

variable {t : Text}

/-- The beginning of a text is a place of it. -/
theorem in_start (t : Text) :
  In t ⟨t, 0⟩
  := Before.refl _

/-- Every place is one of some text. -/
theorem exists_in (p : Place) :
  ∃ t, p.In t
  := by
  use List.replicate p.offset 'a' ++ p.rest, List.replicate p.offset 'a'
  constructor
  · rfl
  · rw [width_replicate, Nat.zero_add]
    exact (Nat.mul_one _).symm

theorem In.before (hp : p.In t) (h : p.Before q) :
  q.In t
  := Before.trans hp h

/-- A place of a text cuts it in two. -/
theorem In.exists_eq_append (hp : p.In t) :
  ∃ front, t = front ++ p.rest ∧ p.offset = width front
  := by
  obtain ⟨front, hrest, hoffset⟩ := hp
  rw [Nat.zero_add] at hoffset
  exact ⟨front, hrest, hoffset⟩

theorem In.isBoundary (hp : p.In t) :
  IsBoundary p.offset t
  := by
  obtain ⟨front, rfl, hoffset⟩ := hp.exists_eq_append
  rw [hoffset]
  exact (isBoundary_zero p.rest).append front

theorem In.offset_eq_width (hp : p.In t) (hrest : p.rest = []) :
  p.offset = width t
  := by
  obtain ⟨front, rfl, hoffset⟩ := hp.exists_eq_append
  rw [hoffset, hrest, List.append_nil]

theorem In.onBoundaries (hp : p.In t) (h : p.Before q) :
  (p.spanTo q).OnBoundaries t
  := ⟨hp.isBoundary, (hp.before h).isBoundary⟩

/-- The text of the span between two places is what lies between them. -/
theorem In.text_spanTo (hp : p.In t) {mid : Text} (hrest : p.rest = mid ++ q.rest)
    (hoffset : q.offset = p.offset + width mid) :
  (p.spanTo q).text t = mid
  := by
  obtain ⟨front, rfl, hfront⟩ := hp.exists_eq_append
  rw [Span.text, spanTo, hoffset, hfront, hrest, ← List.append_assoc]
  apply slice_append

end In

end Stencil.Markup.Place
