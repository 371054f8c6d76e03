import Mathlib.Data.List.DropRight
import Mathlib.Data.List.TakeWhile
import Stencil.Proofs.Text.Bytes

/-!
# Texts within texts

A text that has none of the characters of its surroundings stands in what they surround.  Trimming
a text takes away nothing but blank characters, and texts that differ only in the blank characters
at their ends are equal after it.
-/

namespace Stencil.Text

variable {s t rest mark : Text}

theorem width_reverse (t : Text) :
  width t.reverse = width t
  := by
  induction t with
  | nil => rfl
  | cons c t ih =>
      rw [List.reverse_cons, width_append, ih, width_cons, width_cons, width_nil]
      omega

/-- Of two beginnings of a text the wider one begins with the other. -/
theorem exists_append_of_width_le {s' t' : Text} (h : s ++ t = s' ++ t')
    (hwidth : width s ≤ width s') :
  ∃ more, s' = s ++ more ∧ t = more ++ t'
  := by
  rcases List.append_eq_append_iff.mp h with ⟨more, hs, ht⟩ | ⟨more, hs, ht⟩
  · exact ⟨more, hs, ht⟩
  · have hmore : more = [] := by
      have := length_le_width more
      rw [hs, width_append] at hwidth
      exact List.eq_nil_of_length_eq_zero (by omega)
    subst hmore
    exact ⟨[], by simpa using hs.symm, by simpa using ht.symm⟩

/-- What stands in a text within the place of a piece stands in the piece. -/
theorem Cut.exists_within {n m : Nat} {piece after : Text} (h : t.Cut n (piece ++ after))
    (h' : t.Cut m (mark ++ rest)) (hnm : n ≤ m) (hstop : m + width mark ≤ n + width piece) :
  ∃ front back, piece = front ++ (mark ++ back) ∧ m = n + width front
  := by
  obtain ⟨first, rfl, rfl⟩ := h
  obtain ⟨first', htext, rfl⟩ := h'
  obtain ⟨front, rfl, hpiece⟩ := exists_append_of_width_le htext hnm
  rw [← List.append_assoc] at hpiece
  rw [width_append] at hstop
  obtain ⟨back, rfl, -⟩ := exists_append_of_width_le hpiece.symm (by rw [width_append]; omega)
  exact ⟨front, back, by simp, width_append first front⟩

/-! ### Surroundings -/

/-- A text does not stand in a text before which has none of its characters. -/
theorem infix_of_append_left (hmark : mark ≠ []) (hs : ∀ c ∈ mark, c ∉ s) (h : mark <:+: s ++ t) :
  mark <:+: t
  := by
  induction s with
  | nil => exact h
  | cons c s ih =>
      rcases List.infix_cons_iff.mp h with hbegins | hwithin
      · cases mark with
        | nil => exact absurd rfl hmark
        | cons d mark =>
            obtain ⟨rfl, -⟩ := List.cons_prefix_cons.mp hbegins
            exact absurd (List.mem_cons_self ..) (hs d (List.mem_cons_self ..))
      · exact ih (fun d hd hin => hs d hd (List.mem_cons_of_mem c hin)) hwithin

theorem infix_of_append_right (hmark : mark ≠ []) (ht : ∀ c ∈ mark, c ∉ t) (h : mark <:+: s ++ t) :
  mark <:+: s
  := by
  rw [← List.reverse_infix, List.reverse_append] at h
  rw [← List.reverse_infix]
  apply infix_of_append_left _ _ h
  · simpa using hmark
  · simpa using ht

/-- A text does not reach over a text between two others which has none of its characters. -/
theorem infix_or_infix_of_append {gap : Text} (hmark : mark ≠ []) (hgap : gap ≠ [])
    (hdisjoint : ∀ c ∈ mark, c ∉ gap) (h : mark <:+: s ++ (gap ++ t)) :
  mark <:+: s ∨ mark <:+: t
  := by
  obtain ⟨g, gap', rfl⟩ := List.exists_cons_of_ne_nil hgap
  induction s with
  | nil => exact Or.inr (infix_of_append_left hmark hdisjoint h)
  | cons c s ih =>
      rcases List.infix_cons_iff.mp h with hbegins | hwithin
      · left
        obtain ⟨more, hmore⟩ := hbegins
        have happend : mark ++ more = (c :: s) ++ (g :: gap' ++ t) := hmore
        rcases List.append_eq_append_iff.mp happend with ⟨tail, hs, -⟩ | ⟨tail, hmark', htail⟩
        · exact ⟨[], tail, by simp [hs]⟩
        · cases tail with
          | nil => exact ⟨[], [], by simpa using hmark'⟩
          | cons d tail =>
              -- otherwise the text goes on with the first character of the gap
              obtain ⟨rfl, -⟩ := List.cons.inj htail
              apply absurd (List.mem_cons_self ..) (hdisjoint g _)
              rw [hmark']
              simp
      · exact (ih hwithin).imp_left fun hs => List.infix_cons hs

/-! ### Trimming -/

variable {blank : Char → Bool}

theorem trim_append_left (hs : ∀ c ∈ s, blank c = true) (t : Text) :
  trim blank (s ++ t) = trim blank t
  := by
  rw [trim, List.dropWhile_append_of_pos hs, trim]

theorem trim_append_right (t : Text) (hs : ∀ c ∈ s, blank c = true) :
  trim blank (t ++ s) = trim blank t
  := by
  rw [trim, List.dropWhile_append]
  split
  · next hempty =>
      rw [List.isEmpty_iff] at hempty
      rw [List.dropWhile_eq_nil_iff.mpr hs, trim, hempty]
  · rw [List.reverse_append, List.dropWhile_append_of_pos, trim]
    exact fun c hc => hs c (List.mem_reverse.mp hc)

/-- A text is its trimmed text between blank characters. -/
theorem exists_eq_trim (blank : Char → Bool) (t : Text) :
  ∃ front back, t = front ++ trim blank t ++ back ∧ (∀ c ∈ front, blank c = true)
    ∧ ∀ c ∈ back, blank c = true
  := by
  refine ⟨t.takeWhile blank, ((t.dropWhile blank).reverse.takeWhile blank).reverse, ?_, ?_, ?_⟩
  · rw [trim, List.append_assoc, ← List.reverse_append, List.takeWhile_append_dropWhile,
      List.reverse_reverse, List.takeWhile_append_dropWhile]
  · exact List.all_eq_true.mp List.all_takeWhile
  · intro c hc
    exact List.all_eq_true.mp List.all_takeWhile c (List.mem_reverse.mp hc)

/-- A text ends with its last blank characters. -/
theorem exists_eq_append_trail (blank : Char → Bool) (t : Text) :
  ∃ front trail, t = front ++ trail ∧ (∀ c ∈ trail, blank c = true)
    ∧ width trail = width (t.reverse.takeWhile blank)
    ∧ ((∃ c ∈ t, blank c = false) → ∃ c ∈ front, blank c = false)
  := by
  have htrail : ∀ c ∈ (t.reverse.takeWhile blank).reverse, blank c = true :=
    fun c hc => List.all_eq_true.mp List.all_takeWhile c (List.mem_reverse.mp hc)
  have ht : t = (t.reverse.dropWhile blank).reverse ++ (t.reverse.takeWhile blank).reverse := by
    rw [← List.reverse_append, List.takeWhile_append_dropWhile, List.reverse_reverse]
  refine ⟨_, _, ht, htrail, width_reverse _, ?_⟩
  rintro ⟨c, hc, hblank⟩
  rw [ht] at hc
  rcases List.mem_append.mp hc with hfront | hin
  · exact ⟨c, hfront, hblank⟩
  · rw [htrail c hin] at hblank
    cases hblank

/-- A text without blank characters stands in a text if it stands in the trimmed text. -/
theorem infix_trim_iff (hmark : mark ≠ []) (hblank : ∀ c ∈ mark, blank c = false) (t : Text) :
  mark <:+: trim blank t ↔ mark <:+: t
  := by
  obtain ⟨front, back, ht, hfront, hback⟩ := exists_eq_trim blank t
  constructor
  · intro h
    rw [ht]
    exact h.trans ⟨front, back, rfl⟩
  · intro h
    have hdisjoint {s : Text} (hs : ∀ c ∈ s, blank c = true) : ∀ c ∈ mark, c ∉ s := by
      intro c hc hin
      simpa [hblank c hc] using hs c hin
    rw [ht, List.append_assoc] at h
    exact infix_of_append_right hmark (hdisjoint hback)
      (infix_of_append_left hmark (hdisjoint hfront) h)

/-! ### The parts of a text -/

/-- The text is not empty and has no blank characters at its ends. -/
structure IsCore (blank : Char → Bool) (t : Text) : Prop where
  head : ∃ c ∈ t.head?, blank c = false
  last : ∃ c ∈ t.getLast?, blank c = false

theorem IsCore.ne_nil (h : IsCore blank t) :
  t ≠ []
  := by
  obtain ⟨c, hc, -⟩ := h.head
  rintro rfl
  cases hc

/-- What is left of a text that is not blank when it is trimmed. -/
theorem isCore_trim (h : ∃ c ∈ t, blank c = false) :
  IsCore blank (trim blank t)
  := by
  obtain ⟨c, hc, hblank⟩ := h
  have htrim : trim blank t = (t.dropWhile blank).rdropWhile blank := rfl
  have hfront : t.dropWhile blank ≠ [] := by
    rw [Ne, List.dropWhile_eq_nil_iff]
    intro hall
    rw [hall c hc] at hblank
    cases hblank
  obtain ⟨d, rest, hd⟩ := List.exists_cons_of_ne_nil hfront
  have hhead : blank d = false := by
    have hnot := List.head?_dropWhile_not blank t
    rwa [hd] at hnot
  rw [hd] at htrim
  have hne : (d :: rest).rdropWhile blank ≠ [] := by
    rw [Ne, List.rdropWhile_eq_nil_iff]
    intro hall
    rw [hall d List.mem_cons_self] at hhead
    cases hhead
  rw [htrim]
  constructor
  · obtain ⟨more, hmore⟩ := List.rdropWhile_prefix blank (l := d :: rest)
    obtain ⟨e, core, hcore⟩ := List.exists_cons_of_ne_nil hne
    rw [hcore] at hmore ⊢
    obtain ⟨rfl, -⟩ := List.cons.inj hmore
    exact ⟨e, rfl, hhead⟩
  · refine ⟨_, List.getLast?_eq_some_getLast hne, ?_⟩
    simpa using List.rdropWhile_last_not blank _ hne

theorem IsCore.takeWhile_append (h : IsCore blank t) (rest : Text) :
  (t ++ rest).takeWhile blank = []
  := by
  obtain ⟨c, hc, hblank⟩ := h.head
  obtain ⟨t, rfl⟩ := List.head?_eq_some_iff.mp hc
  rw [List.cons_append, List.takeWhile_cons_of_neg (by simp [hblank])]

theorem IsCore.reverse (h : IsCore blank t) :
  IsCore blank t.reverse
  := by
  constructor
  · rw [List.head?_reverse]
    exact h.last
  · rw [List.getLast?_reverse]
    exact h.head

/-- The blank characters at the ends of a text are those around its core. -/
theorem IsCore.parts (h : IsCore blank t) (hs : ∀ c ∈ s, blank c = true)
    (hrest : ∀ c ∈ rest, blank c = true) :
  (s ++ (t ++ rest)).takeWhile blank = s
    ∧ (s ++ (t ++ rest)).reverse.takeWhile blank = rest.reverse
    ∧ trim blank (s ++ (t ++ rest)) = t
  := by
  have hdrop {u : Text} (hu : IsCore blank u) : u.dropWhile blank = u := by
    have hsplit := List.takeWhile_append_dropWhile (p := blank) (l := u ++ [])
    rwa [hu.takeWhile_append, List.nil_append, List.append_nil] at hsplit
  refine ⟨?_, ?_, ?_⟩
  · rw [List.takeWhile_append_of_pos hs, h.takeWhile_append, List.append_nil]
  · rw [List.reverse_append, List.reverse_append, List.append_assoc,
      List.takeWhile_append_of_pos (by simpa using hrest), h.reverse.takeWhile_append,
      List.append_nil]
  · rw [trim_append_left hs, trim_append_right t hrest, trim, hdrop h, hdrop h.reverse,
      List.reverse_reverse]

end Stencil.Text
