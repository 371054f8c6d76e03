import Mathlib.Data.List.Basic
import Stencil.Text.Span

/-!
# The bytes of a text

An offset in a text counts bytes of its UTF-8 encoding.  `Text.bytes` is that encoding, so the
byte at an offset is an entry of this list, and cutting a text at its boundaries cuts the list of
its bytes at the same offsets.
-/

namespace Stencil.Text

/-- The UTF-8 encoding of a text. -/
def bytes (t : Text) : List UInt8 := t.flatMap String.utf8EncodeChar

@[simp]
theorem bytes_nil :
  bytes [] = []
  := rfl

@[simp]
theorem bytes_cons (c : Char) (t : Text) :
  bytes (c :: t) = String.utf8EncodeChar c ++ bytes t
  := rfl

@[simp]
theorem bytes_append (s t : Text) :
  bytes (s ++ t) = bytes s ++ bytes t
  := List.flatMap_append

@[simp]
theorem length_bytes (t : Text) :
  (bytes t).length = width t
  := by
  induction t with
  | nil => rfl
  | cons c t ih => simp [ih]

/-- A character has at least one byte. -/
theorem length_le_width (t : Text) :
  t.length ≤ width t
  := by
  induction t with
  | nil => simp
  | cons c t ih =>
      have hc := c.utf8Size_pos
      rw [List.length_cons, width_cons]
      omega

theorem width_replicate (n : Nat) (c : Char) :
  width (List.replicate n c) = n * c.utf8Size
  := by
  induction n with
  | zero => simp
  | succ n ih => rw [List.replicate_succ, width_cons, ih, Nat.succ_mul, Nat.add_comm]

/-! ### Boundaries -/

@[simp]
theorem isBoundary_zero (t : Text) :
  IsBoundary 0 t
  := by
  cases t with
  | nil => rfl
  | cons c t => exact Or.inl rfl

/-- The end of a text is a boundary. -/
theorem isBoundary_width (t : Text) :
  IsBoundary (width t) t
  := by
  induction t with
  | nil => rfl
  | cons c t ih =>
      right
      constructor
      · rw [width_cons]
        omega
      · rw [width_cons, Nat.add_sub_cancel_left]
        apply ih

/-- A boundary lies within the text. -/
theorem IsBoundary.le_width {n : Nat} {t : Text} (h : IsBoundary n t) :
  n ≤ width t
  := by
  induction t generalizing n with
  | nil => apply Nat.le_of_eq h
  | cons c t ih =>
      rcases h with rfl | ⟨hc, ht⟩
      · apply Nat.zero_le
      · have := ih ht
        rw [width_cons]
        omega

/-- A boundary of the second piece is a boundary of the two pieces together. -/
theorem IsBoundary.append {n : Nat} {t : Text} (s : Text) (h : IsBoundary n t) :
  IsBoundary (width s + n) (s ++ t)
  := by
  induction s with
  | nil => simpa using h
  | cons c s ih =>
      right
      constructor
      · rw [width_cons]
        omega
      · rw [width_cons, Nat.add_assoc, Nat.add_sub_cancel_left]
        apply ih

/-- What lies after a boundary has the later boundaries, counted from there. -/
theorem IsBoundary.onward {a b : Nat} {t : Text} (ha : IsBoundary a t) (hb : IsBoundary b t)
    (hab : a ≤ b) :
  IsBoundary (b - a) (Text.onward a t)
  := by
  induction t generalizing a b with
  | nil =>
      obtain rfl : b = 0 := hb
      simp
  | cons c t ih =>
      rcases ha with rfl | ⟨hca, ha⟩
      · simpa [Text.onward] using hb
      · have hc := c.utf8Size_pos
        obtain ⟨hcb, hb⟩ := hb.resolve_left (by omega)
        have h := ih ha hb (by omega)
        rw [Text.onward, if_neg (by omega)]
        rwa [show b - c.utf8Size - (a - c.utf8Size) = b - a by omega] at h

/-- Going on from a boundary to a later one is going there at once. -/
theorem onward_onward {a b : Nat} {t : Text} (ha : IsBoundary a t) (hb : IsBoundary b t)
    (hab : a ≤ b) :
  onward (b - a) (onward a t) = onward b t
  := by
  induction t generalizing a b with
  | nil => rfl
  | cons c t ih =>
      rcases ha with rfl | ⟨hca, ha⟩
      · simp [onward]
      · have hc := c.utf8Size_pos
        obtain ⟨hcb, hb⟩ := hb.resolve_left (by omega)
        have h := ih ha hb (by omega)
        rw [onward, if_neg (by omega), onward, if_neg (by omega), ← h]
        congr 1
        omega

/-- Less is left after a later boundary. -/
theorem length_onward_lt {a b : Nat} {t : Text} (ha : IsBoundary a t) (hb : IsBoundary b t)
    (hab : a < b) :
  (onward b t).length < (onward a t).length
  := by
  have hrest := ha.onward hb (Nat.le_of_lt hab)
  rw [← onward_onward ha hb (Nat.le_of_lt hab)]
  cases h : onward a t with
  | nil =>
      rw [h] at hrest
      have : b - a = 0 := hrest
      omega
  | cons c rest =>
      rw [onward, if_neg (by omega), List.length_cons]
      exact Nat.lt_succ_of_le (length_onward_le _ rest)

/-- The end of the character at a boundary is a boundary. -/
theorem isBoundary_next {n : Nat} {t rest : Text} {c : Char} (h : IsBoundary n t)
    (hrest : Text.onward n t = c :: rest) :
  IsBoundary (n + c.utf8Size) t ∧ Text.onward (n + c.utf8Size) t = rest
  := by
  induction t generalizing n with
  | nil => simp [Text.onward] at hrest
  | cons d t ih =>
      rcases h with rfl | ⟨hd, ht⟩
      · rw [Text.onward, if_pos rfl] at hrest
        obtain ⟨rfl, rfl⟩ := List.cons.inj hrest
        have hnext : IsBoundary (width [d] + 0) ([d] ++ t) := (isBoundary_zero t).append [d]
        have hd := d.utf8Size_pos
        constructor
        · simpa using hnext
        · rw [Text.onward, if_neg (by omega), Nat.zero_add, Nat.sub_self]
          cases t <;> rfl
      · have := d.utf8Size_pos
        rw [Text.onward, if_neg (by omega)] at hrest
        obtain ⟨hboundary, honward⟩ := ih ht hrest
        rw [← Nat.sub_add_comm hd] at hboundary honward
        constructor
        · right
          exact ⟨by omega, hboundary⟩
        · rw [Text.onward, if_neg (by omega), honward]

/-! ### Cutting at boundaries -/

theorem bytes_before {n : Nat} {t : Text} (h : IsBoundary n t) :
  bytes (before n t) = (bytes t).take n
  := by
  have hcut := congrArg bytes (before_append_onward n t)
  rw [bytes_append] at hcut
  rw [← hcut, List.take_left' (by rw [length_bytes, width_before h])]

theorem bytes_onward {n : Nat} {t : Text} (h : IsBoundary n t) :
  bytes (onward n t) = (bytes t).drop n
  := by
  have hcut := congrArg bytes (before_append_onward n t)
  rw [bytes_append] at hcut
  rw [← hcut, List.drop_left' (by rw [length_bytes, width_before h])]

/-- What lies after a boundary is a slice followed by what lies after the slice. -/
theorem slice_append_onward {a b : Nat} {t : Text} (ha : IsBoundary a t) (hb : IsBoundary b t)
    (hab : a ≤ b) :
  slice t a b ++ onward b t = onward a t
  := by
  rw [slice, ← onward_onward ha hb hab, before_append_onward]

/-- Nothing stands before the beginning of a text. -/
theorem before_zero (t : Text) :
  before 0 t = []
  := by
  cases t <;> rfl

/-- The text from its beginning on is the whole text. -/
@[simp]
theorem onward_zero (t : Text) :
  onward 0 t = t
  := by
  cases t <;> rfl

/-- Nothing is left at the end of a text. -/
theorem onward_width (t : Text) :
  onward (width t) t = []
  := by
  have h := length_bytes (onward (width t) t)
  rw [bytes_onward (isBoundary_width t), List.length_drop, length_bytes, Nat.sub_self] at h
  have hle := length_le_width (onward (width t) t)
  exact List.eq_nil_of_length_eq_zero (by omega)

/-- What lies after a boundary is the slice up to the end. -/
theorem slice_width {a : Nat} {t : Text} (ha : IsBoundary a t) :
  slice t a (width t) = onward a t
  := by
  have h := slice_append_onward ha (isBoundary_width t) ha.le_width
  rwa [onward_width, List.append_nil] at h

/-- A text is cut into what stands before a slice, the slice and what stands after it. -/
theorem before_append_slice_append_onward {a b : Nat} {t : Text} (ha : IsBoundary a t)
    (hb : IsBoundary b t) (hab : a ≤ b) :
  before a t ++ slice t a b ++ onward b t = t
  := by
  rw [List.append_assoc, slice_append_onward ha hb hab, before_append_onward]

theorem onward_append (s t : Text) :
  onward (width s) (s ++ t) = t
  := by
  induction s with
  | nil => cases t <;> rfl
  | cons c s ih =>
      have hc := c.utf8Size_pos
      rw [List.cons_append, width_cons, onward, if_neg (by omega), Nat.add_sub_cancel_left, ih]

theorem before_append (s t : Text) :
  before (width s) (s ++ t) = s
  := by
  have h := before_append_onward (width s) (s ++ t)
  rwa [onward_append, List.append_left_inj] at h

/-- What stands before an offset of a text does not depend on what follows the text. -/
theorem before_append_left {n : Nat} {s : Text} (h : n ≤ width s) (t : Text) :
  before n (s ++ t) = before n s
  := by
  induction s generalizing n with
  | nil =>
      obtain rfl : n = 0 := Nat.le_zero.mp h
      exact before_zero t
  | cons c s ih =>
      rw [width_cons] at h
      rw [List.cons_append, before, before, ih (by omega)]

/-- A piece of a text is the slice at its place. -/
theorem slice_append (front piece back : Text) :
  slice (front ++ piece ++ back) (width front) (width front + width piece) = piece
  := by
  rw [slice, List.append_assoc, onward_append, Nat.add_sub_cancel_left, before_append]

/-- A slice has characters of the text only. -/
theorem mem_of_mem_slice {a b : Nat} {t : Text} {c : Char} (h : c ∈ slice t a b) :
  c ∈ t
  := by
  have honward : c ∈ onward a t := by
    rw [← before_append_onward (b - a) (onward a t)]
    exact List.mem_append_left _ h
  rw [← before_append_onward a t]
  exact List.mem_append_right _ honward

/-- Two slices of which one begins where the other ends make up one slice. -/
theorem slice_append_slice {a b c : Nat} {t : Text} (ha : IsBoundary a t) (hb : IsBoundary b t)
    (hc : IsBoundary c t) (hab : a ≤ b) (hbc : b ≤ c) :
  slice t a b ++ slice t b c = slice t a c
  := by
  apply (List.append_left_inj (onward c t)).mp
  rw [List.append_assoc, slice_append_onward hb hc hbc, slice_append_onward ha hb hab,
    slice_append_onward ha hc (Nat.le_trans hab hbc)]

theorem width_slice {a b : Nat} {t : Text} (ha : IsBoundary a t) (hb : IsBoundary b t)
    (hab : a ≤ b) :
  width (slice t a b) = b - a
  := width_before (ha.onward hb hab)

/-- What stands at a boundary is the beginning of each slice from there on that is as wide. -/
theorem isPrefix_slice {o t : Text} {a b : Nat} (ha : IsBoundary a t) (hb : IsBoundary b t)
    (hab : a ≤ b) (ho : o <+: onward a t) (hwidth : a + width o ≤ b) :
  o <+: slice t a b
  := by
  have hslice : slice t a b <+: onward a t := ⟨_, slice_append_onward ha hb hab⟩
  rcases List.prefix_or_prefix_of_prefix ho hslice with h | ⟨more, rfl⟩
  · exact h
  · -- the rest of the text that stands there has no width
    rw [width_append, width_slice ha hb hab] at hwidth
    have hmore := length_le_width more
    obtain rfl : more = [] := List.eq_nil_of_length_eq_zero (by omega)
    exact ⟨[], by rw [List.append_nil, List.append_nil]⟩

/-- What stands before the next boundary ends with the character in between. -/
theorem before_next {n : Nat} {t rest : Text} {c : Char} (h : IsBoundary n t)
    (honward : onward n t = c :: rest) :
  before (n + c.utf8Size) t = before n t ++ [c]
  := by
  have ht : t = before n t ++ [c] ++ rest := by
    rw [List.append_assoc, List.singleton_append, ← honward, before_append_onward]
  have hwidth : width (before n t ++ [c]) = n + c.utf8Size := by
    rw [width_append, width_before h, width_cons, width_nil, Nat.add_zero]
  rw [← hwidth]
  nth_rewrite 2 [ht]
  apply before_append

/-- A slice of a slice is a slice of the text. -/
theorem slice_slice {a b c d : Nat} {t : Text} (ha : IsBoundary a t) (hb : IsBoundary b t)
    (hc : IsBoundary c t) (hd : IsBoundary d t) (hac : a ≤ c) (hcd : c ≤ d) (hdb : d ≤ b) :
  slice (slice t a b) (c - a) (d - a) = slice t c d
  := by
  have hcut : slice t a c ++ slice t c d ++ slice t d b = slice t a b := by
    rw [slice_append_slice ha hc hd hac hcd, slice_append_slice ha hd hb (by omega) hdb]
  have hstart := width_slice ha hc hac
  have hstop : width (slice t a c) + width (slice t c d) = d - a := by
    rw [hstart, width_slice hc hd hcd]
    omega
  rw [← hcut, ← hstop, ← hstart]
  apply slice_append

theorem bytes_slice {a b : Nat} {t : Text} (ha : IsBoundary a t) (hb : IsBoundary b t)
    (hab : a ≤ b) :
  bytes (slice t a b) = ((bytes t).drop a).take (b - a)
  := by
  rw [slice, bytes_before (ha.onward hb hab), bytes_onward ha]

theorem getElem?_bytes_onward {n : Nat} {t : Text} (h : IsBoundary n t) (i : Nat) :
  (bytes (onward n t))[i]? = (bytes t)[n + i]?
  := by
  rw [bytes_onward h, List.getElem?_drop]

theorem getElem?_bytes_slice {a b : Nat} {t : Text} (ha : IsBoundary a t) (hb : IsBoundary b t)
    {i : Nat} (hi : a + i < b) :
  (bytes (slice t a b))[i]? = (bytes t)[a + i]?
  := by
  rw [bytes_slice ha hb (by omega), List.getElem?_take_of_lt (by omega), List.getElem?_drop]

/-- The bytes of a piece of a text stand at its place. -/
theorem getElem?_bytes_append (front piece back : Text) {i : Nat} (hi : i < width piece) :
  (bytes (front ++ piece ++ back))[width front + i]? = (bytes piece)[i]?
  := by
  rw [bytes_append, bytes_append,
    List.getElem?_append_left (by rw [List.length_append, length_bytes, length_bytes]; omega),
    List.getElem?_append_right (by rw [length_bytes]; omega), length_bytes,
    Nat.add_sub_cancel_left]

/-! ### Cuts -/

/-- The text is cut at the offset, and `rest` is what comes after that. -/
def Cut (t : Text) (n : Nat) (rest : Text) : Prop :=
  ∃ front, t = front ++ rest ∧ width front = n

section Cuts

variable {t rest : Text} {n : Nat}

theorem cut_zero (t : Text) :
  t.Cut 0 t
  := ⟨[], rfl, rfl⟩

theorem Cut.append {piece : Text} (h : t.Cut n (piece ++ rest)) :
  t.Cut (n + width piece) rest
  := by
  obtain ⟨front, rfl, rfl⟩ := h
  exact ⟨front ++ piece, by simp, by simp⟩

theorem Cut.cons {c : Char} (h : t.Cut n (c :: rest)) :
  t.Cut (n + c.utf8Size) rest
  := by
  have hcut : t.Cut n ([c] ++ rest) := h
  apply hcut.append

/-- A text is cut at its boundaries. -/
theorem cut_iff :
  t.Cut n rest ↔ IsBoundary n t ∧ onward n t = rest
  := by
  constructor
  · rintro ⟨front, rfl, rfl⟩
    have hboundary : IsBoundary (width front + 0) (front ++ rest) :=
      (isBoundary_zero rest).append front
    exact ⟨hboundary, onward_append front rest⟩
  · rintro ⟨hboundary, rfl⟩
    exact ⟨before n t, (before_append_onward n t).symm, width_before hboundary⟩

theorem Cut.isBoundary (h : t.Cut n rest) :
  IsBoundary n t
  := (cut_iff.mp h).1

theorem Cut.onward_eq (h : t.Cut n rest) :
  onward n t = rest
  := (cut_iff.mp h).2

/-- What comes after a cut is the slice from there on. -/
theorem Cut.slice_eq {piece : Text} (h : t.Cut n (piece ++ rest)) :
  slice t n (n + width piece) = piece
  := by rw [slice, h.onward_eq, Nat.add_sub_cancel_left, before_append]

/-- The bytes of what comes after a cut stand from there on. -/
theorem Cut.getElem?_bytes {piece : Text} (h : t.Cut n (piece ++ rest)) {i : Nat}
    (hi : i < width piece) :
  (bytes t)[n + i]? = (bytes piece)[i]?
  := by
  obtain ⟨front, rfl, rfl⟩ := h
  rw [← List.append_assoc]
  apply getElem?_bytes_append front piece rest hi

/-- A text is cut again at a later boundary. -/
theorem Cut.onward {m : Nat} (h : t.Cut n rest) (hm : IsBoundary m t) (hnm : n ≤ m) :
  t.Cut m (Text.onward (m - n) rest)
  := by
  rw [cut_iff, ← h.onward_eq, onward_onward h.isBoundary hm hnm]
  exact ⟨hm, rfl⟩

/-- A text that is cut at an offset is cut again at a boundary, unless that lies behind it. -/
theorem Cut.behind {m : Nat} (h : t.Cut n rest) (hm : IsBoundary m t) :
  t.Cut (max n m) (Text.onward (m - n) rest)
  := by
  rcases Nat.le_total m n with hle | hle
  · rw [Nat.max_eq_left hle, Nat.sub_eq_zero_of_le hle, onward_zero]
    exact h
  · rw [Nat.max_eq_right hle]
    exact h.onward hm hle

end Cuts

/-! ### Characters by offset -/

/-- The character that has the byte at an offset. -/
def charAt? : Nat → Text → Option Char
  | _, [] => none
  | n, c :: t => if n < c.utf8Size then some c else charAt? (n - c.utf8Size) t

/-- Every byte of a text is a byte of a character. -/
theorem exists_charAt? {n : Nat} {t : Text} (h : n < width t) :
  ∃ c, charAt? n t = some c
  := by
  induction t generalizing n with
  | nil => simp at h
  | cons c t ih =>
      rw [width_cons] at h
      rw [charAt?]
      split
      · exact ⟨c, rfl⟩
      · apply ih (by omega)

/-- The first character behind a cut has the bytes there. -/
theorem Cut.charAt?_eq {t rest : Text} {n i : Nat} {c : Char} (h : t.Cut n (c :: rest))
    (hi : i < c.utf8Size) :
  charAt? (n + i) t = some c
  := by
  obtain ⟨front, rfl, rfl⟩ := h
  induction front with
  | nil => rw [List.nil_append, charAt?, width_nil, Nat.zero_add, if_pos hi]
  | cons d front ih =>
      rw [List.cons_append, charAt?, width_cons, if_neg (by omega), Nat.add_assoc,
        Nat.add_sub_cancel_left, ih]

end Stencil.Text

namespace Stencil

open Text

/-- The ends of a span are boundaries of a text. -/
def Span.OnBoundaries (t : Text) (s : Span) : Prop :=
  IsBoundary s.start t ∧ IsBoundary s.stop t

instance Span.decidableOnBoundaries (t : Text) (s : Span) : Decidable (s.OnBoundaries t) :=
  inferInstanceAs (Decidable (_ ∧ _))

end Stencil
