import Mathlib.Data.Set.Card
import Mathlib.Order.Bounds.Defs
import Stencil.Proofs.Text.Bytes
import Stencil.Text.Lines

/-!
# Offsets and locations

The line of an offset is one more than the number of line terminators that end up to there, and its
column is the number of characters that begin before it and after which no line ends up to there.
So the way from an offset to its location and back leads to the next boundary, which is the offset
itself if it is one, and locations of boundaries are in the order of the boundaries.
-/

namespace Stencil

open Text

/-- A line of the text ends at the offset: a line terminator stands before it, and it does not stand
between a carriage return and a line feed. -/
def EndsLine (t : Text) (n : Nat) : Prop :=
  ∃ front c back, t = front ++ c :: back ∧ n = width front + c.utf8Size ∧ isLineBreak c = true
    ∧ ¬(c = '\r' ∧ back.head? = some '\n')

/-- The first location comes before the second one. -/
def Location.Before (a b : Location) : Prop :=
  a.line < b.line ∨ (a.line = b.line ∧ a.column < b.column)

/-! ### Where lines end -/

theorem not_endsLine_nil (n : Nat) :
  ¬EndsLine [] n
  := by
  rintro ⟨front, c, back, h, -⟩
  simp at h

/-- A line ends after the first character or further on. -/
theorem endsLine_cons {c : Char} {t : Text} {n : Nat} :
  EndsLine (c :: t) n ↔
    (n = c.utf8Size ∧ isLineBreak c = true ∧ ¬(c = '\r' ∧ t.head? = some '\n'))
      ∨ ∃ m, n = c.utf8Size + m ∧ EndsLine t m
  := by
  constructor
  · rintro ⟨front, d, back, h, rfl, hbreak, hpair⟩
    cases front with
    | nil =>
        obtain ⟨rfl, rfl⟩ := List.cons_eq_cons.mp h
        left
        exact ⟨by simp, hbreak, hpair⟩
    | cons e front =>
        obtain ⟨rfl, rfl⟩ := List.cons_eq_cons.mp h
        right
        use width front + d.utf8Size
        exact ⟨by rw [width_cons, Nat.add_assoc], front, d, back, rfl, rfl, hbreak, hpair⟩
  · rintro (⟨rfl, hbreak, hpair⟩ | ⟨m, rfl, front, d, back, rfl, rfl, hbreak, hpair⟩)
    · exact ⟨[], c, t, rfl, by simp, hbreak, hpair⟩
    · exact ⟨c :: front, d, back, rfl, by rw [width_cons, Nat.add_assoc], hbreak, hpair⟩

theorem EndsLine.pos {t : Text} {n : Nat} (h : EndsLine t n) :
  0 < n
  := by
  obtain ⟨front, c, back, -, rfl, -⟩ := h
  have hc := c.utf8Size_pos
  omega

/-- A line ends at a boundary. -/
theorem EndsLine.isBoundary {t : Text} {n : Nat} (h : EndsLine t n) :
  IsBoundary n t
  := by
  obtain ⟨front, c, back, rfl, rfl, -⟩ := h
  have hcut := (isBoundary_zero back).append (front ++ [c])
  simpa [Nat.add_assoc] using hcut

/-- The lines of a text but the first begin where lines end. -/
theorem mem_lineStartsFrom {pos n : Nat} {t : Text} :
  n ∈ lineStartsFrom pos t ↔ ∃ m, n = pos + m ∧ EndsLine t m
  := by
  have hreturn : '\r'.utf8Size = 1 := rfl
  have hfeed : '\n'.utf8Size = 1 := rfl
  induction pos, t using lineStartsFrom.induct with
  | case1 pos => simp [lineStartsFrom, not_endsLine_nil]
  | case2 pos t ih =>
      -- between the carriage return and the line feed no line ends
      have hends (m : Nat) : EndsLine ('\r' :: '\n' :: t) m
          ↔ m = 2 ∨ ∃ k, m = 2 + k ∧ EndsLine t k := by
        rw [endsLine_cons]
        simp only [endsLine_cons, hreturn, hfeed]
        constructor
        · rintro (⟨-, -, hpair⟩ | ⟨_, rfl, ⟨rfl, -⟩ | ⟨k, rfl, hk⟩⟩)
          · exact absurd ⟨trivial, rfl⟩ hpair
          · exact Or.inl rfl
          · exact Or.inr ⟨k, by omega, hk⟩
        · rintro (rfl | ⟨k, rfl, hk⟩)
          · exact Or.inr ⟨1, rfl, Or.inl ⟨rfl, by decide, by simp⟩⟩
          · exact Or.inr ⟨1 + k, by omega, Or.inr ⟨k, rfl, hk⟩⟩
      simp only [lineStartsFrom, List.mem_cons, ih, hends]
      constructor
      · rintro (rfl | ⟨m, rfl, hm⟩)
        · exact ⟨2, rfl, Or.inl rfl⟩
        · exact ⟨2 + m, by omega, Or.inr ⟨m, rfl, hm⟩⟩
      · rintro ⟨_, rfl, rfl | ⟨k, rfl, hk⟩⟩
        · exact Or.inl rfl
        · exact Or.inr ⟨k, by omega, hk⟩
  | case3 pos c t hpair _ hbreak ih =>
      replace ih : n ∈ lineStartsFrom (pos + c.utf8Size) t
          ↔ ∃ m, n = pos + c.utf8Size + m ∧ EndsLine t m := ih
      have hfirst : ¬(c = '\r' ∧ t.head? = some '\n') := by
        rintro ⟨rfl, hhead⟩
        obtain ⟨rest, rfl⟩ := List.head?_eq_some_iff.mp hhead
        exact hpair rest rfl rfl
      rw [lineStartsFrom.eq_3 pos c t hpair, if_pos hbreak]
      simp only [List.mem_cons, ih, endsLine_cons]
      constructor
      · rintro (rfl | ⟨m, rfl, hm⟩)
        · exact ⟨c.utf8Size, rfl, Or.inl ⟨rfl, hbreak, hfirst⟩⟩
        · exact ⟨c.utf8Size + m, by omega, Or.inr ⟨m, rfl, hm⟩⟩
      · rintro ⟨_, rfl, ⟨rfl, -⟩ | ⟨m, rfl, hm⟩⟩
        · exact Or.inl rfl
        · exact Or.inr ⟨m, by omega, hm⟩
  | case4 pos c t hpair _ hplain ih =>
      replace ih : n ∈ lineStartsFrom (pos + c.utf8Size) t
          ↔ ∃ m, n = pos + c.utf8Size + m ∧ EndsLine t m := ih
      rw [lineStartsFrom.eq_3 pos c t hpair, if_neg hplain]
      simp only [ih, endsLine_cons]
      constructor
      · rintro ⟨m, rfl, hm⟩
        exact ⟨c.utf8Size + m, by omega, Or.inr ⟨m, rfl, hm⟩⟩
      · rintro ⟨_, rfl, ⟨-, hbreak, -⟩ | ⟨m, rfl, hm⟩⟩
        · exact absurd hbreak hplain
        · exact ⟨m, by omega, hm⟩

theorem pairwise_lineStartsFrom (pos : Nat) (t : Text) :
  (lineStartsFrom pos t).Pairwise (· < ·)
  := by
  have hlater {pos' : Nat} {t' : Text} : ∀ n ∈ lineStartsFrom pos' t', pos' < n := by
    intro n hn
    obtain ⟨m, rfl, hm⟩ := mem_lineStartsFrom.mp hn
    have := hm.pos
    omega
  induction pos, t using lineStartsFrom.induct with
  | case1 pos => exact .nil
  | case2 pos t ih => exact .cons hlater ih
  | case3 pos c t hpair _ hbreak ih =>
      rw [lineStartsFrom.eq_3 pos c t hpair, if_pos hbreak]
      exact .cons hlater ih
  | case4 pos c t hpair _ hplain ih =>
      rw [lineStartsFrom.eq_3 pos c t hpair, if_neg hplain]
      exact ih

/-! ### Counting boundaries -/

/-- The boundaries before an offset are where the characters before it begin. -/
theorem length_before {n : Nat} {t : Text} (h : n ≤ width t) :
  (before n t).length = {k | IsBoundary k t ∧ k < n}.ncard
  := by
  induction t generalizing n with
  | nil =>
      obtain rfl := Nat.le_zero.mp h
      simp [before]
  | cons c t ih =>
      have hc := c.utf8Size_pos
      rw [width_cons] at h
      by_cases hn : n = 0
      · simp [before, hn]
      · have hset : {k | IsBoundary k (c :: t) ∧ k < n}
            = insert 0 ((c.utf8Size + ·) '' {k | IsBoundary k t ∧ k < n - c.utf8Size}) := by
          ext k
          constructor
          · rintro ⟨rfl | ⟨hle, hk⟩, hlt⟩
            · exact Or.inl rfl
            · exact Or.inr ⟨k - c.utf8Size, ⟨hk, by omega⟩, by dsimp only; omega⟩
          · rintro (rfl | ⟨k, ⟨hk, hlt⟩, rfl⟩)
            · exact ⟨isBoundary_zero _, by omega⟩
            · dsimp only
              exact ⟨Or.inr ⟨by omega, by simpa using hk⟩, by omega⟩
        have hfinite : {k | IsBoundary k t ∧ k < n - c.utf8Size}.Finite :=
          (Set.finite_lt_nat (n - c.utf8Size)).subset fun k hk => hk.2
        have hnew : 0 ∉ (c.utf8Size + ·) '' {k | IsBoundary k t ∧ k < n - c.utf8Size} := by
          rintro ⟨k, -, hk⟩
          dsimp only at hk
          omega
        rw [before, if_neg hn, List.length_cons, ih (by omega), hset,
          Set.ncard_insert_of_notMem hnew (hfinite.image _),
          Set.ncard_image_of_injective _ (add_right_injective c.utf8Size)]

/-- The characters before an offset reach up to the next boundary. -/
theorem isLeast_width_before {n : Nat} {t : Text} (h : n ≤ width t) :
  IsLeast {k | IsBoundary k t ∧ n ≤ k} (width (before n t))
  := by
  induction t generalizing n with
  | nil =>
      obtain rfl := Nat.le_zero.mp h
      exact ⟨⟨rfl, Nat.le_refl _⟩, fun k _ => Nat.zero_le k⟩
  | cons c t ih =>
      rw [width_cons] at h
      by_cases hn : n = 0
      · subst hn
        exact ⟨⟨isBoundary_zero _, Nat.le_refl _⟩, fun k _ => Nat.zero_le k⟩
      · obtain ⟨⟨hboundary, hle⟩, hleast⟩ := ih (n := n - c.utf8Size) (by omega)
        rw [before, if_neg hn, width_cons]
        constructor
        · exact ⟨Or.inr ⟨by omega, by simpa using hboundary⟩, by omega⟩
        · rintro k ⟨rfl | ⟨hck, hk⟩, hnk⟩
          · omega
          · have := hleast ⟨hk, by omega⟩
            omega


theorem isBoundary_onward_iff {a n : Nat} {t : Text} (ha : IsBoundary a t) :
  IsBoundary n (onward a t) ↔ IsBoundary (a + n) t
  := by
  constructor
  · intro h
    have hcut := h.append (before a t)
    rwa [before_append_onward, width_before ha] at hcut
  · intro h
    have hrest := ha.onward h (Nat.le_add_right a n)
    rwa [Nat.add_sub_cancel_left] at hrest

theorem width_onward {a : Nat} {t : Text} (ha : IsBoundary a t) :
  width (onward a t) = width t - a
  := by
  have hcut := congrArg width (before_append_onward a t)
  rw [width_append, width_before ha] at hcut
  omega

/-- The characters before an offset that lies in the first of two pieces are characters of it. -/
theorem before_append_of_le {n : Nat} {s : Text} (h : n ≤ width s) (t : Text) :
  before n (s ++ t) = before n s
  := by
  induction s generalizing n with
  | nil =>
      obtain rfl := Nat.le_zero.mp h
      cases t <;> rfl
  | cons c s ih =>
      rw [width_cons] at h
      rw [List.cons_append, before, before, ih (by omega)]

/-! ### The line of an offset -/

/-- The largest of several increasing numbers that are not too large. -/
theorem exists_last_of_takeWhile {first m : Nat} {rest : List Nat}
    (h : (first :: rest).Pairwise (· < ·)) (hle : first ≤ m) :
  ∃ last, (first :: rest)[((first :: rest).takeWhile (· ≤ m)).length - 1]? = some last
    ∧ last ≤ m ∧ ∀ n ∈ first :: rest, n ≤ m → n ≤ last
  := by
  induction rest generalizing first with
  | nil => exact ⟨first, by simp [hle], hle, by simp⟩
  | cons second rest ih =>
      obtain ⟨hfirst, hrest⟩ := List.pairwise_cons.mp h
      rw [List.takeWhile_cons_of_pos (by simpa using hle), List.length_cons,
        Nat.add_sub_cancel]
      by_cases hsecond : second ≤ m
      · obtain ⟨last, hlast, hm, hall⟩ := ih hrest hsecond
        have hnonempty : 0 < ((second :: rest).takeWhile (· ≤ m)).length := by
          rw [List.takeWhile_cons_of_pos (by simpa using hsecond)]
          apply Nat.succ_pos
        obtain ⟨k, hk⟩ := Nat.exists_eq_succ_of_ne_zero (Nat.ne_of_gt hnonempty)
        rw [hk] at hlast ⊢
        have hbelow := hall second List.mem_cons_self hsecond
        have := hfirst second List.mem_cons_self
        exact ⟨last, hlast, hm, List.forall_mem_cons.mpr ⟨fun _ => by omega, hall⟩⟩
      · rw [List.takeWhile_cons_of_neg (by simpa using hsecond)]
        refine ⟨first, rfl, hle, List.forall_mem_cons.mpr ⟨fun _ => Nat.le_refl _, ?_⟩⟩
        refine List.forall_mem_cons.mpr ⟨fun hm => absurd hm hsecond, fun n hn hm => ?_⟩
        have := (List.pairwise_cons.mp hrest).1 n hn
        omega

/-- The number of several increasing numbers that are not too large. -/
theorem length_takeWhile_le {l : List Nat} (h : l.Pairwise (· < ·)) (m : Nat) :
  (l.takeWhile (· ≤ m)).length = {n | n ∈ l ∧ n ≤ m}.ncard
  := by
  induction l with
  | nil => simp
  | cons a l ih =>
      obtain ⟨hfirst, hrest⟩ := List.pairwise_cons.mp h
      by_cases ha : a ≤ m
      · have hset : {n | n ∈ a :: l ∧ n ≤ m} = insert a {n | n ∈ l ∧ n ≤ m} := by
          ext n
          simp only [Set.mem_ofPred_eq, List.mem_cons, Set.mem_insert_iff, or_and_right]
          constructor
          · rintro (⟨rfl, -⟩ | hn)
            · exact Or.inl rfl
            · exact Or.inr hn
          · rintro (rfl | hn)
            · exact Or.inl ⟨rfl, ha⟩
            · exact Or.inr hn
        have hnew : a ∉ {n | n ∈ l ∧ n ≤ m} := fun hn => Nat.lt_irrefl a (hfirst a hn.1)
        have hfinite : {n | n ∈ l ∧ n ≤ m}.Finite :=
          (List.finite_toSet l).subset fun n hn => hn.1
        rw [List.takeWhile_cons_of_pos (by simpa using ha), List.length_cons, ih hrest, hset,
          Set.ncard_insert_of_notMem hnew hfinite]
      · have hset : {n | n ∈ a :: l ∧ n ≤ m} = ∅ := by
          rw [Set.eq_empty_iff_forall_notMem]
          rintro n ⟨hn, hm⟩
          rcases List.mem_cons.mp hn with rfl | hn
          · exact ha hm
          · have := hfirst n hn
            omega
        rw [List.takeWhile_cons_of_neg (by simpa using ha), hset, Set.ncard_empty, List.length_nil]

namespace Lines

/-- The line with a number has the offset in it: it begins at `start`, and the next one begins at
`stop` or this is the end of the text. -/
structure HasOffset (t : Text) (m line start stop : Nat) : Prop where
  pos : 0 < line
  le_count : line ≤ (ofText t).count
  start_eq : (ofText t).start? line = some start
  stop_eq : ((ofText t).start? (line + 1)).getD (width t) = stop
  start_isBoundary : IsBoundary start t
  stop_isBoundary : IsBoundary stop t
  start_le : start ≤ m
  le_stop : m ≤ stop
  same_line : ∀ n < m, start ≤ n ↔ ∀ k, n < k → k ≤ m → ¬EndsLine t k

theorem hasOffset_takeWhile (t : Text) {m : Nat} (hm : m ≤ width t) :
  ∃ start stop, HasOffset t m ((lineStarts t).takeWhile (· ≤ m)).length start stop
  := by
  have hmem {n : Nat} : n ∈ lineStarts t ↔ n = 0 ∨ EndsLine t n := by
    rw [lineStarts, List.mem_cons, mem_lineStartsFrom]
    simp
  have hboundary {n : Nat} (hn : n ∈ lineStarts t) : IsBoundary n t := by
    rcases hmem.mp hn with rfl | hn
    · exact isBoundary_zero t
    · exact hn.isBoundary
  have hincreasing : (lineStarts t).Pairwise (· < ·) :=
    .cons (fun n hn => by
      obtain ⟨k, rfl, hk⟩ := mem_lineStartsFrom.mp hn
      simpa using hk.pos) (pairwise_lineStartsFrom 0 t)
  obtain ⟨start, hstart, hle, hlast⟩ :=
    exists_last_of_takeWhile hincreasing (Nat.zero_le m)
  have hpos : 0 < ((lineStarts t).takeWhile (· ≤ m)).length := by
    rw [lineStarts, List.takeWhile_cons_of_pos (by simp)]
    apply Nat.succ_pos
  have hcount := (List.takeWhile_prefix (· ≤ m) (l := lineStarts t)).length_le
  have hnext : ∀ n ∈ (lineStarts t)[((lineStarts t).takeWhile (· ≤ m)).length]?, m < n := by
    intro n hn
    have hfails := List.head?_dropWhile_not (· ≤ m) (lineStarts t)
    rw [← List.takeWhile_append_dropWhile (p := (· ≤ m)) (l := lineStarts t),
      List.getElem?_append_right (by simp)] at hn
    have hhead : ((lineStarts t).dropWhile (· ≤ m)).head? = some n := by
      rw [List.head?_eq_getElem?]
      simpa using hn
    rw [hhead] at hfails
    simpa using hfails
  have hstartMem : start ∈ lineStarts t := List.mem_of_getElem? hstart
  have hstop : ∃ stop, (lineStarts t)[((lineStarts t).takeWhile (· ≤ m)).length]?.getD (width t)
      = stop ∧ IsBoundary stop t ∧ m ≤ stop := by
    refine ⟨_, rfl, ?_⟩
    cases hfound : (lineStarts t)[((lineStarts t).takeWhile (· ≤ m)).length]? with
    | none => exact ⟨isBoundary_width t, hm⟩
    | some n => exact ⟨hboundary (List.mem_of_getElem? hfound), Nat.le_of_lt (hnext n hfound)⟩
  obtain ⟨stop, hstop, hstopBoundary, hstopLe⟩ := hstop
  refine ⟨start, stop, hpos, hcount, ?_, hstop, hboundary hstartMem, hstopBoundary, hle, hstopLe,
    ?_⟩
  · rw [start?, if_neg (Nat.ne_of_gt hpos)]
    exact hstart
  · intro n hn
    constructor
    · intro hstartLe k hnk hkm hk
      have := hlast k (hmem.mpr (Or.inr hk)) hkm
      omega
    · intro hnone
      rcases hmem.mp hstartMem with rfl | hends
      · exact Nat.zero_le n
      · by_contra hlt
        exact hnone start (by omega) hle hends

/-- The location of an offset in a line. -/
theorem location_eq {t : Text} {o start stop : Nat} (ho : o ≤ width t)
    (h : HasOffset t o ((lineStarts t).takeWhile (· ≤ o)).length start stop) :
  (ofText t).location o
    = ⟨((lineStarts t).takeWhile (· ≤ o)).length, (before (o - start) (onward start t)).length⟩
  := by
  have htext : (ofText t).text = t := rfl
  have hstarts : (ofText t).starts = lineStarts t := rfl
  dsimp only [location, columnAt]
  rw [htext, hstarts, Nat.min_eq_left ho, h.start_eq, Option.getD_some]

/-- The characters of a line before an offset in it lead from its beginning to the offset. -/
theorem offset_eq {t : Text} {m line start stop : Nat} (h : HasOffset t m line start stop) :
  (ofText t).offset ⟨line, (before (m - start) (onward start t)).length⟩
    = start + width (before (m - start) (onward start t))
  := by
  have hle := Nat.le_trans h.start_le h.le_stop
  have hcontent :
      before (m - start) (onward start t) = before (m - start) (slice t start stop) := by
    rw [← slice_append_onward h.start_isBoundary h.stop_isBoundary hle]
    apply before_append_of_le
    rw [width_slice h.start_isBoundary h.stop_isBoundary hle]
    exact Nat.sub_le_sub_right h.le_stop start
  have hprefix : before (m - start) (slice t start stop) <+: slice t start stop :=
    ⟨_, before_append_onward _ _⟩
  have hnumber : min (max line 1) (ofText t).count = line := by
    have := h.pos
    have := h.le_count
    omega
  dsimp only [offset]
  rw [hnumber, h.start_eq, show (ofText t).text = t from rfl, h.stop_eq, Option.getD_some, hcontent,
    ← List.prefix_iff_eq_take.mp hprefix]

/-- The way from an offset to its location and back leads to the next boundary. -/
theorem HasOffset.isLeast {t : Text} {m line start stop : Nat} (h : HasOffset t m line start stop)
    (hm : m ≤ width t) :
  IsLeast {n | IsBoundary n t ∧ m ≤ n} (start + width (before (m - start) (onward start t)))
  := by
  have hle := h.start_le
  have hwidth := width_onward h.start_isBoundary
  obtain ⟨⟨hboundary, hnext⟩, hleast⟩ :=
    isLeast_width_before (n := m - start) (t := onward start t) (by omega)
  constructor
  · exact ⟨(isBoundary_onward_iff h.start_isBoundary).mp hboundary, by omega⟩
  · rintro n ⟨hn, hmn⟩
    have hstart : start + (n - start) = n := by omega
    have hrest : IsBoundary (n - start) (onward start t) := by
      rw [isBoundary_onward_iff h.start_isBoundary, hstart]
      exact hn
    have := hleast ⟨hrest, by omega⟩
    omega

/-- The column of an offset is the number of characters before it on the same line. -/
theorem HasOffset.column_eq {t : Text} {m line start stop : Nat} (h : HasOffset t m line start stop)
    (hm : m ≤ width t) :
  (before (m - start) (onward start t)).length
    = {n | IsBoundary n t ∧ n < m ∧ ∀ k, n < k → k ≤ m → ¬EndsLine t k}.ncard
  := by
  have hle := h.start_le
  have hwidth := width_onward h.start_isBoundary
  have hset : {n | IsBoundary n t ∧ n < m ∧ ∀ k, n < k → k ≤ m → ¬EndsLine t k}
      = (start + ·) '' {n | IsBoundary n (onward start t) ∧ n < m - start} := by
    ext n
    constructor
    · rintro ⟨hn, hlt, hsame⟩
      have hstart := (h.same_line n hlt).mpr hsame
      refine ⟨n - start, ⟨?_, by omega⟩, by dsimp only; omega⟩
      rw [isBoundary_onward_iff h.start_isBoundary, Nat.add_sub_cancel' hstart]
      exact hn
    · rintro ⟨n, ⟨hn, hlt⟩, rfl⟩
      dsimp only
      exact ⟨(isBoundary_onward_iff h.start_isBoundary).mp hn, by omega,
        (h.same_line (start + n) (by omega)).mp (Nat.le_add_right _ _)⟩
  rw [hset, Set.ncard_image_of_injective _ (add_right_injective start), length_before (by omega)]

/-- The line number and the column of an offset, and the way back. -/
theorem location_of_le {t : Text} {o : Nat} (ho : o ≤ width t) :
  ∃ start stop, HasOffset t o ((ofText t).location o).line start stop
    ∧ ((ofText t).location o).column = (before (o - start) (onward start t)).length
    ∧ ((ofText t).location o).line = 1 + {n | EndsLine t n ∧ n ≤ o}.ncard
  := by
  obtain ⟨start, stop, h⟩ := hasOffset_takeWhile t ho
  rw [location_eq ho h]
  refine ⟨start, stop, h, rfl, ?_⟩
  have hends : {n | n ∈ lineStartsFrom 0 t ∧ n ≤ o} = {n | EndsLine t n ∧ n ≤ o} := by
    ext n
    simp [mem_lineStartsFrom]
  dsimp only
  rw [lineStarts, List.takeWhile_cons_of_pos (by simp), List.length_cons,
    length_takeWhile_le (pairwise_lineStartsFrom 0 t), hends, Nat.add_comm]

/-- The location of the end of the text is that of every offset past it. -/
theorem location_min (t : Text) (o : Nat) :
  (ofText t).location (min o (width t)) = (ofText t).location o
  := by
  have htext : (ofText t).text = t := rfl
  rw [location, location, htext, Nat.min_eq_left (Nat.min_le_right o (width t))]

/-- The offset of the location of a boundary is the boundary. -/
theorem offset_location {t : Text} {o : Nat} (ho : IsBoundary o t) :
  (ofText t).offset ((ofText t).location o) = o
  := by
  obtain ⟨start, stop, h, hcolumn, -⟩ := location_of_le ho.le_width
  have hoffset := offset_eq h
  rw [← hcolumn] at hoffset
  rw [hoffset]
  exact (h.isLeast ho.le_width).unique ⟨⟨ho, Nat.le_refl o⟩, fun n hn => hn.2⟩

/-- The locations of boundaries are in the order of the boundaries. -/
theorem location_before {t : Text} {o o' : Nat} (ho : IsBoundary o t) (ho' : IsBoundary o' t)
    (hlt : o < o') :
  ((ofText t).location o).Before ((ofText t).location o')
  := by
  obtain ⟨start, stop, h, hcolumn, hline⟩ := location_of_le ho.le_width
  obtain ⟨start', stop', h', hcolumn', hline'⟩ := location_of_le ho'.le_width
  have hlines : ((ofText t).location o).line ≤ ((ofText t).location o').line := by
    rw [hline, hline']
    apply Nat.add_le_add_left
    apply Set.ncard_le_ncard
    · exact fun n hn => ⟨hn.1, Nat.le_trans hn.2 (Nat.le_of_lt hlt)⟩
    · exact (Set.finite_le_nat o').subset fun n hn => hn.2
  rcases Nat.lt_or_eq_of_le hlines with hless | hsame
  · exact Or.inl hless
  · -- on the same line the columns count boundaries from the same beginning
    right
    refine ⟨hsame, Nat.lt_of_le_of_ne ?_ ?_⟩
    · have hstart : start = start' := by
        have heq := h.start_eq
        rw [hsame, h'.start_eq] at heq
        exact (Option.some.inj heq).symm
      subst hstart
      have hwidth := width_onward h.start_isBoundary
      have hle := ho'.le_width
      rw [hcolumn, hcolumn', length_before (by omega), length_before (by omega)]
      apply Set.ncard_le_ncard
      · exact fun n hn => ⟨hn.1, by have := hn.2; omega⟩
      · exact (Set.finite_lt_nat (o' - start)).subset fun n hn => hn.2
    · intro hcolumns
      have hlocations : (ofText t).location o = (ofText t).location o' := by
        generalize (ofText t).location o = a at hsame hcolumns
        generalize (ofText t).location o' = b at hsame hcolumns
        cases a
        cases b
        obtain rfl : _ = _ := hsame
        obtain rfl : _ = _ := hcolumns
        rfl
      have hback := offset_location ho
      rw [hlocations, offset_location ho'] at hback
      omega

/-- The line of an offset is one more than the number of lines that end up to there, and its column
is the number of characters that begin before it and after which no line ends up to there; an offset
past the text counts as its end.  The way to the location and back leads to the next boundary, which
is the offset itself if this is a boundary, and the locations of boundaries are in their order. -/
theorem location_ofText (t : Text) (o : Nat) :
  ((ofText t).location o).line = 1 + {n | EndsLine t n ∧ n ≤ min o (width t)}.ncard
    ∧ ((ofText t).location o).column
      = {n | IsBoundary n t ∧ n < min o (width t)
          ∧ ∀ k, n < k → k ≤ min o (width t) → ¬EndsLine t k}.ncard
    ∧ IsLeast {n | IsBoundary n t ∧ min o (width t) ≤ n}
      ((ofText t).offset ((ofText t).location o))
    ∧ (IsBoundary o t → (ofText t).offset ((ofText t).location o) = o
      ∧ ∀ o', IsBoundary o' t → o < o' →
        ((ofText t).location o).Before ((ofText t).location o'))
  := by
  have hm := Nat.min_le_right o (width t)
  obtain ⟨start, stop, h, hcolumn, hline⟩ := location_of_le hm
  have hoffset := offset_eq h
  rw [← hcolumn] at hoffset
  rw [location_min] at hline hcolumn hoffset
  refine ⟨hline, ?_, ?_, fun ho => ⟨offset_location ho, fun o' ho' => location_before ho ho'⟩⟩
  · rw [hcolumn]
    exact h.column_eq hm
  · rw [hoffset]
    exact h.isLeast hm

/-- Between the carriage return and the line feed the offset is on the first line. -/
example :
    let lines := ofText (Text.ofString "a\r\nb")
    lines.location 2 = ⟨1, 2⟩ ∧ lines.offset ⟨1, 2⟩ = 2 ∧ lines.location 3 = ⟨2, 0⟩ := by
  decide

end Lines

end Stencil
