import Stencil.Proofs.Markup.Place

/-!
# Attributes in a start tag

Spans are in order between two offsets if they follow each other there without sharing an offset.
The attributes of a start tag are, and the name and the value of an attribute stand in it one after
the other.
-/

namespace Stencil

open Text

/-! ### Spans in order -/

/-- The span holds something and stands between two boundaries of the text. -/
structure Span.IsPiece (t : Text) (s : Span) : Prop where
  nonempty : s.start < s.stop
  onBoundaries : s.OnBoundaries t

/-- The spans are pieces of the text that follow each other between the offsets `a` and `b`. -/
structure Span.InOrder (t : Text) (a b : Nat) (spans : List Span) : Prop where
  isPiece : ∀ s ∈ spans, s.IsPiece t
  inside : ∀ s ∈ spans, a ≤ s.start ∧ s.stop ≤ b
  apart : spans.Pairwise fun r s => r.stop ≤ s.start

namespace Span.InOrder

variable {t : Text} {a b c : Nat} {spans later : List Span} {s : Span}

theorem nil (t : Text) (a b : Nat) :
  InOrder t a b []
  := ⟨by simp, by simp, .nil⟩

theorem singleton (hs : s.IsPiece t) (ha : a ≤ s.start) (hb : s.stop ≤ b) :
  InOrder t a b [s]
  := by
  constructor
  · simpa using hs
  · simpa using ⟨ha, hb⟩
  · apply List.pairwise_singleton

theorem append (h : InOrder t a b spans) (h' : InOrder t b c later) (hab : a ≤ b) (hbc : b ≤ c) :
  InOrder t a c (spans ++ later)
  := by
  constructor
  · exact List.forall_mem_append.mpr ⟨h.isPiece, h'.isPiece⟩
  · rw [List.forall_mem_append]
    constructor
    · intro s hs
      have := h.inside s hs
      omega
    · intro s hs
      have := h'.inside s hs
      omega
  · rw [List.pairwise_append]
    refine ⟨h.apart, h'.apart, fun r hr s hs => ?_⟩
    have := h.inside r hr
    have := h'.inside s hs
    omega

theorem mono {a' b' : Nat} (h : InOrder t a b spans) (ha : a' ≤ a) (hb : b ≤ b') :
  InOrder t a' b' spans
  := by
  constructor
  · exact h.isPiece
  · intro s hs
    have := h.inside s hs
    omega
  · exact h.apart

end Span.InOrder

namespace Markup

/-- The name of an attribute stands at its beginning, and the value after the name. -/
structure Attribute.Placed (t : Text) (a : Attribute) : Prop where
  name_start : a.nameSpan.start = a.span.start
  name_isPiece : a.nameSpan.IsPiece t
  name_stop : a.nameSpan.stop ≤ a.span.stop
  value_inside : ∀ v ∈ a.value,
    a.nameSpan.stop ≤ v.2.start ∧ v.2.start ≤ v.2.stop ∧ v.2.stop ≤ a.span.stop
  value_onBoundaries : ∀ v ∈ a.value, v.2.OnBoundaries t

/-- The attributes follow each other between the offsets `a` and `b`. -/
structure Attribute.InOrder (t : Text) (a b : Nat) (attributes : List Attribute) : Prop where
  spans : Span.InOrder t a b (attributes.map (·.span))
  placed : ∀ x ∈ attributes, x.Placed t

theorem Attribute.InOrder.nil (t : Text) (a b : Nat) :
  InOrder t a b []
  := ⟨.nil t a b, by simp⟩

section Reading

variable {t : Text} {p : Place}

/-! ### Reading attributes -/

/-- The value of an attribute stands between the places where its reading begins and ends. -/
theorem readValue_placed (hp : p.In t) :
  p.Before (readValue p).next ∧ (readValue p).value.2.OnBoundaries t
    ∧ p.offset ≤ (readValue p).value.2.start
    ∧ (readValue p).value.2.start ≤ (readValue p).value.2.stop
    ∧ (readValue p).value.2.stop ≤ (readValue p).next.offset
  := by
  unfold readValue
  split
  · next c _ _ =>
      split
      · have hstart := p.before_skip 1
        have hstop := (p.skip 1).before_skipWhile (· != c)
        dsimp only
        split
        · exact ⟨hstart.trans hstop, (hp.before hstart).onBoundaries hstop, hstart.offset_le,
            hstop.offset_le, Nat.le_refl _⟩
        · have hnext := ((p.skip 1).skipWhile (· != c)).before_skip 1
          exact ⟨(hstart.trans hstop).trans hnext, (hp.before hstart).onBoundaries hstop,
            hstart.offset_le, hstop.offset_le, hnext.offset_le⟩
      · have hstop := p.before_skipWhile fun c => !(isBlank c || c == '>')
        exact ⟨hstop, hp.onBoundaries hstop, Nat.le_refl _, hstop.offset_le, Nat.le_refl _⟩
  · exact ⟨.refl p, hp.onBoundaries (.refl p), Nat.le_refl _, Nat.le_refl _, Nat.le_refl _⟩

/-- An attribute stands between the places where its reading begins and ends. -/
theorem readAttribute_placed (hp : p.In t) (hrest : p.rest ≠ []) :
  p.Before (readAttribute p).next ∧ (readAttribute p).value.span = p.spanTo (readAttribute p).next
    ∧ (readAttribute p).value.span.IsPiece t ∧ (readAttribute p).value.Placed t
  := by
  have hskip := p.before_skip 1
  have hlt := Place.offset_lt_skip hrest Nat.one_pos
  unfold readAttribute
  generalize hstop :
    (p.skip 1).skipWhile (fun c => !(isBlank c || c == '=' || c == '>' || c == '/')) = stop
  have hforward : (p.skip 1).Before stop := hstop ▸ Place.before_skipWhile _ _
  have hname := hskip.trans hforward
  have hnameLt : p.offset < stop.offset := Nat.lt_of_lt_of_le hlt hforward.offset_le
  have hnamePiece : (p.spanTo stop).IsPiece t := ⟨hnameLt, hp.onBoundaries hname⟩
  dsimp only
  split
  · next hsign =>
      have hvalue := (stop.before_skipWhile isBlank).trans
        (((stop.skipWhile isBlank).before_skip 1).trans (Place.before_skipWhile _ isBlank))
      obtain ⟨hnext, hboundaries, hfrom, hto, hend⟩ :=
        readValue_placed (hp.before (hname.trans hvalue))
      have hall := (hname.trans hvalue).trans hnext
      have hle := hvalue.offset_le
      refine ⟨hall, rfl, ⟨?_, hp.onBoundaries hall⟩, ?_⟩
      · exact Nat.lt_of_lt_of_le hnameLt (hvalue.trans hnext).offset_le
      · constructor
        · rfl
        · exact hnamePiece
        · exact (hvalue.trans hnext).offset_le
        · intro v hv
          obtain rfl := Option.some.inj hv
          exact ⟨Nat.le_trans hle hfrom, hto, hend⟩
        · intro v hv
          obtain rfl := Option.some.inj hv
          exact hboundaries
  · refine ⟨hname, rfl, hnamePiece, rfl, hnamePiece, Nat.le_refl _, ?_, ?_⟩
    · simp
    · simp

/-- The attributes of a start tag follow each other between the places where its reading begins and
ends. -/
theorem readTagRest_inOrder (missing : Issue) (budget : Text) (hp : p.In t) :
  p.Before (readTagRest missing budget p).next
    ∧ Attribute.InOrder t p.offset (readTagRest missing budget p).next.offset
      (readTagRest missing budget p).value.attributes
  := by
  induction budget generalizing p with
  | nil =>
      unfold readTagRest
      exact ⟨p.before_skipWhile isBlank, .nil t _ _⟩
  | cons c budget ih =>
      have hblank := p.before_skipWhile isBlank
      unfold readTagRest
      dsimp only
      split
      · exact ⟨hblank.trans (Place.before_skip _ 2), .nil t _ _⟩
      · exact ⟨hblank.trans (Place.before_skip _ 1), .nil t _ _⟩
      · next hbudget _ =>
          obtain ⟨-, rfl⟩ := List.cons_eq_cons.mp hbudget
          have hslash := hblank.trans (Place.before_skip _ 1)
          obtain ⟨hnext, horder⟩ := ih (hp.before hslash)
          exact ⟨hslash.trans hnext, horder.spans.mono hslash.offset_le (Nat.le_refl _),
            horder.placed⟩
      · next hbudget hrest =>
          obtain ⟨-, rfl⟩ := List.cons_eq_cons.mp hbudget
          obtain ⟨hread, hspan, hpiece, hplaced⟩ :=
            readAttribute_placed (hp.before hblank) (by rw [hrest]; apply List.cons_ne_nil)
          obtain ⟨hnext, horder⟩ := ih (hp.before (hblank.trans hread))
          have hfirst : Span.InOrder t p.offset (readAttribute (p.skipWhile isBlank)).next.offset
              [(readAttribute (p.skipWhile isBlank)).value.span] := by
            apply Span.InOrder.singleton hpiece
            · rw [hspan]
              apply hblank.offset_le
            · rw [hspan]
              apply Nat.le_refl
          constructor
          · exact (hblank.trans hread).trans hnext
          · constructor
            · exact hfirst.append horder.spans (hblank.trans hread).offset_le hnext.offset_le
            · exact List.forall_mem_cons.mpr ⟨hplaced, horder.placed⟩
      · exact ⟨hblank, .nil t _ _⟩

theorem before_readValue (p : Place) :
  p.Before (readValue p).next
  := by
  obtain ⟨t, hp⟩ := p.exists_in
  exact (readValue_placed hp).1

theorem length_readAttribute_lt (hrest : p.rest ≠ []) :
  (readAttribute p).next.rest.length < p.rest.length
  := by
  obtain ⟨t, hp⟩ := p.exists_in
  obtain ⟨hbefore, hspan, hpiece, -⟩ := readAttribute_placed hp hrest
  have hforward := hpiece.nonempty
  rw [hspan] at hforward
  exact hbefore.length_lt hforward

theorem before_readTagRest (missing : Issue) (budget : Text) (p : Place) :
  p.Before (readTagRest missing budget p).next
  := by
  obtain ⟨t, hp⟩ := p.exists_in
  exact (readTagRest_inOrder missing budget hp).1

end Reading

end Markup

end Stencil
