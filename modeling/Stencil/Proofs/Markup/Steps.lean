import Mathlib.Data.List.Infix
import Mathlib.Logic.Relation
import Stencil.Proofs.Markup.Attributes

/-!
# The steps of reading markup

Whatever the reader of markup finds, it takes a few kinds of steps: it notes an issue, adds a leaf,
passes a start tag that is nested too deep, opens or closes an element, and passes an end tag.  A
step that reads something begins where the step before it has ended.  The whole of a text is read
by such steps, and those at its end close the elements that are still open.

The steps make up moves, each of which takes what was read at once: an issue, a leaf, a start tag or
an end tag.
-/

namespace Stencil.Markup

open Text

/-- The character may stand in the name of a tag. -/
def isNamePart (c : Char) : Bool := !(isBlank c || c == '/' || c == '>')

/-- The span is that of an end tag with the given name in lower case. -/
def IsEndTag (t : Text) (span : Span) (name : Text) : Prop :=
  ∃ c rest, span.text t = '<' :: '/' :: c :: rest ∧ isNameStart c = true
    ∧ name = lower ((c :: rest).takeWhile isNamePart)

/-- A node without nodes in it, as it is read in one piece. -/
inductive IsLeaf (t : Text) : Node → Prop
  | text {span : Span} (h : span.IsPiece t) : IsLeaf t (.text span)
  | comment {span : Span} (h : span.IsPiece t) : IsLeaf t (.comment span)
  | doctype {span : Span} (h : span.IsPiece t) : IsLeaf t (.doctype span)
  | element {span : Span} {name : Text} {attributes : List Attribute} (h : span.IsPiece t)
      (hattributes : Attribute.InOrder t span.start span.stop attributes) :
      IsLeaf t (.element span name span attributes [] none)

/-- A step of the reading, from a builder and an offset to the next ones. -/
inductive Step (t : Text) : Builder × Nat → Builder × Nat → Prop
  | note (b : Builder) (pos : Nat) (i : Issue) : Step t (b, pos) (b.note i, pos)
  | add (b : Builder) {n : Node} (hn : IsLeaf t n) :
      Step t (b, n.span.start) (b.add n, n.span.stop)
  | flatten (b : Builder) {span : Span} {name : Text} {attributes : List Attribute}
      (h : span.IsPiece t) (hattributes : Attribute.InOrder t span.start span.stop attributes)
      (hdepth : openLimit ≤ b.opened.length) (hname : name ∉ voidNames ∧ name ∉ rawNames) :
      Step t (b, span.start)
        ({ b with flattened := name :: b.flattened }.add
          (.element span name span attributes [] none), span.stop)
  | enter (b : Builder) {span : Span} (name : Text) {attributes : List Attribute}
      (h : span.IsPiece t) (hattributes : Attribute.InOrder t span.start span.stop attributes) :
      Step t (b, span.start)
        ({ b with opened := ⟨name, span, attributes, []⟩ :: b.opened }, span.stop)
  | leave (b : Builder) (pos : Nat) : Step t (b, pos) (b.close pos none, pos)
  | finish (b : Builder) {span : Span} {e : Open} {rest : List Open} (h : span.IsPiece t)
      (hend : IsEndTag t span e.name) (hopened : b.opened = e :: rest) :
      Step t (b, span.start) (b.close span.stop (some span), span.stop)
  | forget (b : Builder) (pos : Nat) : Step t (b, pos) ({ b with flattened := [] }, pos)
  | absorb (b : Builder) {span : Span} {name : Text} {rest : List Text} (h : span.IsPiece t)
      (hend : IsEndTag t span name) (hflattened : b.flattened = name :: rest) :
      Step t (b, span.start) ({ b with flattened := rest }, span.stop)
  | pass (b : Builder) {span : Span} {name : Text} (h : span.IsPiece t)
      (hend : IsEndTag t span name) :
      Step t (b, span.start) (b.note ⟨.unexpectedEndTag name, span⟩, span.stop)

/-- A number of steps. -/
abbrev Steps (t : Text) : Builder × Nat → Builder × Nat → Prop := Relation.ReflTransGen (Step t)

variable {t : Text}

/-! ### The steps of a builder -/

theorem steps_noteUnclosed (b : Builder) (pos : Nat) :
  Steps t (b, pos) (b.noteUnclosed, pos)
  := by
  rw [Builder.noteUnclosed]
  split
  · exact .refl
  · split
    · exact .refl
    · exact .single (.note b pos _)

/-- The names of the open elements, the innermost one first. -/
def Builder.names (b : Builder) : List Text := b.opened.map (·.name)

theorem names_noteUnclosed (b : Builder) :
  b.noteUnclosed.names = b.names
  := by
  rw [Builder.noteUnclosed]
  split
  · rfl
  · split
    · rfl
    · rfl

/-- Adding a node opens and closes nothing. -/
theorem names_add (b : Builder) (n : Node) :
  (b.add n).names = b.names
  := by
  rw [Builder.add, Builder.names]
  split
  · next h => rw [Builder.names]
  · next h => simp [Builder.names, h]

theorem names_close (b : Builder) (pos : Nat) (endTag : Option Span) :
  (b.close pos endTag).names = b.names.tail
  := by
  rw [Builder.close]
  split
  · next h => simp [Builder.names, h]
  · next h => rw [names_add, Builder.names, Builder.names, h, List.map_cons, List.tail_cons]

theorem steps_closeUnclosed (b : Builder) (pos n : Nat) :
  Steps t (b, pos) (b.closeUnclosed pos n, pos)
    ∧ (b.closeUnclosed pos n).names = b.names.drop n
  := by
  induction n generalizing b with
  | zero => exact ⟨.refl, rfl⟩
  | succ n ih =>
      obtain ⟨hsteps, hnames⟩ := ih (b.noteUnclosed.close pos none)
      constructor
      · exact ((steps_noteUnclosed b pos).tail (.leave _ pos)).trans hsteps
      · rw [Builder.closeUnclosed, hnames, names_close, names_noteUnclosed, List.drop_tail]

/-- An end tag closes the elements in the innermost element of its name and then this one, unless
it is absorbed or there is no such element. -/
theorem steps_endTag (b : Builder) {span : Span} {name : Text} (h : span.IsPiece t)
    (hend : IsEndTag t span name) :
  Steps t (b, span.start) (b.endTag name span, span.stop)
  := by
  rw [Builder.endTag]
  split
  · next hhead =>
      obtain ⟨rest, hrest⟩ := List.head?_eq_some_iff.mp hhead
      rw [hrest]
      exact .single (.absorb b h hend hrest)
  · dsimp only
    generalize hindex : b.opened.findIdx (·.name = name) = inner
    split
    · next hinner =>
        obtain ⟨hsteps, hnames⟩ :=
          steps_closeUnclosed (t := t) { b with flattened := [] } span.start inner
        have hname : b.opened[inner].name = name := by
          have hfound := List.findIdx_getElem (w := by rw [hindex]; exact hinner)
          simpa [hindex] using hfound
        rw [Builder.names, Builder.names, ← List.map_drop, List.drop_eq_getElem_cons hinner,
          List.map_cons, hname] at hnames
        obtain ⟨e, rest, hopened, rfl, -⟩ := List.map_eq_cons_iff.mp hnames
        exact (hsteps.head (.forget b span.start)).tail (.finish _ h hend hopened)
    · exact .single (.pass b h hend)

/-- A start tag may close an element, and is added as a leaf or opens an element. -/
theorem steps_startTag (b : Builder) {span : Span} (name : Text) {rest : TagRest}
    (h : span.IsPiece t) (hrest : Attribute.InOrder t span.start span.stop rest.attributes) :
  Steps t (b, span.start) ((b.startTag name span rest).1, span.stop)
    ∧ ((b.startTag name span rest).2 = true → name ∈ rawNames)
  := by
  have himplied : Steps t (b, span.start) (b.closeImplied name span.start, span.start) := by
    rw [Builder.closeImplied]
    split
    · split
      · exact .single (.leave b span.start)
      · exact .refl
    · exact .refl
  rw [Builder.startTag]
  dsimp only
  generalize b.closeImplied name span.start = b' at himplied
  split
  · exact ⟨himplied.tail (.add b' (.element h hrest)), by simp⟩
  · next hvoid =>
      split
      · next hdeep =>
          simp only [ge_iff_le, Bool.and_eq_true, decide_eq_true_eq] at hdeep
          simp only [Bool.or_eq_true, decide_eq_true_eq, not_or] at hvoid
          refine ⟨?_, by simp⟩
          split
          · exact (himplied.tail (.note b' _ ⟨.tooDeep, span⟩)).tail
              (.flatten (b'.note ⟨.tooDeep, span⟩) h hrest hdeep.1 ⟨hvoid.2, hdeep.2⟩)
          · exact himplied.tail (.flatten b' h hrest hdeep.1 ⟨hvoid.2, hdeep.2⟩)
      · constructor
        · exact himplied.tail (.enter b' name h hrest)
        · simp

/-! ### Moves -/

/-- The names of the end tags that a text might have. -/
def endNames (t : Text) : List Text :=
  t.tails.filterMap fun
    | '<' :: '/' :: rest => some (lower (rest.takeWhile isNamePart))
    | _ => none

/-- How far the reader has come: what was read, the offset, and the name of the element that is
being read, if it holds nothing but text. -/
structure Stage where
  builder : Builder
  pos : Nat
  raw : Option Text

/-- A move of the reader.  The name of an element that holds nothing but text is a beginning of the
name of the end tag after this text. -/
inductive Move (t : Text) : Stage → Stage → Prop
  | note (b : Builder) (pos : Nat) {i : Issue} (hi : i.problem ≠ .tooDeep) :
      Move t ⟨b, pos, none⟩ ⟨b.note i, pos, none⟩
  | add (b : Builder) {n : Node} (hn : IsLeaf t n) :
      Move t ⟨b, n.span.start, none⟩ ⟨b.add n, n.span.stop, none⟩
  | text (b : Builder) (raw : Text) {span : Span} (h : span.IsPiece t) :
      Move t ⟨b, span.start, some raw⟩ ⟨b.add (.text span), span.stop, some raw⟩
  | startTag (b : Builder) {span : Span} (name : Text) {rest : TagRest} (h : span.IsPiece t)
      (hrest : Attribute.InOrder t span.start span.stop rest.attributes) :
      Move t ⟨b, span.start, none⟩
        ⟨(b.startTag name span rest).1, span.stop,
          if (b.startTag name span rest).2 then some name else none⟩
  | endTag (b : Builder) (raw : Option Text) {span : Span} {name : Text} (h : span.IsPiece t)
      (hend : IsEndTag t span name) (hname : name ∈ endNames t) (hraw : ∀ r ∈ raw, r <+: name) :
      Move t ⟨b, span.start, raw⟩ ⟨b.endTag name span, span.stop, none⟩

/-- A number of moves. -/
abbrev Moves (t : Text) : Stage → Stage → Prop := Relation.ReflTransGen (Move t)

/-- A move is made up of steps. -/
theorem Move.steps {s s' : Stage} (h : Move t s s') :
  Steps t (s.builder, s.pos) (s'.builder, s'.pos)
  := by
  cases h with
  | note b pos => exact .single (.note b pos _)
  | add b hn => exact .single (.add b hn)
  | text b raw h => exact .single (.add b (.text h))
  | startTag b name h hrest => exact (steps_startTag b name h hrest).1
  | endTag b raw h hend => exact steps_endTag b h hend

theorem Moves.steps {s s' : Stage} (h : Moves t s s') :
  Steps t (s.builder, s.pos) (s'.builder, s'.pos)
  := by
  induction h with
  | refl => exact .refl
  | tail _ hmove ih => exact ih.trans hmove.steps

theorem moves_noteAll (b : Builder) (pos : Nat) {issues : List Issue}
    (h : ∀ i ∈ issues, i.problem ≠ .tooDeep) :
  Moves t ⟨b, pos, none⟩ ⟨b.noteAll issues, pos, none⟩
  := by
  induction issues generalizing b with
  | nil => exact .refl
  | cons i issues ih =>
      rw [List.forall_mem_cons] at h
      exact .head (.note b pos h.1) (ih (b.note i) h.2)

/-! ### Reading tags -/

variable {p : Place}

/-- A text that begins a tag begins its name. -/
theorem isNamePart_of_isNameStart {c : Char} (h : isNameStart c = true) :
  isNamePart c = true
  := by
  unfold isNameStart Char.isAlpha Char.isUpper Char.isLower at h
  simp only [Bool.or_eq_true, Bool.and_eq_true, decide_eq_true_eq, UInt32.le_iff_toNat_le,
    ge_iff_le] at h
  simp only [isNamePart, isBlank, Char.le_def, Bool.not_eq_true', Bool.or_eq_false_iff,
    Bool.and_eq_false_iff, beq_eq_false_iff_ne, ne_eq, Char.ext_iff, decide_eq_false_iff_not,
    UInt32.le_iff_toNat_le, ← UInt32.toNat_inj]
  simp at h ⊢
  omega

theorem textTo_nameEnd (p : Place) :
  p.textTo (nameEnd p) = p.rest.takeWhile isNamePart
  := by
  have hprefix : p.rest.takeWhile isNamePart <+: p.rest := List.takeWhile_prefix _
  exact (Place.textTo_skip hprefix.length_le).trans (List.prefix_iff_eq_take.mp hprefix).symm

/-- The name of a tag is the same in any text that follows it up to a later place. -/
theorem takeWhile_append_of_nameEnd {mid back : Text} (h : (nameEnd p).rest = mid ++ back) :
  (p.rest.takeWhile isNamePart ++ mid).takeWhile isNamePart = p.rest.takeWhile isNamePart
  := by
  have hrest : (nameEnd p).rest = p.rest.dropWhile isNamePart := p.rest_skipWhile isNamePart
  have hnone : mid.takeWhile isNamePart = [] := by
    cases mid with
    | nil => rfl
    | cons d mid =>
        have hstops := List.head?_dropWhile_not isNamePart p.rest
        rw [← hrest, h] at hstops
        exact List.takeWhile_cons_of_neg (by simpa using hstops)
  rw [List.takeWhile_append_of_pos (List.all_eq_true.mp List.all_takeWhile), hnone,
    List.append_nil]

/-- A reading goes on from a place by moves.  Nothing but the end of the text is missing where it
ends in an element that holds nothing but text. -/
structure Reads (t : Text) (b : Builder) (raw : Option Text) (p : Place)
    (result : Builder × Place) : Prop where
  moves : ∃ raw', Moves t ⟨b, p.offset, raw⟩ ⟨result.1, result.2.offset, raw'⟩
    ∧ (raw' = none ∨ result.2.rest = [])
  before : p.Before result.2
  forward : p.offset < result.2.offset

theorem reads_endTag (b : Builder) (raw : Option Text) (hp : p.In t) {c : Char} {rest : Text}
    (hrest : p.rest = '<' :: '/' :: c :: rest) (hc : isNameStart c = true)
    (hraw : ∀ r ∈ raw, r <+: lower ((c :: rest).takeWhile isNamePart)) :
  Reads t b raw p (readEndTag b p)
  := by
  have hstart := p.before_skip 2
  have hname := (p.skip 2).before_nameEnd
  have hstop := (nameEnd (p.skip 2)).before_tagEnd
  have hall := hstart.trans (hname.trans hstop)
  have hlt : p.offset < (tagEnd (nameEnd (p.skip 2))).offset := by
    have hforward : p.offset < (p.skip 2).offset :=
      Place.offset_lt_skip (by simp [hrest]) Nat.two_pos
    exact Nat.lt_of_lt_of_le hforward (hname.trans hstop).offset_le
  have hletters : (p.skip 2).rest = c :: rest := by simp [Place.skip, hrest]
  have hnamed : lower ((p.skip 2).textTo (nameEnd (p.skip 2))) ∈ endNames t := by
    obtain ⟨front, ht, -⟩ := hp.exists_eq_append
    apply List.mem_filterMap.mpr
    use p.rest, (List.mem_tails _ _).mpr ⟨front, ht.symm⟩
    rw [hrest, textTo_nameEnd, hletters]
    rfl
  refine ⟨⟨none, .single (.endTag b raw ⟨hlt, hp.onBoundaries hall⟩ ?_ hnamed ?_), Or.inl rfl⟩,
    hall, hlt⟩
  rotate_left
  · rw [textTo_nameEnd, hletters]
    exact hraw
  -- the text of the tag is its mark, its name and what follows up to its end
  obtain ⟨mid, hmid, hoffset⟩ := hall
  obtain ⟨back, hback, -⟩ := hstop
  have hword : (c :: rest).takeWhile isNamePart = c :: rest.takeWhile isNamePart :=
    List.takeWhile_cons_of_pos (isNamePart_of_isNameStart hc)
  have hcut : c :: rest = (c :: rest).takeWhile isNamePart ++ (nameEnd (p.skip 2)).rest := by
    rw [nameEnd, Place.rest_skipWhile, hletters]
    exact List.takeWhile_append_dropWhile.symm
  have htext : mid = '<' :: '/' :: c :: (rest.takeWhile isNamePart ++ back) := by
    apply (List.append_left_inj (tagEnd (nameEnd (p.skip 2))).rest).mp
    rw [← hmid, hrest, hcut, hback, hword]
    simp
  use c, rest.takeWhile isNamePart ++ back
  refine ⟨?_, hc, ?_⟩
  · rw [hp.text_spanTo hmid hoffset, htext]
  · rw [textTo_nameEnd, ← List.cons_append, ← hword, ← hletters,
      takeWhile_append_of_nameEnd hback]

/-! ### Text in an element that holds nothing else -/

/-- A text stands where its first occurrence is found. -/
theorem isPrefix_of_charsBefore? {needle s : Text} {n : Nat}
    (h : charsBefore? needle s = some n) :
  needle <+: s.drop n
  := by
  induction s generalizing n with
  | nil => cases h
  | cons c s ih =>
      rw [charsBefore?] at h
      split at h
      · next hprefix =>
          obtain rfl := Option.some.inj h
          exact List.isPrefixOf_iff_prefix.mp hprefix
      · obtain ⟨m, hm, rfl⟩ := Option.map_eq_some_iff.mp h
        exact ih hm

/-- A character that is the lower case of another one, but no lower case letter, is this one. -/
theorem eq_of_toLower_eq {c d : Char} (h : c.toLower = d) (hd : d.isLower = false) :
  c = d
  := by
  unfold Char.toLower at h
  unfold Char.isLower at hd
  split at h
  · next hupper =>
      have hval : d.val.toNat = (c.val.toNat + 32) % 2 ^ 32 := by
        rw [← h]
        apply UInt32.toNat_add
      have hA : 'A'.val.toNat = 65 := rfl
      have hZ : 'Z'.val.toNat = 90 := rfl
      have ha : 'a'.val.toNat = 97 := rfl
      have hz : 'z'.val.toNat = 122 := rfl
      simp only [ge_iff_le, UInt32.le_iff_toNat_le, Bool.and_eq_false_iff,
        decide_eq_false_iff_not] at hupper hd
      omega
  · exact h

theorem isNameStart_of_toLower {c : Char} (h : isNameStart c.toLower = true) :
  isNameStart c = true
  := by
  unfold Char.toLower at h
  split at h
  · next hupper =>
      have hletter : c.isUpper = true := by
        unfold Char.isUpper
        simpa using hupper
      unfold isNameStart Char.isAlpha
      rw [hletter, Bool.true_or]
  · exact h

/-- The letters at the beginning of a text are those at the beginning of the name there. -/
theorem isPrefix_lower_takeWhile {name s : Text} (hname : ∀ c ∈ name, isNameStart c = true)
    (h : name <+: lower s) :
  name <+: lower (s.takeWhile isNamePart)
  := by
  induction name generalizing s with
  | nil => exact List.nil_prefix
  | cons d name ih =>
      rw [List.forall_mem_cons] at hname
      obtain ⟨back, hback⟩ := h
      obtain ⟨c, s', rfl, rfl, hs⟩ := List.map_eq_cons_iff.mp hback.symm
      have hpart := isNamePart_of_isNameStart (isNameStart_of_toLower hname.1)
      rw [List.takeWhile_cons_of_pos hpart, lower, List.map_cons, List.cons_prefix_cons]
      exact ⟨rfl, ih hname.2 ⟨back, hs.symm⟩⟩

/-- Where the text in an element ends before the end of the text, an end tag begins, and the name
of the element is at the beginning of its name. -/
theorem exists_rest_rawEnd {name : Text} (hname : name ∈ rawNames)
    (h : (rawEnd name p).rest ≠ []) :
  ∃ c rest, (rawEnd name p).rest = '<' :: '/' :: c :: rest ∧ isNameStart c = true
    ∧ name <+: lower ((c :: rest).takeWhile isNamePart)
  := by
  have hall : (rawNames.all fun name => name.all isNameStart) = true := by decide
  have hletters : ∀ name ∈ rawNames, ∀ c ∈ name, isNameStart c = true := fun name hname =>
    List.all_eq_true.mp (List.all_eq_true.mp hall name hname)
  have hletter : ∀ name ∈ rawNames, beginsName name = true := by decide
  obtain ⟨d, name, rfl⟩ := List.exists_cons_of_ne_nil (l := name) (by
    rintro rfl
    exact absurd (hletter _ hname) (by decide))
  unfold rawEnd at h ⊢
  split
  · next n hfound =>
      obtain ⟨back, hback⟩ := isPrefix_of_charsBefore? hfound
      rw [lower, ← List.map_drop] at hback
      change ∃ c rest, p.rest.drop n = _ ∧ _ ∧ _
      obtain ⟨c₁, s₁, hs, hc₁, hs₁⟩ := List.map_eq_cons_iff.mp hback.symm
      obtain ⟨c₂, s₂, rfl, hc₂, hs₂⟩ := List.map_eq_cons_iff.mp hs₁
      obtain ⟨c₃, s₃, rfl, hc₃, hs₃⟩ := List.map_eq_cons_iff.mp hs₂
      rw [hs, eq_of_toLower_eq hc₁ (by decide), eq_of_toLower_eq hc₂ (by decide)]
      have hstart : isNameStart c₃.toLower = true := by
        rw [hc₃]
        exact hletter _ hname
      refine ⟨c₃, s₃, rfl, isNameStart_of_toLower hstart, ?_⟩
      exact isPrefix_lower_takeWhile (hletters _ hname) ⟨back, hs₂.symm⟩
  · next hnone =>
      rw [hnone] at h
      exact absurd p.rest_finish h

/-- Reading the text in an element and its end tag, which may both be missing. -/
theorem moves_readRaw (b : Builder) (hp : p.In t) {name : Text} (hname : name ∈ rawNames) :
  (∃ raw', Moves t ⟨b, p.offset, some name⟩
      ⟨(readRaw b name p).1, (readRaw b name p).2.offset, raw'⟩
    ∧ (raw' = none ∨ (readRaw b name p).2.rest = []))
    ∧ p.Before (readRaw b name p).2
  := by
  have hstop := p.before_rawEnd name
  have hraw := exists_rest_rawEnd (p := p) hname
  unfold readRaw
  generalize rawEnd name p = stop at hstop hraw
  have htext : Moves t ⟨b, p.offset, some name⟩
      ⟨if stop.offset > p.offset then b.add (.text (p.spanTo stop)) else b, stop.offset,
        some name⟩ := by
    split
    · next hlt => exact .single (.text b name ⟨hlt, hp.onBoundaries hstop⟩)
    · next hle =>
        have := hstop.offset_le
        rw [show stop.offset = p.offset by omega]
  dsimp only
  split
  · next hend => exact ⟨⟨some name, htext, Or.inr (by simpa using hend)⟩, hstop⟩
  · next hmore =>
      obtain ⟨c, rest, hrest, hc, hbegin⟩ := hraw (by simpa using hmore)
      have hend := reads_endTag
        (if stop.offset > p.offset then b.add (.text (p.spanTo stop)) else b) (some name)
        (hp.before hstop) hrest hc (by simpa using hbegin)
      obtain ⟨raw', hmoves, hraw'⟩ := hend.moves
      exact ⟨⟨raw', htext.trans hmoves, hraw'⟩, hstop.trans hend.before⟩

/-- The issues of a start tag are not about its depth. -/
theorem problem_readTagRest {missing : Issue} (hmissing : missing.problem ≠ .tooDeep)
    (budget : Text) (p : Place) :
  ∀ i ∈ (readTagRest missing budget p).issues, i.problem ≠ .tooDeep
  := by
  induction budget generalizing p with
  | nil => simpa [readTagRest] using hmissing
  | cons c budget ih =>
      have hvalue (q : Place) : ∀ i ∈ (readValue q).issues, i.problem ≠ .tooDeep := by
        unfold readValue
        grind
      have hattribute (q : Place) : ∀ i ∈ (readAttribute q).issues, i.problem ≠ .tooDeep := by
        unfold readAttribute
        grind
      unfold readTagRest
      dsimp only
      split
      · simp
      · simp
      · next hbudget _ =>
          obtain ⟨-, rfl⟩ := List.cons_eq_cons.mp hbudget
          exact ih _
      · next hbudget _ =>
          obtain ⟨-, rfl⟩ := List.cons_eq_cons.mp hbudget
          exact List.forall_mem_append.mpr ⟨hattribute _, ih _⟩
      · simpa using hmissing

theorem reads_startTag (b : Builder) (hp : p.In t) (hrest : p.rest ≠ []) :
  Reads t b none p (readStartTag b p)
  := by
  have hname := (p.before_skip 1).trans (p.skip 1).before_nameEnd
  have hforward : p.offset < (nameEnd (p.skip 1)).offset :=
    Nat.lt_of_lt_of_le (Place.offset_lt_skip hrest Nat.one_pos) (p.skip 1).before_nameEnd.offset_le
  unfold readStartTag
  dsimp only
  generalize lower ((p.skip 1).textTo (nameEnd (p.skip 1))) = name
  have hmissing : (⟨.unterminatedStartTag name, p.spanTo p.finish⟩ : Issue).problem ≠ .tooDeep :=
    by simp
  generalize (⟨.unterminatedStartTag name, p.spanTo p.finish⟩ : Issue) = missing at hmissing
  obtain ⟨hnext, horder⟩ :=
    readTagRest_inOrder missing (' ' :: (nameEnd (p.skip 1)).rest) (hp.before hname)
  have hissues := problem_readTagRest hmissing (' ' :: (nameEnd (p.skip 1)).rest)
    (nameEnd (p.skip 1))
  generalize readTagRest missing (' ' :: (nameEnd (p.skip 1)).rest) (nameEnd (p.skip 1)) = r
    at hnext horder hissues
  have hall := hname.trans hnext
  have hlt : p.offset < r.next.offset := Nat.lt_of_lt_of_le hforward hnext.offset_le
  have hpiece : (p.spanTo r.next).IsPiece t := ⟨hlt, hp.onBoundaries hall⟩
  have hinside : Attribute.InOrder t p.offset r.next.offset r.value.attributes :=
    ⟨horder.spans.mono hname.offset_le (Nat.le_refl _), horder.placed⟩
  have hraw := (steps_startTag (b.noteAll r.issues) name hpiece hinside).2
  have htag := (moves_noteAll (t := t) b p.offset hissues).tail
    (.startTag (b.noteAll r.issues) name hpiece hinside)
  split
  · next hisRaw =>
      rw [if_pos hisRaw] at htag
      obtain ⟨⟨raw', hmoves, hraw'⟩, hbefore⟩ := moves_readRaw
        ((b.noteAll r.issues).startTag name (p.spanTo r.next) r.value).1 (hp.before hall)
        (hraw hisRaw)
      exact ⟨⟨raw', htag.trans hmoves, hraw'⟩, hall.trans hbefore,
        Nat.lt_of_lt_of_le hlt hbefore.offset_le⟩
  · next hisMarkup =>
      rw [if_neg hisMarkup] at htag
      exact ⟨⟨none, htag, Or.inl rfl⟩, hall, hlt⟩

/-! ### Reading a text -/

/-- Reading a leaf up to a later place. -/
theorem reads_leaf (b : Builder) (hp : p.In t) {q : Place} (hq : p.Before q)
    (hlt : p.offset < q.offset) {n : Node} (hspan : n.span = p.spanTo q)
    (hn : (p.spanTo q).IsPiece t → IsLeaf t n) :
  Reads t b none p (b.add n, q)
  := by
  have hmove := Move.add b (hn ⟨hlt, hp.onBoundaries hq⟩)
  rw [hspan] at hmove
  exact ⟨⟨none, .single hmove, Or.inl rfl⟩, hq, hlt⟩

theorem reads_comment (b : Builder) (hp : p.In t) (hrest : p.rest ≠ []) :
  Reads t b none p (readComment b p)
  := by
  have hopening := p.before_skip 4
  have hlt := Place.offset_lt_skip hrest (show 0 < 4 by decide)
  unfold readComment
  split
  · next stop hstop =>
      have hclosing := Place.before_of_after? hstop
      exact reads_leaf b hp (hopening.trans hclosing) (Nat.lt_of_lt_of_le hlt hclosing.offset_le)
        rfl .comment
  · dsimp only
    have hall := reads_leaf (n := .comment (p.spanTo p.finish))
      (b.note ⟨.unterminatedComment, p.spanTo p.finish⟩) hp p.before_finish
      (Place.offset_lt_skip hrest (List.length_pos_iff.mpr hrest)) rfl .comment
    obtain ⟨raw', hmoves, hraw'⟩ := hall.moves
    exact ⟨⟨raw', hmoves.head (.note b p.offset (by simp)), hraw'⟩, hall.before, hall.forward⟩

/-- Each piece of a text is read by moves. -/
theorem reads_piece (b : Builder) (hp : p.In t) (hrest : p.rest ≠ []) :
  Reads t b none p (readPiece b p)
  := by
  have hdeclaration : Reads t b none p (b.add (.doctype (p.spanTo (tagEnd p))), tagEnd p) :=
    reads_leaf b hp p.before_tagEnd (Place.offset_lt_tagEnd hrest) rfl .doctype
  have htext (n : Nat) :
      Reads t b none p (b.add (.text (p.spanTo (p.skip (n + 1)))), p.skip (n + 1)) :=
    reads_leaf b hp (p.before_skip _) (Place.offset_lt_skip hrest n.succ_pos) rfl .text
  unfold readPiece
  split
  · exact reads_comment b hp hrest
  · exact hdeclaration
  · exact hdeclaration
  · next hshape =>
      split
      · next hc => exact reads_endTag b none hp hshape hc (by simp)
      · exact htext _
  · split
    · exact reads_startTag b hp hrest
    · exact htext _
  · exact htext _
  · next hnil => exact absurd hnil hrest

theorem readPieces_of_rest_eq_nil (budget : Text) (b : Builder) (hp : p.rest = []) :
  readPieces budget b p = (b, p)
  := by
  unfold readPieces
  split
  · next hrest =>
      rw [hp] at hrest
      cases hrest
  · rfl

/-- The rest of a text is read by moves. -/
theorem moves_readPieces (budget : Text) (b : Builder) (hp : p.In t)
    (hbudget : p.rest.length ≤ budget.length) :
  (∃ raw, Moves t ⟨b, p.offset, none⟩ ⟨(readPieces budget b p).1, width t, raw⟩)
    ∧ (readPieces budget b p).2.offset = width t
  := by
  induction budget generalizing b p with
  | nil =>
      have hnil := List.eq_nil_of_length_eq_zero (Nat.le_zero.mp hbudget)
      have hend := hp.offset_eq_width hnil
      rw [readPieces_of_rest_eq_nil _ _ hnil]
      exact ⟨⟨none, hend ▸ .refl⟩, hend⟩
  | cons c budget ih =>
      unfold readPieces
      split
      · next hcons hrest =>
          obtain ⟨-, rfl⟩ := List.cons_eq_cons.mp hcons
          have hread := reads_piece b hp (by rw [hrest]; apply List.cons_ne_nil)
          have hshorter := hread.before.length_lt hread.forward
          have hp' := hp.before hread.before
          rw [List.length_cons] at hbudget
          dsimp only
          obtain ⟨raw, hmoves, rfl | hnil⟩ := hread.moves
          · obtain ⟨⟨raw, hmoves'⟩, hend⟩ := ih (readPiece b p).1 hp' (by omega)
            exact ⟨⟨raw, hmoves.trans hmoves'⟩, hend⟩
          · have hend := hp'.offset_eq_width hnil
            rw [readPieces_of_rest_eq_nil _ _ hnil, ← hend]
            exact ⟨⟨raw, hmoves⟩, rfl⟩
      · next hnone =>
          have hnil : p.rest = [] := by
            by_contra hne
            obtain ⟨d, rest, hrest⟩ := List.exists_cons_of_ne_nil hne
            exact hnone _ _ _ _ rfl hrest
          have hend := hp.offset_eq_width hnil
          exact ⟨⟨none, hend ▸ .refl⟩, hend⟩

/-- A document is what is left by moves that read its whole text when the elements that are still
open are closed. -/
theorem exists_moves_ofText (t : Text) :
  ∃ b raw, Moves t ⟨{}, 0, none⟩ ⟨b, width t, raw⟩
    ∧ Document.ofText t
      = ⟨width t, (b.closeUnclosed (width t) b.opened.length).top.reverse,
        (b.closeUnclosed (width t) b.opened.length).issues.reverse⟩
  := by
  obtain ⟨⟨raw, hmoves⟩, hend⟩ := moves_readPieces t {} (Place.in_start t) (Nat.le_refl _)
  refine ⟨_, raw, hmoves, ?_⟩
  dsimp only [Document.ofText]
  rw [hend]

/-- A document is what is left by steps that read its whole text and leave no element open. -/
theorem exists_steps_ofText (t : Text) :
  ∃ b : Builder, Steps t ({}, 0) (b, width t) ∧ b.opened = []
    ∧ Document.ofText t = ⟨width t, b.top.reverse, b.issues.reverse⟩
  := by
  obtain ⟨b, raw, hmoves, hdocument⟩ := exists_moves_ofText t
  obtain ⟨hclose, hnames⟩ := steps_closeUnclosed (t := t) b (width t) b.opened.length
  refine ⟨_, hmoves.steps.trans hclose, ?_, hdocument⟩
  rw [Builder.names, Builder.names, ← List.map_drop, List.drop_length, List.map_nil] at hnames
  exact List.map_eq_nil_iff.mp hnames

end Stencil.Markup
