import Stencil.Proofs.Markup.Depth
import Stencil.Proofs.Markup.Geometry
import Stencil.Proofs.Markup.Inner

/-!
# The reading of an element

If nothing in a text is nested too deep, every element of its document was read from within: from
its start tag on, by the text that follows, where nothing but the kind of the content around it was
known.  So elements with the same span and the same text are the same, in one document or in two, if
they agree on whether they stand in foreign content.
-/

namespace Stencil.Markup

open Text

/-- The node stands in one of the nodes or is one of them, and the content around it is foreign or
not, where that around the nodes is foreign or not. -/
inductive Node.Stands (n : Node) (foreign : Bool) : Bool → List Node → Prop
  | here {nodes : List Node} (h : n ∈ nodes) : Stands n foreign foreign nodes
  | inside {outer : Bool} {nodes children : List Node} {span startTag : Span} {name : Text}
      {attributes : List Attribute} {endTag : Option Span}
      (h : .element span name startTag attributes children endTag ∈ nodes)
      (hchildren : Stands n foreign (outer || name ∈ foreignNames) children) :
      Stands n foreign outer nodes

/-- The element is read from a place on, where the content around it is foreign or not. -/
inductive ReadFrom (foreign : Bool) (p : Place) : Node → Prop
  | leaf {name : Text} {span : Span} {rest : TagRest}
      (htoken : (readToken p).value = .startTag name span rest)
      (hitself : closesItself foreign name rest = true) :
      ReadFrom foreign p (.element span name span rest.attributes [] none)
  | opened {name : Text} {span : Span} {rest : TagRest} {n : Node}
      (htoken : (readToken p).value = .startTag name span rest)
      (hitself : closesItself foreign name rest = false)
      (h : Inner.Yields foreign ⟨[⟨name, span, rest.attributes, []⟩], (readToken p).next,
        textOnly? name⟩ n) : ReadFrom foreign p n

/-- The element is read at some place of a text. -/
def Reading (t : Text) (foreign : Bool) (n : Node) : Prop :=
  ∃ p : Place, p.In t ∧ ReadFrom foreign p n

variable {t t' : Text} {foreign foreign' : Bool} {n n' : Node} {p q : Place}

/-! ### The same reading -/

theorem eq_spanTo_of_startTag {name : Text} {span : Span} {rest : TagRest}
    (h : (readToken p).value = .startTag name span rest) :
  span = p.spanTo (readToken p).next
  := by
  have hkind := readToken_of_value_startTag h
  rw [hkind] at h ⊢
  exact (Token.startTag.inj h).2.1.symm

theorem eq_spanTo_of_endTag {name : Text} {span : Span}
    (h : (readToken p).value = .endTag name span) :
  span = p.spanTo (readToken p).next
  := by
  rcases readToken_kinds p with hkind | hkind | hkind | hkind | hkind
  · rw [hkind, commentToken] at h
    split at h
    · cases h
    · cases h
  · rw [hkind] at h
    cases h
  · rw [hkind] at h ⊢
    exact (Token.endTag.inj h).2.symm
  · rw [hkind] at h
    cases h
  · rw [hkind] at h
    cases h

theorem isElement_of_leaf (h : (readToken p).value = .leaf n) :
  n.isElement = false
  := by
  rcases readToken_kinds p with hkind | hkind | hkind | hkind | hkind
  · rw [hkind, commentToken] at h
    split at h
    · rw [← Token.leaf.inj h]
      rfl
    · rw [← Token.leaf.inj h]
      rfl
  · rw [hkind] at h
    rw [← Token.leaf.inj h]
    rfl
  · rw [hkind] at h
    cases h
  · rw [hkind] at h
    cases h
  · rw [hkind] at h
    rw [← Token.leaf.inj h]
    rfl

theorem beginsMarkup_of_startTag {name : Text} {span : Span} {rest : TagRest}
    (h : (readToken p).value = .startTag name span rest) :
  beginsMarkup p.rest = true
  := by
  by_contra hnone
  rw [readToken_of_text (by simpa using hnone)] at h
  cases h

/-- An element begins where it is read from, with its start tag. -/
theorem ReadFrom.extent (h : ReadFrom foreign p n) :
  n.span.start = p.offset ∧ (readToken p).next.offset ≤ n.span.stop
    ∧ beginsMarkup p.rest = true
  := by
  cases h with
  | leaf htoken _ =>
      rw [eq_spanTo_of_startTag htoken]
      exact ⟨rfl, Nat.le_refl _, beginsMarkup_of_startTag htoken⟩
  | opened htoken _ h =>
      have hstart := h.start_eq rfl
      rw [eq_spanTo_of_startTag htoken] at hstart
      exact ⟨hstart, h.offset_le, beginsMarkup_of_startTag htoken⟩

/-- The token at the beginning of an element is the same although the text goes on. -/
theorem ReadFrom.extends_token {more : Text} (h : ReadFrom foreign (q.extend more) n)
    (hstop : n.span.stop = q.offset + width q.rest) :
  (readToken q).Extends more (readToken (q.extend more))
  := by
  obtain ⟨-, htoken, hmarkup⟩ := h.extent
  rw [hstop] at htoken
  exact (extends_markup hmarkup (length_le_of_offset_le (before_readToken _) htoken)).2

/-- Two elements are the same if they are read from the same place on up to the end of the same
text, and the kind of the content around them does not matter. -/
theorem ReadFrom.eq {more more' : Text} (h : ReadFrom foreign (q.extend more) n)
    (h' : ReadFrom foreign' (q.extend more') n') (halike : Alike foreign foreign' q.rest)
    (hstop : n.span.stop = q.offset + width q.rest)
    (hstop' : n'.span.stop = q.offset + width q.rest) :
  n = n'
  := by
  have hsame := h.extends_token hstop
  have hsame' := h'.extends_token hstop'
  have hvalue := hsame.value.trans hsame'.value.symm
  have hbefore := before_readToken q
  have hoffset := hbefore.offset_add_width
  have hkind {name : Text} {span : Span} {rest : TagRest}
      (h : (readToken (q.extend more)).value = .startTag name span rest) :
      closesItself foreign name rest = closesItself foreign' name rest :=
    closesItself_of_alike halike (hsame.value.symm.trans h)
  cases h with
  | leaf htoken hitself =>
      cases h' with
      | leaf htoken' _ =>
          obtain ⟨rfl, rfl, rfl⟩ := Token.startTag.inj (htoken.symm.trans (hvalue.trans htoken'))
          rfl
      | opened htoken' hitself' _ =>
          obtain ⟨rfl, rfl, rfl⟩ := Token.startTag.inj (htoken.symm.trans (hvalue.trans htoken'))
          rw [hkind htoken, hitself'] at hitself
          cases hitself
  | opened htoken hitself h =>
      cases h' with
      | leaf htoken' hitself' =>
          obtain ⟨rfl, rfl, rfl⟩ := Token.startTag.inj (htoken.symm.trans (hvalue.trans htoken'))
          rw [hkind htoken, hitself'] at hitself
          cases hitself
      | @opened name _ rest _ htoken' _ h' =>
          obtain ⟨rfl, rfl, rfl⟩ := Token.startTag.inj (htoken.symm.trans (hvalue.trans htoken'))
          rw [hsame.next] at h
          rw [hsame'.next] at h'
          refine Inner.Yields.eq (s := ⟨_, (readToken q).next, _⟩) ?_ h h' (halike.before hbefore)
            (hstop.trans hoffset.symm) (hstop'.trans hoffset.symm)
          exact fun raw hraw => mem_rawNames_of_textOnly? hraw

/-- At the beginning of a span, its text comes first. -/
theorem Place.In.eq_extend (hp : p.In t) {span : Span} (hspan : span.IsPiece t)
    (hstart : span.start = p.offset) :
  p = Place.extend ⟨span.text t, span.start⟩ (onward span.stop t)
  := by
  obtain ⟨hnonempty, hfirst, hlast⟩ := hspan
  obtain ⟨front, hrest, hoffset⟩ := hp.exists_eq_append
  have honward : onward span.start t = p.rest := by
    rw [hstart, hoffset, hrest]
    exact onward_append front p.rest
  have hcut := slice_append_onward hfirst hlast (Nat.le_of_lt hnonempty)
  rw [honward] at hcut
  obtain ⟨rest, offset⟩ := p
  rw [Place.extend, Span.text, hcut, hstart]

/-- Elements with the same span and the same text are the same, if the kind of the content around
them does not matter. -/
theorem Reading.eq (h : Reading t foreign n) (h' : Reading t' foreign' n')
    (hpiece : n.span.IsPiece t) (hpiece' : n'.span.IsPiece t') (hspan : n.span = n'.span)
    (htext : n.span.text t = n'.span.text t') (halike : Alike foreign foreign' (n.span.text t)) :
  n = n'
  := by
  obtain ⟨p, hp, h⟩ := h
  obtain ⟨p', hp', h'⟩ := h'
  have hplace := hp.eq_extend hpiece h.extent.1
  have hplace' := hp'.eq_extend hpiece' h'.extent.1
  rw [← htext, ← hspan] at hplace'
  rw [hplace] at h
  rw [hplace'] at h'
  have hwidth := width_slice hpiece.onBoundaries.1 hpiece.onBoundaries.2
    (Nat.le_of_lt hpiece.nonempty)
  have hstop : n.span.stop = n.span.start + width (n.span.text t) := by
    rw [Span.text, hwidth]
    have := hpiece.nonempty
    omega
  apply h.eq h' halike hstop
  rw [← hspan]
  exact hstop

/-! ### Nodes that were read -/

theorem Node.Stands.mono {outer : Bool} {nodes nodes' : List Node}
    (h : n.Stands foreign outer nodes) (hsubset : nodes ⊆ nodes') :
  n.Stands foreign outer nodes'
  := by
  cases h with
  | here h => exact .here (hsubset h)
  | inside h hchildren => exact .inside (hsubset h) hchildren

/-- Every element that stands in the nodes is read in the text. -/
def AllRead (t : Text) (outer : Bool) (nodes : List Node) : Prop :=
  ∀ n foreign, n.Stands foreign outer nodes → n.isElement = true → Reading t foreign n

section AllRead

variable {outer : Bool} {nodes nodes' : List Node}

theorem allRead_nil (t : Text) (outer : Bool) :
  AllRead t outer []
  := by
  intro n foreign h
  cases h with
  | here h => cases h
  | inside h => cases h

theorem AllRead.mono (h : AllRead t outer nodes') (hsubset : nodes ⊆ nodes') :
  AllRead t outer nodes
  := fun n foreign hn => h n foreign (hn.mono hsubset)

theorem AllRead.cons (h : AllRead t outer [n]) (h' : AllRead t outer nodes) :
  AllRead t outer (n :: nodes)
  := by
  intro m foreign hm
  cases hm with
  | here hm =>
      rcases List.mem_cons.mp hm with rfl | hm
      · exact h m _ (.here (List.mem_singleton_self m))
      · exact h' m _ (.here hm)
  | inside hmem hchildren =>
      rcases List.mem_cons.mp hmem with rfl | hmem
      · exact h m _ (.inside (List.mem_singleton_self _) hchildren)
      · exact h' m _ (.inside hmem hchildren)

theorem allRead_leaf (hn : n.isElement = false) :
  AllRead t outer [n]
  := by
  intro m foreign hm helement
  cases hm with
  | here hm =>
      obtain rfl := List.mem_singleton.mp hm
      rw [hn] at helement
      cases helement
  | inside hmem _ =>
      rw [← List.mem_singleton.mp hmem] at hn
      cases hn

theorem allRead_element {span startTag : Span} {name : Text} {attributes : List Attribute}
    {endTag : Option Span}
    (h : Reading t outer (.element span name startTag attributes nodes endTag))
    (hchildren : AllRead t (outer || name ∈ foreignNames) nodes) :
  AllRead t outer [.element span name startTag attributes nodes endTag]
  := by
  intro m foreign hm helement
  cases hm with
  | here hm =>
      obtain rfl := List.mem_singleton.mp hm
      exact h
  | inside hmem hinside =>
      obtain ⟨rfl, rfl, rfl, rfl, rfl, rfl⟩ := Node.element.inj (List.mem_singleton.mp hmem)
      exact hchildren m foreign hinside helement

end AllRead

/-- Every element in the open elements is read in the text. -/
def OpenedRead (t : Text) : List Open → Prop
  | [] => True
  | e :: rest => AllRead t (inForeign rest || e.name ∈ foreignNames) e.children ∧ OpenedRead t rest

/-- Every element so far, apart from the open ones, is read in the text. -/
structure Builder.HasReadings (t : Text) (b : Builder) : Prop where
  top : AllRead t false b.top
  opened : OpenedRead t b.opened

/-- What becomes of open elements that end at the offset is read in the text. -/
def Builder.Promises (t : Text) (b : Builder) (stop : Nat) : Prop :=
  ∀ inner outer n, b.opened = inner ++ outer → closedAt stop inner = some n →
    Reading t (inForeign outer) n

theorem inForeign_cons (e : Open) (rest : List Open) :
  inForeign (e :: rest) = (inForeign rest || e.name ∈ foreignNames)
  := Bool.or_comm _ _

section Builder

variable {b : Builder} {stop : Nat}

namespace Builder.HasReadings

theorem add (h : b.HasReadings t) (hn : AllRead t (inForeign b.opened) [n]) :
  (b.add n).HasReadings t
  := by
  obtain ⟨htop, hopened⟩ := h
  rw [Builder.add]
  split
  · next hnil =>
      rw [hnil] at hn
      exact ⟨hn.cons htop, hopened⟩
  · next e rest hcons =>
      rw [hcons] at hn hopened
      rw [inForeign_cons] at hn
      exact ⟨htop, hn.cons hopened.1, hopened.2⟩

theorem close {endTag : Option Span} (h : b.HasReadings t)
    (hn : ∀ e rest, b.opened = e :: rest → Reading t (inForeign rest) (e.node stop endTag)) :
  (b.close stop endTag).HasReadings t
  := by
  rw [Builder.close]
  split
  · exact h
  · next e rest hcons =>
      obtain ⟨htop, hopened⟩ := h
      rw [hcons] at hopened
      apply add (b := { b with opened := rest }) ⟨htop, hopened.2⟩
      apply allRead_element (hn e rest hcons)
      exact hopened.1.mono (List.reverse_subset.mpr (List.Subset.refl _))

theorem noteUnclosed (h : b.HasReadings t) :
  b.noteUnclosed.HasReadings t
  := by
  rw [Builder.noteUnclosed]
  split
  · exact h
  · split
    · exact h
    · exact ⟨h.top, h.opened⟩

end Builder.HasReadings

/-- What becomes of open elements is the same after the innermost one is closed. -/
theorem Builder.Promises.close (h : b.Promises t stop) :
  (b.close stop none).Promises t stop
  := by
  intro inner outer n hopened hclosed
  rw [opened_close] at hopened
  obtain ⟨e, inner, rfl⟩ : ∃ e rest, inner = e :: rest := by
    apply List.exists_cons_of_ne_nil
    rintro rfl
    cases hclosed
  rcases hb : b.opened with _ | ⟨e₁, _ | ⟨e₂, rest⟩⟩
  · rw [hb] at hopened
    cases hopened
  · rw [hb] at hopened
    cases hopened
  · rw [hb] at hopened
    obtain ⟨rfl, rfl⟩ := List.cons_eq_cons.mp hopened
    exact h (e₁ :: e₂ :: inner) outer n hb hclosed

theorem Builder.HasReadings.closeUnclosed (h : b.HasReadings t) (hpromise : b.Promises t stop)
    (k : Nat) :
  (b.closeUnclosed stop k).HasReadings t
  := by
  induction k generalizing b with
  | zero => exact h
  | succ k ih =>
      have hnoted : b.noteUnclosed.Promises t stop := by
        rw [Builder.Promises, opened_noteUnclosed]
        exact hpromise
      apply ih (h.noteUnclosed.close ?_) hnoted.close
      exact fun e rest hopened => hnoted [e] rest _ hopened rfl

end Builder

/-- Several elements are closed within the one around them. -/
theorem closeTop_iterate (stop : Nat) (inner : List Open) (e : Open) (outer : List Open) :
  (closeTop stop none)^[inner.length] (inner ++ e :: outer)
    = e.hold (closedAt stop inner) :: outer
  := by
  induction hlength : inner.length generalizing inner with
  | zero =>
      obtain rfl := List.eq_nil_of_length_eq_zero hlength
      rfl
  | succ k ih =>
      rw [Function.iterate_succ_apply]
      obtain ⟨e₁, rest, rfl⟩ := List.exists_cons_of_length_eq_add_one hlength
      cases rest with
      | nil =>
          obtain rfl : k = 0 := by simpa using hlength.symm
          rfl
      | cons e₂ rest =>
          exact ih (e₂.hold (some (e₁.node stop none)) :: rest) (by simpa using hlength)

/-! ### The start tags of open elements -/

section StartTags

variable {opened : List Open}

theorem map_startTag_addTo (n : Node) (opened : List Open) :
  (addTo n opened).map (·.startTag) = opened.map (·.startTag)
  := by
  cases opened with
  | nil => rfl
  | cons => rfl

theorem map_startTag_closeTop (stop : Nat) (endTag : Option Span) (opened : List Open) :
  (closeTop stop endTag opened).map (·.startTag) ⊆ opened.map (·.startTag)
  := by
  cases opened with
  | nil => exact List.Subset.refl _
  | cons e rest =>
      rw [closeTop, map_startTag_addTo]
      exact List.subset_cons_self _ _

theorem map_startTag_closeTop_iterate (stop k : Nat) (opened : List Open) :
  ((closeTop stop none)^[k] opened).map (·.startTag) ⊆ opened.map (·.startTag)
  := by
  induction k generalizing opened with
  | zero => exact List.Subset.refl _
  | succ k ih =>
      rw [Function.iterate_succ_apply]
      exact List.Subset.trans (ih _) (map_startTag_closeTop stop none opened)

/-- A token opens nothing but an element that begins with it. -/
theorem mem_startTag_of_act {token : Token} {e : Open} (h : e ∈ (token.act foreign opened).1) :
  e.startTag ∈ opened.map (·.startTag) ∨ ∃ name rest, token = .startTag name e.startTag rest
  := by
  have hmem {opened' : List Open} (he : e ∈ opened') : e.startTag ∈ opened'.map (·.startTag) :=
    List.mem_map_of_mem he
  cases token with
  | leaf n =>
      left
      rw [← map_startTag_addTo n opened]
      exact hmem h
  | endTag name span =>
      left
      dsimp only [Token.act] at h
      split at h
      · exact map_startTag_closeTop_iterate _ _ _ (map_startTag_closeTop _ _ _ (hmem h))
      · exact hmem h
  | startTag name span rest =>
      have himplied : (closeTopImplied name span.start opened).map (·.startTag)
          ⊆ opened.map (·.startTag) := by
        cases opened with
        | nil => exact List.Subset.refl _
        | cons e rest =>
            rw [closeTopImplied]
            split
            · exact map_startTag_closeTop _ _ _
            · exact List.Subset.refl _
      dsimp only [Token.act] at h
      split at h
      · left
        apply himplied
        rw [← map_startTag_addTo]
        exact hmem h
      · rcases List.mem_cons.mp h with rfl | h
        · exact Or.inr ⟨name, rest, rfl⟩
        · exact Or.inl (himplied (hmem h))

end StartTags

/-! ### Elements that are nested too deep -/

/-- Nothing that was noticed so far is nested too deep. -/
def Builder.IsShallow (b : Builder) : Prop := ∀ i ∈ b.issues, i.problem ≠ .tooDeep

theorem grows_closeImplied (b : Builder) (name : Text) (start : Nat) :
  b.Grows (b.closeImplied name start)
  := by
  rcases closeImplied_eq b name start with h | h
  · rw [h]
    exact ⟨fun _ _ h => h, List.Subset.refl _, rfl⟩
  · rw [h]
    exact grows_close b start none

/-- A token takes back no issue. -/
theorem issues_subset_take (b : Builder) (token : Token) :
  b.issues ⊆ (b.take token).1.issues
  := by
  cases token with
  | leaf n => exact (grows_add b n).issues
  | endTag name span =>
      rw [Builder.take, Builder.endTag]
      dsimp only
      split
      · exact List.Subset.refl _
      · split
        · exact ((grows_closeUnclosed { b with flattened := [] } _ _).trans
            (grows_close _ _ _)).issues
        · exact List.subset_cons_self _ _
  | startTag name span rest =>
      have himplied := (grows_closeImplied b name span.start).issues
      rw [Builder.take]
      rcases startTag_cases b name span rest with h | ⟨-, -, h⟩ | ⟨-, -, h⟩ | ⟨-, h⟩
      · rw [h]
        exact List.Subset.trans himplied (grows_add _ _).issues
      · rw [h]
        dsimp only
        rw [issues_add]
        exact List.Subset.trans himplied (List.subset_cons_self _ _)
      · rw [h]
        dsimp only
        rw [issues_add]
        exact himplied
      · rw [h]
        exact himplied

/-- If nothing is nested too deep after a token, then no end tag is missing beyond the limit. -/
theorem flattened_take {b : Builder} {token : Token} (hflattened : b.flattened = [])
    (hshallow : (b.take token).1.IsShallow) :
  (b.take token).1.flattened = []
  := by
  cases token with
  | leaf n => exact (grows_add b n).flattened.trans hflattened
  | endTag name span =>
      rw [Builder.take, Builder.endTag]
      dsimp only
      rw [hflattened, List.head?_nil, if_neg (by simp)]
      split
      · exact ((grows_closeUnclosed { b with flattened := [] } _ _).trans
          (grows_close _ _ _)).flattened
      · exact hflattened
  | startTag name span rest =>
      have himplied := (grows_closeImplied b name span.start).flattened.trans hflattened
      rw [Builder.take] at hshallow ⊢
      rcases startTag_cases b name span rest with h | ⟨-, -, h⟩ | ⟨-, hwaiting, -⟩ | ⟨-, h⟩
      · rw [h]
        exact (grows_add _ _).flattened.trans himplied
      · rw [h] at hshallow
        have hissue := (grows_add { (b.closeImplied name span.start).note ⟨.tooDeep, span⟩ with
          flattened := [name] } (.element span name span rest.attributes [] none)).issues
        exact absurd rfl (hshallow _ (hissue List.mem_cons_self))
      · exact absurd himplied hwaiting
      · rw [h]
        exact himplied

/-! ### Reading a text -/

/-- What is so between two tokens while nothing is nested too deep: every element that was read has
a reading, and so has what becomes of the open elements. -/
structure Reader.Sound (t : Text) (s : Reader) : Prop where
  inText : s.place.In t
  flattened : s.builder.flattened = []
  startTags : ∀ e ∈ s.builder.opened, e.startTag.stop ≤ s.place.offset
  readings : s.builder.HasReadings t
  yields : ∀ inner outer n, s.builder.opened = inner ++ outer → inner ≠ [] →
    Inner.Yields (inForeign outer) ⟨inner, s.place, s.raw⟩ n → Reading t (inForeign outer) n

namespace Reader

variable {s : Reader}

theorem sound_start (t : Text) :
  Sound t ⟨{}, ⟨t, 0⟩, none⟩
  := by
  refine ⟨Place.in_start t, rfl, by simp, ⟨allRead_nil t false, trivial⟩, ?_⟩
  intro inner outer n hopened hinner
  exact absurd (List.append_eq_nil_iff.mp hopened.symm).1 hinner

/-- What becomes of open elements that end where the reader is. -/
theorem Sound.promises (h : s.Sound t) :
  s.builder.Promises t s.place.offset
  := by
  intro inner outer n hopened hclosed
  have hinner : inner ≠ [] := by
    rintro rfl
    cases hclosed
  refine h.yields inner outer n hopened hinner (.here hclosed ?_)
  obtain ⟨inner, e, rfl⟩ := List.eq_nil_or_concat' inner |>.resolve_left hinner
  rw [closedAt_concat] at hclosed
  obtain rfl := Option.some.inj hclosed
  exact Nat.max_eq_left (h.startTags e (by rw [hopened]; simp))

/-- What becomes of the innermost element with some name at its end tag. -/
theorem Sound.reading_endTag (h : s.Sound t) (hraw : s.raw = none) (hrest : s.place.rest ≠ [])
    {inner outer : List Open} {e : Open} {span : Span}
    (hopened : s.builder.opened = inner ++ e :: outer) (hinner : ∀ i ∈ inner, i.name ≠ e.name)
    (htoken : (readToken s.place).value = .endTag e.name span) :
  Reading t (inForeign outer) ((e.hold (closedAt span.start inner)).node span.stop (some span))
  := by
  have hspan := eq_spanTo_of_endTag htoken
  apply h.yields (inner ++ [e]) outer _ (by rw [hopened, List.append_assoc]; rfl) (by simp)
  refine .endTag hraw hrest rfl hinner htoken ?_
  have hstop : e.startTag.stop ≤ s.place.offset := h.startTags e (by rw [hopened]; simp)
  have hnext := (before_readToken s.place).offset_le
  subst hspan
  exact Nat.max_eq_left (Nat.le_trans hstop hnext)

/-- The elements that an end tag closes are read in the text. -/
theorem Sound.readings_endTag (h : s.Sound t) (hraw : s.raw = none) (hrest : s.place.rest ≠ [])
    {b : Builder} (hopened : b.opened = s.builder.opened) (hflattened : b.flattened = [])
    (hreadings : b.HasReadings t) {name : Text} {span : Span}
    (htoken : (readToken s.place).value = .endTag name span) :
  (b.endTag name span).HasReadings t
  := by
  have hspan := eq_spanTo_of_endTag htoken
  have hforget : Builder.HasReadings t { b with flattened := [] } :=
    ⟨hreadings.top, hreadings.opened⟩
  rw [Builder.endTag, hflattened, List.head?_nil, if_neg (by simp)]
  dsimp only
  split
  · next hfound =>
      have hsome : (b.opened.find? fun e => decide (e.name = name)).isSome :=
        List.find?_isSome.mpr (List.findIdx_lt_length.mp hfound)
      obtain ⟨e, hfind⟩ := Option.isSome_iff_exists.mp hsome
      obtain ⟨hname, inner, outer, hsplit, hinner⟩ := List.find?_eq_some_iff_append.mp hfind
      obtain rfl : e.name = name := of_decide_eq_true hname
      have hothers : ∀ i ∈ inner, i.name ≠ e.name := by simpa using hinner
      have hindex : b.opened.findIdx (·.name = e.name) = inner.length := by
        rw [hsplit]
        exact findIdx_name hothers rfl
      have hpromises : Builder.Promises t { b with flattened := [] } s.place.offset := by
        rw [Builder.Promises, hopened]
        exact h.promises
      rw [hindex, show span.start = s.place.offset by rw [hspan]; rfl]
      apply (hforget.closeUnclosed hpromises inner.length).close
      intro e' rest hopened'
      rw [opened_closeUnclosed, hsplit, closeTop_iterate] at hopened'
      obtain ⟨rfl, rfl⟩ := List.cons_eq_cons.mp hopened'
      have hreading := h.reading_endTag hraw hrest (hopened.symm.trans hsplit) hothers htoken
      rw [hspan] at hreading ⊢
      exact hreading
  · exact ⟨hreadings.top, hreadings.opened⟩

/-- The elements that a start tag closes and the one that it adds are read in the text. -/
theorem Sound.readings_startTag (h : s.Sound t) {b : Builder}
    (hopened : b.opened = s.builder.opened) (hreadings : b.HasReadings t) {name : Text}
    {span : Span} {rest : TagRest} (htoken : (readToken s.place).value = .startTag name span rest)
    (hflattened : (b.startTag name span rest).1.flattened = []) :
  (b.startTag name span rest).1.HasReadings t
  := by
  have hspan := eq_spanTo_of_startTag htoken
  have hclosed : (b.closeImplied name span.start).HasReadings t := by
    rcases closeImplied_eq b name span.start with hb | hb
    · rwa [hb]
    · rw [hb, hspan]
      apply hreadings.close
      intro e outer hsplit
      exact h.promises [e] outer _ (hopened.symm.trans hsplit) rfl
  have hstart := startTag_of_flattened hflattened
  dsimp only at hstart
  split at hstart
  · next hitself =>
      rw [hstart]
      apply hclosed.add
      exact allRead_element ⟨s.place, h.inText, .leaf htoken hitself⟩ (allRead_nil t _)
  · rw [hstart]
    exact ⟨hclosed.top, allRead_nil t _, hclosed.opened⟩

/-- The elements that a token closes or adds are read in the text. -/
theorem Sound.readings_take (h : s.Sound t) (hraw : s.raw = none) (hrest : s.place.rest ≠ [])
    {b : Builder} (hopened : b.opened = s.builder.opened) (hflattened : b.flattened = [])
    (hreadings : b.HasReadings t)
    (hflattened' : (b.take (readToken s.place).value).1.flattened = []) :
  (b.take (readToken s.place).value).1.HasReadings t
  := by
  cases htoken : (readToken s.place).value with
  | leaf n => exact hreadings.add (allRead_leaf (isElement_of_leaf htoken))
  | endTag name span => exact h.readings_endTag hraw hrest hopened hflattened hreadings htoken
  | startTag name span rest =>
      rw [htoken] at hflattened'
      exact h.readings_startTag hopened hreadings htoken hflattened'

/-- What becomes of open elements after the next token becomes of them before it. -/
theorem Sound.reading_next (h : s.Sound t) (hrest : s.place.rest ≠ [])
    {within outer inner : List Open} {place : Place} {raw : Option Text} {n : Node}
    (hopened : s.builder.opened = within ++ outer) (hwithin : within ≠ []) (hinner : inner ≠ [])
    (htag : outermostTag within = outermostTag inner)
    (hnext : Inner.next (inForeign outer) ⟨within, s.place, s.raw⟩ = ⟨inner, place, raw⟩)
    (hyields : Inner.Yields (inForeign outer) ⟨inner, place, raw⟩ n) :
  Reading t (inForeign outer) n
  := by
  apply h.yields within outer n hopened hwithin
  rw [← hnext] at hyields
  apply Inner.Yields.next hrest ?_ ?_ hyields
  · rw [hnext]
    exact hinner
  · rw [hnext]
    exact htag.symm

/-- Reading the text in an element that holds nothing else keeps what is so between two tokens. -/
theorem Sound.nextText (h : s.Sound t) {name : Text} (hraw : s.raw = some name)
    (hrest : s.place.rest ≠ []) :
  (s.nextText name).Sound t
  := by
  have hbefore := Place.before_rawEnd name s.place
  have hleaf : ((Node.text (s.place.spanTo (rawEnd name s.place))).isElement) = false := rfl
  unfold Reader.nextText
  dsimp only
  by_cases hempty : (rawEnd name s.place).offset > s.place.offset
  · rw [if_pos hempty]
    refine ⟨h.inText.before hbefore, ?_, ?_, h.readings.add (allRead_leaf hleaf), ?_⟩
    · rw [(grows_add _ _).flattened, h.flattened]
    · intro e he
      have hmem : e.startTag ∈ s.builder.opened.map (·.startTag) := by
        rw [opened_add] at he
        rw [← map_startTag_addTo]
        exact List.mem_map_of_mem he
      obtain ⟨e', he', htag⟩ := List.mem_map.mp hmem
      rw [← htag]
      exact Nat.le_trans (h.startTags e' he') hbefore.offset_le
    · intro inner outer n hopened hinner hyields
      rw [opened_add] at hopened
      obtain ⟨within, hne, hwithin, hadd, htag⟩ := framed_addTo _ hopened hinner
      apply h.reading_next hrest hwithin hne hinner htag ?_ hyields
      simp only [Inner.next, hraw, if_pos hempty, hadd]
  · rw [if_neg hempty]
    refine ⟨h.inText.before hbefore, h.flattened, ?_, h.readings, ?_⟩
    · exact fun e he => Nat.le_trans (h.startTags e he) hbefore.offset_le
    · intro inner outer n hopened hinner hyields
      apply h.reading_next hrest hopened hinner hinner rfl ?_ hyields
      simp only [Inner.next, hraw, if_neg hempty]

/-- Taking a token keeps what is so between two tokens. -/
theorem Sound.take (h : s.Sound t) (hraw : s.raw = none) (hrest : s.place.rest ≠ []) {b : Builder}
    (hopened : b.opened = s.builder.opened) (htop : b.top = s.builder.top)
    (hflattened : b.flattened = [])
    (hflattened' : (b.take (readToken s.place).value).1.flattened = []) :
  Sound t ⟨(b.take (readToken s.place).value).1, (readToken s.place).next,
    (b.take (readToken s.place).value).2⟩
  := by
  have hbefore := before_readToken s.place
  have hact := take_eq_act hflattened hflattened'
  rw [hopened] at hact
  have hreadings : b.HasReadings t :=
    ⟨by rw [htop]; exact h.readings.top, by rw [hopened]; exact h.readings.opened⟩
  refine ⟨h.inText.before hbefore, hflattened', ?_,
    h.readings_take hraw hrest hopened hflattened hreadings hflattened', ?_⟩
  · intro e he
    replace he : e ∈ ((readToken s.place).value.act false s.builder.opened).1 := by
      rw [← hact]
      exact he
    rcases mem_startTag_of_act he with hmem | ⟨name, rest, htoken⟩
    · obtain ⟨e', he', htag⟩ := List.mem_map.mp hmem
      rw [← htag]
      exact Nat.le_trans (h.startTags e' he') hbefore.offset_le
    · rw [eq_spanTo_of_startTag htoken]
      exact Nat.le_refl _
  · intro inner outer n hsplit hinner hyields
    dsimp only at hsplit
    rw [hsplit] at hact
    rcases act_eq_append hact.symm hinner with
      ⟨within, hne, hwithin, hnext, htag⟩ | ⟨name, span, rest, htoken, hitself, -, rfl, hname⟩
    · apply h.reading_next hrest hwithin hne hinner htag ?_ hyields
      simp only [Inner.next, hraw, hnext]
    · refine ⟨s.place, h.inText, .opened htoken hitself ?_⟩
      rw [← hname]
      exact hyields

theorem issues_subset_next (s : Reader) :
  s.builder.issues ⊆ s.next.builder.issues
  := by
  rw [Reader.next]
  split
  · next name _ =>
      rw [Reader.nextText]
      dsimp only
      split
      · exact (grows_add _ _).issues
      · exact List.Subset.refl _
  · have hnoted : s.builder.issues ⊆ (s.builder.noteAll (readToken s.place).issues).issues := by
      rw [noteAll_eq]
      exact List.subset_append_right _ _
    exact List.Subset.trans hnoted (issues_subset_take _ _)

/-- Reading on keeps what is so between two tokens, if nothing is nested too deep. -/
theorem Sound.next (h : s.Sound t) (hrest : s.place.rest ≠ [])
    (hshallow : s.next.builder.IsShallow) :
  s.next.Sound t
  := by
  cases hraw : s.raw with
  | some name =>
      have hnext : s.next = s.nextText name := by rw [Reader.next, hraw]
      rw [hnext]
      exact h.nextText hraw hrest
  | none =>
      have hnext : s.next = s.nextToken := by rw [Reader.next, hraw]
      have hnoted := noteAll_eq s.builder (readToken s.place).issues
      rw [hnext] at hshallow ⊢
      have hflattened : (s.builder.noteAll (readToken s.place).issues).flattened = [] := by
        rw [hnoted]
        exact h.flattened
      apply h.take hraw hrest ?_ ?_ hflattened (flattened_take hflattened hshallow)
      · rw [hnoted]
      · rw [hnoted]

end Reader

/-- If nothing in a text is nested too deep, each element of its document is read in the text. -/
theorem allRead_ofText (hshallow : ∀ i ∈ (Document.ofText t).issues, i.problem ≠ .tooDeep) :
  AllRead t false (Document.ofText t).children
  := by
  have hnext (s : Reader) (hrest : s.place.rest ≠ []) (h : s.builder.IsShallow → s.Sound t)
      (hshallow : s.next.builder.IsShallow) : s.next.Sound t :=
    (h fun i hi => hshallow i (s.issues_subset_next hi)).next hrest hshallow
  obtain ⟨s, h, -, hchildren, hissues⟩ := exists_reader_ofText hnext fun _ => Reader.sound_start t
  have hgrows := grows_closeUnclosed s.builder s.place.offset s.builder.opened.length
  rw [hissues] at hshallow
  have hsound := h fun i hi => hshallow i (List.mem_reverse.mpr (hgrows.issues hi))
  rw [hchildren]
  have hall := (hsound.readings.closeUnclosed hsound.promises s.builder.opened.length).top
  exact hall.mono (List.reverse_subset.mpr (List.Subset.refl _))

/-- A node that stands in nodes that are in place is in place. -/
theorem Node.Stands.placed {outer : Bool} {nodes : List Node} (h : n.Stands foreign outer nodes)
    (hplaced : ∀ m ∈ nodes, m.Placed t) :
  n.Placed t
  := by
  induction h with
  | here h => exact hplaced n h
  | inside h _ ih =>
      cases hplaced _ h with
      | element _ hchildren => exact ih hchildren

/-- Two elements with the same span and the same text are the same, in one text or in two, if both
stand in foreign content or neither does, or if no start tag in them ends with a slash, and if
nothing in the texts is nested too deep. -/
theorem eq_of_stands (hshallow : ∀ i ∈ (Document.ofText t).issues, i.problem ≠ .tooDeep)
    (hshallow' : ∀ i ∈ (Document.ofText t').issues, i.problem ≠ .tooDeep)
    (h : n.Stands foreign false (Document.ofText t).children)
    (h' : n'.Stands foreign' false (Document.ofText t').children)
    (helement : n.isElement = true) (helement' : n'.isElement = true) (hspan : n.span = n'.span)
    (htext : n.span.text t = n'.span.text t') (halike : Alike foreign foreign' (n.span.text t)) :
  n = n'
  := by
  have hread := allRead_ofText hshallow n foreign h helement
  have hread' := allRead_ofText hshallow' n' foreign' h' helement'
  have hplaced := h.placed (inOrder_ofText t).placed
  have hplaced' := h'.placed (inOrder_ofText t').placed
  exact hread.eq hread' hplaced.isPiece hplaced'.isPiece hspan htext halike

end Stencil.Markup
