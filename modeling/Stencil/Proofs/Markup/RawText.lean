import Stencil.Proofs.Markup.Preorder
import Stencil.Proofs.Markup.Slashes

/-!
# Elements that hold nothing but text

The text in such an element is read up to the next end tag whose name begins with that of the
element.  If this end tag has just the name of the element, then it closes the element, which holds
the text up to there and nothing else.  If its name goes on, then it is the end tag of something
else: the element stays open, or is closed by the end tag of an element around it.

While a text is read, an element that waits for an end tag with its name is the innermost one, and
the reader is at its start tag or at the end of its text.
-/

namespace Stencil.Markup

open Text

/-- The text between two offsets as nodes. -/
def textBetween (a b : Nat) : List Node := if a < b then [.text ⟨a, b⟩] else []

/-- The place where the text from an offset on ends in an element with the given name. -/
def textEnd (t : Text) (start : Nat) (name : Text) : Place := rawEnd name ⟨onward start t, start⟩

/-- The first end tag after an offset whose name begins with the given one has just this name, if
there is such an end tag. -/
def EndsByName (t : Text) (start : Nat) (name : Text) : Prop :=
  (textEnd t start name).rest = []
    ∨ lower (((textEnd t start name).rest.drop 2).takeWhile isNamePart) = name

instance (t : Text) (start : Nat) (name : Text) : Decidable (EndsByName t start name) :=
  inferInstanceAs (Decidable (_ ∨ _))

/-- The parts of an element are those of one that holds nothing but text: this goes on to its end
tag, which is the first one with its name, or to the end of the whole text. -/
structure HoldsText (t : Text) (span : Span) (name : Text) (startTag : Span) (children : List Node)
    (endTag : Option Span) : Prop where
  text : children = textBetween startTag.stop (contentStop span endTag)
  closed : ∀ e ∈ endTag, e.IsPiece t ∧ e.stop = span.stop ∧ IsEndTag t e name
  unclosed : endTag = none → span.stop = width t
  first : ∀ e : Span, e.IsPiece t → IsEndTag t e name → startTag.stop ≤ e.start →
    contentStop span endTag ≤ e.start

variable {t : Text}

/-! ### The first end tag -/

/-- A text is found at one of its occurrences, or before it. -/
theorem exists_charsBefore?_le {needle v : Text} (u : Text) (hneedle : needle ≠ [])
    (h : needle <+: v) :
  ∃ m ≤ u.length, charsBefore? needle (u ++ v) = some m
  := by
  induction u with
  | nil =>
      cases v with
      | nil => exact absurd (List.prefix_nil.mp h) hneedle
      | cons c v => exact ⟨0, Nat.le_refl 0, if_pos (List.isPrefixOf_iff_prefix.mpr h)⟩
  | cons c u ih =>
      obtain ⟨m, hm, hfound⟩ := ih
      rw [List.cons_append, charsBefore?, hfound]
      split
      · exact ⟨0, Nat.zero_le _, rfl⟩
      · exact ⟨m + 1, Nat.succ_le_succ hm, rfl⟩

/-- The text in an element ends at the first end tag with the name of the element, or before it. -/
theorem textEnd_le {start : Nat} (hstart : IsBoundary start t) {name : Text} {e : Span}
    (he : e.IsPiece t) (hend : IsEndTag t e name) (hle : start ≤ e.start) :
  (textEnd t start name).offset ≤ e.start
  := by
  obtain ⟨c, rest, htag, -, rfl⟩ := hend
  obtain ⟨hnonempty, hfirst, hlast⟩ := he
  have hcut := slice_append_onward hstart hfirst hle
  have hbehind : onward e.start t = '<' :: '/' :: (c :: rest) ++ onward e.stop t := by
    rw [← slice_append_onward hfirst hlast (Nat.le_of_lt hnonempty), ← htag, Span.text]
  have hletters :
      lower ((c :: rest).takeWhile isNamePart) <+: lower (c :: rest ++ onward e.stop t) :=
    ((List.takeWhile_prefix _).trans (List.prefix_append _ _)).map _
  generalize lower ((c :: rest).takeWhile isNamePart) = name at hletters ⊢
  have hprefix : ['<', '/'] ++ name <+: lower (onward e.start t) := by
    rw [hbehind]
    exact (List.prefix_cons_inj _).mpr ((List.prefix_cons_inj _).mpr hletters)
  obtain ⟨m, hm, hfound⟩ :=
    exists_charsBefore?_le (lower (slice t start e.start)) (by simp) hprefix
  have hlower :
      lower (slice t start e.start) ++ lower (onward e.start t) = lower (onward start t) := by
    rw [← hcut]
    exact List.map_append.symm
  rw [hlower] at hfound
  rw [lower, List.length_map] at hm
  have hskip : textEnd t start name = Place.skip ⟨onward start t, start⟩ m := by
    rw [textEnd, rawEnd]
    dsimp only
    rw [hfound]
  have hwidth : width ((slice t start e.start).take m) ≤ width (slice t start e.start) := by
    conv_rhs => rw [← List.take_append_drop m (slice t start e.start), width_append]
    exact Nat.le_add_right _ _
  rw [width_slice hstart hfirst hle] at hwidth
  rw [hskip, Place.skip, ← hcut]
  dsimp only
  rw [List.take_append_of_le_length hm]
  omega

theorem Place.In.eq_onward {p : Place} (hp : p.In t) :
  p = ⟨onward p.offset t, p.offset⟩
  := by
  obtain ⟨front, hrest, hoffset⟩ := hp.exists_eq_append
  obtain ⟨rest, offset⟩ := p
  dsimp only at hrest hoffset ⊢
  rw [hoffset, hrest, onward_append]

/-! ### Nodes that were read -/

/-- The node was read as its name tells.  If it is an element that holds nothing but text and the
first end tag has its name, then it is closed by a slash in foreign content, or it holds the text up
to where this ends. -/
def Node.IsRead (t : Text) (foreign : Bool) : Node → Prop
  | .element span name startTag attributes children endTag =>
    name ∈ rawNames → EndsByName t startTag.stop name →
      (foreign = true ∧ slashCloses t startTag attributes = true ∧ span = startTag ∧ children = []
        ∧ endTag = none)
      ∨ (children = textBetween startTag.stop (contentStop span endTag)
        ∧ contentStop span endTag = (textEnd t startTag.stop name).offset
        ∧ (endTag = none → span.stop = width t))
  | _ => True

theorem isRead_of_not_isElement {n : Node} (h : n.isElement = false) (foreign : Bool) :
  n.IsRead t foreign
  := by
  cases n with
  | element => cases h
  | text | comment | doctype => trivial

/-- The nodes so far were read as their names tell. -/
def Builder.HasRead (t : Text) (b : Builder) : Prop := ∀ x ∈ b.preorder, x.2.IsRead t x.1

/-- The element holds nothing but text, and the first end tag has its name. -/
def Open.Waits (t : Text) (e : Open) : Prop :=
  e.name ∈ rawNames ∧ EndsByName t e.startTag.stop e.name

theorem Open.isRead_node {e : Open} (h : ¬e.Waits t) (stop : Nat) (endTag : Option Span)
    (foreign : Bool) :
  (e.node stop endTag).IsRead t foreign
  := fun hname hends => absurd ⟨hname, hends⟩ h

section Builder

variable {b : Builder}

theorem Builder.HasRead.add (h : b.HasRead t) {n : Node}
    (hn : ∀ x ∈ n.preorder (inForeign b.opened), x.2.IsRead t x.1) :
  (b.add n).HasRead t
  := by
  intro x hx
  rcases List.mem_append.mp ((preorder_add b n).mem_iff.mp hx) with hx | hx
  · exact hn x hx
  · exact h x hx

theorem Builder.HasRead.close (h : b.HasRead t) {stop : Nat} {endTag : Option Span}
    (hn : ∀ e rest, b.opened = e :: rest → (e.node stop endTag).IsRead t (inForeign rest)) :
  (b.close stop endTag).HasRead t
  := by
  cases hopened : b.opened with
  | nil =>
      rw [Builder.close, hopened]
      exact h
  | cons e rest =>
      intro x hx
      rcases List.mem_cons.mp ((preorder_close hopened stop endTag).mem_iff.mp hx) with rfl | hx
      · exact hn e rest hopened
      · exact h x hx

/-- None of the open elements waits for an end tag with its name. -/
def NoneWaits (t : Text) (opened : List Open) : Prop := ∀ e ∈ opened, ¬e.Waits t

theorem NoneWaits.addTo {opened : List Open} (h : NoneWaits t opened) (n : Node) :
  NoneWaits t (addTo n opened)
  := by
  cases opened with
  | nil => exact h
  | cons e rest =>
      rw [NoneWaits, List.forall_mem_cons] at h
      exact List.forall_mem_cons.mpr h

theorem NoneWaits.closeTop {opened : List Open} (h : NoneWaits t opened.tail) (stop : Nat)
    (endTag : Option Span) :
  NoneWaits t (closeTop stop endTag opened)
  := by
  cases opened with
  | nil => exact h
  | cons e rest => exact h.addTo _

theorem NoneWaits.tail {opened : List Open} (h : NoneWaits t opened) :
  NoneWaits t opened.tail
  := fun e he => h e (List.mem_of_mem_tail he)

/-- What is so while none of the open elements waits: the nodes were read as their names tell, and
the elements beyond the limit are no elements that hold nothing but text. -/
structure Builder.Idle (t : Text) (b : Builder) : Prop where
  flattened : ∀ name ∈ b.flattened, name ∉ rawNames
  hasRead : b.HasRead t
  noneWaits : NoneWaits t b.opened

namespace Builder.Idle

theorem add (h : b.Idle t) {n : Node}
    (hn : ∀ x ∈ n.preorder (inForeign b.opened), x.2.IsRead t x.1) :
  (b.add n).Idle t
  := by
  refine ⟨?_, h.hasRead.add hn, ?_⟩
  · rw [(grows_add b n).flattened]
    exact h.flattened
  · rw [opened_add]
    exact h.noneWaits.addTo n

theorem noteUnclosed (h : b.Idle t) :
  b.noteUnclosed.Idle t
  := by
  rw [Builder.noteUnclosed]
  split
  · exact h
  · split
    · exact h
    · exact ⟨h.flattened, h.hasRead, h.noneWaits⟩

theorem close (h : b.Idle t) (stop : Nat) (endTag : Option Span) :
  (b.close stop endTag).Idle t
  := by
  refine ⟨?_, h.hasRead.close ?_, ?_⟩
  · rw [(grows_close b stop endTag).flattened]
    exact h.flattened
  · intro e rest hopened
    exact Open.isRead_node (h.noneWaits e (by simp [hopened])) stop endTag _
  · rw [opened_close]
    exact h.noneWaits.tail.closeTop stop endTag

theorem closeUnclosed (h : b.Idle t) (stop n : Nat) :
  (b.closeUnclosed stop n).Idle t
  := by
  induction n generalizing b with
  | zero => exact h
  | succ n ih => exact ih (h.noteUnclosed.close stop none)

theorem endTag (h : b.Idle t) (name : Text) (span : Span) :
  (b.endTag name span).Idle t
  := by
  rw [Builder.endTag]
  split
  · exact ⟨fun name hname => h.flattened name (List.mem_of_mem_tail hname), h.hasRead, h.noneWaits⟩
  · have hforget : Builder.Idle t { b with flattened := [] } := ⟨by simp, h.hasRead, h.noneWaits⟩
    dsimp only
    split
    · exact (hforget.closeUnclosed span.start _).close span.stop (some span)
    · exact ⟨h.flattened, h.hasRead, h.noneWaits⟩

theorem closeImplied (h : b.Idle t) (name : Text) (start : Nat) :
  (b.closeImplied name start).Idle t
  := by
  rcases closeImplied_eq b name start with hb | hb
  · rwa [hb]
  · rw [hb]
    exact h.close start none

end Builder.Idle

/-- A start tag of an element that holds nothing but text opens it, unless a slash closes it. -/
theorem startTag_of_mem_rawNames (b : Builder) {name : Text} (hname : name ∈ rawNames) (span : Span)
    (rest : TagRest) :
  let b' := b.closeImplied name span.start
  if rest.isClosed && inForeign b'.opened then
    b.startTag name span rest = (b'.add (.element span name span rest.attributes [] none), false)
  else
    b.startTag name span rest
      = ({ b' with opened := ⟨name, span, rest.attributes, []⟩ :: b'.opened }, true)
  := by
  have hnot : ∀ name ∈ rawNames, name ∉ voidNames ∧ name ∉ foreignNames := by decide
  obtain ⟨hvoid, hforeign⟩ := hnot name hname
  unfold Builder.startTag
  simp only [hvoid, hname, Builder.isForeign, hforeign, decide_false, Bool.or_false, Bool.false_or,
    not_true_eq_false, Bool.and_false, Bool.false_eq_true, if_false, decide_true, inForeign]
  split
  · rfl
  · rfl

end Builder

/-! ### Reading on -/

namespace Reader

/-- What is so between two tokens.  An element that waits for an end tag with its name is the
innermost one, and the reader is at the end of its text or has not begun to read this. -/
structure KeepsText (t : Text) (s : Reader) : Prop where
  inText : s.place.In t
  flattened : ∀ name ∈ s.builder.flattened, name ∉ rawNames
  hasRead : s.builder.HasRead t
  outer : NoneWaits t s.builder.opened.tail
  innermost : s.raw = none → ∀ e ∈ s.builder.opened.head?, e.Waits t →
    s.place = textEnd t e.startTag.stop e.name
      ∧ e.children = textBetween e.startTag.stop s.place.offset
  raw : ∀ name ∈ s.raw, ∃ e ∈ s.builder.opened.head?,
    e.name = name ∧ e.children = [] ∧ e.startTag.stop = s.place.offset

variable {s : Reader}

theorem keepsText_start (t : Text) :
  KeepsText t ⟨{}, ⟨t, 0⟩, none⟩
  := ⟨Place.in_start t, by simp, by simp [Builder.HasRead, Builder.preorder, preorderAll,
    openPreorder], by simp [NoneWaits], by simp, by simp⟩

/-- Where no element waits, nothing needs to be known of the innermost one. -/
theorem keepsText_of_idle {b : Builder} (h : b.Idle t) {place : Place} (hplace : place.In t) :
  KeepsText t ⟨b, place, none⟩
  := by
  refine ⟨hplace, h.flattened, h.hasRead, h.noneWaits.tail, fun _ e he hwaits => ?_, by simp⟩
  exact absurd hwaits (h.noneWaits e (List.mem_of_mem_head? he))

/-- Reading the text in an element. -/
theorem KeepsText.nextText (h : s.KeepsText t) {name : Text} (hraw : s.raw = some name) :
  (s.nextText name).KeepsText t
  := by
  have hbefore := Place.before_rawEnd name s.place
  obtain ⟨e, he, rfl, hchildren, hstart⟩ := h.raw name hraw
  have hend : rawEnd e.name s.place = textEnd t e.startTag.stop e.name := by
    rw [textEnd, hstart, ← h.inText.eq_onward]
  obtain ⟨rest, hopened⟩ := List.head?_eq_some_iff.mp he
  have hspan : s.place.spanTo (rawEnd e.name s.place)
      = ⟨e.startTag.stop, (rawEnd e.name s.place).offset⟩ := by rw [hstart, Place.spanTo]
  rw [Reader.nextText]
  rw [hspan, ← hstart]
  by_cases hlt : (rawEnd e.name s.place).offset > e.startTag.stop
  · rw [if_pos hlt]
    refine ⟨h.inText.before hbefore, ?_, h.hasRead.add ?_, ?_, ?_, by simp⟩
    · rw [(grows_add _ _).flattened]
      exact h.flattened
    · rw [preorder_of_not_isElement rfl]
      exact List.forall_mem_singleton.mpr (isRead_of_not_isElement rfl _)
    · dsimp only
      rw [opened_add, hopened, addTo, List.tail_cons]
      have houter := h.outer
      rwa [hopened] at houter
    · intro _ e' he' _
      dsimp only at he' ⊢
      rw [opened_add, hopened, addTo, List.head?_cons] at he'
      obtain rfl := Option.some.inj he'
      dsimp only
      exact ⟨hend, by rw [hchildren, textBetween, if_pos hlt]⟩
  · rw [if_neg hlt]
    refine ⟨h.inText.before hbefore, h.flattened, h.hasRead, h.outer, fun _ e' he' _ => ?_, by simp⟩
    obtain rfl := Option.some.inj (he.symm.trans he')
    exact ⟨hend, by rw [hchildren, textBetween, if_neg hlt]⟩

/-- At the end of its text, an element that waits comes to its end tag. -/
theorem KeepsText.endTag_of_waits (h : s.KeepsText t) (hraw : s.raw = none)
    (hrest : s.place.rest ≠ []) {e : Open} (he : e ∈ s.builder.opened.head?) (hwaits : e.Waits t) :
  ∃ span, readToken s.place = ⟨.endTag e.name span, [], (readToken s.place).next⟩
    ∧ span.start = s.place.offset
  := by
  obtain ⟨hplace, -⟩ := h.innermost hraw e he hwaits
  obtain ⟨hname, hends⟩ := hwaits
  rw [EndsByName, ← hplace] at hends
  obtain ⟨c, rest, hshape, hc, -⟩ := exists_rest_rawEnd (p := ⟨onward e.startTag.stop t,
    e.startTag.stop⟩) hname (by rwa [← textEnd, ← hplace])
  rw [← textEnd, ← hplace] at hshape
  have hletters := hends.resolve_left hrest
  rw [readToken_of_endTag hshape hc, endTagToken]
  refine ⟨s.place.spanTo (tagEnd (nameEnd (s.place.skip 2))), ?_, rfl⟩
  rw [textTo_nameEnd]
  congr 1
  exact congrArg (Token.endTag · _) hletters

/-- The end tag for which the innermost element waits closes it. -/
theorem KeepsText.next_of_waits (h : s.KeepsText t) (hraw : s.raw = none)
    (hrest : s.place.rest ≠ []) {e : Open} (he : e ∈ s.builder.opened.head?) (hwaits : e.Waits t) :
  s.nextToken.KeepsText t
  := by
  obtain ⟨span, htoken, hstart⟩ := h.endTag_of_waits hraw hrest he hwaits
  obtain ⟨hplace, hchildren⟩ := h.innermost hraw e he hwaits
  obtain ⟨rest, hopened⟩ := List.head?_eq_some_iff.mp he
  have houter := h.outer
  rw [hopened, List.tail_cons] at houter
  have hclosed : s.builder.endTag e.name span
      = { s.builder with flattened := [] }.close span.stop (some span) :=
    endTag_of_opened_eq hopened
      (fun hhead => h.flattened _ (List.mem_of_mem_head? hhead) hwaits.1) span
  have hread : Builder.HasRead t { s.builder with flattened := [] } := h.hasRead
  rw [nextToken, htoken]
  refine keepsText_of_idle ?_ (h.inText.before (before_readToken s.place))
  dsimp only [Builder.take, Builder.noteAll, List.foldl_nil]
  rw [hclosed]
  refine ⟨?_, hread.close ?_, ?_⟩
  · rw [(grows_close _ _ _).flattened]
    simp
  · intro e' rest' hopened'
    obtain ⟨rfl, rfl⟩ := List.cons_eq_cons.mp (hopened.symm.trans hopened')
    intro _ _
    right
    have hstop : contentStop ⟨e.startTag.start, max span.stop e.startTag.stop⟩ (some span)
        = s.place.offset := hstart
    rw [hstop, ← hplace]
    refine ⟨?_, rfl, by simp⟩
    rw [hchildren, textBetween]
    split <;> rfl
  · rw [opened_close, hopened]
    exact houter.addTo _

/-- Where no element waits, a start tag is read as its name tells. -/
theorem keepsText_startTag {b : Builder} (h : b.Idle t) {p : Place} (hp : p.In t) {name : Text}
    {span : Span} {rest : TagRest} (htoken : (readToken p).value = .startTag name span rest) :
  KeepsText t ⟨(b.take (.startTag name span rest)).1, (readToken p).next,
    (b.take (.startTag name span rest)).2⟩
  := by
  have hnext := hp.before (before_readToken p)
  have himplied := h.closeImplied name span.start
  rw [Builder.take]
  by_cases hname : name ∈ rawNames
  · have hstart := startTag_of_mem_rawNames b hname span rest
    dsimp only at hstart
    split at hstart
    · next hitself =>
        rw [Bool.and_eq_true] at hitself
        rw [hstart]
        refine keepsText_of_idle (himplied.add ?_) hnext
        rw [preorder_leaf, List.forall_mem_singleton]
        intro _ _
        left
        exact ⟨hitself.2, by rw [slashCloses_of_startTag hp htoken, hitself.1], rfl, rfl, rfl⟩
    · rw [hstart]
      refine ⟨hnext, himplied.flattened, himplied.hasRead, himplied.noneWaits, by simp, ?_⟩
      intro raw hraw
      obtain rfl := Option.some.inj hraw
      refine ⟨_, rfl, rfl, rfl, ?_⟩
      rw [eq_spanTo_of_startTag htoken]
      rfl
  · have hleaf (foreign : Bool) :
        ∀ x ∈ (Node.element span name span rest.attributes [] none).preorder foreign,
          x.2.IsRead t x.1 := by
      rw [preorder_leaf, List.forall_mem_singleton]
      exact fun h => absurd h hname
    have hwaiting : ∀ n ∈ name :: (b.closeImplied name span.start).flattened, n ∉ rawNames :=
      List.forall_mem_cons.mpr ⟨hname, himplied.flattened⟩
    rcases startTag_cases b name span rest with h | ⟨-, -, h⟩ | ⟨-, -, h⟩ | ⟨-, h⟩
    · rw [h]
      exact keepsText_of_idle (himplied.add (hleaf _)) hnext
    · rw [h]
      apply keepsText_of_idle ?_ hnext
      apply Builder.Idle.add ?_ (hleaf _)
      exact ⟨by simpa using hname, himplied.hasRead, himplied.noneWaits⟩
    · rw [h]
      apply keepsText_of_idle ?_ hnext
      apply Builder.Idle.add ?_ (hleaf _)
      exact ⟨hwaiting, himplied.hasRead, himplied.noneWaits⟩
    · rw [h, decide_eq_false hname]
      apply keepsText_of_idle ?_ hnext
      refine ⟨himplied.flattened, himplied.hasRead, List.forall_mem_cons.mpr ⟨?_, ?_⟩⟩
      · exact fun hwaits => hname hwaits.1
      · exact himplied.noneWaits

/-- Reading on keeps what is so between two tokens. -/
theorem KeepsText.next (h : s.KeepsText t) (hrest : s.place.rest ≠ []) :
  s.next.KeepsText t
  := by
  rw [Reader.next]
  split
  · next name hraw => exact h.nextText hraw
  · next hraw =>
      by_cases hwaits : ∃ e ∈ s.builder.opened.head?, e.Waits t
      · obtain ⟨e, he, hwaits⟩ := hwaits
        exact h.next_of_waits hraw hrest he hwaits
      · have hidle : Builder.Idle t (s.builder.noteAll (readToken s.place).issues) := by
          rw [noteAll_eq]
          refine ⟨h.flattened, h.hasRead, fun e he => ?_⟩
          dsimp only at he
          cases hopened : s.builder.opened with
          | nil =>
              rw [hopened] at he
              cases he
          | cons first rest =>
              have houter := h.outer
              rw [hopened] at he houter hwaits
              rcases List.mem_cons.mp he with rfl | he
              · exact fun he => hwaits ⟨e, rfl, he⟩
              · exact houter e he
        have hnext := h.inText.before (before_readToken s.place)
        rw [nextToken]
        dsimp only
        generalize s.builder.noteAll (readToken s.place).issues = b at hidle
        cases htoken : (readToken s.place).value with
        | leaf n =>
            refine keepsText_of_idle (hidle.add ?_) hnext
            have hleaf := isElement_of_leaf htoken
            rw [preorder_of_not_isElement hleaf, List.forall_mem_singleton]
            exact isRead_of_not_isElement hleaf _
        | endTag name span => exact keepsText_of_idle (hidle.endTag name span) hnext
        | startTag name span rest => exact keepsText_startTag hidle h.inText htoken

/-- An element that is open at the end of the text was read as its name tells. -/
theorem KeepsText.isRead_node (h : s.KeepsText t) (hrest : s.place.rest = []) {e : Open}
    (he : e ∈ s.builder.opened.head?) (foreign : Bool) :
  (e.node s.place.offset none).IsRead t foreign
  := by
  intro hname hends
  obtain ⟨hplace, hchildren⟩ : s.place = textEnd t e.startTag.stop e.name
      ∧ e.children = textBetween e.startTag.stop s.place.offset := by
    cases hraw : s.raw with
    | none => exact h.innermost hraw e he ⟨hname, hends⟩
    | some name =>
        obtain ⟨e', he', rfl, hchildren, hstart⟩ := h.raw name hraw
        obtain rfl := Option.some.inj (he.symm.trans he')
        rw [textEnd, hstart, ← h.inText.eq_onward, rawEnd_of_rest_eq_nil _ hrest, hchildren,
          textBetween, if_neg (Nat.lt_irrefl _)]
        exact ⟨rfl, rfl⟩
  have hle : e.startTag.stop ≤ s.place.offset := by
    rw [hplace]
    exact (Place.before_rawEnd e.name ⟨_, e.startTag.stop⟩).offset_le
  have hstop : max s.place.offset e.startTag.stop = s.place.offset := Nat.max_eq_left hle
  right
  rw [contentStop, Option.map_none, Option.getD_none]
  dsimp only
  rw [hstop]
  refine ⟨?_, congrArg Place.offset hplace, fun _ => h.inText.offset_eq_width hrest⟩
  rw [hchildren, textBetween]
  split <;> rfl

/-- At the end of the text, the nodes were read as their names tell when what is open is closed. -/
theorem KeepsText.hasRead_closeUnclosed (h : s.KeepsText t) (hrest : s.place.rest = []) :
  (s.builder.closeUnclosed s.place.offset s.builder.opened.length).HasRead t
  := by
  cases hopened : s.builder.opened with
  | nil => exact h.hasRead
  | cons e rest =>
      have houter := h.outer
      rw [hopened, List.tail_cons] at houter
      have hnoted : s.builder.noteUnclosed.opened = e :: rest := by
        rw [opened_noteUnclosed, hopened]
      rw [List.length_cons, Builder.closeUnclosed]
      refine (Builder.Idle.closeUnclosed (b := s.builder.noteUnclosed.close s.place.offset none)
        ⟨?_, ?_, ?_⟩ _ _).hasRead
      · rw [(grows_close _ _ _).flattened, flattened_noteUnclosed]
        exact h.flattened
      · apply Builder.HasRead.close
        · rw [Builder.HasRead, preorder_noteUnclosed]
          exact h.hasRead
        · intro e' rest' hopened'
          obtain ⟨rfl, rfl⟩ := List.cons_eq_cons.mp (hnoted.symm.trans hopened')
          exact h.isRead_node hrest (by simp [hopened]) _
      · rw [opened_close, hnoted]
        exact houter.addTo _

end Reader

/-- A node that is in place has nodes in place in it. -/
theorem Node.Placed.of_mem_preorder {n : Node} (h : n.Placed t) {foreign : Bool} {x : Bool × Node}
    (hx : x ∈ n.preorder foreign) :
  x.2.Placed t
  := by
  induction h generalizing foreign with
  | element h hchildren ih =>
      rw [Node.preorder] at hx
      rcases List.mem_cons.mp hx with rfl | hx
      · exact .element h hchildren
      · rw [preorderAll_eq_flatMap] at hx
        obtain ⟨m, hm, hx⟩ := List.mem_flatMap.mp hx
        exact ih m hm hx
  | text h =>
      rw [Node.preorder, List.mem_singleton] at hx
      rw [hx]
      exact .text h
  | comment h =>
      rw [Node.preorder, List.mem_singleton] at hx
      rw [hx]
      exact .comment h
  | doctype h =>
      rw [Node.preorder, List.mem_singleton] at hx
      rw [hx]
      exact .doctype h

theorem placed_of_mem_preorder {x : Bool × Node} (hx : x ∈ (Document.ofText t).preorder) :
  x.2.Placed t
  := by
  rw [Document.preorder, preorderAll_eq_flatMap] at hx
  obtain ⟨n, hn, hx⟩ := List.mem_flatMap.mp hx
  exact ((inOrder_ofText t).placed n hn).of_mem_preorder hx

/-- An element that holds nothing but text, and after whose start tag the first end tag has its
name, holds the text up to this end tag, unless a slash closes it in foreign content. -/
theorem holdsText_ofText {span : Span} {name : Text} {startTag : Span} {attributes : List Attribute}
    {children : List Node} {endTag : Option Span} {foreign : Bool}
    (h : (foreign, .element span name startTag attributes children endTag)
      ∈ (Document.ofText t).preorder)
    (hname : name ∈ rawNames) (hends : EndsByName t startTag.stop name) :
  HoldsText t span name startTag children endTag
    ∨ (foreign = true ∧ slashCloses t startTag attributes = true ∧ span = startTag ∧ children = []
      ∧ endTag = none)
  := by
  have hread : ∀ x ∈ (Document.ofText t).preorder, x.2.IsRead t x.1 := by
    obtain ⟨s, hs, hrest, hnodes, -⟩ := exists_preorder_ofText (P := Reader.KeepsText t)
      (fun s hrest hs => hs.next hrest) (Reader.keepsText_start t)
    exact fun x hx => hs.hasRead_closeUnclosed hrest x (hnodes.mem_iff.mp hx)
  rcases hread _ h hname hends with hitself | ⟨hchildren, hstop, hunclosed⟩
  · exact Or.inr hitself
  · left
    cases placed_of_mem_preorder h with
    | element hplaced _ =>
        refine ⟨hchildren, hplaced.endTag, hunclosed, fun e he hend hle => ?_⟩
        rw [hstop]
        exact textEnd_le hplaced.startTag_isPiece.onBoundaries.2 he hend hle

/-- An element that ends by its name, written with a capital and a blank character. -/
theorem holdsText_ofText_sample :
  let t : Text := "<script>a<b></Script >".toList
  let name : Text := "script".toList
  name ∈ rawNames ∧ EndsByName t 8 name
    ∧ HoldsText t ⟨0, 22⟩ name ⟨0, 8⟩ [.text ⟨8, 12⟩] (some ⟨12, 22⟩)
  := by
  intro t name
  have hnodes : (Document.ofText t).preorder
      = [(false, .element ⟨0, 22⟩ name ⟨0, 8⟩ [] [.text ⟨8, 12⟩] (some ⟨12, 22⟩)),
        (false, .text ⟨8, 12⟩)] := by
    decide +kernel
  have hname : name ∈ rawNames := by decide
  have hends : EndsByName t 8 name := by decide
  have h := holdsText_ofText (t := t) (by rw [hnodes]; exact List.mem_cons_self) hname hends
  exact ⟨hname, hends, h.resolve_right (by simp)⟩

/-- An end tag whose name goes on after that of the element ends the text in it, and the markup
after this becomes nodes in the element. -/
theorem markup_in_raw_text :
  let t : Text := "<script></scriptx><b></b></script>".toList
  let b : Node := .element ⟨18, 25⟩ "b".toList ⟨18, 21⟩ [] [] (some ⟨21, 25⟩)
  (false, .element ⟨0, 34⟩ "script".toList ⟨0, 8⟩ [] [b] (some ⟨25, 34⟩))
      ∈ (Document.ofText t).preorder
    ∧ ¬HoldsText t ⟨0, 34⟩ "script".toList ⟨0, 8⟩ [b] (some ⟨25, 34⟩)
  := by
  intro t b
  have hnodes : (Document.ofText t).preorder
      = [(false, .element ⟨0, 34⟩ "script".toList ⟨0, 8⟩ [] [b] (some ⟨25, 34⟩)), (false, b)] := by
    decide +kernel
  have hother : textBetween 8 25 ≠ [b] := by simp [textBetween, b]
  exact ⟨by rw [hnodes]; exact List.mem_cons_self, fun h => hother h.text.symm⟩

end Stencil.Markup
