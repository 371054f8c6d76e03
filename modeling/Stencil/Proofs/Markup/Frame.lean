import Stencil.Proofs.Markup.Pieces
import Stencil.Proofs.Markup.Tokens

/-!
# The elements around an element

What a token does to the open elements it does to the innermost ones alone, as long as some of these
stay open.  The elements around them matter in one way only: a slash closes a start tag in foreign
content.  The limit on the depth is left aside here.
-/

namespace Stencil.Markup

/-! ### Stacks of open elements -/

/-- The content of one of the elements is foreign. -/
def inForeign (opened : List Open) : Bool := opened.any (·.name ∈ foreignNames)

/-- Adds a node to the innermost open element. -/
def addTo (n : Node) : List Open → List Open
  | [] => []
  | e :: rest => { e with children := n :: e.children } :: rest

/-- The node that an open element becomes. -/
def Open.node (e : Open) (stop : Nat) (endTag : Option Span) : Node :=
  .element ⟨e.startTag.start, max stop e.startTag.stop⟩ e.name e.startTag e.attributes
    e.children.reverse endTag

/-- Closes the innermost open element. -/
def closeTop (stop : Nat) (endTag : Option Span) : List Open → List Open
  | [] => []
  | e :: rest => addTo (e.node stop endTag) rest

/-- Closes the innermost open element if a start tag does so. -/
def closeTopImplied (name : Text) (start : Nat) : List Open → List Open
  | [] => []
  | e :: rest =>
    if Builder.closesImplied name e.name then closeTop start none (e :: rest) else e :: rest

/-- The element is read as a leaf. -/
def closesItself (foreign : Bool) (name : Text) (rest : TagRest) : Bool :=
  (rest.isClosed && (name ∈ foreignNames || foreign)) || name ∈ voidNames

/-- The name of an element, if it holds nothing but text. -/
def textOnly? (name : Text) : Option Text := if name ∈ rawNames then some name else none

/-- What a token does to the open elements, where the content around them may be foreign. -/
def Token.act (foreign : Bool) (opened : List Open) : Token → List Open × Option Text
  | .leaf n => (addTo n opened, none)
  | .startTag name span rest =>
    let opened := closeTopImplied name span.start opened
    if closesItself (inForeign opened || foreign) name rest then
      (addTo (.element span name span rest.attributes [] none) opened, none)
    else
      (⟨name, span, rest.attributes, []⟩ :: opened, textOnly? name)
  | .endTag name span =>
    let inner := opened.findIdx (·.name = name)
    if inner < opened.length then
      (closeTop span.stop (some span) ((closeTop span.start none)^[inner] opened), none)
    else (opened, none)

theorem mem_rawNames_of_textOnly? {name raw : Text} (h : raw ∈ textOnly? name) :
  raw ∈ rawNames
  := by
  rw [textOnly?] at h
  split at h
  · next hname =>
      obtain rfl := Option.some.inj h
      exact hname
  · cases h

theorem opened_add (b : Builder) (n : Node) :
  (b.add n).opened = addTo n b.opened
  := by
  rw [Builder.add]
  split
  · next h => rw [h, addTo]
  · next h => rw [h, addTo]

theorem opened_close (b : Builder) (stop : Nat) (endTag : Option Span) :
  (b.close stop endTag).opened = closeTop stop endTag b.opened
  := by
  rw [Builder.close]
  split
  · next h => rw [h, closeTop]
  · next h =>
      rw [opened_add, h]
      rfl

theorem opened_noteUnclosed (b : Builder) :
  b.noteUnclosed.opened = b.opened
  := by
  rw [Builder.noteUnclosed]
  split
  · rfl
  · split
    · rfl
    · rfl

theorem opened_closeUnclosed (b : Builder) (stop n : Nat) :
  (b.closeUnclosed stop n).opened = (closeTop stop none)^[n] b.opened
  := by
  induction n generalizing b with
  | zero => rfl
  | succ n ih =>
      rw [Builder.closeUnclosed, ih, opened_close, opened_noteUnclosed, Function.iterate_succ_apply]

theorem opened_closeImplied (b : Builder) (name : Text) (start : Nat) :
  (b.closeImplied name start).opened = closeTopImplied name start b.opened
  := by
  rw [Builder.closeImplied]
  split
  · next h =>
      rw [h, closeTopImplied]
      split
      · rw [opened_close, h]
      · exact h
  · next h => rw [h, closeTopImplied]

theorem noteAll_eq (b : Builder) (issues : List Issue) :
  b.noteAll issues = { b with issues := issues.reverse ++ b.issues }
  := by
  induction issues generalizing b with
  | nil => rfl
  | cons i issues ih =>
      have hrest : b.noteAll (i :: issues) = (b.note i).noteAll issues := rfl
      rw [hrest, ih, List.reverse_cons, List.append_assoc]
      rfl

/-- Where no element is nested too deep, a start tag is added as a leaf if it closes itself, and
else it opens an element. -/
theorem startTag_of_flattened {b : Builder} {name : Text} {span : Span} {rest : TagRest}
    (h : (b.startTag name span rest).1.flattened = []) :
  let b' := b.closeImplied name span.start
  if closesItself (inForeign b'.opened) name rest then
    b.startTag name span rest = (b'.add (.element span name span rest.attributes [] none), false)
  else
    b.startTag name span rest
      = ({ b' with opened := ⟨name, span, rest.attributes, []⟩ :: b'.opened },
        decide (name ∈ rawNames))
  := by
  unfold Builder.startTag at h ⊢
  dsimp only at h ⊢
  generalize b.closeImplied name span.start = b' at h ⊢
  have hitself : ((rest.isClosed && b'.isForeign name) || decide (name ∈ voidNames))
      = closesItself (inForeign b'.opened) name rest := rfl
  rw [hitself] at h ⊢
  split
  · rfl
  · next hopens =>
      rw [if_neg hopens] at h
      split at h
      · rw [(grows_add _ _).flattened] at h
        cases h
      · next hshallow => rw [if_neg hshallow]

/-- Where no element is nested too deep, a token does to the open elements what it does to them
alone. -/
theorem take_eq_act {b : Builder} {token : Token} (hflattened : b.flattened = [])
    (hflattened' : (b.take token).1.flattened = []) :
  ((b.take token).1.opened, (b.take token).2) = token.act false b.opened
  := by
  cases token with
  | leaf n => simp [Builder.take, Token.act, opened_add]
  | endTag name span =>
      simp only [Builder.take, Builder.endTag, Token.act, hflattened, List.head?_nil, reduceCtorEq,
        if_false]
      split
      · rw [opened_close, opened_closeUnclosed]
      · rfl
  | startTag name span rest =>
      have hstart := startTag_of_flattened hflattened'
      dsimp only [Builder.take, Token.act] at hstart ⊢
      rw [← opened_closeImplied, Bool.or_false]
      split at hstart
      · next hitself => rw [hstart, if_pos hitself, opened_add, if_neg (by simp)]
      · next hopens =>
          rw [hstart, if_neg hopens]
          simp [textOnly?]

theorem length_addTo (n : Node) (opened : List Open) :
  (addTo n opened).length = opened.length
  := by
  cases opened with
  | nil => rfl
  | cons => rfl

theorem length_closeTop (stop : Nat) (endTag : Option Span) (opened : List Open) :
  (closeTop stop endTag opened).length = opened.length - 1
  := by
  cases opened with
  | nil => rfl
  | cons e opened => exact length_addTo _ _

theorem length_closeTop_iterate (stop : Nat) (endTag : Option Span) (n : Nat) (opened : List Open) :
  ((closeTop stop endTag)^[n] opened).length = opened.length - n
  := by
  induction n generalizing opened with
  | zero => rfl
  | succ n ih =>
      rw [Function.iterate_succ_apply, ih, length_closeTop]
      omega

/-! ### What a token does from within -/

/-- The start tag of the outermost of several open elements. -/
def outermostTag (opened : List Open) : Option Span := opened.getLast?.map (·.startTag)

/-- What is done to open elements is done to the inner ones alone, where some of these stay open. -/
def Framed (f : List Open → List Open) : Prop :=
  ∀ ⦃opened inner outer⦄, f opened = inner ++ outer → inner ≠ [] →
    ∃ within, within ≠ [] ∧ opened = within ++ outer ∧ f within = inner
      ∧ outermostTag within = outermostTag inner

theorem framed_addTo (n : Node) :
  Framed (addTo n)
  := by
  intro opened inner outer h hinner
  obtain ⟨e, inner, rfl⟩ := List.exists_cons_of_ne_nil hinner
  cases opened with
  | nil => cases h
  | cons e' opened =>
      obtain ⟨rfl, rfl⟩ := List.cons_eq_cons.mp h
      refine ⟨e' :: inner, List.cons_ne_nil _ _, rfl, rfl, ?_⟩
      cases inner with
      | nil => rfl
      | cons => rfl

theorem outermostTag_cons (e : Open) {opened : List Open} (h : opened ≠ []) :
  outermostTag (e :: opened) = outermostTag opened
  := by
  obtain ⟨e', opened, rfl⟩ := List.exists_cons_of_ne_nil h
  rw [outermostTag, outermostTag, List.getLast?_cons_cons]

theorem framed_closeTop (stop : Nat) (endTag : Option Span) :
  Framed (closeTop stop endTag)
  := by
  intro opened inner outer h hinner
  cases opened with
  | nil =>
      obtain ⟨e, inner, rfl⟩ := List.exists_cons_of_ne_nil hinner
      cases h
  | cons e opened =>
      obtain ⟨within, hne, rfl, hadd, htag⟩ := framed_addTo _ h hinner
      refine ⟨e :: within, List.cons_ne_nil _ _, rfl, hadd, ?_⟩
      rw [outermostTag_cons e hne, htag]

theorem Framed.comp {f g : List Open → List Open} (hg : Framed g) (hf : Framed f) :
  Framed (g ∘ f)
  := by
  intro opened inner outer h hinner
  obtain ⟨middle, hne, hmiddle, rfl, htag⟩ := hg h hinner
  obtain ⟨within, hne', rfl, rfl, htag'⟩ := hf hmiddle hne
  exact ⟨within, hne', rfl, rfl, htag'.trans htag⟩

theorem framed_id :
  Framed id
  := fun _ inner _ h hinner => ⟨inner, hinner, h, rfl, rfl⟩

theorem Framed.iterate {f : List Open → List Open} (hf : Framed f) (n : Nat) :
  Framed f^[n]
  := by
  induction n with
  | zero => exact framed_id
  | succ n ih => exact ih.comp hf

theorem framed_closeTopImplied (name : Text) (start : Nat) :
  Framed (closeTopImplied name start)
  := by
  intro opened inner outer h hinner
  cases opened with
  | nil =>
      obtain ⟨e, inner, rfl⟩ := List.exists_cons_of_ne_nil hinner
      cases h
  | cons e opened =>
      rw [closeTopImplied] at h
      split at h
      · next himplied =>
          obtain ⟨within, hne, hwithin, hclose, htag⟩ := framed_closeTop start none h hinner
          obtain ⟨e', within, rfl⟩ := List.exists_cons_of_ne_nil hne
          obtain ⟨rfl, rfl⟩ := List.cons_eq_cons.mp hwithin
          exact ⟨e :: within, hne, rfl, by rw [closeTopImplied, if_pos himplied, hclose], htag⟩
      · next hother =>
          obtain ⟨e', inner, rfl⟩ := List.exists_cons_of_ne_nil hinner
          obtain ⟨rfl, rfl⟩ := List.cons_eq_cons.mp h
          exact ⟨e :: inner, hinner, rfl, by rw [closeTopImplied, if_neg hother], rfl⟩

theorem inForeign_append (inner outer : List Open) :
  inForeign (inner ++ outer) = (inForeign inner || inForeign outer)
  := List.any_append

/-- What an end tag does to open elements it does to the inner ones alone, where some of these stay
open. -/
theorem endTag_eq_append {name : Text} {span : Span} {foreign : Bool}
    {opened inner outer : List Open} {raw : Option Text}
    (h : (Token.endTag name span).act false opened = (inner ++ outer, raw)) (hinner : inner ≠ []) :
  ∃ within, within ≠ [] ∧ opened = within ++ outer
    ∧ (Token.endTag name span).act foreign within = (inner, raw)
    ∧ outermostTag within = outermostTag inner
  := by
  dsimp only [Token.act] at h
  split at h
  · next hfound =>
      obtain ⟨hopened, rfl⟩ := Prod.mk.inj h
      obtain ⟨within, hne, rfl, hact, htag⟩ :=
        (framed_closeTop _ _).comp ((framed_closeTop _ _).iterate _) hopened hinner
      refine ⟨within, hne, rfl, ?_, htag⟩
      have hlength := congrArg List.length hact
      have hpos := List.length_pos_iff.mpr hinner
      rw [Function.comp_apply, length_closeTop, length_closeTop_iterate] at hlength
      rw [List.findIdx_append] at hact hlength
      split at hact
      · next hin =>
          rw [if_pos hin] at hlength
          dsimp only [Token.act]
          rw [if_pos (by omega)]
          exact congrArg (·, none) hact
      · next hout =>
          rw [if_neg hout] at hlength
          omega
  · next hmissing =>
      obtain ⟨rfl, rfl⟩ := Prod.mk.inj h
      refine ⟨inner, hinner, rfl, ?_, rfl⟩
      have hnone : ¬inner.findIdx (·.name = name) < inner.length := by
        intro hfound
        apply hmissing
        obtain ⟨e, he, hname⟩ := List.findIdx_lt_length.mp hfound
        exact List.findIdx_lt_length.mpr ⟨e, List.mem_append_left outer he, hname⟩
      exact if_neg hnone

/-- What a start tag does to open elements it does to the inner ones alone, where some of these stay
open, unless it opens the only one of them. -/
theorem startTag_eq_append {name : Text} {span : Span} {rest : TagRest}
    {opened inner outer : List Open} {raw : Option Text}
    (h : (Token.startTag name span rest).act false opened = (inner ++ outer, raw))
    (hinner : inner ≠ []) :
  (∃ within, within ≠ [] ∧ opened = within ++ outer
      ∧ (Token.startTag name span rest).act (inForeign outer) within = (inner, raw)
      ∧ outermostTag within = outermostTag inner)
    ∨ closesItself (inForeign outer) name rest = false
      ∧ outer = closeTopImplied name span.start opened
      ∧ inner = [⟨name, span, rest.attributes, []⟩]
      ∧ raw = textOnly? name
  := by
  dsimp only [Token.act] at h
  split at h
  · next hitself =>
      obtain ⟨hopened, rfl⟩ := Prod.mk.inj h
      obtain ⟨middle, hne, hmiddle, hadd, htag⟩ := framed_addTo _ hopened hinner
      obtain ⟨within, hne', rfl, himplied, htag'⟩ := framed_closeTopImplied _ _ hmiddle hne
      rw [hmiddle, Bool.or_false, inForeign_append] at hitself
      refine Or.inl ⟨within, hne', rfl, ?_, htag'.trans htag⟩
      dsimp only [Token.act]
      rw [himplied, if_pos hitself, hadd]
  · next hitself =>
      obtain ⟨hopened, rfl⟩ := Prod.mk.inj h
      obtain ⟨e, inner, rfl⟩ := List.exists_cons_of_ne_nil hinner
      obtain ⟨rfl, himplied⟩ := List.cons_eq_cons.mp hopened
      change closeTopImplied name span.start opened = inner ++ outer at himplied
      rw [himplied, Bool.or_false] at hitself
      by_cases hne : inner = []
      · subst hne
        rw [List.nil_append] at himplied hitself
        exact Or.inr ⟨by simpa using hitself, himplied.symm, rfl, rfl⟩
      · obtain ⟨within, hne', rfl, himplied', htag⟩ := framed_closeTopImplied _ _ himplied hne
        rw [inForeign_append] at hitself
        refine Or.inl ⟨within, hne', rfl, ?_, ?_⟩
        · dsimp only [Token.act]
          rw [himplied', if_neg hitself]
        · rw [outermostTag_cons _ hne, htag]

/-- What a token does to open elements it does to the inner ones alone, where some of these stay
open, unless it opens the only one of them. -/
theorem act_eq_append {token : Token} {opened inner outer : List Open} {raw : Option Text}
    (h : token.act false opened = (inner ++ outer, raw)) (hinner : inner ≠ []) :
  (∃ within, within ≠ [] ∧ opened = within ++ outer
      ∧ token.act (inForeign outer) within = (inner, raw)
      ∧ outermostTag within = outermostTag inner)
    ∨ ∃ name span rest, token = .startTag name span rest
      ∧ closesItself (inForeign outer) name rest = false
      ∧ outer = closeTopImplied name span.start opened
      ∧ inner = [⟨name, span, rest.attributes, []⟩]
      ∧ raw = textOnly? name
  := by
  cases token with
  | leaf n =>
      obtain ⟨hopened, rfl⟩ := Prod.mk.inj h
      obtain ⟨within, hne, rfl, rfl, htag⟩ := framed_addTo n hopened hinner
      exact Or.inl ⟨within, hne, rfl, rfl, htag⟩
  | endTag name span => exact Or.inl (endTag_eq_append h hinner)
  | startTag name span rest =>
      exact (startTag_eq_append h hinner).imp_right fun hopens => ⟨name, span, rest, rfl, hopens⟩

end Stencil.Markup
