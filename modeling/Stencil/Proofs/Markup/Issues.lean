import Mathlib.Data.List.Nodup
import Stencil.Proofs.Markup.Preorder
import Stencil.Proofs.Markup.Slashes

/-!
# The issues of a document

If nothing in a text is nested too deep, the issues account for its tags.  The end tags that are
missing are those of the elements that need one and have none.  Every end tag closes one element or
is unexpected, and is noticed as such once.

While a text is read, each element that is closed without its end tag is noticed in the same step,
unless it needs none.  Each end tag that is read stands behind all that were read before, so it is
counted once.
-/

namespace Stencil.Markup

open Text

/-! ### What is accounted for -/

/-- The name and the start tag of an element that lacks its end tag.  A void element, an element
that a slash closes in foreign content, and one whose end tag may be left out lack none. -/
def Node.lacking? (t : Text) (foreign : Bool) : Node → Option (Text × Span)
  | .element _ name startTag attributes _ none =>
    if name ∈ voidNames ∨ name ∈ optionalEndNames
        ∨ (slashCloses t startTag attributes = true ∧ (name ∈ foreignNames ∨ foreign = true)) then
      none
    else some (name, startTag)
  | _ => none

/-- The end tag of an element. -/
def Node.endTag? : Node → Option Span
  | .element _ _ _ _ _ endTag => endTag
  | _ => none

/-- The name and the start tag of the element whose end tag is reported as missing. -/
def Issue.missing? (i : Issue) : Option (Text × Span) :=
  match i.problem with
  | .missingEndTag name => some (name, i.span)
  | _ => none

/-- The name and the span of the end tag that is reported as unexpected. -/
def Issue.unexpected? (i : Issue) : Option (Text × Span) :=
  match i.problem with
  | .unexpectedEndTag name => some (name, i.span)
  | _ => none

/-- The elements of a document that lack their end tag. -/
def Document.lacking (t : Text) (d : Document) : List (Text × Span) :=
  d.preorder.filterMap fun x => x.2.lacking? t x.1

/-- The end tags of the elements of a document. -/
def Document.endTags (d : Document) : List Span := d.preorder.filterMap (·.2.endTag?)

/-- The end tags that are reported as missing. -/
def Document.missing (d : Document) : List (Text × Span) := d.issues.filterMap Issue.missing?

/-- The end tags that are reported as unexpected. -/
def Document.unexpected (d : Document) : List (Text × Span) := d.issues.filterMap Issue.unexpected?

/-- The elements so far that lack their end tag. -/
def Builder.lacking (t : Text) (b : Builder) : List (Text × Span) :=
  b.preorder.filterMap fun x => x.2.lacking? t x.1

/-- The end tags of the elements so far. -/
def Builder.endTags (b : Builder) : List Span := b.preorder.filterMap (·.2.endTag?)

/-- The end tags that were reported so far as missing. -/
def Builder.missing (b : Builder) : List (Text × Span) := b.issues.filterMap Issue.missing?

/-- The end tags that were reported so far as unexpected. -/
def Builder.unexpected (b : Builder) : List (Text × Span) := b.issues.filterMap Issue.unexpected?

variable {t : Text} {b b' b'' : Builder}

/-! ### Issues on tags alone -/

/-- The issue is about no end tag and not about the depth. -/
structure Issue.IsOther (i : Issue) : Prop where
  missing : i.missing? = none
  unexpected : i.unexpected? = none
  shallow : i.problem ≠ .tooDeep

theorem isOther_readTagRest {missing : Issue} (hmissing : missing.IsOther) (budget : Text)
    (p : Place) :
  ∀ i ∈ (readTagRest missing budget p).issues, i.IsOther
  := by
  induction budget generalizing p with
  | nil => simpa [readTagRest] using hmissing
  | cons c budget ih =>
      have hvalue (q : Place) : ∀ i ∈ (readValue q).issues, i.IsOther := by
        have hother (span : Span) : Issue.IsOther ⟨.unterminatedValue, span⟩ :=
          ⟨rfl, rfl, by simp⟩
        unfold readValue
        grind
      have hattribute (q : Place) : ∀ i ∈ (readAttribute q).issues, i.IsOther := by
        unfold readAttribute
        grind
      unfold readTagRest
      dsimp only
      split
      · simp
      · simp
      · next hbudget _ =>
          obtain ⟨-, rfl⟩ := List.cons_eq_cons.mp hbudget
          exact ih _
      · next hbudget _ =>
          obtain ⟨-, rfl⟩ := List.cons_eq_cons.mp hbudget
          exact List.forall_mem_append.mpr ⟨hattribute _, ih _⟩
      · simpa using hmissing

/-- A token has no issues on end tags. -/
theorem isOther_readToken (p : Place) :
  ∀ i ∈ (readToken p).issues, i.IsOther
  := by
  rcases readToken_kinds p with h | h | h | h | h
  · rw [h, commentToken]
    split
    · simp
    · exact List.forall_mem_singleton.mpr ⟨rfl, rfl, by simp⟩
  · simp [h, declarationToken]
  · simp [h, endTagToken]
  · rw [h]
    apply isOther_readTagRest
    exact ⟨rfl, rfl, by simp⟩
  · simp [h, textToken]

theorem filterMap_noteAll {α : Type} {f : Issue → Option α} {issues : List Issue}
    (h : ∀ i ∈ issues, f i = none) (b : Builder) :
  (b.noteAll issues).issues.filterMap f = b.issues.filterMap f
  := by
  rw [noteAll_eq, List.filterMap_append, List.filterMap_eq_nil_iff.mpr, List.nil_append]
  exact fun i hi => h i (List.mem_reverse.mp hi)

/-! ### The depth -/

/-- A start tag is not beyond the limit while fewer elements are open. -/
theorem reports_take {token : Token} (h : b.opened.length < openLimit) :
  reports (b.take token).1.issues = reports b.issues
  := by
  cases token with
  | leaf n => rw [Builder.take, issues_add]
  | endTag name span =>
      rw [Builder.take, Builder.endTag]
      dsimp only
      split
      · rfl
      · split
        · rw [issues_close, reports_closeUnclosed]
        · exact reports_cons (by simp) _
  | startTag name span rest =>
      have himplied : (b.closeImplied name span.start).issues = b.issues
          ∧ (b.closeImplied name span.start).opened.length ≤ b.opened.length := by
        rcases closeImplied_eq b name span.start with hb | hb
        · rw [hb]
          exact ⟨rfl, Nat.le_refl _⟩
        · rw [hb, issues_close, opened_close, length_closeTop]
          exact ⟨rfl, Nat.sub_le _ _⟩
      rw [Builder.take, Builder.startTag]
      dsimp only
      generalize b.closeImplied name span.start = b' at himplied
      split
      · rw [issues_add, himplied.1]
      · rw [if_neg (by simp; omega)]
        rw [himplied.1]

/-- Nothing is nested too deep if fewer elements than the limit are ever open. -/
theorem not_tooDeep_of_opened_lt
    (h : ∀ s, (Reader.start t).Reaches s → s.builder.opened.length < openLimit) :
  ∀ i ∈ (Document.ofText t).issues, i.problem ≠ .tooDeep
  := by
  have hnext (s : Reader) (hrest : s.place.rest ≠ [])
      (hs : (Reader.start t).Reaches s ∧ reports s.builder.issues = []) :
      (Reader.start t).Reaches s.next ∧ reports s.next.builder.issues = [] := by
    refine ⟨hs.1.tail ⟨hrest, rfl⟩, ?_⟩
    rw [Reader.next]
    split
    · rw [Reader.nextText]
      dsimp only
      split
      · rw [issues_add, hs.2]
      · exact hs.2
    · have hnoted : reports (s.builder.noteAll (readToken s.place).issues).issues
          = reports s.builder.issues :=
        filterMap_noteAll (fun i hi => if_neg (isOther_readToken s.place i hi).shallow) _
      have hopened : (s.builder.noteAll (readToken s.place).issues).opened.length < openLimit := by
        rw [noteAll_eq]
        exact h s hs.1
      rw [Reader.nextToken]
      dsimp only
      rw [reports_take hopened, hnoted, hs.2]
  obtain ⟨s, ⟨-, hs⟩, -, -, hissues⟩ := exists_reader_ofText hnext ⟨.refl, rfl⟩
  intro i hi hdeep
  rw [hissues, List.mem_reverse] at hi
  have hreport : i.span ∈ reports
      (s.builder.closeUnclosed s.place.offset s.builder.opened.length).issues :=
    List.mem_filterMap.mpr ⟨i, hi, if_pos hdeep⟩
  rw [reports_closeUnclosed, hs] at hreport
  cases hreport

/-! ### Nodes that are added -/

theorem filterMap_preorder_add {α : Type} (f : Bool × Node → Option α) (b : Builder) (n : Node) :
  ((b.add n).preorder.filterMap f).Perm
    ((n.preorder (inForeign b.opened)).filterMap f ++ b.preorder.filterMap f)
  := by
  rw [← List.filterMap_append]
  exact (preorder_add b n).filterMap f

theorem filterMap_preorder_close {α : Type} (f : Bool × Node → Option α) {e : Open}
    {rest : List Open} (h : b.opened = e :: rest) (stop : Nat) (endTag : Option Span) :
  ((b.close stop endTag).preorder.filterMap f).Perm
    ((f (inForeign rest, e.node stop endTag)).toList ++ b.preorder.filterMap f)
  := by
  have hperm := (preorder_close h stop endTag).filterMap f
  rw [List.filterMap_cons] at hperm
  cases hf : f (inForeign rest, e.node stop endTag) with
  | none => rwa [hf] at hperm
  | some a => rwa [hf] at hperm

/-- A node that is no element is not accounted for. -/
theorem lacking?_of_not_isElement {n : Node} (h : n.isElement = false) (foreign : Bool) :
  n.lacking? t foreign = none ∧ n.endTag? = none
  := by
  cases n with
  | element => cases h
  | text | comment | doctype => exact ⟨rfl, rfl⟩

/-! ### The end tags that were read -/

/-- The end tags that were read so far. -/
def Builder.settled (b : Builder) : List Span := b.endTags ++ b.unexpected.map (·.2)

/-- What was read between two states: the end tags that close elements and those that are
unexpected. -/
structure Builder.Settles (b b' : Builder) (endTags : List Span) (unexpected : List (Text × Span)) :
    Prop where
  endTags : b'.endTags.Perm (endTags ++ b.endTags)
  unexpected : b'.unexpected = unexpected ++ b.unexpected

namespace Builder.Settles

variable {e e' : List Span} {u u' : List (Text × Span)}

theorem refl (b : Builder) :
  b.Settles b [] []
  := ⟨.refl _, rfl⟩

theorem trans (h : b.Settles b' e u) (h' : b'.Settles b'' e' u') :
  b.Settles b'' (e' ++ e) (u' ++ u)
  := by
  constructor
  · rw [List.append_assoc]
    exact h'.endTags.trans (h.endTags.append_left e')
  · rw [h'.unexpected, h.unexpected, List.append_assoc]

theorem subset (h : b.Settles b' e u) :
  b.endTags ⊆ b'.endTags ∧ b.unexpected ⊆ b'.unexpected
  := by
  constructor
  · exact fun span hspan => h.endTags.mem_iff.mpr (List.mem_append_right e hspan)
  · rw [h.unexpected]
    exact List.subset_append_right u _

theorem settled (h : b.Settles b' e u) :
  b'.settled.Perm (e ++ u.map (·.2) ++ b.settled)
  := by
  rw [Builder.settled, Builder.settled, h.unexpected, List.map_append, List.append_assoc]
  apply (h.endTags.append_right _).trans
  rw [List.append_assoc]
  exact List.Perm.append_left e (List.perm_append_comm_assoc ..)

end Builder.Settles

theorem settles_noteAll {issues : List Issue} (h : ∀ i ∈ issues, i.IsOther) (b : Builder) :
  b.Settles (b.noteAll issues) [] []
  := by
  constructor
  · rw [noteAll_eq]
    exact .refl _
  · exact filterMap_noteAll (fun i hi => (h i hi).unexpected) b

theorem settles_add (b : Builder) {n : Node}
    (hn : ∀ x ∈ n.preorder (inForeign b.opened), x.2.endTag? = none) :
  b.Settles (b.add n) [] []
  := by
  constructor
  · apply (filterMap_preorder_add _ b n).trans
    rw [List.filterMap_eq_nil_iff.mpr hn]
    exact .refl _
  · rw [Builder.unexpected, issues_add]
    rfl

theorem settles_close {e : Open} {rest : List Open} (h : b.opened = e :: rest) (stop : Nat)
    (endTag : Option Span) :
  b.Settles (b.close stop endTag) endTag.toList []
  := by
  constructor
  · exact filterMap_preorder_close _ h stop endTag
  · rw [Builder.unexpected, issues_close]
    rfl

theorem settles_close_none (b : Builder) (stop : Nat) :
  b.Settles (b.close stop none) [] []
  := by
  cases h : b.opened with
  | nil =>
      rw [Builder.close, h]
      exact .refl b
  | cons e rest => exact settles_close h stop none

theorem settles_noteUnclosed (b : Builder) :
  b.Settles b.noteUnclosed [] []
  := by
  constructor
  · rw [Builder.endTags, preorder_noteUnclosed]
    exact .refl _
  · rw [Builder.noteUnclosed]
    split
    · rfl
    · split
      · rfl
      · rfl

theorem settles_closeUnclosed (b : Builder) (stop n : Nat) :
  b.Settles (b.closeUnclosed stop n) [] []
  := by
  induction n generalizing b with
  | zero => exact .refl b
  | succ n ih =>
      exact ((settles_noteUnclosed b).trans (settles_close_none _ stop)).trans (ih _)

/-- An end tag closes an element or is unexpected. -/
theorem settles_endTag (hflattened : b.flattened = []) (name : Text) (span : Span) :
  b.Settles (b.endTag name span) [span] [] ∨ b.Settles (b.endTag name span) [] [(name, span)]
  := by
  rw [Builder.endTag, hflattened, List.head?_nil, if_neg (by simp)]
  dsimp only
  have hforget : b.Settles { b with flattened := [] } [] [] := ⟨.refl _, rfl⟩
  split
  · next hfound =>
      left
      have hinner := settles_closeUnclosed { b with flattened := [] } span.start
        (b.opened.findIdx (·.name = name))
      have hopened : (Builder.closeUnclosed span.start (b.opened.findIdx (·.name = name))
          { b with flattened := [] }).names ≠ [] := by
        rw [names_closeUnclosed, Builder.names, ← List.map_drop]
        simpa using hfound
      obtain ⟨e, rest, hcons⟩ := List.exists_cons_of_ne_nil (l := Builder.opened _)
        (fun hnil => hopened (List.map_eq_nil_iff.mpr hnil))
      exact (hforget.trans hinner).trans (settles_close hcons span.stop (some span))
  · right
    exact ⟨.refl _, rfl⟩

theorem settles_startTag (b : Builder) (name : Text) (span : Span) (rest : TagRest) :
  b.Settles (b.startTag name span rest).1 [] []
  := by
  have himplied : b.Settles (b.closeImplied name span.start) [] [] := by
    rcases closeImplied_eq b name span.start with h | h
    · rw [h]
      exact .refl b
    · rw [h]
      exact settles_close_none b span.start
  have hleaf (foreign : Bool) :
      ∀ x ∈ (Node.element span name span rest.attributes [] none).preorder foreign,
        x.2.endTag? = none := by
    rw [preorder_leaf, List.forall_mem_singleton]
    rfl
  generalize hb' : b.closeImplied name span.start = b' at himplied
  rcases startTag_cases b name span rest with h | ⟨-, -, h⟩ | ⟨-, -, h⟩ | ⟨-, h⟩
  · rw [h, hb']
    exact himplied.trans (settles_add b' (hleaf _))
  · rw [h, hb']
    have hnote : b'.Settles { b'.note ⟨.tooDeep, span⟩ with flattened := [name] } [] [] :=
      ⟨.refl _, rfl⟩
    exact (himplied.trans hnote).trans (settles_add _ (hleaf _))
  · rw [h, hb']
    have hwait : b'.Settles { b' with flattened := name :: b'.flattened } [] [] := ⟨.refl _, rfl⟩
    exact (himplied.trans hwait).trans (settles_add _ (hleaf _))
  · rw [h, hb']
    have hopen : b'.Settles
        { b' with opened := ⟨name, span, rest.attributes, []⟩ :: b'.opened } [] [] :=
      ⟨.refl _, rfl⟩
    exact himplied.trans hopen

/-! ### The end tags that are missing -/

/-- None of the open elements is read as a leaf. -/
def Unclosed (t : Text) : List Open → Prop
  | [] => True
  | e :: rest =>
    (e.name ∉ voidNames ∧ ¬(slashCloses t e.startTag e.attributes = true
      ∧ (e.name ∈ foreignNames ∨ inForeign rest = true))) ∧ Unclosed t rest

/-- What is so while nothing is nested too deep: the end tags that were reported as missing are
those of the elements so far that lack them. -/
structure Builder.Accounts (t : Text) (b : Builder) : Prop where
  flattened : b.flattened = []
  missing : b.missing.Perm (b.lacking t)
  unclosed : Unclosed t b.opened

theorem Unclosed.addTo {opened : List Open} (h : Unclosed t opened) (n : Node) :
  Unclosed t (addTo n opened)
  := by
  cases opened with
  | nil => trivial
  | cons e rest => exact h

theorem Unclosed.closeTop {opened : List Open} (h : Unclosed t opened) (stop : Nat)
    (endTag : Option Span) :
  Unclosed t (closeTop stop endTag opened)
  := by
  cases opened with
  | nil => trivial
  | cons e rest => exact h.2.addTo _

/-- An open element lacks its end tag if it is closed without one, unless this may be left out. -/
theorem lacking?_node {e : Open} {rest : List Open} (h : Unclosed t (e :: rest)) (stop : Nat) :
  (e.node stop none).lacking? t (inForeign rest)
    = if e.name ∈ optionalEndNames then none else some (e.name, e.startTag)
  := by
  obtain ⟨⟨hvoid, hslash⟩, -⟩ := h
  rw [Open.node, Node.lacking?]
  by_cases hoptional : e.name ∈ optionalEndNames
  · rw [if_pos (Or.inr (Or.inl hoptional)), if_pos hoptional]
  · rw [if_neg hoptional, if_neg]
    rintro (h | h | h)
    · exact hvoid h
    · exact hoptional h
    · exact hslash h

theorem closesItself_iff {foreign : Bool} {name : Text} {rest : TagRest} :
  closesItself foreign name rest = true
    ↔ (rest.isClosed = true ∧ (name ∈ foreignNames ∨ foreign = true)) ∨ name ∈ voidNames
  := by simp [closesItself]

namespace Builder.Accounts

theorem note (h : b.Accounts t) {i : Issue} (hi : i.missing? = none) :
  (b.note i).Accounts t
  := by
  refine ⟨h.flattened, ?_, h.unclosed⟩
  have hnote : (b.note i).missing = b.missing := List.filterMap_cons_none hi
  rw [hnote]
  exact h.missing

theorem noteAll (h : b.Accounts t) {issues : List Issue} (hissues : ∀ i ∈ issues, i.IsOther) :
  (b.noteAll issues).Accounts t
  := by
  have hmissing := filterMap_noteAll (fun i hi => (hissues i hi).missing) b
  rw [noteAll_eq] at hmissing ⊢
  refine ⟨h.flattened, ?_, h.unclosed⟩
  rw [Builder.missing, hmissing]
  exact h.missing

/-- Adding what lacks no end tag. -/
theorem add (h : b.Accounts t) {n : Node}
    (hn : ∀ x ∈ n.preorder (inForeign b.opened), x.2.lacking? t x.1 = none) :
  (b.add n).Accounts t
  := by
  refine ⟨?_, ?_, ?_⟩
  · rw [(grows_add b n).flattened, h.flattened]
  · rw [Builder.missing, issues_add]
    apply h.missing.trans
    apply List.Perm.symm
    apply (filterMap_preorder_add _ b n).trans
    rw [List.filterMap_eq_nil_iff.mpr hn]
    exact .refl _
  · rw [opened_add]
    exact h.unclosed.addTo n

/-- Closing an element that lacks no end tag. -/
theorem close (h : b.Accounts t) {stop : Nat} {endTag : Option Span}
    (hn : ∀ e rest, b.opened = e :: rest →
      (e.node stop endTag).lacking? t (inForeign rest) = none) :
  (b.close stop endTag).Accounts t
  := by
  cases hopened : b.opened with
  | nil =>
      rw [Builder.close, hopened]
      exact h
  | cons e rest =>
      refine ⟨?_, ?_, ?_⟩
      · rw [(grows_close b stop endTag).flattened, h.flattened]
      · rw [Builder.missing, issues_close]
        apply h.missing.trans
        apply List.Perm.symm
        apply (filterMap_preorder_close _ hopened stop endTag).trans
        rw [hn e rest hopened]
        exact .refl _
      · rw [opened_close]
        exact h.unclosed.closeTop stop endTag

/-- An element that is closed without its end tag is noticed, if it lacks this. -/
theorem closeUnclosed_one (h : b.Accounts t) (stop : Nat) :
  (b.noteUnclosed.close stop none).Accounts t
  := by
  cases hopened : b.opened with
  | nil =>
      rw [Builder.noteUnclosed, hopened]
      exact h.close (by simp [hopened])
  | cons e rest =>
      have hunclosed := h.unclosed
      rw [hopened] at hunclosed
      have hlacking := lacking?_node hunclosed stop
      rw [Builder.noteUnclosed, hopened]
      dsimp only
      split
      · next hoptional =>
          rw [if_pos hoptional] at hlacking
          apply h.close
          intro e' rest' hopened'
          obtain ⟨rfl, rfl⟩ := List.cons_eq_cons.mp (hopened.symm.trans hopened')
          exact hlacking
      · next hneeded =>
          rw [if_neg hneeded] at hlacking
          have hnoted : (b.note ⟨.missingEndTag e.name, e.startTag⟩).opened = e :: rest := hopened
          refine ⟨?_, ?_, ?_⟩
          · rw [(grows_close _ stop none).flattened]
            exact h.flattened
          · rw [Builder.missing, issues_close]
            apply List.Perm.symm
            apply (filterMap_preorder_close _ hnoted stop none).trans
            rw [hlacking]
            exact h.missing.symm.cons (e.name, e.startTag)
          · rw [opened_close, hnoted]
            exact hunclosed.closeTop stop none

theorem closeUnclosed (h : b.Accounts t) (stop n : Nat) :
  (b.closeUnclosed stop n).Accounts t
  := by
  induction n generalizing b with
  | zero => exact h
  | succ n ih => exact ih (h.closeUnclosed_one stop)

theorem endTag (h : b.Accounts t) (name : Text) (span : Span) :
  (b.endTag name span).Accounts t
  := by
  rw [Builder.endTag, h.flattened, List.head?_nil, if_neg (by simp)]
  dsimp only
  split
  · have hforget : Builder.Accounts t { b with flattened := [] } := ⟨rfl, h.missing, h.unclosed⟩
    apply (hforget.closeUnclosed span.start _).close
    intro e rest _
    rfl
  · exact h.note rfl

/-- A start tag closes only elements whose end tag may be left out. -/
theorem closeImplied (h : b.Accounts t) (name : Text) (start : Nat) :
  (b.closeImplied name start).Accounts t
  := by
  rw [Builder.closeImplied]
  split
  · next e rest hopened =>
      split
      · next hcloses =>
          have hunclosed := h.unclosed
          rw [hopened] at hunclosed
          apply h.close
          intro e' rest' hopened'
          obtain ⟨rfl, rfl⟩ := List.cons_eq_cons.mp (hopened.symm.trans hopened')
          rw [lacking?_node hunclosed start,
            if_pos (mem_optionalEndNames_of_closesImplied hcloses).2]
      · exact h
  · exact h

/-- A start tag that is not nested too deep. -/
theorem startTag (h : b.Accounts t) {name : Text} {span : Span} {rest : TagRest}
    (hslash : slashCloses t span rest.attributes = rest.isClosed)
    (hflattened : (b.startTag name span rest).1.flattened = []) :
  (b.startTag name span rest).1.Accounts t
  := by
  have himplied := h.closeImplied name span.start
  have hstart := startTag_of_flattened hflattened
  dsimp only at hstart
  split at hstart
  · next hitself =>
      rw [hstart]
      apply himplied.add
      rw [preorder_leaf, List.forall_mem_singleton, Node.lacking?, if_pos]
      rw [hslash]
      rcases closesItself_iff.mp hitself with hitself | hvoid
      · exact Or.inr (Or.inr hitself)
      · exact Or.inl hvoid
  · next hopens =>
      rw [closesItself_iff, not_or, ← hslash] at hopens
      rw [hstart]
      exact ⟨himplied.flattened, himplied.missing, ⟨hopens.2, hopens.1⟩, himplied.unclosed⟩

end Builder.Accounts

/-! ### Reading on -/

namespace Reader

variable {s s' : Reader}

/-- A step that reads no end tag. -/
theorem settles_next_of_other
    (h : ∀ name span, s.raw = none → (readToken s.place).value ≠ .endTag name span) :
  s.builder.Settles s.next.builder [] []
  := by
  rw [Reader.next]
  split
  · rw [Reader.nextText]
    dsimp only
    split
    · apply settles_add
      rw [preorder_of_not_isElement rfl, List.forall_mem_singleton]
      rfl
    · exact .refl _
  · next hraw =>
      have hnoted := settles_noteAll (isOther_readToken s.place) s.builder
      rw [Reader.nextToken]
      dsimp only
      cases htoken : (readToken s.place).value with
      | leaf n =>
          have hleaf := isElement_of_leaf htoken
          apply hnoted.trans (settles_add _ _)
          rw [preorder_of_not_isElement hleaf, List.forall_mem_singleton]
          exact (lacking?_of_not_isElement (t := []) hleaf false).2
      | startTag name span rest => exact hnoted.trans (settles_startTag _ name span rest)
      | endTag name span => exact absurd htoken (h name span hraw)

/-- A step that reads an end tag. -/
theorem settles_next_of_endTag (hraw : s.raw = none) (hflattened : s.builder.flattened = [])
    {name : Text} {span : Span} (h : (readToken s.place).value = .endTag name span) :
  s.builder.Settles s.next.builder [span] [] ∨ s.builder.Settles s.next.builder [] [(name, span)]
  := by
  have hnoted := settles_noteAll (isOther_readToken s.place) s.builder
  have hflattened' : (s.builder.noteAll (readToken s.place).issues).flattened = [] := by
    rw [noteAll_eq]
    exact hflattened
  have hnext : s.next.builder
      = (s.builder.noteAll (readToken s.place).issues).endTag name span := by
    rw [Reader.next, hraw]
    dsimp only
    rw [Reader.nextToken, h]
    rfl
  rw [hnext]
  exact (settles_endTag hflattened' name span).imp hnoted.trans hnoted.trans

/-- What is so between two tokens while nothing is nested too deep.  Every end tag that was read is
counted once. -/
structure Accounts (t : Text) (s : Reader) : Prop where
  inText : s.place.In t
  accounts : s.builder.Accounts t
  nodup : s.builder.settled.Nodup
  before : ∀ span ∈ s.builder.settled, span.stop ≤ s.place.offset

theorem accounts_start (t : Text) :
  (start t).Accounts t
  := ⟨Place.in_start t, ⟨rfl, .refl _, trivial⟩, List.nodup_nil, by simp [start, Builder.settled,
    Builder.endTags, Builder.unexpected, Builder.preorder, preorderAll, openPreorder]⟩

/-- Reading on accounts for what it closes. -/
theorem Accounts.accounts_next (h : s.Accounts t) (hshallow : s.next.builder.IsShallow) :
  s.next.builder.Accounts t
  := by
  rw [Reader.next] at hshallow ⊢
  split at hshallow
  · rw [Reader.nextText]
    dsimp only
    split
    · apply h.accounts.add
      rw [preorder_of_not_isElement rfl, List.forall_mem_singleton]
      rfl
    · exact h.accounts
  · have hnoted := h.accounts.noteAll (isOther_readToken s.place)
    have hflattened := flattened_take hnoted.flattened hshallow
    rw [Reader.nextToken] at hshallow ⊢
    dsimp only at hshallow ⊢
    cases htoken : (readToken s.place).value with
    | leaf n =>
        have hleaf := isElement_of_leaf htoken
        apply hnoted.add
        rw [preorder_of_not_isElement hleaf, List.forall_mem_singleton]
        exact (lacking?_of_not_isElement hleaf _).1
    | endTag name span => exact hnoted.endTag name span
    | startTag name span rest =>
        rw [htoken] at hflattened
        exact hnoted.startTag (slashCloses_of_startTag h.inText htoken) hflattened

/-- Reading on keeps what is so between two tokens. -/
theorem Accounts.next (h : s.Accounts t) (hrest : s.place.rest ≠ [])
    (hshallow : s.next.builder.IsShallow) :
  s.next.Accounts t
  := by
  have hbefore := s.before_next
  have haccounts := h.accounts_next hshallow
  by_cases hend : ∃ name span, s.raw = none ∧ (readToken s.place).value = .endTag name span
  · obtain ⟨name, span, hraw, htoken⟩ := hend
    have hperm : s.next.builder.settled.Perm (span :: s.builder.settled) := by
      rcases settles_next_of_endTag hraw h.accounts.flattened htoken with hsettles | hsettles
      · exact hsettles.settled
      · exact hsettles.settled
    have hstop : span.stop = s.next.place.offset := by
      rw [eq_spanTo_of_endTag htoken, Reader.next, hraw]
      rfl
    have hforward : s.place.offset < s.next.place.offset := by
      rw [Reader.next, hraw]
      exact offset_lt_readToken hrest
    refine ⟨h.inText.before hbefore, haccounts, ?_, ?_⟩
    · rw [hperm.nodup_iff, List.nodup_cons]
      refine ⟨fun hmem => ?_, h.nodup⟩
      have := h.before span hmem
      omega
    · intro span' hspan'
      rcases List.mem_cons.mp (hperm.mem_iff.mp hspan') with rfl | hspan'
      · exact Nat.le_of_eq hstop
      · exact Nat.le_trans (h.before span' hspan') hbefore.offset_le
  · have hperm : s.next.builder.settled.Perm s.builder.settled :=
      (settles_next_of_other fun name span hraw htoken => hend ⟨name, span, hraw, htoken⟩).settled
    refine ⟨h.inText.before hbefore, haccounts, hperm.nodup_iff.mpr h.nodup, ?_⟩
    intro span hspan
    exact Nat.le_trans (h.before span (hperm.mem_iff.mp hspan)) hbefore.offset_le

/-- Reading on takes back no issue. -/
theorem Reaches.issues_subset (h : s.Reaches s') :
  s.builder.issues ⊆ s'.builder.issues
  := by
  induction h with
  | refl => exact List.Subset.refl _
  | tail _ hstep ih =>
      obtain ⟨-, rfl⟩ := hstep
      exact List.Subset.trans ih (issues_subset_next _)

/-- While nothing is nested too deep, the issues account for what was read. -/
theorem Reaches.accounts (h : (start t).Reaches s) (hshallow : s.builder.IsShallow) :
  s.Accounts t
  := by
  induction h with
  | refl => exact accounts_start t
  | @tail s₁ _ _ hstep ih =>
      obtain ⟨hrest, rfl⟩ := hstep
      exact (ih fun i hi => hshallow i (s₁.issues_subset_next hi)).next hrest hshallow

/-- Reading on takes back no end tag. -/
theorem Reaches.settled_subset (h : s.Reaches s') (hstart : (start t).Reaches s)
    (hshallow : s'.builder.IsShallow) :
  s.builder.endTags ⊆ s'.builder.endTags ∧ s.builder.unexpected ⊆ s'.builder.unexpected
  := by
  induction h with
  | refl => exact ⟨List.Subset.refl _, List.Subset.refl _⟩
  | @tail s₁ _ hto hstep ih =>
      obtain ⟨hrest, rfl⟩ := hstep
      have hshallow₁ : s₁.builder.IsShallow := fun i hi => hshallow i (s₁.issues_subset_next hi)
      obtain ⟨hends, hunexpected⟩ := ih hshallow₁
      have hflattened := (Reaches.accounts (hstart.trans hto) hshallow₁).accounts.flattened
      have hstep : s₁.builder.endTags ⊆ s₁.next.builder.endTags
          ∧ s₁.builder.unexpected ⊆ s₁.next.builder.unexpected := by
        by_cases hend : ∃ name span, s₁.raw = none ∧ (readToken s₁.place).value = .endTag name span
        · obtain ⟨name, span, hraw, htoken⟩ := hend
          rcases settles_next_of_endTag hraw hflattened htoken with hsettles | hsettles
          · exact hsettles.subset
          · exact hsettles.subset
        · exact (settles_next_of_other
            fun name span hraw htoken => hend ⟨name, span, hraw, htoken⟩).subset
      exact ⟨List.Subset.trans hends hstep.1, List.Subset.trans hunexpected hstep.2⟩

end Reader

/-- A place where an end tag is read is not the end of the text. -/
theorem rest_ne_nil_of_endTag {p : Place} {name : Text} {span : Span}
    (h : (readToken p).value = .endTag name span) :
  p.rest ≠ []
  := by
  intro hnil
  rw [readToken_of_text (by rw [hnil]; rfl)] at h
  cases h

/-- If nothing in a text is nested too deep, as `not_tooDeep_of_opened_lt` has it where fewer
elements than the limit are open all the time, then the end tags that are reported as missing are
those of the elements that lack them, and each end tag that the reader comes to is that of one
element or is reported as unexpected once, and not both. -/
theorem issues_ofText (hshallow : ∀ i ∈ (Document.ofText t).issues, i.problem ≠ .tooDeep) :
  (Document.ofText t).missing.Perm ((Document.ofText t).lacking t)
    ∧ ∀ s name span, (Reader.start t).Reaches s → s.raw = none →
      (readToken s.place).value = .endTag name span →
      ((Document.ofText t).endTags.count span = 1
          ∧ ((Document.ofText t).unexpected.map (·.2)).count span = 0)
        ∨ ((Document.ofText t).endTags.count span = 0
          ∧ ((Document.ofText t).unexpected.map (·.2)).count span = 1
          ∧ (name, span) ∈ (Document.ofText t).unexpected)
  := by
  obtain ⟨f, hf, hend, hnodes, hissues⟩ := exists_preorder_ofText (P := (Reader.start t).Reaches)
    (fun s hrest hs => hs.tail ⟨hrest, rfl⟩) .refl
  have hgrows := grows_closeUnclosed f.builder f.place.offset f.builder.opened.length
  have hshallow' : f.builder.IsShallow := by
    intro i hi
    apply hshallow
    rw [hissues, List.mem_reverse]
    exact hgrows.issues hi
  have hlast := Reader.Reaches.accounts hf hshallow'
  have haccounts := hlast.accounts.closeUnclosed f.place.offset f.builder.opened.length
  have hsettles := settles_closeUnclosed f.builder f.place.offset f.builder.opened.length
  have hnodup := hsettles.settled.nodup_iff.mpr hlast.nodup
  have hsubset := hsettles.subset
  generalize f.builder.closeUnclosed f.place.offset f.builder.opened.length = closed at *
  have hends : (Document.ofText t).endTags.Perm closed.endTags := hnodes.filterMap _
  have hunexpected : (Document.ofText t).unexpected = closed.unexpected.reverse := by
    rw [Document.unexpected, hissues, List.filterMap_reverse]
    rfl
  constructor
  · rw [Document.missing, hissues, List.filterMap_reverse]
    exact (List.reverse_perm _).trans (haccounts.missing.trans (hnodes.symm.filterMap _))
  · intro s name span hs hraw htoken
    have hstep : (Reader.start t).Reaches s.next := hs.tail ⟨rest_ne_nil_of_endTag htoken, rfl⟩
    have hon : s.next.Reaches f := Reader.Reaches.to_end hstep hf hend
    have hflattened : s.builder.flattened = [] := by
      have hsame := hon.head ⟨rest_ne_nil_of_endTag htoken, rfl⟩
      have hshallow : s.builder.IsShallow := fun i hi =>
        hshallow' i (Reader.Reaches.issues_subset hsame hi)
      exact (Reader.Reaches.accounts hs hshallow).accounts.flattened
    have hkept := Reader.Reaches.settled_subset hon hstep hshallow'
    obtain ⟨hends_nodup, hunexpected_nodup, hdisjoint⟩ := List.nodup_append.mp hnodup
    rw [hends.count_eq, hunexpected, List.map_reverse, List.count_reverse, List.mem_reverse]
    rcases Reader.settles_next_of_endTag hraw hflattened htoken with hclosed | hpassed
    · left
      have hmem : span ∈ closed.endTags :=
        hsubset.1 (hkept.1 (hclosed.endTags.mem_iff.mpr List.mem_cons_self))
      refine ⟨List.count_eq_one_of_mem hends_nodup hmem, List.count_eq_zero.mpr fun hspan => ?_⟩
      exact hdisjoint span hmem span hspan rfl
    · right
      have hmem : (name, span) ∈ closed.unexpected := by
        apply hsubset.2 (hkept.2 _)
        rw [hpassed.unexpected]
        exact List.mem_cons_self
      have hspan : span ∈ closed.unexpected.map (·.2) := List.mem_map_of_mem hmem
      refine ⟨List.count_eq_zero.mpr fun hends => ?_,
        List.count_eq_one_of_mem hunexpected_nodup hspan, hmem⟩
      exact hdisjoint span hends span hspan rfl

/-- An element that is not closed, one that is, and an end tag that closes nothing. -/
theorem issues_ofText_sample :
  let d := Document.ofText "<b><i/></b></q>".toList
  (∀ i ∈ d.issues, i.problem ≠ .tooDeep)
    ∧ d.missing.Perm (d.lacking "<b><i/></b></q>".toList)
    ∧ d.missing = [("i".toList, ⟨3, 7⟩)] ∧ d.endTags = [⟨7, 11⟩]
    ∧ d.unexpected = [("q".toList, ⟨11, 15⟩)]
  := by
  intro d
  have hshallow : ∀ i ∈ d.issues, i.problem ≠ .tooDeep := by decide +kernel
  refine ⟨hshallow, (issues_ofText hshallow).1, ?_, ?_, ?_⟩
  · decide +kernel
  · decide +kernel
  · decide +kernel

end Stencil.Markup
