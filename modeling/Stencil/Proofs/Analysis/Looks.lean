import Stencil.Proofs.Analysis.Items
import Stencil.Proofs.Markup.Reading

/-!
# What looks the same

A walk through the views of a document takes parts for the same that have the same type, the same
span and the same text.  This text may be read in two ways: a slash closes a start tag only in
foreign content, and beyond the limit on the depth nothing is opened.  Where the views agree on
these, what looks the same is the same, with all that is in it.
-/

namespace Stencil

open Text

namespace Markup

/-! ### Elements in foreign content -/

mutual

/-- The spans of the elements in a node, each with whether the content around it is foreign. -/
def Node.elements (foreign : Bool) : Node → List (Span × Bool)
  | .element span name _ _ children _ =>
    (span, foreign) :: elementsAll (foreign || name ∈ foreignNames) children
  | .text _ => []
  | .comment _ => []
  | .doctype _ => []

/-- The spans of the elements in several nodes, each with whether the content around it is
foreign. -/
def elementsAll (foreign : Bool) : List Node → List (Span × Bool)
  | [] => []
  | n :: rest => n.elements foreign ++ elementsAll foreign rest

end

/-- The spans of the elements of a document, each with whether it stands in foreign content. -/
def Document.elements (d : Document) : List (Span × Bool) := elementsAll false d.children

theorem mem_elementsAll_of_mem {foreign : Bool} {nodes : List Node} {n : Node} (hn : n ∈ nodes)
    {x : Span × Bool} (hx : x ∈ n.elements foreign) :
  x ∈ elementsAll foreign nodes
  := by
  induction nodes with
  | nil => cases hn
  | cons m rest ih =>
      rw [elementsAll]
      rcases List.mem_cons.mp hn with rfl | hn
      · exact List.mem_append_left _ hx
      · exact List.mem_append_right _ (ih hn)

theorem Node.Stands.mem_elementsAll {n : Node} {foreign outer : Bool} {nodes : List Node}
    (h : n.Stands foreign outer nodes) (hn : n.isElement = true) :
  (n.span, foreign) ∈ elementsAll outer nodes
  := by
  induction h with
  | here h =>
      apply mem_elementsAll_of_mem h
      cases n with
      | element => exact List.mem_cons_self
      | text => cases hn
      | comment => cases hn
      | doctype => cases hn
  | inside h _ ih => exact mem_elementsAll_of_mem h (List.mem_cons_of_mem _ ih)

/-- The nodes in an element stand where the element does, with its own content around them. -/
theorem Node.Stands.child {foreign outer : Bool} {nodes children : List Node} {span startTag : Span}
    {name : Text} {attributes : List Attribute} {endTag : Option Span}
    (h : (Node.element span name startTag attributes children endTag).Stands foreign outer nodes)
    {n : Node} (hn : n ∈ children) :
  n.Stands (foreign || name ∈ foreignNames) outer nodes
  := by
  induction h with
  | here h => exact .inside h (.here hn)
  | inside h _ ih => exact .inside h ih

end Markup

namespace Analysis

open Markup

/-! ### What parts look like -/

/-- The part stands in the markup of the view. -/
inductive Occurs (view : View) : Part → Prop
  | top : Occurs view (.document view.markup)
  | part {p q : Part} (h : Occurs view p) (hq : q ∈ Part.anatomy.parts visitorKeys p) :
    Occurs view q

/-- What a part of a view and all that is in it look like, in the order of a walk. -/
def looks (view : View) (p : Part) : List Appearance :=
  (Part.anatomy.outline visitorKeys p).values.map (appearance view)

/-- Parts of the views that look the same look the same in all that is in them. -/
def LooksSettled (views : List View) : Prop :=
  ∀ v ∈ views, ∀ w ∈ views, ∀ p q, Occurs v p → Occurs w q →
    appearance v p.item = appearance w q.item → looks v p = looks w q

theorem values_outline (p : Part) :
  (Part.anatomy.outline visitorKeys p).values
    = p.item :: (Part.anatomy.parts visitorKeys p).flatMap fun q =>
      (Part.anatomy.outline visitorKeys q).values
  := by
  rw [Anatomy.outline_eq, Outline.values_node, List.flatMap_map]
  rfl

theorem looks_eq (view : View) (p : Part) :
  looks view p
    = appearance view p.item :: (Part.anatomy.parts visitorKeys p).flatMap (looks view)
  := by
  rw [looks, values_outline, List.map_cons, List.map_flatMap]
  rfl

theorem length_looks_lt (view : View) {p q : Part}
    (hq : q ∈ Part.anatomy.parts visitorKeys p) :
  (looks view q).length < (looks view p).length
  := by
  rw [looks_eq view p, List.length_cons]
  exact Nat.lt_succ_of_le (List.sublist_flatten_of_mem (List.mem_map_of_mem hq)).length_le

/-! ### What looks the same is the same -/

/-- Nothing in the views is nested too deep, and elements with the same span and the same text agree
on whether they stand in foreign content, if a start tag in them might end with a slash. -/
structure IsUniform (views : List View) : Prop where
  shallow : ∀ v ∈ views, ∀ i ∈ v.markup.issues, i.problem ≠ .tooDeep
  agree : ∀ v ∈ views, ∀ w ∈ views, ∀ x ∈ v.markup.elements, ∀ y ∈ w.markup.elements,
    x.1 = y.1 → x.1.text v.text = y.1.text w.text → Alike x.2 y.2 (x.1.text v.text)

instance (views : List View) : Decidable (IsUniform views) :=
  decidable_of_iff ((∀ v ∈ views, ∀ i ∈ v.markup.issues, i.problem ≠ .tooDeep)
    ∧ ∀ v ∈ views, ∀ w ∈ views, ∀ x ∈ v.markup.elements, ∀ y ∈ w.markup.elements,
      x.1 = y.1 → x.1.text v.text = y.1.text w.text → Alike x.2 y.2 (x.1.text v.text))
    ⟨fun h => ⟨h.1, h.2⟩, fun h => ⟨h.shallow, h.agree⟩⟩

/-- Where a part of a view stands in its markup. -/
def StandsIn (view : View) : Part → Prop
  | .document d => d = view.markup
  | .node n => ∃ foreign, n.Stands foreign false view.markup.children
  | .attr _ => True

theorem Occurs.standsIn {view : View} {p : Part} (h : Occurs view p) :
  StandsIn view p
  := by
  induction h with
  | top => rfl
  | @part p q _ hq ih =>
      obtain ⟨key, hq⟩ := Anatomy.exists_mem_field_of_mem_parts hq
      replace hq : q ∈ p.field key := by simpa [Part.anatomy] using hq
      unfold Part.field at hq
      split at hq
      · obtain ⟨n, hn, rfl⟩ := List.mem_map.mp hq
        rw [show _ = view.markup from ih] at hn
        exact ⟨false, .here hn⟩
      · obtain ⟨a, ha, rfl⟩ := List.mem_map.mp hq
        trivial
      · obtain ⟨n, hn, rfl⟩ := List.mem_map.mp hq
        obtain ⟨foreign, hstands⟩ := ih
        exact ⟨_, hstands.child hn⟩
      · cases hq

theorem parts_element (span : Span) (name : Text) (startTag : Span) (attributes : List Attribute)
    (children : List Node) (endTag : Option Span) :
  Part.anatomy.parts visitorKeys (.node (.element span name startTag attributes children endTag))
    = attributes.map .attr ++ children.map .node
  := by
  rw [Part.parts_eq]
  exact congrArg (attributes.map Part.attr ++ ·) (List.append_nil _)

/-- A part of a type without fields has nothing in it. -/
theorem values_of_fieldsOf {p : Part} (h : visitorKeys.fieldsOf p.item.typeName = []) :
  (Part.anatomy.outline visitorKeys p).values = [p.item]
  := by
  rw [values_outline, Part.parts_eq, h]
  rfl

/-- All that is in a node that is in place stands in the span of the node. -/
theorem isPiece_of_mem_values {t : Text} {n : Node} (h : n.Placed t) {i : Item}
    (hi : i ∈ (Part.anatomy.outline visitorKeys (.node n)).values) :
  i.span.IsPiece t ∧ n.span.start ≤ i.span.start ∧ i.span.stop ≤ n.span.stop
  := by
  have hleaf {n : Node} (hn : n.Placed t) (hitem : (Part.node n).item.span = n.span) (i : Item)
      (hi : i ∈ [(Part.node n).item]) :
      i.span.IsPiece t ∧ n.span.start ≤ i.span.start ∧ i.span.stop ≤ n.span.stop := by
    rw [List.mem_singleton.mp hi, hitem]
    exact ⟨hn.isPiece, Nat.le_refl _, Nat.le_refl _⟩
  induction h generalizing i with
  | text h =>
      rw [values_of_fieldsOf rfl] at hi
      exact hleaf (.text h) rfl i hi
  | comment h =>
      rw [values_of_fieldsOf rfl] at hi
      exact hleaf (.comment h) rfl i hi
  | doctype h =>
      rw [values_of_fieldsOf rfl] at hi
      exact hleaf (.doctype h) rfl i hi
  | @element span name startTag attributes children endTag h hchildren ih =>
      have hstart := h.startTag_start
      have hstop := h.startTag_stop
      have hcontent := h.contentStop_le
      rw [values_outline, parts_element, List.flatMap_append, List.flatMap_map,
        List.flatMap_map] at hi
      rcases List.mem_cons.mp hi with hi | hi
      · exact hleaf (.element h hchildren) rfl i (List.mem_singleton.mpr hi)
      · rcases List.mem_append.mp hi with hi | hi
        · obtain ⟨a, ha, hi⟩ := List.mem_flatMap.mp hi
          rw [values_of_fieldsOf rfl] at hi
          obtain rfl := List.mem_singleton.mp hi
          have hmem : a.span ∈ attributes.map (·.span) := List.mem_map_of_mem ha
          obtain ⟨hfirst, hlast⟩ := h.attributes.spans.inside _ hmem
          refine ⟨h.attributes.spans.isPiece _ hmem, ?_, ?_⟩
          · exact Nat.le_trans (Nat.le_of_eq hstart.symm) hfirst
          · exact Nat.le_trans hlast (Nat.le_trans hstop hcontent)
        · obtain ⟨m, hm, hi⟩ := List.mem_flatMap.mp hi
          obtain ⟨hpiece, hfirst, hlast⟩ := ih m hm hi
          obtain ⟨hbegin, hend⟩ := h.children.inside m.span (List.mem_map_of_mem hm)
          have hforward := h.startTag_isPiece.nonempty
          refine ⟨hpiece, ?_, ?_⟩
          · change span.start ≤ i.span.start
            omega
          · change i.span.stop ≤ span.stop
            omega

/-- What is in an element looks the same in two views in which it stands if the text of the element
is the same. -/
theorem looks_eq_of_text {v w : View} {n : Node} (h : n.Placed v.text) (h' : n.Placed w.text)
    (htext : n.span.text v.text = n.span.text w.text) :
  looks v (.node n) = looks w (.node n)
  := by
  apply List.map_congr_left
  intro i hi
  obtain ⟨hpiece, hfirst, hlast⟩ := isPiece_of_mem_values h hi
  obtain ⟨hpiece', -, -⟩ := isPiece_of_mem_values h' hi
  have hslice {t : Text} (hn : n.Placed t) (hi : i.span.IsPiece t) :
      Text.slice (n.span.text t) (i.span.start - n.span.start) (i.span.stop - n.span.start)
        = i.span.text t :=
    slice_slice hn.isPiece.onBoundaries.1 hn.isPiece.onBoundaries.2 hi.onBoundaries.1
      hi.onBoundaries.2 hfirst (Nat.le_of_lt hi.nonempty) hlast
  rw [appearance, appearance, ← hslice h hpiece, ← hslice h' hpiece', htext]

/-- Kinds with the same name are the same, unless they are those of elements. -/
theorem eq_of_typeName {k k' : ItemKind} (h : k.typeName = k'.typeName) :
  k = k' ∨ (∃ name attributes, k = .element name attributes)
    ∧ ∃ name attributes, k' = .element name attributes
  := by
  cases k <;> cases k'
  all_goals
    first
    | exact Or.inl rfl
    | exact Or.inr ⟨⟨_, _, rfl⟩, ⟨_, _, rfl⟩⟩
    | simp [ItemKind.typeName] at h

theorem eq_document_of_kind {p : Part} (h : p.item.kind = .document) :
  ∃ d, p = .document d
  := by
  cases p with
  | document d => exact ⟨d, rfl⟩
  | node n => cases n <;> cases h
  | attr a => cases h

theorem eq_element_of_kind {p : Part} {name : Text} {attributes : List Attribute}
    (h : p.item.kind = .element name attributes) :
  ∃ n, p = .node n ∧ n.isElement = true
  := by
  cases p with
  | document d => cases h
  | node n =>
      cases n with
      | element => exact ⟨_, rfl, rfl⟩
      | text => cases h
      | comment => cases h
      | doctype => cases h
  | attr a => cases h

theorem span_item (n : Node) :
  (Part.node n).item.span = n.span
  := by cases n <;> rfl

section IsUniform

variable {views : List View} (h : IsUniform views) {v w : View} (hv : v ∈ views) (hw : w ∈ views)

include h hv hw

/-- Where the views are uniform, elements that look the same are the same. -/
theorem IsUniform.element_eq {n m : Node} (hp : Occurs v (.node n)) (hq : Occurs w (.node m))
    (hn : n.isElement = true) (hm : m.isElement = true) (hspan : n.span = m.span)
    (htext : n.span.text v.text = m.span.text w.text) :
  n = m ∧ looks v (.node n) = looks w (.node m)
  := by
  obtain ⟨foreign, hstands⟩ := hp.standsIn
  obtain ⟨foreign', hstands'⟩ := hq.standsIn
  have halike := h.agree v hv w hw _ (hstands.mem_elementsAll hn) _ (hstands'.mem_elementsAll hm)
    hspan htext
  obtain rfl : n = m :=
    eq_of_stands (h.shallow v hv) (h.shallow w hw) hstands hstands' hn hm hspan htext halike
  exact ⟨rfl, looks_eq_of_text (hstands.placed (inOrder_ofText v.text).placed)
    (hstands'.placed (inOrder_ofText w.text).placed) htext⟩

omit h hv hw in
/-- Parts that look the same and have nothing in them are the same. -/
theorem outline_eq_of_fieldsOf {p q : Part} (hlook : appearance v p.item = appearance w q.item)
    (hkind : p.item.kind = q.item.kind) (hfields : visitorKeys.fieldsOf p.item.typeName = []) :
  Part.anatomy.outline visitorKeys p = Part.anatomy.outline visitorKeys q ∧ looks v p = looks w q
  := by
  obtain ⟨htype, hspan, -⟩ := Appearance.mk.inj hlook
  have hfields' : visitorKeys.fieldsOf q.item.typeName = [] := by rwa [← htype]
  have hitem : p.item = q.item := by
    rcases hp : p.item with ⟨kind, span⟩
    rcases hq : q.item with ⟨kind', span'⟩
    rw [hp, hq] at hkind hspan
    cases hkind
    cases hspan
    rfl
  constructor
  · rw [Anatomy.outline_eq, Anatomy.outline_eq, Part.parts_eq, Part.parts_eq, hfields, hfields']
    exact congrArg (Outline.node · []) hitem
  · rw [looks, looks, values_of_fieldsOf hfields, values_of_fieldsOf hfields']
    exact congrArg (fun a => [a]) hlook

omit h hv hw in
/-- Documents that look the same are the same. -/
theorem outline_eq_of_document
    (hlook : appearance v (Part.document v.markup).item
      = appearance w (Part.document w.markup).item) :
  v.text = w.text
  := by
  have hall (view : View) : (Part.document view.markup).item.span.text view.text = view.text := by
    have hwidth : (Part.document view.markup).item.span = ⟨0, width view.text⟩ := rfl
    rw [hwidth, Span.text, slice_width (isBoundary_zero _), onward_zero]
  obtain ⟨-, -, htext⟩ := Appearance.mk.inj hlook
  rwa [hall, hall] at htext

/-- Where the views are uniform, parts that look the same are the same, and what is in them looks
the same. -/
theorem IsUniform.outline_eq {p q : Part} (hp : Occurs v p) (hq : Occurs w q)
    (hlook : appearance v p.item = appearance w q.item) :
  Part.anatomy.outline visitorKeys p = Part.anatomy.outline visitorKeys q ∧ looks v p = looks w q
  := by
  obtain ⟨htype, hspan, htext⟩ := Appearance.mk.inj hlook
  have helements {name name' : Text} {attributes attributes' : List Attribute}
      (hk : p.item.kind = .element name attributes)
      (hk' : q.item.kind = .element name' attributes') :
      Part.anatomy.outline visitorKeys p = Part.anatomy.outline visitorKeys q
        ∧ looks v p = looks w q := by
    obtain ⟨n, rfl, hn⟩ := eq_element_of_kind hk
    obtain ⟨m, rfl, hm⟩ := eq_element_of_kind hk'
    rw [span_item] at htext
    rw [span_item, span_item] at hspan
    rw [span_item] at htext
    obtain ⟨rfl, hlooks⟩ := h.element_eq hv hw hp hq hn hm hspan htext
    exact ⟨rfl, hlooks⟩
  rcases eq_of_typeName htype with hkind | ⟨⟨name, attributes, hk⟩, ⟨name', attributes', hk'⟩⟩
  · cases hk : p.item.kind with
    | document =>
        obtain ⟨d, rfl⟩ := eq_document_of_kind hk
        obtain ⟨d', rfl⟩ := eq_document_of_kind (hkind.symm.trans hk)
        obtain rfl : d = v.markup := hp.standsIn
        obtain rfl : d' = w.markup := hq.standsIn
        have hsame := outline_eq_of_document hlook
        have hmarkup : v.markup = w.markup := by rw [View.markup, hsame, View.markup]
        refine ⟨by rw [hmarkup], ?_⟩
        rw [looks, looks, hmarkup]
        apply List.map_congr_left
        intro i _
        rw [appearance, appearance, hsame]
    | element name attributes => exact helements hk (hkind.symm.trans hk)
    | attr => exact outline_eq_of_fieldsOf hlook hkind (by rw [Item.typeName, hk]; rfl)
    | text => exact outline_eq_of_fieldsOf hlook hkind (by rw [Item.typeName, hk]; rfl)
    | comment => exact outline_eq_of_fieldsOf hlook hkind (by rw [Item.typeName, hk]; rfl)
    | doctype => exact outline_eq_of_fieldsOf hlook hkind (by rw [Item.typeName, hk]; rfl)
  · exact helements hk hk'

end IsUniform

end Analysis

end Stencil
