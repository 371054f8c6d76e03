import Stencil.Proofs.Markup.Frame
import Stencil.Proofs.Markup.Sight

/-!
# Reading an element from within

An element can be read from within, where nothing is known of the elements around it but whether
their content is foreign.  Read in this way, two elements with the same text at the same place are
the same, whatever stands around them and whatever comes after them.
-/

namespace Stencil.Markup

open Text

/-! ### Reading on from within -/

/-- An element that is being read, seen from within: the open elements down to it, the innermost one
first, the place, and the name of the innermost one if it holds nothing but text. -/
structure Inner where
  opened : List Open
  place : Place
  raw : Option Text

/-- Reads on in an element, where the content around it may be foreign. -/
def Inner.next (foreign : Bool) (s : Inner) : Inner :=
  match s.raw with
  | some name =>
    let stop := rawEnd name s.place
    let n : Node := .text (s.place.spanTo stop)
    ⟨if stop.offset > s.place.offset then addTo n s.opened else s.opened, stop, none⟩
  | none =>
    let r := readToken s.place
    let (opened, raw) := r.value.act foreign s.opened
    ⟨opened, r.next, raw⟩

/-- The same, where the text goes on. -/
def Inner.extend (s : Inner) (more : Text) : Inner := { s with place := s.place.extend more }

/-- An open element with one more node, if there is one. -/
def Open.hold (e : Open) (below : Option Node) : Open :=
  { e with children := below.toList ++ e.children }

/-- The node that open elements become that all end at an offset. -/
def closedAt (stop : Nat) (opened : List Open) : Option Node :=
  opened.foldl (fun below e => some ((e.hold below).node stop none)) none

/-- What may become of an element that is being read: it ends where the reader is, or the token
there is its end tag, or the reader goes on in it. -/
inductive Inner.Yields (foreign : Bool) : Inner → Node → Prop
  | here {s : Inner} {n : Node} (hclosed : closedAt s.place.offset s.opened = some n)
      (hstop : n.span.stop = s.place.offset) : Yields foreign s n
  | endTag {s : Inner} {inner : List Open} {e : Open} {span : Span} (hraw : s.raw = none)
      (hrest : s.place.rest ≠ []) (hopened : s.opened = inner ++ [e])
      (hinner : ∀ i ∈ inner, i.name ≠ e.name)
      (htoken : (readToken s.place).value = .endTag e.name span)
      (hstop : ((e.hold (closedAt span.start inner)).node span.stop (some span)).span.stop
        = (readToken s.place).next.offset) :
      Yields foreign s ((e.hold (closedAt span.start inner)).node span.stop (some span))
  | next {s : Inner} {n : Node} (hrest : s.place.rest ≠ [])
      (hopened : (s.next foreign).opened ≠ [])
      (htag : outermostTag (s.next foreign).opened = outermostTag s.opened)
      (h : Yields foreign (s.next foreign) n) : Yields foreign s n

section Yields

variable {foreign : Bool} {s : Inner} {n n' : Node}

theorem Inner.before_next (foreign : Bool) (s : Inner) :
  s.place.Before (s.next foreign).place
  := by
  rw [Inner.next]
  split
  · apply Place.before_rawEnd
  · apply before_readToken

/-- The reader goes forward, except where an element that holds nothing but text is empty. -/
theorem Inner.offset_lt_next (foreign : Bool) {s : Inner} (hrest : s.place.rest ≠ [])
    (hraw : s.raw = none) :
  s.place.offset < (s.next foreign).place.offset
  := by
  rw [Inner.next, hraw]
  exact offset_lt_readToken hrest

theorem Inner.Yields.offset_le (h : s.Yields foreign n) :
  s.place.offset ≤ n.span.stop
  := by
  induction h with
  | here _ hstop => exact Nat.le_of_eq hstop.symm
  | endTag _ hrest _ _ _ hstop =>
      rw [hstop]
      exact Nat.le_of_lt (offset_lt_readToken hrest)
  | next _ _ _ _ ih => exact Nat.le_trans (Inner.before_next foreign _).offset_le ih

/-- What ends where the reader is consists of the elements that are open there. -/
theorem Inner.Yields.closedAt_eq (h : s.Yields foreign n) (hstop : n.span.stop = s.place.offset) :
  closedAt s.place.offset s.opened = some n
  := by
  induction h with
  | here hclosed _ => exact hclosed
  | endTag _ hrest _ _ _ hend =>
      rw [hend] at hstop
      exact absurd hstop (Nat.ne_of_gt (offset_lt_readToken hrest))
  | @next s n hrest _ _ h ih =>
      have hforward := h.offset_le
      rw [hstop] at hforward
      cases hraw : s.raw with
      | none => exact absurd hforward (Nat.not_le_of_lt (Inner.offset_lt_next foreign hrest hraw))
      | some name =>
          have hstay := Nat.le_antisymm hforward (Inner.before_next foreign s).offset_le
          have hclosed := ih (hstop.trans hstay.symm)
          rw [hstay] at hclosed
          rw [Inner.next, hraw] at hclosed hstay
          dsimp only at hclosed hstay
          rwa [if_neg (by omega)] at hclosed

theorem closedAt_concat (stop : Nat) (inner : List Open) (e : Open) :
  closedAt stop (inner ++ [e]) = some ((e.hold (closedAt stop inner)).node stop none)
  := List.foldl_concat ..

/-- An element begins with its start tag. -/
theorem Inner.Yields.start_eq (h : s.Yields foreign n) {tag : Span}
    (htag : outermostTag s.opened = some tag) :
  n.span.start = tag.start
  := by
  induction h with
  | @here s n hclosed _ =>
      obtain ⟨e, he, rfl⟩ := Option.map_eq_some_iff.mp htag
      obtain ⟨inner, hinner⟩ := List.getLast?_eq_some_iff.mp he
      rw [hinner, closedAt_concat] at hclosed
      rw [← Option.some.inj hclosed]
      rfl
  | endTag _ _ hopened _ _ _ =>
      rw [hopened, outermostTag, List.getLast?_concat] at htag
      rw [← Option.some.inj htag]
      rfl
  | next _ _ hsame _ ih => exact ih (hsame.trans htag)

/-! ### The kind of the content -/

/-- A text is read in the same way in content of the two kinds: they are the same, or no start tag
in the text ends with a slash. -/
def Alike (foreign foreign' : Bool) (t : Text) : Prop := ['/', '>'] <:+: t → foreign = foreign'

instance (foreign foreign' : Bool) (t : Text) : Decidable (Alike foreign foreign' t) :=
  inferInstanceAs (Decidable (_ → _))

theorem Place.Before.isInfix {p q : Place} (h : p.Before q) {needle : Text}
    (hq : needle <:+: q.rest) :
  needle <:+: p.rest
  := by
  obtain ⟨mid, hrest, -⟩ := h
  rw [hrest]
  exact hq.trans (List.suffix_append mid q.rest).isInfix

theorem Alike.before {foreign' : Bool} {p q : Place} (h : Alike foreign foreign' p.rest)
    (hbefore : p.Before q) :
  Alike foreign foreign' q.rest
  := fun hslash => h (hbefore.isInfix hslash)

theorem isInfix_of_readTagRest {missing : Issue} {budget : Text} {p : Place}
    (h : (readTagRest missing budget p).value.isClosed = true) :
  ['/', '>'] <:+: p.rest
  := by
  fun_induction readTagRest missing budget p with
  | case1 p _ _ _ _ hrest =>
      apply (p.before_skipWhile isBlank).isInfix
      rw [hrest]
      exact (List.prefix_append ['/', '>'] _).isInfix
  | case2 => cases h
  | case3 p _ _ _ _ _ _ ih =>
      exact ((p.before_skipWhile isBlank).trans (Place.before_skip _ 1)).isInfix (ih h)
  | case4 p q _ _ _ _ _ _ _ hrest _ _ ih =>
      obtain ⟨t, hq⟩ := q.exists_in
      have hattribute := (readAttribute_placed hq (by rw [hrest]; exact List.cons_ne_nil _ _)).1
      exact ((p.before_skipWhile isBlank).trans hattribute).isInfix (ih h)
  | case5 => cases h

theorem readToken_of_value_startTag {p : Place} {name : Text} {span : Span} {rest : TagRest}
    (h : (readToken p).value = .startTag name span rest) :
  readToken p = startTagToken p
  := by
  rcases readToken_kinds p with hkind | hkind | hkind | hkind | hkind
  · rw [hkind, commentToken] at h
    split at h
    · cases h
    · cases h
  · rw [hkind] at h
    cases h
  · rw [hkind] at h
    cases h
  · exact hkind
  · rw [hkind] at h
    cases h

/-- The slash that closes a start tag stands in it. -/
theorem isInfix_of_startTag {p : Place} {name : Text} {span : Span} {rest : TagRest}
    (h : (readToken p).value = .startTag name span rest) (hclosed : rest.isClosed = true) :
  ['/', '>'] <:+: p.rest
  := by
  rw [readToken_of_value_startTag h] at h
  obtain ⟨-, -, rfl⟩ := Token.startTag.inj h
  have hbefore := (p.before_skip 1).trans (Place.before_nameEnd (p.skip 1))
  exact hbefore.isInfix (isInfix_of_readTagRest hclosed)

theorem closesItself_of_alike {foreign' : Bool} {p : Place} (h : Alike foreign foreign' p.rest)
    {name : Text} {span : Span} {rest : TagRest}
    (htoken : (readToken p).value = .startTag name span rest) :
  closesItself foreign name rest = closesItself foreign' name rest
  := by
  cases hclosed : rest.isClosed with
  | true => rw [h (isInfix_of_startTag htoken hclosed)]
  | false => rw [closesItself, closesItself, hclosed, Bool.false_and, Bool.false_and]

/-- In content of either kind, the reader reads on in the same way. -/
theorem Inner.next_of_alike {foreign' : Bool} (h : Alike foreign foreign' s.place.rest) :
  s.next foreign = s.next foreign'
  := by
  rw [Inner.next, Inner.next]
  split
  · rfl
  · dsimp only
    cases htoken : (readToken s.place).value with
    | leaf n => rfl
    | endTag name span => rfl
    | startTag name span rest =>
        dsimp only [Token.act]
        rw [closesItself_of_alike _ htoken]
        exact fun hslash => congrArg _ (h hslash)

/-! ### Reading the same -/

variable {more more' : Text}

theorem Inner.Yields.offset_le_of_token (h : s.Yields foreign n) (hraw : s.raw = none)
    (hlt : s.place.offset < n.span.stop) :
  (readToken s.place).next.offset ≤ n.span.stop
  := by
  cases h with
  | here _ hstop => omega
  | endTag _ _ _ _ _ hstop => exact Nat.le_of_eq hstop.symm
  | next _ _ _ h =>
      have hle := h.offset_le
      rwa [Inner.next, hraw] at hle

theorem offset_lt_of_rest (p : Place) {stop : Nat} (hstop : stop = p.offset + width p.rest)
    (hrest : p.rest ≠ []) :
  p.offset < stop
  := by
  have hpos := List.length_pos_iff.mpr hrest
  have hwidth := length_le_width p.rest
  omega

section Extend

variable (h : (s.extend more).Yields foreign n)
  (hstop : n.span.stop = s.place.offset + width s.place.rest) (hrest : s.place.rest ≠ [])

include h hstop hrest

/-- Within an element, a piece of markup is in sight. -/
theorem Inner.Yields.extends_markup (hraw : s.raw = none)
    (hmarkup : beginsMarkup (s.place.extend more).rest = true) :
  beginsMarkup s.place.rest = true
    ∧ (readToken s.place).Extends more (readToken (s.place.extend more))
  := by
  have htoken := h.offset_le_of_token hraw (offset_lt_of_rest s.place hstop hrest)
  rw [hstop] at htoken
  exact Markup.extends_markup hmarkup (length_le_of_offset_le (before_readToken _) htoken)

/-- Within an element, a token is the same although the text goes on. -/
theorem Inner.Yields.extends_token (hraw : s.raw = none) :
  (readToken s.place).Extends more (readToken (s.place.extend more))
  := by
  have hlt := offset_lt_of_rest s.place hstop hrest
  have htoken := h.offset_le_of_token hraw hlt
  rw [hstop] at htoken
  apply extends_readToken (length_le_of_offset_le (before_readToken _) htoken)
  intro hmarkup q hq hne hbegin
  have hbefore := before_readToken (s.place.extend more)
  rw [hq] at hbefore
  have hsame := (before_of_extend hbefore).offset_add_width
  cases h with
  | here _ hhere => exact absurd hhere (Nat.ne_of_gt hlt)
  | endTag _ _ _ _ hvalue _ =>
      change (readToken (s.place.extend more)).value = _ at hvalue
      rw [readToken_of_text hmarkup] at hvalue
      cases hvalue
  | next _ _ _ h =>
      obtain ⟨opened, p, raw⟩ := s
      obtain rfl : raw = none := hraw
      have hnext : Inner.next foreign (Inner.extend ⟨opened, p, none⟩ more)
          = Inner.extend ⟨((readToken (p.extend more)).value.act foreign opened).1, q, none⟩
            more := by
        simp only [Inner.extend, Inner.next, ← hq]
        rw [readToken_of_text hmarkup]
        rfl
      rw [hnext] at h
      exact (h.extends_markup (hstop.trans hsame.symm) hne rfl hbegin).1

/-- Within an element that holds nothing else, text is the same although the text goes on. -/
theorem Inner.Yields.rawEnd_extend {name : Text} (hname : name ∈ rawNames)
    (hraw : s.raw = some name) :
  rawEnd name (s.place.extend more) = (rawEnd name s.place).extend more
  := by
  have hlt := offset_lt_of_rest s.place hstop hrest
  obtain ⟨opened, p, raw⟩ := s
  obtain rfl : raw = some name := hraw
  cases h with
  | here _ hhere => exact absurd hhere (Nat.ne_of_gt hlt)
  | endTag hnone => cases hnone
  | next _ _ _ h =>
      have hend : (rawEnd name (p.extend more)).offset ≤ n.span.stop := h.offset_le
      rw [hstop] at hend
      apply exists_rawEnd_extend (length_le_of_offset_le (Place.before_rawEnd _ _) hend)
      intro q hq hne
      have hbefore := Place.before_rawEnd name (p.extend more)
      rw [hq] at hbefore
      have hsame := (before_of_extend hbefore).offset_add_width
      obtain ⟨c, rest, hshape, hc, hbegin⟩ := exists_rest_rawEnd (p := p.extend more) hname
        (by rw [hq, rest_extend]; simp [hne])
      rw [hq] at hshape
      have hmarkup : beginsMarkup (q.extend more).rest = true := by
        rw [hshape]
        exact hc
      have hnext : ∃ opened', Inner.next foreign (Inner.extend ⟨opened, p, some name⟩ more)
          = Inner.extend ⟨opened', q, none⟩ more := by
        simp only [Inner.extend, Inner.next, hq]
        exact ⟨_, rfl⟩
      obtain ⟨opened', hnext⟩ := hnext
      rw [hnext] at h
      obtain ⟨hsight, htoken⟩ := h.extends_markup (hstop.trans hsame.symm) hne rfl hmarkup
      exact isPrefix_of_endTag hshape hc hbegin hsight htoken

/-- Within an element, the reader reads on in the same way although the text goes on. -/
theorem Inner.Yields.next_extend (hraw : ∀ name ∈ s.raw, name ∈ rawNames) :
  (s.extend more).next foreign = (s.next foreign).extend more
  := by
  obtain ⟨opened, p, _ | name⟩ := s
  · have htoken := h.extends_token hstop hrest rfl
    simp only [Inner.extend, Inner.next, htoken.value, htoken.next]
  · have htext := h.rawEnd_extend hstop hrest (hraw name rfl) rfl
    simp only [Inner.extend, Inner.next, htext, spanTo_extend]
    rfl

end Extend

theorem findIdx_name {inner outer : List Open} {e : Open} {name : Text}
    (hinner : ∀ i ∈ inner, i.name ≠ name) (he : e.name = name) :
  (inner ++ e :: outer).findIdx (·.name = name) = inner.length
  := by
  rw [List.findIdx_append, if_neg (by simpa using hinner)]
  simp [List.findIdx_cons, he]

/-- The end tag of an element leaves nothing of it open. -/
theorem Inner.opened_next_eq_nil (foreign : Bool) {inner : List Open} {e : Open} {span : Span}
    (hraw : s.raw = none) (hopened : s.opened = inner ++ [e])
    (hinner : ∀ i ∈ inner, i.name ≠ e.name)
    (htoken : (readToken s.place).value = .endTag e.name span) :
  (s.next foreign).opened = []
  := by
  simp only [Inner.next, hraw, htoken, Token.act, hopened, findIdx_name hinner rfl]
  rw [if_pos (by simp)]
  apply List.eq_nil_of_length_eq_zero
  rw [length_closeTop, length_closeTop_iterate]
  simp

/-- Two elements are the same if they end where the reader is, with the same elements open in
them. -/
theorem Inner.Yields.eq_of_rest_eq_nil {foreign' : Bool} {s' : Inner} (h : s.Yields foreign n)
    (h' : s'.Yields foreign' n') (hoffset : s'.place.offset = s.place.offset)
    (hopened : s'.opened = s.opened) (hstop : n.span.stop = s.place.offset)
    (hstop' : n'.span.stop = s.place.offset) :
  n = n'
  := by
  have hclosed := h.closedAt_eq hstop
  have hclosed' := h'.closedAt_eq (hstop'.trans hoffset.symm)
  rw [hoffset, hopened, hclosed] at hclosed'
  exact Option.some.inj hclosed'

theorem Inner.mem_rawNames_next (foreign : Bool) (s : Inner) {name : Text}
    (h : name ∈ (s.next foreign).raw) :
  name ∈ rawNames
  := by
  rw [Inner.next] at h
  split at h
  · cases h
  · dsimp only at h
    generalize (readToken s.place).value = token at h
    cases token with
    | leaf n => cases h
    | endTag name' span =>
        dsimp only [Token.act] at h
        split at h
        · cases h
        · cases h
    | startTag name' span rest =>
        dsimp only [Token.act] at h
        split at h
        · cases h
        · exact mem_rawNames_of_textOnly? h

section Same

variable {foreign' : Bool} (hraw : ∀ name ∈ s.raw, name ∈ rawNames)
    (h' : (s.extend more').Yields foreign' n') (halike : Alike foreign foreign' s.place.rest)
    (hstop' : n'.span.stop = s.place.offset + width s.place.rest)

include h' halike hstop'

/-- An element that ends with its end tag is the same as one that is read from the same place on,
with the same elements open in it, up to the end of the same text. -/
theorem Inner.Yields.eq_of_endTag {inner : List Open} {e : Open} {span : Span}
    (hnone : s.raw = none) (hmore : (s.extend more).place.rest ≠ [])
    (hopened : s.opened = inner ++ [e]) (hinner : ∀ i ∈ inner, i.name ≠ e.name)
    (htoken : (readToken (s.extend more).place).value = .endTag e.name span)
    (hend : ((e.hold (closedAt span.start inner)).node span.stop (some span)).span.stop
      = (readToken (s.extend more).place).next.offset)
    (hstop : ((e.hold (closedAt span.start inner)).node span.stop (some span)).span.stop
      = s.place.offset + width s.place.rest) :
  (e.hold (closedAt span.start inner)).node span.stop (some span) = n'
  := by
  have h : (s.extend more).Yields foreign _ := .endTag hnone hmore hopened hinner htoken hend
  have hraw : ∀ name ∈ s.raw, name ∈ rawNames := by simp [hnone]
  have hrest : s.place.rest ≠ [] := by
    intro hrest
    rw [hrest, width_nil, Nat.add_zero] at hstop
    exact absurd (hend.symm.trans hstop) (Nat.ne_of_gt (offset_lt_readToken hmore))
  have hlt' : s.place.offset < n'.span.stop := offset_lt_of_rest s.place hstop' hrest
  have hnext := h.next_extend hstop hrest hraw
  have hnext' := h'.next_extend hstop' hrest hraw
  rw [← Inner.next_of_alike halike] at hnext'
  have hvalue := (h.extends_token hstop hrest hnone).value
  have hvalue' := (h'.extends_token hstop' hrest hnone).value
  have hnil : ((s.extend more).next foreign).opened = [] :=
    Inner.opened_next_eq_nil foreign hnone hopened hinner htoken
  cases h' with
  | here _ hhere => exact absurd hhere (Nat.ne_of_gt hlt')
  | next _ hopened' _ _ =>
      rw [hnext] at hnil
      rw [hnext'] at hopened'
      exact absurd hnil hopened'
  | endTag _ _ hopened' _ htoken' _ =>
      obtain ⟨rfl, hlast⟩ := List.append_inj' (hopened.symm.trans hopened') rfl
      obtain rfl := List.singleton_inj.mp hlast
      have hsame := htoken.symm.trans (hvalue.trans (hvalue'.symm.trans htoken'))
      obtain ⟨-, rfl⟩ := Token.endTag.inj hsame
      rfl

include hraw

/-- What is read next in an element that does not end here is read next in one that is read from the
same place on, with the same elements open in it, up to the end of the same text. -/
theorem Inner.Yields.next_of_next (h : (s.extend more).Yields foreign n)
    (hstop : n.span.stop = s.place.offset + width s.place.rest)
    (hopened : ((s.extend more).next foreign).opened ≠ []) (hrest : s.place.rest ≠ []) :
  (s.extend more).next foreign = (s.next foreign).extend more
    ∧ ((s.next foreign).extend more').Yields foreign' n'
  := by
  have hlt' : s.place.offset < n'.span.stop := offset_lt_of_rest s.place hstop' hrest
  have hnext := h.next_extend hstop hrest hraw
  have hnext' := h'.next_extend hstop' hrest hraw
  rw [← Inner.next_of_alike halike] at hnext'
  refine ⟨hnext, ?_⟩
  cases h' with
  | here _ hhere => exact absurd hhere (Nat.ne_of_gt hlt')
  | endTag hnone hmore' hopened' hinner htoken hend =>
      have hnil := Inner.opened_next_eq_nil foreign' hnone hopened' hinner htoken
      rw [hnext'] at hnil
      rw [hnext] at hopened
      exact absurd hnil hopened
  | next _ _ _ h' =>
      rw [hnext'] at h'
      exact h'

end Same

/-- Two elements are the same if they are read from the same place on, with the same elements open
in them, up to the end of the same text, and the kind of the content around them does not matter. -/
theorem Inner.Yields.eq {foreign' : Bool} (hraw : ∀ name ∈ s.raw, name ∈ rawNames)
    (h : (s.extend more).Yields foreign n) (h' : (s.extend more').Yields foreign' n')
    (halike : Alike foreign foreign' s.place.rest)
    (hstop : n.span.stop = s.place.offset + width s.place.rest)
    (hstop' : n'.span.stop = s.place.offset + width s.place.rest) :
  n = n'
  := by
  generalize hs : s.extend more = r at h
  induction h generalizing s with
  | @here r n hclosed hhere =>
      subst hs
      have hrest : s.place.rest = [] := by
        by_contra hrest
        exact absurd hhere (Nat.ne_of_gt (offset_lt_of_rest s.place hstop hrest))
      rw [hrest, width_nil, Nat.add_zero] at hstop hstop'
      have h : (s.extend more).Yields foreign n := .here hclosed hhere
      exact h.eq_of_rest_eq_nil h' rfl rfl hstop hstop'
  | endTag hnone hmore hopened hinner htoken hend =>
      subst hs
      exact h'.eq_of_endTag halike hstop' hnone hmore hopened hinner htoken hend hstop
  | @next r n hmore hopened htag h ih =>
      subst hs
      have hyields := Inner.Yields.next hmore hopened htag h
      by_cases hrest : s.place.rest = []
      · rw [hrest, width_nil, Nat.add_zero] at hstop hstop'
        exact hyields.eq_of_rest_eq_nil h' rfl rfl hstop hstop'
      obtain ⟨hnext, hyields'⟩ :=
        Inner.Yields.next_of_next hraw h' halike hstop' hyields hstop hopened hrest
      have hbefore := Inner.before_next foreign s
      have hsame := hbefore.offset_add_width
      exact ih (fun name hname => Inner.mem_rawNames_next foreign s hname) hyields'
        (halike.before hbefore) (hstop.trans hsame.symm) (hstop'.trans hsame.symm) hnext.symm

end Yields

end Stencil.Markup
