import Stencil.Proofs.Script.Lookup

/-!
# The parts of a script

Collecting the tokens cuts the text of a script into parts without a rest: tokens, characters
between tokens that are skipped, and comments.  The scan forgets no atom that begins where it stands
or later, so a part that is no atom ends before the next atom begins.  As every offset lies in a
part, every atom begins in one that was taken.
-/

namespace Stencil.Script

open Text

/-! ### Tokens that are cut from a text -/

theorem Token.quotedLength_le (quote : Char) (escaped : Bool) (t : Text) :
  quotedLength quote escaped t ≤ t.length
  := by
  fun_induction quotedLength quote escaped t with
  | case1 => exact Nat.le_refl 0
  | case2 c t ih => exact Nat.succ_le_succ ih
  | case3 c t hquote => simp
  | case4 c t hquote ih => exact Nat.succ_le_succ ih

theorem length_le_of_markAt? {t : Text} {m : String} {length : Nat}
    (h : markAt? t = some (m, length)) :
  length ≤ t.length
  := by
  obtain ⟨⟨name, piece⟩, hfind, hname⟩ := Option.map_eq_some_iff.mp h
  cases hname
  have hprefix := List.find?_some hfind
  exact (List.isPrefixOf_iff_prefix.mp hprefix).length_le

/-- A token takes no more characters than there are. -/
theorem Token.length_cut_le (c : Char) (t : Text) :
  (cut c t).2 ≤ t.length
  := by
  unfold cut
  split
  · exact quotedLength_le c false t
  split
  · exact (List.takeWhile_prefix _).length_le
  split
  · exact (List.takeWhile_prefix _).length_le
  · split
    · next m length hmark =>
        have hlength := length_le_of_markAt? hmark
        rw [List.length_cons] at hlength
        omega
    · exact Nat.zero_le _

theorem lt_add_width (pos : Nat) (c : Char) (t : Text) :
  pos < pos + width (c :: t)
  := by
  have hc := c.utf8Size_pos
  rw [width_cons]
  omega

/-- A character ends no later than the next boundary. -/
theorem next_le_of_isBoundary {source rest : Text} {c : Char} {pos n : Nat}
    (hcut : source.Cut pos (c :: rest)) (hn : IsBoundary n source) (hlt : pos < n) :
  pos + c.utf8Size ≤ n ∧ IsBoundary (n - pos - c.utf8Size) rest
  := by
  have hnext := hcut.isBoundary.onward hn (Nat.le_of_lt hlt)
  rw [hcut.onward_eq] at hnext
  obtain ⟨hle, hboundary⟩ := hnext.resolve_left (by omega)
  exact ⟨by omega, hboundary⟩

/-- The first characters of those that begin before a boundary end no later than it. -/
theorem width_take_le {n more : Nat} {t : Text} (hn : IsBoundary n t)
    (hmore : more ≤ (before n t).length) :
  width (t.take more) ≤ n
  := by
  have htake : t.take more = (before n t).take more := by
    rw [← List.take_append_of_le_length hmore, before_append_onward]
  have hwidth := congrArg width (List.take_append_drop more (before n t))
  rw [width_append, width_before hn] at hwidth
  rw [htake]
  omega

/-! ### Atoms that are left -/

/-- The atom is not empty, and it stands between characters of the text. -/
structure Atom.IsProper (source : Text) (a : Atom) : Prop where
  nonempty : a.span.start < a.span.stop
  onBoundaries : a.span.OnBoundaries source

instance Atom.decidableIsProper (source : Text) (a : Atom) : Decidable (a.IsProper source) :=
  decidable_of_iff (a.span.start < a.span.stop ∧ a.span.OnBoundaries source)
    ⟨fun h => ⟨h.1, h.2⟩, fun h => ⟨h.1, h.2⟩⟩

/-- Of all atoms those that are left at an offset, in the order in which they begin: apart from
empty ones, none that begins at the offset or behind it is missing. -/
structure Ahead (all : List Atom) (pos : Nat) (left : List Atom) : Prop where
  subset : ∀ a ∈ left, a ∈ all
  complete : ∀ a ∈ all, a.span.start < a.span.stop → pos ≤ a.span.start → a ∈ left
  inOrder : left.Pairwise fun a b => a.span.start ≤ b.span.start

/-- No atom that is not empty begins in the span. -/
def IsFree (all : List Atom) (s : Span) : Prop :=
  ∀ a ∈ all, a.span.start < a.span.stop → s.start ≤ a.span.start → s.stop ≤ a.span.start

namespace Ahead

variable {all left later : List Atom} {atom : Atom} {pos pos' : Nat}

theorem mono (h : Ahead all pos left) (hpos : pos ≤ pos') :
  Ahead all pos' left
  := ⟨h.subset, fun a ha hne hstart => h.complete a ha hne (Nat.le_trans hpos hstart), h.inOrder⟩

/-- The atoms that begin before the offset are dropped. -/
theorem dropWhile (h : Ahead all pos left) (hleft : left.dropWhile (·.span.start < pos) = later) :
  Ahead all pos later ∧ ∀ a ∈ later, pos ≤ a.span.start
  := by
  have hsplit : left.takeWhile (·.span.start < pos) ++ later = left := by
    rw [← hleft, List.takeWhile_append_dropWhile]
  have hlater : ∀ a ∈ later, pos ≤ a.span.start := by
    have hdropped : left.Pairwise fun a b =>
        decide (a.span.start < pos) = false → decide (b.span.start < pos) = false :=
      h.inOrder.imp fun hab ha => by
        simp only [decide_eq_false_iff_not] at ha ⊢
        omega
    intro a ha
    rw [← hleft] at ha
    simpa using eq_false_of_mem_dropWhile hdropped a ha
  have hsublist : later.Sublist left := hleft ▸ List.dropWhile_sublist _
  refine ⟨⟨fun a ha => h.subset a (hsublist.subset ha), ?_, h.inOrder.sublist hsublist⟩, hlater⟩
  intro a ha hne hstart
  have hmem := h.complete a ha hne hstart
  rw [← hsplit, List.mem_append] at hmem
  rcases hmem with hdropped | hkept
  · have := List.mem_takeWhile_imp hdropped
    simp only [decide_eq_true_eq] at this
    omega
  · exact hkept

/-- Behind the first atom the others are left. -/
theorem tail (h : Ahead all atom.span.start (atom :: later)) :
  Ahead all (max atom.span.start atom.span.stop) later
  := by
  constructor
  · exact fun a ha => h.subset a (List.mem_cons_of_mem _ ha)
  · intro a ha hne hstart
    rcases List.mem_cons.mp (h.complete a ha hne (by omega)) with rfl | hlater
    · omega
    · exact hlater
  · exact (List.pairwise_cons.mp h.inOrder).2

/-- No atom begins before the first of those that are left. -/
theorem isFree (h : Ahead all pos (atom :: later)) {stop : Nat} (hstop : stop ≤ atom.span.start) :
  IsFree all ⟨pos, stop⟩
  := by
  intro a ha hne hstart
  rcases List.mem_cons.mp (h.complete a ha hne hstart) with rfl | hlater
  · exact hstop
  · exact Nat.le_trans hstop ((List.pairwise_cons.mp h.inOrder).1 a hlater)

/-- Where no atom is left, none begins. -/
theorem isFree_of_nil (h : Ahead all pos []) (stop : Nat) :
  IsFree all ⟨pos, stop⟩
  := fun a ha hne hstart => absurd (h.complete a ha hne hstart) List.not_mem_nil

end Ahead

/-! ### The parts of a text -/

/-- A part of a script: a token, a character that is skipped, or a comment. -/
inductive Portion where
  | token (k : Token)
  | gap (s : Span)
  | comment (s : Span)

namespace Portion

/-- Where the part stands. -/
def span : Portion → Span
  | token k => k.span
  | gap s => s
  | comment s => s

/-- The token that the part is, if it is one. -/
def token? : Portion → Option Token
  | token k => some k
  | gap _ => none
  | comment _ => none

theorem eq_of_token? {q : Portion} {k : Token} (h : q.token? = some k) :
  q = token k
  := by
  cases q <;> cases h
  rfl

/-- The part that an atom is where it is taken. -/
def ofAtom (source : Text) (a : Atom) : Portion :=
  if a.kind.isComment then comment a.span else token ⟨a.kind, a.span.text source, a.span⟩

@[simp]
theorem span_ofAtom (source : Text) (a : Atom) :
  (ofAtom source a).span = a.span
  := by
  unfold ofAtom
  split <;> rfl

/-- The part is one of the atoms, or a token or a skipped character in which no atom begins. -/
inductive Stands (source : Text) (all : List Atom) : Portion → Prop where
  | atom {a : Atom} (ha : a ∈ all) : Stands source all (ofAtom source a)
  | piece {pos : Nat} {c : Char} {t rest : Text} (kind : TokenKind)
      (hcut : source.Cut pos (c :: t ++ rest)) (hfree : IsFree all ⟨pos, pos + width (c :: t)⟩) :
      Stands source all (token ⟨kind, c :: t, ⟨pos, pos + width (c :: t)⟩⟩)
  | gap {pos : Nat} {c : Char} {rest : Text} (hcut : source.Cut pos (c :: rest))
      (hgap : Token.isGap c = true) (hfree : IsFree all ⟨pos, pos + c.utf8Size⟩) :
      Stands source all (gap ⟨pos, pos + c.utf8Size⟩)

end Portion

/-- The text from an offset on is cut into the parts, of which the given tokens are those that are
tokens. -/
structure Splits (source : Text) (all : List Atom) (pos : Nat) (ks : List Token)
    (portions : List Portion) : Prop where
  leads : Span.Leads pos (width source) (portions.map Portion.span)
  tokens_eq : portions.filterMap Portion.token? = ks
  stands : ∀ q ∈ portions, q.Stands source all

namespace Splits

variable {source : Text} {all : List Atom} {pos stop : Nat} {ks : List Token}
variable {portions : List Portion}

theorem nil (source : Text) (all : List Atom) :
  Splits source all (width source) [] []
  := ⟨.nil, rfl, nofun⟩

/-- A part before those that the text behind it is cut into. -/
theorem cons {q : Portion} (h : Splits source all (max pos stop) ks portions)
    (hq : q.Stands source all) (hspan : q.span = ⟨pos, stop⟩) :
  Splits source all pos (q.token?.toList ++ ks) (q :: portions)
  := by
  constructor
  · rw [List.map_cons, hspan]
    exact .cons h.leads
  · rw [List.filterMap_cons, ← h.tokens_eq]
    cases q.token? <;> rfl
  · exact List.forall_mem_cons.mpr ⟨hq, h.stands⟩

/-- A part of some width before the other parts. -/
theorem consWidth {q : Portion} {size : Nat} (h : Splits source all (pos + size) ks portions)
    (hq : q.Stands source all) (hspan : q.span = ⟨pos, pos + size⟩) :
  Splits source all pos (q.token?.toList ++ ks) (q :: portions)
  := by
  apply cons _ hq hspan
  rw [Nat.max_eq_right (Nat.le_add_right _ _)]
  exact h

end Splits

/-- The text from an offset on is cut into parts, of which the tokens that are collected are those
that are tokens. -/
theorem exists_splits_tokensFrom {source rest : Text} {pos : Nat} {all left : List Atom}
    (hcut : source.Cut pos rest) (hleft : Ahead all pos left)
    (hall : ∀ a ∈ all, a.span.OnBoundaries source) :
  ∃ portions, Splits source all pos (tokensFrom rest pos left) portions
  := by
  -- what is cut next is put before the parts of the rest, and `Ahead` goes on behind it
  fun_induction tokensFrom rest pos left with
  | case1 pos left =>
      obtain ⟨front, rfl, rfl⟩ := hcut
      rw [List.append_nil]
      exact ⟨[], .nil front all⟩
  | case2 left c rest atom later hcomment hnext after ih =>
      obtain ⟨hahead, -⟩ := hleft.dropWhile hnext
      have hatom := hahead.subset atom List.mem_cons_self
      obtain ⟨portions, hportions⟩ := ih (hcut.behind (hall atom hatom).2) hahead.tail
      have hcons := hportions.cons (.atom hatom) (Portion.span_ofAtom source atom)
      rw [Portion.ofAtom, if_pos hcomment] at hcons
      exact ⟨_, hcons⟩
  | case3 left c rest atom later hcomment hnext after ih =>
      obtain ⟨hahead, -⟩ := hleft.dropWhile hnext
      have hatom := hahead.subset atom List.mem_cons_self
      obtain ⟨portions, hportions⟩ := ih (hcut.behind (hall atom hatom).2) hahead.tail
      have hcons := hportions.cons (.atom hatom) (Portion.span_ofAtom source atom)
      rw [Portion.ofAtom, if_neg hcomment, Span.text, slice, hcut.onward_eq] at hcons
      exact ⟨_, hcons⟩
  | case4 pos left c rest atom later hnext hlater hgap ih =>
      obtain ⟨hahead, hbegins⟩ := hleft.dropWhile hnext
      have hstart := (hall atom (hahead.subset atom List.mem_cons_self)).1
      have hlt := Nat.lt_of_le_of_ne (hbegins atom List.mem_cons_self) (Ne.symm hlater)
      obtain ⟨hle, -⟩ := next_le_of_isBoundary hcut hstart hlt
      obtain ⟨portions, hportions⟩ := ih hcut.cons (hahead.mono (Nat.le_add_right _ _))
      exact ⟨_, hportions.consWidth (.gap hcut hgap (hahead.isFree hle)) rfl⟩
  | case5 pos left c rest atom later hnext hlater hgap piece kind more hmore value stop ih =>
      obtain ⟨hahead, hbegins⟩ := hleft.dropWhile hnext
      have hstart := (hall atom (hahead.subset atom List.mem_cons_self)).1
      have hlt := Nat.lt_of_le_of_ne (hbegins atom List.mem_cons_self) (Ne.symm hlater)
      obtain ⟨hle, hrest⟩ := next_le_of_isBoundary hcut hstart hlt
      have hvalue : source.Cut pos (value ++ rest.drop more) := by
        simpa [value] using hcut
      have hlength : more ≤ piece.length := by
        rw [← show (Token.cut c piece).2 = more from congrArg Prod.snd hmore]
        exact Token.length_cut_le c piece
      have hwidth := width_take_le hrest hlength
      obtain ⟨portions, hportions⟩ := ih hvalue.append (hahead.mono (Nat.le_add_right _ _))
      have hfree : IsFree all ⟨pos, stop⟩ := by
        apply hahead.isFree
        simp only [stop, value, width_cons]
        omega
      exact ⟨_, hportions.consWidth (.piece kind hvalue hfree) rfl⟩
  | case6 pos left c rest hnext hgap ih =>
      obtain ⟨hahead, -⟩ := hleft.dropWhile hnext
      obtain ⟨portions, hportions⟩ := ih hcut.cons (hahead.mono (Nat.le_add_right _ _))
      exact ⟨_, hportions.consWidth (.gap hcut hgap (hahead.isFree_of_nil _)) rfl⟩
  | case7 pos left c rest hnext hgap kind more hmore value stop ih =>
      obtain ⟨hahead, -⟩ := hleft.dropWhile hnext
      have hvalue : source.Cut pos (value ++ rest.drop more) := by
        simpa [value] using hcut
      obtain ⟨portions, hportions⟩ := ih hvalue.append (hahead.mono (Nat.le_add_right _ _))
      exact ⟨_, hportions.consWidth (.piece kind hvalue (hahead.isFree_of_nil _)) rfl⟩

/-! ### The parts of a script -/

namespace Portion

variable {source : Text} {all : List Atom}

/-- A part that is a token has its text, and it is one of the atoms unless no atom begins in it. -/
theorem of_stands_token {k : Token} (h : (token k).Stands source all)
    (hall : ∀ a ∈ all, a.span.OnBoundaries source) :
  k.span.OnBoundaries source ∧ k.value = k.span.text source
    ∧ ((k.kind.isComment = false ∧ ⟨k.span, k.kind⟩ ∈ all) ∨ IsFree all k.span)
  := by
  generalize hq : token k = q at h
  cases h with
  | @atom a ha =>
      unfold ofAtom at hq
      split at hq
      · cases hq
      · next hkind =>
          obtain rfl := token.inj hq
          exact ⟨hall a ha, rfl, Or.inl ⟨by simpa using hkind, ha⟩⟩
  | piece kind hcut hfree =>
      obtain rfl := token.inj hq
      exact ⟨⟨hcut.isBoundary, hcut.append.isBoundary⟩, hcut.slice_eq.symm, Or.inr hfree⟩
  | gap => cases hq

/-- A part that is skipped is a single blank. -/
theorem of_stands_gap {s : Span} (h : (gap s).Stands source all) :
  ∃ c rest, Token.isGap c = true ∧ source.Cut s.start ([c] ++ rest)
    ∧ s.stop = s.start + c.utf8Size
  := by
  generalize hq : gap s = q at h
  cases h with
  | atom =>
      unfold ofAtom at hq
      split at hq <;> cases hq
  | piece => cases hq
  | @gap pos c rest hcut hgap =>
      obtain rfl := gap.inj hq
      exact ⟨c, rest, hgap, hcut, rfl⟩

/-- A part that is a comment is one of the atoms. -/
theorem of_stands_comment {s : Span} (h : (comment s).Stands source all) :
  ∃ a ∈ all, a.kind.isComment = true ∧ a.span = s
  := by
  generalize hq : comment s = q at h
  cases h with
  | @atom a ha =>
      unfold ofAtom at hq
      split at hq
      · next hkind =>
          obtain rfl := comment.inj hq
          exact ⟨a, ha, hkind, rfl⟩
      · cases hq
  | piece => cases hq
  | gap => cases hq

namespace Stands

variable {q : Portion}

/-- An atom that is not empty begins only in an atom. -/
theorem exists_of_begins (h : q.Stands source all) {a : Atom} (ha : a ∈ all)
    (hne : a.span.start < a.span.stop) (hbegins : q.span.contains a.span.start = true) :
  ∃ b ∈ all, q = ofAtom source b
  := by
  obtain ⟨hstart, hstop⟩ := Span.contains_iff.mp hbegins
  cases h with
  | @atom b hb => exact ⟨b, hb, rfl⟩
  | piece kind hcut hfree => exact absurd (hfree a ha hne hstart) (Nat.not_le.mpr hstop)
  | gap hcut hgap hfree => exact absurd (hfree a ha hne hstart) (Nat.not_le.mpr hstop)

/-- A part is not empty unless it is an empty atom. -/
theorem nonempty (h : q.Stands source all) (hall : ∀ a ∈ all, a.span.start < a.span.stop) :
  q.span.start < q.span.stop
  := by
  cases h with
  | @atom a ha =>
      rw [span_ofAtom]
      exact hall a ha
  | piece => apply lt_add_width
  | @gap _ c => exact Nat.lt_add_of_pos_right c.utf8Size_pos

end Stands

end Portion

/-- Every offset lies in exactly one of the parts that follow each other. -/
theorem existsUnique_of_consecutive {portions : List Portion} {start stop n : Nat}
    (h : Span.Consecutive start stop (portions.map Portion.span)) (hstart : start ≤ n)
    (hstop : n < stop) :
  ∃! q, q ∈ portions ∧ q.span.contains n = true
  := by
  obtain ⟨r, hr, hcontains⟩ := h.exists_contains hstart hstop
  obtain ⟨q, hq, rfl⟩ := List.mem_map.mp hr
  refine ⟨q, ⟨hq, hcontains⟩, fun q' ⟨hq', hcontains'⟩ => ?_⟩
  have hapart := List.pairwise_map.mp (h.pairwise.imp Span.apart_of_stop_le_start)
  have hsymm : Std.Symm fun q q' : Portion => Span.Apart q.span q'.span := ⟨fun _ _ h => h.symm⟩
  by_contra hne
  exact hapart.forall hq' hq hne n hcontains' hcontains

namespace Splits

variable {source : Text} {all : List Atom} {pos : Nat} {ks : List Token} {portions : List Portion}

theorem mem_token (h : Splits source all pos ks portions) {k : Token} :
  k ∈ ks ↔ .token k ∈ portions
  := by
  rw [← h.tokens_eq, List.mem_filterMap]
  constructor
  · rintro ⟨q, hq, hqk⟩
    rwa [Portion.eq_of_token? hqk] at hq
  · exact fun hk => ⟨_, hk, rfl⟩

/-- The parts follow each other unless atoms are empty. -/
theorem consecutive (h : Splits source all pos ks portions)
    (hall : ∀ a ∈ all, a.span.start < a.span.stop) :
  Span.Consecutive pos (width source) (portions.map Portion.span)
  := by
  apply h.leads.consecutive
  rw [List.forall_mem_map]
  exact fun q hq => (h.stands q hq).nonempty hall

/-- The tokens are not empty, and each of them ends before the next one begins. -/
theorem pairwise_tokens (h : Splits source all pos ks portions)
    (hall : ∀ a ∈ all, a.span.start < a.span.stop) :
  (∀ k ∈ ks, k.span.start < k.span.stop) ∧ ks.Pairwise fun k k' => k.span.stop ≤ k'.span.start
  := by
  constructor
  · intro k hk
    exact (h.stands _ (h.mem_token.mp hk)).nonempty hall
  · rw [← h.tokens_eq]
    apply (List.pairwise_map.mp (h.consecutive hall).pairwise).filterMap
    intro q q' hqq' k hk k' hk'
    rw [Portion.eq_of_token? hk, Portion.eq_of_token? hk'] at hqq'
    exact hqq'

end Splits

variable {source : Text} {tree : Node} {comments : List Token}

theorem mem_atoms {a : Atom} :
  a ∈ atoms tree comments
    ↔ (∃ n ∈ tree.preorder, n.atom? = some a) ∨ ∃ c ∈ comments, ⟨c.span, c.kind⟩ = a
  := by
  rw [atoms, List.mem_mergeSort, List.mem_append, List.mem_filterMap, List.mem_map]

/-- A part that is a comment is one of the script. -/
theorem exists_comment_of_stands {s : Span}
    (h : (Portion.comment s).Stands source (atoms tree comments)) :
  ∃ c ∈ comments, c.span = s
  := by
  obtain ⟨a, ha, hkind, rfl⟩ := Portion.of_stands_comment h
  rcases mem_atoms.mp ha with ⟨n, -, hn⟩ | ⟨c, hc, rfl⟩
  · rw [Node.isComment_of_atom? hn] at hkind
    cases hkind
  · exact ⟨c, hc, rfl⟩

/-- At the beginning all atoms are left. -/
theorem ahead_atoms (tree : Node) (comments : List Token) :
  Ahead (atoms tree comments) 0 (atoms tree comments)
  := by
  constructor
  · exact fun _ ha => ha
  · exact fun _ ha _ _ => ha
  · apply (List.pairwise_mergeSort _ _ _).imp of_decide_eq_true
    · intro a b c hab hbc
      rw [decide_eq_true_eq] at *
      apply Nat.le_trans hab hbc
    · intro a b
      rw [Bool.or_eq_true, decide_eq_true_eq, decide_eq_true_eq]
      apply Nat.le_total

/-- The text of a script is cut into parts, of which its tokens are those that are tokens. -/
theorem exists_splits (hatoms : ∀ a ∈ atoms tree comments, a.span.OnBoundaries source) :
  ∃ portions, Splits source (atoms tree comments) 0 (tokens source tree comments) portions
  := exists_splits_tokensFrom (cut_zero source) (ahead_atoms tree comments) hatoms

/-- The token is a literal or a template of the tree. -/
def Token.IsLiteral (tree : Node) (k : Token) : Prop :=
  ∃ n ∈ tree.preorder, n.atom? = some ⟨k.span, k.kind⟩

/-- The parts make up the text of a script with the given tree and comments.  They follow each
other through the whole text, so that every byte lies in exactly one of them; those that are tokens
are the tokens of the script, and each of the others is a single blank or a comment.  A literal,
template or comment is a part itself unless it begins in another one that is, and it is none if it
begins within a part. -/
structure IsPartition (source : Text) (tree : Node) (comments : List Token)
    (portions : List Portion) : Prop where
  consecutive : Span.Consecutive 0 (width source) (portions.map Portion.span)
  existsUnique : ∀ n < width source, ∃! q, q ∈ portions ∧ q.span.contains n = true
  tokens_eq : portions.filterMap Portion.token? = tokens source tree comments
  gap : ∀ s, .gap s ∈ portions →
    s.OnBoundaries source ∧ ∃ c, Token.isGap c = true ∧ s.text source = [c]
  comment : ∀ s, .comment s ∈ portions → ∃ c ∈ comments, c.span = s
  taken : ∀ a ∈ atoms tree comments, Portion.ofAtom source a ∈ portions
    ∨ ∃ b ∈ atoms tree comments, b ≠ a ∧ Portion.ofAtom source b ∈ portions
      ∧ b.span.contains a.span.start = true
  passed : ∀ a ∈ atoms tree comments, ∀ q ∈ portions,
    q.span.start < a.span.start → a.span.start < q.span.stop → Portion.ofAtom source a ∉ portions

/-- The parts into which the text of a script is cut make it up. -/
theorem Splits.isPartition {portions : List Portion}
    (h : Splits source (atoms tree comments) 0 (tokens source tree comments) portions)
    (hatoms : ∀ a ∈ atoms tree comments, a.IsProper source) :
  IsPartition source tree comments portions
  := by
  have hconsecutive := h.consecutive fun a ha => (hatoms a ha).nonempty
  have hunique (n : Nat) (hn : n < width source) :=
    existsUnique_of_consecutive hconsecutive (Nat.zero_le n) hn
  have hbegin (a : Atom) (ha : a ∈ atoms tree comments) : a.span.start < width source :=
    Nat.lt_of_lt_of_le (hatoms a ha).nonempty (hatoms a ha).onBoundaries.2.le_width
  constructor
  · exact hconsecutive
  · exact hunique
  · exact h.tokens_eq
  · intro s hs
    obtain ⟨c, rest, hgap, hcut, hstop⟩ := Portion.of_stands_gap (h.stands _ hs)
    refine ⟨⟨hcut.isBoundary, ?_⟩, c, hgap, ?_⟩
    · rw [hstop]
      exact hcut.cons.isBoundary
    · rw [Span.text, hstop]
      exact hcut.slice_eq
  · exact fun s hs => exists_comment_of_stands (h.stands _ hs)
  · intro a ha
    obtain ⟨q, ⟨hq, hcontains⟩, -⟩ := hunique a.span.start (hbegin a ha)
    obtain ⟨b, hb, rfl⟩ := (h.stands q hq).exists_of_begins ha (hatoms a ha).nonempty hcontains
    rw [Portion.span_ofAtom] at hcontains
    by_cases hba : b = a
    · exact Or.inl (hba ▸ hq)
    · exact Or.inr ⟨b, hb, hba, hq, hcontains⟩
  · intro a ha q hq hstart hstop hmem
    -- the byte with which the atom begins would lie in both parts
    have hq' := Span.contains_iff.mpr ⟨Nat.le_of_lt hstart, hstop⟩
    have ha' : (Portion.ofAtom source a).span.contains a.span.start = true := by
      rw [Portion.span_ofAtom]
      exact Span.contains_start (hatoms a ha).nonempty
    have heq := (hunique a.span.start (hbegin a ha)).unique ⟨hq, hq'⟩ ⟨hmem, ha'⟩
    rw [heq, Portion.span_ofAtom] at hstart
    exact Nat.lt_irrefl _ hstart

/-- Where the literals, templates and comments of a script are not empty and stand between
characters, its tokens are not empty, they stand between characters one behind the other, each with
its text, and one that is no literal or template ends before the next literal, template or comment
begins.  With single blanks and comments that are passed over they make up the text, and each of its
bytes lies in exactly one of these parts. -/
theorem tokens_partition (hcomments : ∀ c ∈ comments, c.isComment = true)
    (hatoms : ∀ a ∈ atoms tree comments, a.IsProper source) :
  ((tokens source tree comments).Pairwise fun k k' => k.span.stop ≤ k'.span.start)
    ∧ (∀ k ∈ tokens source tree comments,
      k.span.start < k.span.stop ∧ k.span.OnBoundaries source ∧ k.value = k.span.text source
        ∧ (k.IsLiteral tree
          ∨ ∀ a ∈ atoms tree comments, k.span.start ≤ a.span.start → k.span.stop ≤ a.span.start))
    ∧ ∃ portions, IsPartition source tree comments portions
  := by
  have hne : ∀ a ∈ atoms tree comments, a.span.start < a.span.stop :=
    fun a ha => (hatoms a ha).nonempty
  have hends : ∀ a ∈ atoms tree comments, a.span.OnBoundaries source :=
    fun a ha => (hatoms a ha).onBoundaries
  obtain ⟨portions, h⟩ := exists_splits hends
  obtain ⟨hnonempty, hinOrder⟩ := h.pairwise_tokens hne
  refine ⟨hinOrder, fun k hk => ?_, portions, h.isPartition hatoms⟩
  obtain ⟨honBoundaries, hvalue, hkind⟩ :=
    Portion.of_stands_token (h.stands _ (h.mem_token.mp hk)) hends
  refine ⟨hnonempty k hk, honBoundaries, hvalue, ?_⟩
  rcases hkind with ⟨hkind, hmem⟩ | hfree
  · rcases mem_atoms.mp hmem with hliteral | ⟨c, hc, hck⟩
    · exact Or.inl hliteral
    · have hcomment := hcomments c hc
      obtain ⟨-, hkinds⟩ := Atom.mk.inj hck
      rw [Token.isComment, hkinds, hkind] at hcomment
      cases hcomment
  · exact Or.inr fun a ha => hfree a ha (hne a ha)

/-- A template that holds a comment, and another comment behind it. -/
def templateSource : Text := ofString "é`a${/*c*/b}` // d"

def templateTree : Node :=
  .mk 2 ⟨0, 14⟩ (.taggedTemplate (.mk 0 ⟨0, 2⟩ (.identifier (ofString "é")))
    (.mk 1 ⟨2, 14⟩ (.templateLiteral (ofString "`a${/*c*/b}`"))))

def templateComments : List Token :=
  [⟨.blockComment, ofString "c", ⟨6, 11⟩⟩, ⟨.lineComment, ofString " d", ⟨15, 19⟩⟩]

theorem tokens_partition_template :
  (∀ c ∈ templateComments, c.isComment = true)
    ∧ (∀ a ∈ atoms templateTree templateComments, a.IsProper templateSource)
    ∧ (tokens templateSource templateTree templateComments).map (·.span) = [⟨0, 2⟩, ⟨2, 14⟩]
    ∧ ∃ portions, IsPartition templateSource templateTree templateComments portions
  := by
  have heq : atoms templateTree templateComments
      = (templateTree.preorderWithin 2).filterMap Node.atom?
        ++ templateComments.map fun c => ⟨c.span, c.kind⟩ :=
    atoms_eq 2 (by decide +kernel) (by decide +kernel)
  have hcomments : ∀ c ∈ templateComments, c.isComment = true := by decide
  have hatoms : ∀ a ∈ atoms templateTree templateComments, a.IsProper templateSource := by
    rw [heq]
    decide +kernel
  have htokens : (tokens templateSource templateTree templateComments).map (·.span)
      = [⟨0, 2⟩, ⟨2, 14⟩] := by
    rw [tokens, heq, tokensFrom_eq_tokensWithin (Nat.lt_succ_self _)]
    decide +kernel
  exact ⟨hcomments, hatoms, htokens, (tokens_partition hcomments hatoms).2.2⟩

end Stencil.Script
