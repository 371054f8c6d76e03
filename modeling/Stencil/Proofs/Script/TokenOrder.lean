import Stencil.Proofs.Script.CommentOrder
import Stencil.Proofs.Script.Lookup
import Stencil.Proofs.Script.Partition

/-!
# The order of tokens

Tokens are cut from left to right.  None of them is empty, since a literal or a template takes a
lexeme at least, and each of them ends before the next one begins.  So bisection finds exactly those
that lie in a span.
-/

namespace Stencil.Script

/-- The tokens are not empty, and each of them ends before the next one begins. -/
structure Apart (ks : List Token) : Prop where
  nonempty : ∀ k ∈ ks, k.span.start < k.span.stop
  pairwise : ks.Pairwise (·.span.stop ≤ ·.span.start)

namespace Apart

variable {ks : List Token}

theorem inOrder (h : Apart ks) :
  InOrder ks
  := by
  constructor
  · apply h.pairwise.imp_of_mem
    intro k m hk _ hle
    exact Nat.le_trans (Nat.le_of_lt (h.nonempty k hk)) hle
  · apply h.pairwise.imp_of_mem
    intro k m _ hm hle
    exact Nat.le_trans hle (Nat.le_of_lt (h.nonempty m hm))

/-- Of tokens that lie apart those are found that lie in the span. -/
theorem within_eq (h : Apart ks) (s : Span) :
  within ks s = ks.filter (s.encloses ·.span)
  := h.inOrder.within_eq s

end Apart

/-- The tokens lie apart behind an offset. -/
structure ApartFrom (pos : Nat) (ks : List Token) : Prop extends Apart ks where
  behind : ∀ k ∈ ks, pos ≤ k.span.start

namespace ApartFrom

variable {pos pos' : Nat} {ks : List Token} {k : Token}

theorem nil (pos : Nat) :
  ApartFrom pos []
  := ⟨⟨nofun, .nil⟩, nofun⟩

theorem mono (h : ApartFrom pos' ks) (hpos : pos ≤ pos') :
  ApartFrom pos ks
  := ⟨h.toApart, fun k hk => Nat.le_trans hpos (h.behind k hk)⟩

theorem cons (h : ApartFrom pos ks) (hk : k.span.start < k.span.stop) (hpos : k.span.stop ≤ pos) :
  ApartFrom k.span.start (k :: ks)
  := by
  constructor
  · constructor
    · exact List.forall_mem_cons.mpr ⟨hk, h.nonempty⟩
    · exact List.pairwise_cons.mpr ⟨(h.mono hpos).behind, h.pairwise⟩
  · exact List.forall_mem_cons.mpr
      ⟨Nat.le_refl _, (h.mono (Nat.le_trans (Nat.le_of_lt hk) hpos)).behind⟩

/-- A piece of a text stands before the tokens behind it. -/
theorem piece (kind : TokenKind) {c : Char} {t : Text}
    (h : ApartFrom (pos + Text.width (c :: t)) ks) :
  ApartFrom pos (⟨kind, c :: t, ⟨pos, pos + Text.width (c :: t)⟩⟩ :: ks)
  := h.cons (k := ⟨kind, c :: t, ⟨pos, pos + Text.width (c :: t)⟩⟩) (lt_add_width pos c t)
    (Nat.le_refl _)

end ApartFrom

/-- The tokens of a text lie apart, if no atom is empty. -/
theorem apartFrom_tokensFrom {rest : Text} {pos : Nat} {atoms : List Atom}
    (hatoms : ∀ a ∈ atoms, a.span.start < a.span.stop) :
  ApartFrom pos (tokensFrom rest pos atoms)
  := by
  fun_induction tokensFrom rest pos atoms with
  | case1 => exact .nil _
  | case2 atoms c rest atom later hcomment hnext after ih =>
      obtain ⟨-, hlater⟩ := List.forall_mem_cons.mp (forall_mem_of_dropWhile hatoms hnext)
      exact (ih hlater).mono (Nat.le_max_left _ _)
  | case3 atoms c rest atom later hcomment hnext after ih =>
      obtain ⟨hatom, hlater⟩ := List.forall_mem_cons.mp (forall_mem_of_dropWhile hatoms hnext)
      exact (ih hlater).cons (k := ⟨atom.kind, _, atom.span⟩) hatom (Nat.le_max_right _ _)
  | case4 pos atoms c rest atom later hnext hlater hgap ih =>
      exact (ih (forall_mem_of_dropWhile hatoms hnext)).mono (Nat.le_add_right _ _)
  | case5 pos atoms c rest atom later hnext hlater hgap piece kind more hmore value stop ih =>
      exact (ih (forall_mem_of_dropWhile hatoms hnext)).piece kind
  | case6 pos atoms c rest hnext hgap ih =>
      exact (ih (List.forall_mem_nil _)).mono (Nat.le_add_right _ _)
  | case7 pos atoms c rest hnext hgap kind more hmore value stop ih =>
      exact (ih (List.forall_mem_nil _)).piece kind

/-! ### The tokens of a program -/

/-- Where a value is said by a lexeme, the text is not at its end. -/
theorem LiteralValue.Agrees.ne_stop {value : LiteralValue} {l : Lexeme} (h : value.Agrees l) :
  l ≠ .stop
  := by
  rintro rfl
  cases value <;> obtain ⟨_, ⟨⟩⟩ := h

namespace Program

variable {source : Text} {p : Program}

/-- The literals and templates of a program are not empty. -/
theorem nonempty_of_atom? (h : ofText source = .ok p) {n : Node} (hn : n ∈ p.tree.preorder)
    {a : Atom} (hatom : n.atom? = some a) :
  a.span.start < a.span.stop
  := by
  obtain ⟨-, hlexed⟩ := sound_of_ofText h n hn
  obtain ⟨hspan, -⟩ := Node.kind_of_atom? hatom
  rw [hspan]
  unfold Node.atom? at hatom
  split at hatom
  · next value raw hkind =>
      obtain ⟨l, hl, hagrees, hn⟩ := hlexed.literal value raw hkind
      rw [hn]
      exact hl.start_lt_stop hagrees.ne_stop
  · next raw hkind =>
      obtain ⟨l, hl, ⟨part, valid, hlexeme⟩, hstart, hstop⟩ := hlexed.template raw hkind
      have hlt : l.start < l.stop := by
        apply hl.start_lt_stop
        rw [hlexeme]
        exact nofun
      omega
  · cases hatom

/-- The tokens of a program lie apart. -/
theorem apart_tokens (h : ofText source = .ok p) :
  Apart p.tokens
  := by
  obtain ⟨-, -, -, -, htokens⟩ := parsed_of_ofText h
  rw [htokens]
  apply ApartFrom.toApart
  apply apartFrom_tokensFrom
  intro a ha
  rcases mem_atoms.mp ha with ⟨n, hn, hatom⟩ | ⟨comment, hcomment, rfl⟩
  · exact nonempty_of_atom? h hn hatom
  · exact comment_nonempty h hcomment

/-- The tokens of a program are found that lie in a span. -/
theorem tokensIn_eq (h : ofText source = .ok p) (s : Span) :
  p.tokensIn s = p.tokens.filter (s.encloses ·.span)
  := (apart_tokens h).within_eq s

end Program

end Stencil.Script
