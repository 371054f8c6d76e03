import Mathlib.Data.List.TakeWhile
import Stencil.Proofs.Script.Tokens

/-!
# Looking up tokens

If the tokens begin and end in order, then bisection finds exactly those that lie in a span.  The
tokens of a text can be cut by recursion on a bound for the number of cuts.
-/

namespace Stencil.Script

/-! ### Bisection -/

/-- Where a condition holds up to some place of a list and not behind it, bisection finds that
place. -/
theorem bisect_eq {α : Type} {condition : α → Bool} {front back : List α}
    (hfront : ∀ a ∈ front, condition a = true) (hback : ∀ a ∈ back, condition a = false) :
  bisect condition (front ++ back).toArray 0 (front ++ back).length = front.length
  := by
  obtain ⟨-, hle, hbefore, hat⟩ :=
    bisect_spec condition (front ++ back).toArray (Nat.zero_le (front ++ back).length)
  generalize bisect condition (front ++ back).toArray 0 (front ++ back).length = n at *
  rcases Nat.lt_trichotomy n front.length with hlt | heq | hgt
  · have hn := hat (by rw [List.length_append]; omega)
    rw [List.getElem?_toArray, List.getElem?_append_left hlt, List.getElem?_eq_getElem hlt,
      Option.any_some, hfront _ (List.getElem_mem hlt)] at hn
    cases hn
  · exact heq
  · have hn := hbefore (by omega)
    have hlt : n - 1 - front.length < back.length := by
      rw [List.length_append] at hle
      omega
    rw [List.getElem?_toArray, List.getElem?_append_right (by omega), List.getElem?_eq_getElem hlt,
      Option.any_some, hback _ (List.getElem_mem hlt)] at hn
    cases hn

/-- A condition that once it fails goes on failing fails behind the place where it fails first. -/
theorem eq_false_of_mem_dropWhile {α : Type} {condition : α → Bool} {l : List α}
    (h : l.Pairwise fun a b => condition a = false → condition b = false) :
  ∀ a ∈ l.dropWhile condition, condition a = false
  := by
  induction l with
  | nil => exact nofun
  | cons a l ih =>
      obtain ⟨ha, hl⟩ := List.pairwise_cons.mp h
      cases hcondition : condition a with
      | true =>
          rw [List.dropWhile_cons_of_pos hcondition]
          exact ih hl
      | false =>
          rw [List.dropWhile_cons_of_neg (by simp [hcondition])]
          exact List.forall_mem_cons.mpr ⟨hcondition, fun b hb => ha b hb hcondition⟩

section TakeWhile

variable {α : Type} {condition : α → Bool} {l front back : List α}

/-- Bisection finds how long a condition holds that once it fails goes on failing. -/
theorem bisect_eq_takeWhile (h : l.Pairwise fun a b => condition a = false → condition b = false) :
  bisect condition l.toArray 0 l.length = (l.takeWhile condition).length
  := by
  have hholds : ∀ a ∈ l.takeWhile condition, condition a = true :=
    fun a ha => List.mem_takeWhile_imp ha
  have hfound := bisect_eq hholds (eq_false_of_mem_dropWhile h)
  rwa [List.takeWhile_append_dropWhile] at hfound

/-- Such a condition holds of the beginning of a list only. -/
theorem filter_eq_takeWhile (h : l.Pairwise fun a b => condition a = false → condition b = false) :
  l.filter condition = l.takeWhile condition
  := by
  have hholds : ∀ a ∈ l.takeWhile condition, condition a = true :=
    fun a ha => List.mem_takeWhile_imp ha
  have hfails := eq_false_of_mem_dropWhile h
  calc
    l.filter condition = (l.takeWhile condition ++ l.dropWhile condition).filter condition := by
      rw [List.takeWhile_append_dropWhile]
    _ = l.takeWhile condition := by
      rw [List.filter_append, List.filter_eq_self.mpr hholds,
        List.filter_eq_nil_iff.mpr (by simpa using hfails), List.append_nil]

/-- What it holds of behind the beginning of a list. -/
theorem take_eq_takeWhile
    (h : (front ++ back).Pairwise fun a b => condition a = false → condition b = false) :
  back.take (max front.length ((front ++ back).takeWhile condition).length - front.length)
    = back.takeWhile condition
  := by
  by_cases hall : ∀ a ∈ front, condition a = true
  · rw [List.takeWhile_append_of_pos hall, List.length_append, Nat.max_eq_right (by omega),
      Nat.add_sub_cancel_left]
    exact (List.prefix_iff_eq_take.mp (List.takeWhile_prefix _)).symm
  · simp only [not_forall, Bool.not_eq_true] at hall
    obtain ⟨a, ha, hfails⟩ := hall
    have hshort : ((front ++ back).takeWhile condition).length ≤ front.length := by
      obtain ⟨rest, hrest⟩ := List.takeWhile_prefix (p := condition) (l := front ++ back)
      by_contra hlong
      have hmem : a ∈ (front ++ back).takeWhile condition := by
        have := List.prefix_of_prefix_length_le (List.prefix_append front back) ⟨rest, hrest⟩
          (by omega)
        exact this.subset ha
      rw [List.mem_takeWhile_imp hmem] at hfails
      cases hfails
    have hback : back.takeWhile condition = [] := by
      rw [← filter_eq_takeWhile (List.pairwise_append.mp h).2.1, List.filter_eq_nil_iff]
      intro b hb
      rw [(List.pairwise_append.mp h).2.2 a ha b hb hfails]
      exact nofun
    rw [Nat.max_eq_left hshort, Nat.sub_self, hback, List.take_zero]

end TakeWhile

/-- The tokens begin and end in order. -/
structure InOrder (ks : List Token) : Prop where
  starts : ks.Pairwise (·.span.start ≤ ·.span.start)
  stops : ks.Pairwise (·.span.stop ≤ ·.span.stop)

/-- Of tokens in order those are found that lie in the span. -/
theorem InOrder.within_eq {ks : List Token} (h : InOrder ks) (s : Span) :
  within ks s = ks.filter (s.encloses ·.span)
  := by
  let before (k : Token) : Bool := k.span.start < s.start
  let ends (k : Token) : Bool := k.span.stop ≤ s.stop
  have hbefore : ks.Pairwise fun a b => before a = false → before b = false := by
    apply h.starts.imp
    intro a b hle ha
    simp only [before, decide_eq_false_iff_not] at *
    omega
  have hends : ks.Pairwise fun a b => ends a = false → ends b = false := by
    apply h.stops.imp
    intro a b hle ha
    simp only [ends, decide_eq_false_iff_not] at *
    omega
  have hwithin : within ks s = (ks.drop (ks.takeWhile before).length).take
      (max (ks.takeWhile before).length (ks.takeWhile ends).length
        - (ks.takeWhile before).length) := by
    rw [← bisect_eq_takeWhile hbefore, ← bisect_eq_takeWhile hends]
    unfold within
    dsimp only
    rw [List.size_toArray, Array.toList_extract, List.extract_eq_take_drop]
  have hsplit := List.takeWhile_append_dropWhile (p := before) (l := ks)
  have hout : ∀ k ∈ ks.takeWhile before, before k = true := fun k hk => List.mem_takeWhile_imp hk
  have hin := eq_false_of_mem_dropWhile hbefore
  generalize ks.takeWhile before = front at *
  generalize ks.dropWhile before = back at *
  subst hsplit
  have hfront : front.filter (s.encloses ·.span) = [] := by
    rw [List.filter_eq_nil_iff]
    intro k hk
    have := of_decide_eq_true (hout k hk)
    rw [Span.encloses_iff]
    omega
  have hback : back.filter (s.encloses ·.span) = back.filter ends := by
    apply List.filter_congr
    intro k hk
    have := of_decide_eq_false (hin k hk)
    simp only [Span.encloses, ends, Bool.and_eq_right_iff_imp, decide_eq_true_eq]
    omega
  rw [hwithin, List.drop_left, take_eq_takeWhile hends, List.filter_append, hfront, hback,
    List.nil_append, filter_eq_takeWhile (List.pairwise_append.mp hends).2.1]

/-! ### Tokens by steps -/

/-- The tokens of a text as they are cut in at most the given number of cuts. -/
def tokensWithin : Nat → Text → Nat → List Atom → List Token
  | 0, _, _, _ => []
  | cuts + 1, rest, pos, atoms =>
    match rest with
    | [] => []
    | c :: t =>
      match atoms.dropWhile (·.span.start < pos) with
      | atom :: later =>
        if atom.span.start = pos then
          let after := tokensWithin cuts (Text.onward (atom.span.stop - pos) (c :: t))
            (max pos atom.span.stop) later
          if atom.kind.isComment then after
          else ⟨atom.kind, Text.before (atom.span.stop - pos) (c :: t), atom.span⟩ :: after
        else if Token.isGap c then tokensWithin cuts t (pos + c.utf8Size) (atom :: later)
        else
          let (kind, more) := Token.cut c (Text.before (atom.span.start - pos - c.utf8Size) t)
          let value := c :: t.take more
          let stop := pos + Text.width value
          ⟨kind, value, ⟨pos, stop⟩⟩ :: tokensWithin cuts (t.drop more) stop (atom :: later)
      | [] =>
        if Token.isGap c then tokensWithin cuts t (pos + c.utf8Size) []
        else
          let (kind, more) := Token.cut c t
          let value := c :: t.take more
          let stop := pos + Text.width value
          ⟨kind, value, ⟨pos, stop⟩⟩ :: tokensWithin cuts (t.drop more) stop []

/-- No more cuts are needed than there are characters and atoms. -/
theorem tokensFrom_eq_tokensWithin {cuts : Nat} {rest : Text} {pos : Nat} {atoms : List Atom}
    (h : rest.length + atoms.length < cuts) :
  tokensFrom rest pos atoms = tokensWithin cuts rest pos atoms
  := by
  induction cuts generalizing rest pos atoms with
  | zero => omega
  | succ cuts ih =>
      have hlater := (List.dropWhile_sublist (l := atoms) (·.span.start < pos)).length_le
      unfold tokensFrom tokensWithin
      cases rest with
      | nil => rfl
      | cons c t =>
          rw [List.length_cons] at h
          dsimp only
          generalize atoms.dropWhile (·.span.start < pos) = left at *
          cases left with
          | nil =>
              dsimp only
              have hcut := List.length_drop (l := t) (i := (Token.cut c t).2)
              rw [ih (by rw [List.length_nil]; omega), ih (by rw [List.length_nil]; omega)]
          | cons atom later =>
              dsimp only
              rw [List.length_cons] at hlater
              have hmore := Text.length_onward_le (atom.span.stop - pos) (c :: t)
              rw [List.length_cons] at hmore
              have hcut := List.length_drop (l := t)
                (i := (Token.cut c (Text.before (atom.span.start - pos - c.utf8Size) t)).2)
              rw [ih (by omega), ih (by rw [List.length_cons]; omega),
                ih (by rw [List.length_cons]; omega)]

/-- The atoms of a tree that is not deeper than given, if its literals come before the comments and
all of them are in order. -/
theorem atoms_eq (depth : Nat) {tree : Node} {comments : List Token}
    (hdepth : tree.endsWithin depth = true)
    (horder : ((tree.preorderWithin depth).filterMap Node.atom?
      ++ comments.map fun c => Atom.mk c.span c.kind).Pairwise (·.span.start ≤ ·.span.start)) :
  atoms tree comments
    = (tree.preorderWithin depth).filterMap Node.atom? ++ comments.map fun c => ⟨c.span, c.kind⟩
  := by
  rw [atoms, Node.preorder_eq_preorderWithin hdepth]
  apply List.mergeSort_of_pairwise
  exact horder.imp decide_eq_true

namespace Program

/-- The tokens of a program that is read from a text, by as many steps as are needed, if its tree is
not deeper than given and its literals and comments are in order. -/
def tokensWithin? (source : Text) (depth : Nat) (p : Program) : Option (List Token) :=
  let known := (p.tree.preorderWithin depth).filterMap Node.atom?
    ++ p.comments.map fun c => ⟨c.span, c.kind⟩
  if p.tree.endsWithin depth && decide (known.Pairwise (·.span.start ≤ ·.span.start)) then
    some (tokensWithin (source.length + known.length + 1) source 0 known)
  else none

theorem tokens_of_tokensWithin? {source : Text} {depth : Nat} {p : Program} {ks : List Token}
    (h : ofText source = .ok p) (hks : p.tokensWithin? source depth = some ks) :
  p.tokens = ks
  := by
  obtain ⟨-, -, -, -, htokens⟩ := parsed_of_ofText h
  unfold tokensWithin? at hks
  dsimp only at hks
  split at hks
  · next hcondition =>
      obtain ⟨hdepth, horder⟩ := (Bool.and_eq_true _ _).mp hcondition
      cases hks
      rw [htokens, Script.tokens, atoms_eq depth hdepth (of_decide_eq_true horder)]
      exact tokensFrom_eq_tokensWithin (Nat.lt_succ_self _)
  · cases hks

end Program

end Stencil.Script
