import Mathlib.Algebra.Ring.Int.Defs
import Stencil.Proofs.Branch.Boundaries
import Stencil.Proofs.Script.Lookup

/-!
# What the count of brackets sees

Before a script is read, its brackets are counted in a scan that knows strings and comments, but
neither regular expressions nor templates.  Here the scan is taken apart into steps of one character
each.  A piece of a text is seen as what it is if the scan goes through it without closing more
brackets than it opens, and goes on behind it as it does in code.  Where all tokens and comments are
seen so, no more brackets are open between the tokens than the scan admits.  A regular expression
with a quote in it hides the brackets behind it.
-/

namespace Stencil.Script

open Text

/-! ### The count by steps -/

/-- Where the count of brackets stands between two characters.  Behind a slash in code a comment may
begin. -/
inductive Sight where
  | code
  | slash
  | quoted (quote : Char) (escaped : Bool)
  | line
  | block (star : Bool)
  deriving DecidableEq, Repr

/-- The characters that the count of brackets heeds in code. -/
def bracketMarks : List Char := ['(', '[', '\x7b', ')', ']', '\x7d', '"', '\'', '/']

/-- How many brackets a character opens in code. -/
def bracketWeight (c : Char) : Int :=
  if c == '(' || c == '[' || c == '\x7b' then 1
  else if c == ')' || c == ']' || c == '\x7d' then -1
  else 0

namespace Sight

/-- Where the count goes with a character in code. -/
def ofCode (c : Char) : Sight :=
  if c == '"' || c == '\'' then quoted c false else if c == '/' then slash else code

/-- Where the count goes with a character. -/
def next (m : Sight) (c : Char) : Sight :=
  match m with
  | code => ofCode c
  | slash => if c == '/' then line else if c == '*' then block false else ofCode c
  | quoted quote escaped =>
    if escaped then quoted quote false
    else if c == '\\' then quoted quote true
    else if c == '\n' || c == '\r' || c == quote then code
    else quoted quote false
  | line => if c == '\n' || c == '\r' then code else line
  | block star => if star && c == '/' then code else block (c == '*')

/-- How many brackets a character opens. -/
def weight (m : Sight) (c : Char) : Int :=
  match m with
  | code => bracketWeight c
  | slash => bracketWeight c
  | _ => 0

/-- Where the count stands behind a text. -/
def after (m : Sight) (t : Text) : Sight := t.foldl next m

/-- How many more brackets are opened than closed in a text. -/
def balance (m : Sight) : Text → Int
  | [] => 0
  | c :: t => m.weight c + (m.next c).balance t

/-- The count goes on as in code. -/
def goesOn (m : Sight) (rest : Text) : Bool :=
  rest.head?.all fun c => m.next c == code.next c && m.weight c == code.weight c

variable {m : Sight} {c : Char} {s t rest : Text}

theorem after_cons (m : Sight) (c : Char) (t : Text) :
  m.after (c :: t) = (m.next c).after t
  := rfl

theorem balance_append (m : Sight) (s t : Text) :
  m.balance (s ++ t) = m.balance s + (m.after s).balance t
  := by
  induction s generalizing m with
  | nil => exact (Int.zero_add _).symm
  | cons c s ih =>
      rw [List.cons_append, balance, balance, ih, after_cons]
      omega

/-- Going on as in code, the count comes to the same. -/
theorem balance_eq_of_goesOn (h : m.goesOn rest = true) (hs : s <+: rest) :
  m.balance s = code.balance s
  := by
  cases s with
  | nil => rfl
  | cons c s =>
      obtain ⟨more, rfl⟩ := hs
      simp only [goesOn, List.cons_append, List.head?_cons, Option.all_some, Bool.and_eq_true,
        beq_iff_eq] at h
      rw [balance, balance, h.1, h.2]

/-- A character that is not heeded leaves the count where it is. -/
theorem next_code_of_notMem (h : c ∉ bracketMarks) :
  code.next c = code ∧ code.weight c = 0
  := by
  simp only [bracketMarks, List.mem_cons, List.not_mem_nil, or_false, not_or] at h
  simp [next, ofCode, weight, bracketWeight, h]

/-- So does a text without such characters. -/
theorem code_of_forall_notMem (h : ∀ c ∈ t, c ∉ bracketMarks) :
  code.after t = code ∧ code.balance t = 0
  := by
  induction t with
  | nil => exact ⟨rfl, rfl⟩
  | cons c t ih =>
      obtain ⟨hc, ht⟩ := List.forall_mem_cons.mp h
      obtain ⟨hnext, hweight⟩ := next_code_of_notMem hc
      rw [after_cons, balance, hnext, hweight, Int.zero_add]
      exact ih ht

/-- Nowhere in the text are more brackets open than the limit admits, if `depth` are open before
it. -/
def StaysWithin (m : Sight) (depth : Int) (t : Text) : Prop :=
  ∀ s, s <+: t → depth + m.balance s ≤ bracketLimit

theorem staysWithin_cons {depth depth' : Int} (hdepth : depth ≤ bracketLimit)
    (hnext : (m.next c).StaysWithin depth' t) (hweight : depth + m.weight c ≤ depth') :
  m.StaysWithin depth (c :: t)
  := by
  intro s hs
  rcases List.prefix_cons_iff.mp hs with rfl | ⟨rest, rfl, hrest⟩
  · rw [balance]
    omega
  · have := hnext rest hrest
    rw [balance]
    omega

theorem staysWithin_cons_code {depth depth' opened : Int} (hdepth : depth ≤ bracketLimit)
    (hc : bracketWeight c = opened) (hnext : (ofCode c).StaysWithin depth' t)
    (hopened : depth + opened ≤ depth') :
  code.StaysWithin depth (c :: t)
  := by
  rw [← hc] at hopened
  exact staysWithin_cons (m := code) hdepth hnext hopened

theorem staysWithin_of_goesOn {depth : Int} (h : m.goesOn t = true)
    (hcode : code.StaysWithin depth t) :
  m.StaysWithin depth t
  := by
  intro s hs
  rw [balance_eq_of_goesOn h hs]
  exact hcode s hs

end Sight

/-- Where the count stands in a mode. -/
def BracketMode.sight : BracketMode → Sight
  | code => .code
  | quoted quote escaped => .quoted quote escaped
  | line => .line
  | block star => .block star

/-- Where no bracket opens while the limit is reached, the steps stay within the limit. -/
theorem staysWithin_of_bracketBeyond {mode : BracketMode} {depth offset : Nat} {t : Text}
    (h : bracketBeyond mode depth offset t = none) (hdepth : depth ≤ bracketLimit) :
  mode.sight.StaysWithin depth t
  := by
  have hlimit : (depth : Int) ≤ bracketLimit := Int.ofNat_le.mpr hdepth
  fun_induction bracketBeyond mode depth offset t with
  | case1 =>
      intro s hs
      rw [List.prefix_nil.mp hs, Sight.balance]
      omega
  | case2 depth _ c t _ quote ih =>
      apply Sight.staysWithin_cons hlimit _ (Int.le_of_eq (Int.add_zero _))
      exact ih h hdepth hlimit
  | case3 depth _ c t _ quote escaped hescaped hc ih =>
      apply Sight.staysWithin_cons hlimit _ (Int.le_of_eq (Int.add_zero _))
      simpa [BracketMode.sight, Sight.next, hescaped, hc] using ih h hdepth hlimit
  | case4 depth _ c t _ quote escaped hescaped hc hend ih =>
      apply Sight.staysWithin_cons hlimit _ (Int.le_of_eq (Int.add_zero _))
      simp only [BracketMode.sight, Sight.next, if_neg hescaped, if_neg hc, if_pos hend]
      exact ih h hdepth hlimit
  | case5 depth _ c t _ quote escaped hescaped hc hend ih =>
      apply Sight.staysWithin_cons hlimit _ (Int.le_of_eq (Int.add_zero _))
      simp only [BracketMode.sight, Sight.next, if_neg hescaped, if_neg hc, if_neg hend]
      exact ih h hdepth hlimit
  | case6 depth _ c t _ ih =>
      apply Sight.staysWithin_cons hlimit _ (Int.le_of_eq (Int.add_zero _))
      have hrest := ih h hdepth hlimit
      simp only [BracketMode.sight, Sight.next]
      split at hrest <;> simpa [BracketMode.sight, *] using hrest
  | case7 depth _ c t _ star ih =>
      apply Sight.staysWithin_cons hlimit _ (Int.le_of_eq (Int.add_zero _))
      have hrest := ih h hdepth hlimit
      simp only [BracketMode.sight, Sight.next]
      split at hrest <;> simpa [BracketMode.sight, *] using hrest
  | case8 => cases h
  | case9 depth _ c t _ hopens hbelow ih =>
      have hcode : Sight.ofCode c = .code := by
        simp only [Bool.or_eq_true, beq_iff_eq] at hopens
        rcases hopens with (rfl | rfl) | rfl <;> rfl
      apply Sight.staysWithin_cons_code hlimit (if_pos hopens)
      · rw [hcode]
        exact ih h (by omega) (by omega)
      · omega
  | case10 depth _ c t _ hopens hcloses ih =>
      have hcode : Sight.ofCode c = .code := by
        simp only [Bool.or_eq_true, beq_iff_eq] at hcloses
        rcases hcloses with (rfl | rfl) | rfl <;> rfl
      apply Sight.staysWithin_cons_code hlimit ((if_neg hopens).trans (if_pos hcloses))
      · rw [hcode]
        exact ih h (by omega) (by omega)
      · omega
  | case11 depth _ c t _ hopens hcloses hquote ih =>
      apply Sight.staysWithin_cons_code hlimit ((if_neg hopens).trans (if_neg hcloses)) _
        (Int.le_of_eq (Int.add_zero _))
      rw [Sight.ofCode, if_pos hquote]
      exact ih h hdepth hlimit
  | case12 depth _ t _ _ _ ih =>
      apply Sight.staysWithin_cons hlimit _ (Int.le_of_eq (Int.add_zero _))
      apply Sight.staysWithin_cons hlimit _ (Int.le_of_eq (Int.add_zero _))
      exact ih h hdepth hlimit
  | case13 depth _ t _ _ _ ih =>
      apply Sight.staysWithin_cons hlimit _ (Int.le_of_eq (Int.add_zero _))
      apply Sight.staysWithin_cons hlimit _ (Int.le_of_eq (Int.add_zero _))
      exact ih h hdepth hlimit
  | case14 depth _ c _ hopens hcloses hquote t hline hblock ih =>
      have hrest := ih h hdepth hlimit
      apply Sight.staysWithin_cons_code hlimit ((if_neg hopens).trans (if_neg hcloses)) _
        (Int.le_of_eq (Int.add_zero _))
      rw [Sight.ofCode, if_neg hquote]
      split
      · next hslash =>
          -- no comment begins behind this slash
          rw [beq_iff_eq] at hslash
          apply Sight.staysWithin_of_goesOn _ hrest
          cases t with
          | nil => rfl
          | cons d t =>
              have hd : d ≠ '/' ∧ d ≠ '*' :=
                ⟨fun hd => hline t hslash (hd ▸ rfl), fun hd => hblock t hslash (hd ▸ rfl)⟩
              simp [Sight.goesOn, Sight.next, Sight.weight, hd]
      · exact hrest

/-! ### Texts with the same beginning -/

/-- A bracket opens with the character. -/
abbrev opensBracket (c : Char) : Bool := c == '(' || c == '[' || c == '\x7b'

/-- No comment begins with a slash and the text. -/
def FollowsSlash (t : Text) : Prop := ∀ c rest, t = c :: rest → c ≠ '/' ∧ c ≠ '*'

/-- Where no bracket opens, none opens while the limit is reached. -/
theorem bracketBeyond_of_all {mode : BracketMode} {depth offset : Nat} {t : Text}
    (h : ∀ c ∈ t, opensBracket c = false) :
  bracketBeyond mode depth offset t = none
  := by
  fun_induction bracketBeyond mode depth offset t with
  | case1 => rfl
  | _ => simp_all [opensBracket]

/-- How a character of code is counted with which no comment begins. -/
theorem bracketBeyond_cons {depth offset : Nat} {c : Char} {t : Text}
    (h : c = '/' → FollowsSlash t) :
  bracketBeyond .code depth offset (c :: t)
    = if opensBracket c then
        if depth ≥ bracketLimit then some ⟨offset, offset + 1⟩
        else bracketBeyond .code (depth + 1) (offset + c.utf8Size) t
      else if c == ')' || c == ']' || c == '\x7d' then
        bracketBeyond .code (depth - 1) (offset + c.utf8Size) t
      else if c == '"' || c == '\'' then
        bracketBeyond (.quoted c false) depth (offset + c.utf8Size) t
      else bracketBeyond .code depth (offset + c.utf8Size) t
  := by
  conv => lhs; unfold bracketBeyond
  dsimp only
  congr 3
  split
  · exact absurd rfl (h rfl _ _ rfl).1
  · exact absurd rfl (h rfl _ _ rfl).2
  · rfl

/-- At a smaller depth, before another end that opens no bracket, no bracket opens while the limit
is reached either. -/
theorem bracketBeyond_append {mode : BracketMode} {depth depth' offset offset' : Nat}
    {v t t' : Text} (h : bracketBeyond mode depth offset (v ++ t) = none) (hle : depth' ≤ depth)
    (ht : FollowsSlash t) (ht' : FollowsSlash t') (hopens : ∀ c ∈ t', opensBracket c = false) :
  bracketBeyond mode depth' offset' (v ++ t') = none
  := by
  have hfollows (c : Char) (v u : Text) (hv : c = '/' → FollowsSlash v) (hu : FollowsSlash u) :
      c = '/' → FollowsSlash (v ++ u) := by
    intro hc
    cases v with
    | nil => exact hu
    | cons d v =>
        intro c rest heq
        cases heq
        exact hv hc d v rfl
  have hslash (c : Char) (v : Text) (hc : c ≠ '/') : c = '/' → FollowsSlash v :=
    fun h => absurd h hc
  revert depth' offset'
  fun_induction bracketBeyond mode depth offset v with
  | case1 =>
      intros
      exact bracketBeyond_of_all hopens
  | case2 depth _ c v _ quote ih =>
      intro depth' offset' hle
      simp only [List.cons_append, bracketBeyond, if_true] at h ⊢
      exact ih h hle
  | case3 depth _ c v _ quote escaped hescaped hc ih =>
      intro depth' offset' hle
      simp only [List.cons_append, bracketBeyond, if_neg hescaped, if_pos hc] at h ⊢
      exact ih h hle
  | case4 depth _ c v _ quote escaped hescaped hc hend ih =>
      intro depth' offset' hle
      simp only [List.cons_append, bracketBeyond, if_neg hescaped, if_neg hc, if_pos hend] at h ⊢
      exact ih h hle
  | case5 depth _ c v _ quote escaped hescaped hc hend ih =>
      intro depth' offset' hle
      simp only [List.cons_append, bracketBeyond, if_neg hescaped, if_neg hc, if_neg hend] at h ⊢
      exact ih h hle
  | case6 depth _ c v _ ih =>
      intro depth' offset' hle
      simp only [List.cons_append, bracketBeyond] at h ⊢
      exact ih h hle
  | case7 depth _ c v _ star ih =>
      intro depth' offset' hle
      simp only [List.cons_append, bracketBeyond] at h ⊢
      exact ih h hle
  | case8 depth _ c v hc hlimit =>
      have hbegins := hslash c (v ++ t) (by rintro rfl; simp at hc)
      rw [List.cons_append, bracketBeyond_cons hbegins, if_pos hc, if_pos hlimit] at h
      cases h
  | case9 depth _ c v _ hc hlimit ih =>
      intro depth' offset' hle
      have hbegins := fun u => hslash c (v ++ u) (by rintro rfl; simp at hc)
      rw [List.cons_append, bracketBeyond_cons (hbegins _), if_pos hc] at h ⊢
      rw [if_neg hlimit] at h
      rw [if_neg (by omega)]
      exact ih h (by omega)
  | case10 depth _ c v _ hc hcloses ih =>
      intro depth' offset' hle
      have hbegins := fun u => hslash c (v ++ u) (by rintro rfl; simp at hcloses)
      rw [List.cons_append, bracketBeyond_cons (hbegins _), if_neg hc, if_pos hcloses] at h ⊢
      exact ih h (by omega)
  | case11 depth _ c v _ hc hcloses hquote ih =>
      intro depth' offset' hle
      have hbegins := fun u => hslash c (v ++ u) (by rintro rfl; simp at hquote)
      rw [List.cons_append, bracketBeyond_cons (hbegins _), if_neg hc, if_neg hcloses,
        if_pos hquote] at h ⊢
      exact ih h hle
  | case12 depth _ v _ _ _ ih =>
      intro depth' offset' hle
      exact ih h hle
  | case13 depth _ v _ _ _ ih =>
      intro depth' offset' hle
      exact ih h hle
  | case14 depth _ c _ hc hcloses hquote v hline hblock ih =>
      intro depth' offset' hle
      have hv (hc : c = '/') : FollowsSlash v := by
        rintro d rest rfl
        exact ⟨fun hd => hline rest hc (hd ▸ rfl), fun hd => hblock rest hc (hd ▸ rfl)⟩
      rw [List.cons_append, bracketBeyond_cons (hfollows c v _ hv ht), if_neg hc, if_neg hcloses,
        if_neg hquote] at h
      rw [List.cons_append, bracketBeyond_cons (hfollows c v _ hv ht'), if_neg hc, if_neg hcloses,
        if_neg hquote]
      exact ih h hle

/-! ### Pieces that are seen -/

/-- The count goes through a piece of a text without closing more brackets than it opens, apart from
`weight` of them, and goes on behind it as in code. -/
structure Sees (piece rest : Text) (weight : Int) : Prop where
  balance : weight ≤ Sight.code.balance piece
  goesOn : (Sight.code.after piece).goesOn rest = true

/-- The part of the text at the span is seen as it is. -/
structure IsSeen (source : Text) (s : Span) : Prop where
  stop : IsBoundary s.stop source
  sees : Sees (s.text source) (onward s.stop source) 0

instance decidableIsSeen (source : Text) (s : Span) : Decidable (IsSeen source s) :=
  decidable_of_iff (IsBoundary s.stop source ∧ 0 ≤ Sight.code.balance (s.text source)
      ∧ (Sight.code.after (s.text source)).goesOn (onward s.stop source) = true)
    ⟨fun h => ⟨h.1, h.2.1, h.2.2⟩, fun h => ⟨h.stop, h.sees.balance, h.sees.goesOn⟩⟩

namespace Sees

variable {piece rest s : Text} {weight balance : Int} {c : Char}

theorem goesOn_code (rest : Text) :
  Sight.code.goesOn rest = true
  := by
  cases rest <;> simp [Sight.goesOn]

theorem nil (rest : Text) :
  Sees [] rest 0
  := ⟨Int.le_refl 0, goesOn_code rest⟩

/-- A piece without brackets, quotes and slashes is seen. -/
theorem of_forall_notMem (h : ∀ c ∈ piece, c ∉ bracketMarks) (rest : Text) :
  Sees piece rest 0
  := by
  obtain ⟨hafter, hbalance⟩ := Sight.code_of_forall_notMem h
  constructor
  · exact Int.le_of_eq hbalance.symm
  · rw [hafter]
    exact goesOn_code rest

/-- So is the character between two tokens. -/
theorem of_isGap (h : Token.isGap c = true) (rest : Text) :
  Sees [c] rest 0
  := by
  have hmarks : bracketMarks.all (!Token.isGap ·) = true := by decide +kernel
  apply of_forall_notMem
  intro d hd hmark
  rw [List.mem_singleton.mp hd] at hmark
  have hnot := List.all_eq_true.mp hmarks c hmark
  rw [h] at hnot
  cases hnot

/-- A bracket is seen. -/
theorem bracket (h : c ∈ ['(', '[', '\x7b', ')', ']', '\x7d']) (rest : Text) :
  Sees [c] rest (bracketWeight c)
  := by
  have hcode : Sight.ofCode c = .code := by
    simp only [List.mem_cons, List.not_mem_nil, or_false] at h
    rcases h with rfl | rfl | rfl | rfl | rfl | rfl <;> rfl
  constructor
  · exact Int.le_of_eq (Int.add_zero _).symm
  · change (Sight.ofCode c).goesOn rest = true
    rw [hcode]
    exact goesOn_code rest

/-- What is counted behind a piece that is seen counts with it. -/
theorem exists_balance (h : Sees piece rest weight)
    (hrest : ∃ s, s <+: rest ∧ balance ≤ Sight.code.balance s) :
  ∃ s, s <+: piece ++ rest ∧ weight + balance ≤ Sight.code.balance s
  := by
  obtain ⟨s, hs, hbalance⟩ := hrest
  refine ⟨piece ++ s, List.prefix_append_right_inj piece |>.mpr hs, ?_⟩
  rw [Sight.balance_append, Sight.balance_eq_of_goesOn h.goesOn hs]
  exact Int.add_le_add h.balance hbalance

end Sees

/-! ### Tokens that are seen -/

namespace Token

/-- The token is an opening bracket. -/
def isOpening (k : Token) : Bool :=
  k.isPunctuator "(" || k.isPunctuator "[" || k.isPunctuator "\x7b"

/-- The token is a closing bracket. -/
def isClosing (k : Token) : Bool :=
  k.isPunctuator ")" || k.isPunctuator "]" || k.isPunctuator "\x7d"

/-- How many brackets the token opens. -/
def weight (k : Token) : Int := if k.isOpening then 1 else if k.isClosing then -1 else 0

/-- How many more brackets are opened than closed by tokens. -/
def balance (ks : List Token) : Int := (ks.map weight).sum

theorem countP_isOpening (ks : List Token) :
  (ks.countP isOpening : Int) = ks.countP isClosing + balance ks
  := by
  induction ks with
  | nil => rfl
  | cons k ks ih =>
      have hapart : k.isOpening = true → k.isClosing = false := by
        simp only [isOpening, isClosing, isPunctuator, Bool.or_eq_true, Bool.and_eq_true,
          beq_iff_eq]
        rintro ((⟨-, hvalue⟩ | ⟨-, hvalue⟩) | ⟨-, hvalue⟩) <;> rw [hvalue] <;> simp
      rw [List.countP_cons, List.countP_cons, balance, List.map_cons, List.sum_cons, weight]
      change _ = _ + (_ + balance ks)
      cases hopening : k.isOpening with
      | true =>
          rw [hapart hopening]
          simp
          omega
      | false => cases k.isClosing <;> simp <;> omega

/-- The token is a bracket, or it holds nothing that the count of brackets heeds, or the count sees
it as it is. -/
def IsPlain (source : Text) (k : Token) : Prop :=
  k.isOpening = true ∨ k.isClosing = true ∨ (∀ c ∈ k.value, c ∉ bracketMarks) ∨ IsSeen source k.span

instance decidableIsPlain (source : Text) (k : Token) : Decidable (k.IsPlain source) :=
  -- the characters of the token are gone through, not all characters
  have : Decidable (∀ c ∈ k.value, c ∉ bracketMarks) := List.decidableBAll _ k.value
  inferInstanceAs (Decidable (_ ∨ _ ∨ _ ∨ _))

end Token

/-- Where the count stands before a span that is seen, it goes through the span. -/
theorem IsSeen.sees_before {source rest : Text} {s : Span} (h : IsSeen source s)
    (hcut : source.Cut s.start rest) :
  Sees (before (s.stop - s.start) rest) (onward (s.stop - s.start) rest) 0
  := by
  rcases Nat.le_total s.stop s.start with hle | hle
  · rw [Nat.sub_eq_zero_of_le hle, before_zero, onward_zero]
    exact .nil rest
  · have hsees := h.sees
    rw [Span.text, slice, hcut.onward_eq, (hcut.onward h.stop hle).onward_eq] at hsees
    exact hsees

/-- The count goes through a plain token. -/
theorem Token.IsPlain.sees {source rest : Text} {k : Token} (h : k.IsPlain source)
    (hcut : source.Cut k.span.start rest)
    (hvalue : k.value = before (k.span.stop - k.span.start) rest) :
  Sees k.value (onward (k.span.stop - k.span.start) rest) k.weight
  := by
  generalize hmore : onward (k.span.stop - k.span.start) rest = more
  by_cases hopening : k.isOpening = true
  · rw [weight, if_pos hopening]
    simp only [isOpening, isPunctuator, Bool.or_eq_true, Bool.and_eq_true, beq_iff_eq] at hopening
    rcases hopening with (⟨-, heq⟩ | ⟨-, heq⟩) | ⟨-, heq⟩ <;> rw [heq] <;>
      exact .bracket (by decide) more
  by_cases hclosing : k.isClosing = true
  · rw [weight, if_neg hopening, if_pos hclosing]
    simp only [isClosing, isPunctuator, Bool.or_eq_true, Bool.and_eq_true, beq_iff_eq] at hclosing
    rcases hclosing with (⟨-, heq⟩ | ⟨-, heq⟩) | ⟨-, heq⟩ <;> rw [heq] <;>
      exact .bracket (by decide) more
  rw [weight, if_neg hopening, if_neg hclosing]
  rcases ((h.resolve_left hopening).resolve_left hclosing) with hplain | hseen
  · exact .of_forall_notMem hplain more
  · rw [hvalue, ← hmore]
    exact hseen.sees_before hcut

/-- The count goes through a plain token that was cut from the text. -/
theorem Token.IsPlain.sees_piece {source value rest : Text} {pos : Nat} {kind : TokenKind}
    (h : IsPlain source ⟨kind, value, ⟨pos, pos + width value⟩⟩)
    (hcut : source.Cut pos (value ++ rest)) :
  Sees value rest (weight ⟨kind, value, ⟨pos, pos + width value⟩⟩)
  := by
  have hsees := h.sees hcut (by rw [Nat.add_sub_cancel_left, before_append])
  rwa [Nat.add_sub_cancel_left, onward_append] at hsees

/-- The atom is no punctuator and ends between characters, and it is seen if it is a comment. -/
structure Atom.IsClear (source : Text) (a : Atom) : Prop extends a.Fits source where
  comment : a.kind.isComment = true → IsSeen source a.span

/-- What is left of the atoms is clear too. -/
theorem isClear_of_dropWhile {source : Text} {atoms later : List Atom} {p : Atom → Bool}
    (hatoms : ∀ a ∈ atoms, a.IsClear source) (h : atoms.dropWhile p = later) :
  ∀ a ∈ later, a.IsClear source
  := by
  rw [← h]
  exact fun a ha => hatoms a ((List.dropWhile_sublist p).subset ha)

/-- A token that the count goes through, and tokens behind it. -/
theorem Sees.exists_balance_cons {rest : Text} {k : Token} {later ks : List Token}
    (h : Sees k.value rest k.weight)
    (hlater : ∀ {ks}, ks <+: later → ∃ s, s <+: rest ∧ Token.balance ks ≤ Sight.code.balance s)
    (hks : ks <+: k :: later) :
  ∃ s, s <+: k.value ++ rest ∧ Token.balance ks ≤ Sight.code.balance s
  := by
  rcases List.prefix_cons_iff.mp hks with rfl | ⟨more, rfl, hmore⟩
  · exact ⟨[], List.nil_prefix, Int.le_refl 0⟩
  · exact h.exists_balance (hlater hmore)

/-- Tokens of the rest of a text open no more brackets than the count sees in a part of it. -/
theorem exists_balance_tokensFrom {source rest : Text} {pos : Nat} {atoms : List Atom}
    (hcut : source.Cut pos rest) (hatoms : ∀ a ∈ atoms, a.IsClear source)
    (htokens : ∀ k ∈ tokensFrom rest pos atoms, k.IsPlain source) {ks : List Token}
    (hks : ks <+: tokensFrom rest pos atoms) :
  ∃ s, s <+: rest ∧ Token.balance ks ≤ Sight.code.balance s
  := by
  fun_induction tokensFrom rest pos atoms generalizing ks with
  | case1 =>
      rw [List.prefix_nil.mp hks]
      exact ⟨[], List.nil_prefix, Int.le_refl 0⟩
  | case2 atoms c rest atom later hcomment hnext after ih =>
      obtain ⟨hatom, hlater⟩ := List.forall_mem_cons.mp (isClear_of_dropWhile hatoms hnext)
      have hsees := (hatom.comment hcomment).sees_before hcut
      have hrest := hsees.exists_balance (ih (hatom.toFits.cut hcut) hlater htokens hks)
      rwa [before_append_onward, Int.zero_add] at hrest
  | case3 atoms c rest atom later hcomment hnext after ih =>
      obtain ⟨hatom, hlater⟩ := List.forall_mem_cons.mp (isClear_of_dropWhile hatoms hnext)
      obtain ⟨hk, htokens⟩ := List.forall_mem_cons.mp htokens
      have hrest := (hk.sees hcut rfl).exists_balance_cons
        (ih (hatom.toFits.cut hcut) hlater htokens) hks
      rwa [before_append_onward] at hrest
  | case4 pos atoms c rest atom later hnext hlater hgap ih =>
      have hc := Sees.of_isGap hgap rest
      have hrest := hc.exists_balance
        (ih hcut.cons (isClear_of_dropWhile hatoms hnext) htokens hks)
      rwa [Int.zero_add] at hrest
  | case5 pos atoms c rest atom later hnext hlater hgap piece kind more hmore value stop ih =>
      have hvalue : value ++ rest.drop more = c :: rest := by simp [value]
      rw [← hvalue] at hcut ⊢
      obtain ⟨hk, htokens⟩ := List.forall_mem_cons.mp htokens
      exact (hk.sees_piece hcut).exists_balance_cons
        (ih hcut.append (isClear_of_dropWhile hatoms hnext) htokens) hks
  | case6 pos atoms c rest hnext hgap ih =>
      have hc := Sees.of_isGap hgap rest
      have hrest := hc.exists_balance (ih hcut.cons (by simp) htokens hks)
      rwa [Int.zero_add] at hrest
  | case7 pos atoms c rest hnext hgap kind more hmore value stop ih =>
      have hvalue : value ++ rest.drop more = c :: rest := by simp [value]
      rw [← hvalue] at hcut ⊢
      obtain ⟨hk, htokens⟩ := List.forall_mem_cons.mp htokens
      exact (hk.sees_piece hcut).exists_balance_cons (ih hcut.append (by simp) htokens) hks

/-! ### The brackets of a program -/

/-- In the text of a program no bracket opens while the limit is reached. -/
theorem Program.bracketBeyond_of_ofText {source : Text} {p : Program} (h : ofText source = .ok p) :
  bracketBeyond .code 0 0 source = none
  := by
  unfold ofText at h
  split at h
  · cases h
  · assumption

/-- Where the count of brackets sees all tokens and comments of a program as they are, no more than
`bracketLimit` brackets are open anywhere between its tokens. -/
theorem Program.open_brackets_le {source : Text} {p : Program} (h : ofText source = .ok p)
    (htokens : ∀ k ∈ p.tokens, k.IsPlain source)
    (hcomments : ∀ k ∈ p.comments, IsSeen source k.span) {ks : List Token} (hks : ks <+: p.tokens) :
  ks.countP Token.isOpening ≤ ks.countP Token.isClosing + bracketLimit
  := by
  obtain ⟨parsed, -, -, hofComment, heq⟩ := parsed_of_ofText h
  have hatoms : ∀ a ∈ atoms p.tree p.comments, a.IsClear source := by
    intro a ha
    rw [atoms, List.mem_mergeSort, List.mem_append] at ha
    rcases ha with ha | ha
    · obtain ⟨n, hn, hatom⟩ := List.mem_filterMap.mp ha
      refine ⟨fits_of_atom? h hn hatom, fun hcomment => ?_⟩
      rw [Node.isComment_of_atom? hatom] at hcomment
      cases hcomment
    · obtain ⟨k, hk, rfl⟩ := List.mem_map.mp ha
      have hseen := hcomments k hk
      refine ⟨⟨hseen.stop, ?_⟩, fun _ => hseen⟩
      rw [hofComment] at hk
      obtain ⟨s, -, rfl⟩ := List.mem_map.mp hk
      apply Token.kind_ofComment
  rw [heq] at htokens hks
  obtain ⟨s, hs, hbalance⟩ := exists_balance_tokensFrom (cut_zero source) hatoms htokens hks
  have hlimit := staysWithin_of_bracketBeyond (bracketBeyond_of_ofText h) (Nat.zero_le _) s hs
  have hcount := Token.countP_isOpening ks
  change 0 + Sight.code.balance s ≤ _ at hlimit
  omega

/-- A call with brackets in a regular expression, a string and a comment. -/
def bracketsInLiterals : Text := ofString "f(/[(]/, '(', a / b) // ("

/-- The brackets of this call are counted. -/
theorem Program.open_brackets_le_bracketsInLiterals :
  ∃ p, ofText bracketsInLiterals = .ok p ∧ ∀ ks, ks <+: p.tokens →
    ks.countP Token.isOpening ≤ ks.countP Token.isClosing + bracketLimit
  := by
  have hread : ((ofText bracketsInLiterals).toOption.bind fun p =>
      (p.tokensWithin? bracketsInLiterals 8).map fun ks =>
        decide (∀ k ∈ ks, k.IsPlain bracketsInLiterals)
          && decide (∀ k ∈ p.comments, IsSeen bracketsInLiterals k.span)) = some true := by
    decide +kernel
  obtain ⟨p, hp, hread⟩ := Option.bind_eq_some_iff.mp hread
  obtain ⟨ks, hks, hplain⟩ := Option.map_eq_some_iff.mp hread
  have hp := Analysis.eq_ok_of_toOption hp
  simp only [Bool.and_eq_true, decide_eq_true_eq] at hplain
  rw [← tokens_of_tokensWithin? hp hks] at hplain
  exact ⟨p, hp, fun ks hks => open_brackets_le hp hplain.1 hplain.2 hks⟩

/-- A regular expression with a quote in it, and more blocks within each other than the limit
admits. -/
def quoteInRegex : Text :=
  ofString "/'/;" ++ List.replicate 65 '\x7b' ++ List.replicate 65 '\x7d'

/-- The count takes all that follows the quote for a string, so the blocks are read. -/
theorem Program.exists_open_brackets_gt :
  ∃ p ks, ofText quoteInRegex = .ok p ∧ ks <+: p.tokens
    ∧ ks.countP Token.isClosing + bracketLimit < ks.countP Token.isOpening
  := by
  have hread : ((ofText quoteInRegex).toOption.bind fun p =>
      (p.tokensWithin? quoteInRegex 68).map fun ks =>
        ((ks.take 67).countP Token.isOpening, (ks.take 67).countP Token.isClosing))
      = some (65, 0) := by
    decide +kernel
  obtain ⟨p, hp, hread⟩ := Option.bind_eq_some_iff.mp hread
  obtain ⟨ks, hks, hcount⟩ := Option.map_eq_some_iff.mp hread
  have hp := Analysis.eq_ok_of_toOption hp
  obtain ⟨hopening, hclosing⟩ := Prod.mk.inj hcount
  refine ⟨p, ks.take 67, hp, ?_, ?_⟩
  · rw [tokens_of_tokensWithin? hp hks]
    apply List.take_prefix
  · rw [hopening, hclosing]
    decide

end Stencil.Script
