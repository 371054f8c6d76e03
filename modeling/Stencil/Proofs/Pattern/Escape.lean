import Stencil.Proofs.Pattern.Delimited

/-!
# Delimiters in written patterns

A text that is written with its special characters escaped reads back as the characters of the text
one after the other.  So the written form of a pair of delimiters, with the group for any characters
between them, reads back as a pattern with one group that matches like the pattern of the pair.
-/

namespace Stencil.Pattern

open Text

/-! ### Reading literal characters -/

/-- The character as it is read under the flags. -/
def Flags.char (f : Flags) (c : Char) : Pattern := .one (signed f false (.single c))

theorem Flags.char_default :
  Flags.char {} = Pattern.char
  := rfl

/-- The characters with a meaning of their own outside classes. -/
def isSign (c : Char) : Bool :=
  c ∈ ['\\', '.', '+', '*', '?', '(', ')', '|', '[', '{', '^', '$']

theorem isSign_of_isMeta {c : Char} (hc : isMeta c = false) :
  isSign c = false
  := by
  simp only [isMeta, decide_eq_false_iff_not, List.mem_cons, List.not_mem_nil, or_false,
    not_or] at hc
  simp [isSign, hc]

theorem skipSpace_eq {f : Flags} (hf : f.verbose = false) (t : Text) :
  skipSpace f t = t
  := by
  rw [skipSpace, hf, if_neg Bool.false_ne_true]

/-- A character without a meaning of its own reads as itself. -/
theorem body?_plain {b : Partial} (hb : b.flags.verbose = false) {c : Char}
    (hc : isSign c = false) (limit : Nat) (g : Groups) (t : Text) :
  body? (limit + 1) b g (c :: t) = body? limit (b.push (b.flags.char c)) g t
  := by
  rw [body?]
  dsimp only
  rw [skipSpace_eq hb]
  split <;> simp_all [isSign]
  rfl

/-- An escape that stands for a character reads as the character. -/
theorem body?_escaped {b : Partial} (hb : b.flags.verbose = false) {c : Char} {t t' : Text}
    (hc : escape? b.flags t = some (.char c, t')) (limit : Nat) (g : Groups) :
  body? (limit + 1) b g ('\\' :: t) = body? limit (b.push (b.flags.char c)) g t'
  := by
  rw [body?]
  dsimp only
  rw [skipSpace_eq hb]
  simp only [hc]
  rfl

/-- A character with a meaning of its own stands for itself after a backslash. -/
theorem escape?_meta {c : Char} (hc : isMeta c = true) (f : Flags) (t : Text) :
  escape? f (c :: t) = some (.char c, t)
  := by
  simp only [isMeta, decide_eq_true_eq, List.mem_cons, List.not_mem_nil, or_false] at hc
  rcases hc with rfl | rfl | rfl | rfl | rfl | rfl | rfl | rfl | rfl | rfl | rfl | rfl | rfl | rfl
    | rfl | rfl | rfl | rfl <;> rfl

theorem greed_of_head? {f : Flags} {t : Text} (h : t.head? ≠ some '?') :
  greed f t = (!f.swapGreed, t)
  := by
  unfold greed
  split
  · exact absurd rfl h
  · rfl

/-- A star repeats the last item. -/
theorem body?_star {f : Flags} (hf : f.verbose = false) (limit : Nat) (done : List Pattern)
    (p : Pattern) (items : List (Option Pattern)) (g : Groups) (t : Text) :
  body? (limit + 1) ⟨f, done, some p :: items⟩ g ('*' :: t)
    = body? limit ⟨f, done, some (.star (greed f t).1 p) :: items⟩ g (greed f t).2
  := by
  rw [body?]
  dsimp only
  rw [skipSpace_eq hf]
  rfl

theorem length_le_length_escape (t : Text) :
  t.length ≤ (escape t).length
  := by
  induction t with
  | nil => apply Nat.le_refl
  | cons c t ih =>
      have hcons : escape (c :: t) = (if isMeta c then ['\\', c] else [c]) ++ escape t := rfl
      rw [hcons, List.length_append, List.length_cons]
      split
      · rw [List.length_cons, List.length_singleton]
        omega
      · rw [List.length_singleton]
        omega

/-- An escaped text reads as its characters. -/
theorem body?_escape {f : Flags} (hf : f.verbose = false) (limit : Nat) (done : List Pattern)
    (g : Groups) (rest : Text) (t : Text) :
    ∀ items : List (Option Pattern),
      body? (limit + t.length) ⟨f, done, items⟩ g (escape t ++ rest)
        = body? limit ⟨f, done, (t.map (some ∘ f.char)).reverse ++ items⟩ g rest
  := by
  induction t with
  | nil =>
      intro items
      rfl
  | cons c t ih =>
      intro items
      rw [escape, List.flatMap_cons, List.length_cons, ← Nat.add_assoc, List.append_assoc,
        List.map_cons, List.reverse_cons, List.append_assoc]
      change _ = body? limit
        ⟨f, done, (t.map (some ∘ f.char)).reverse ++ some (f.char c) :: items⟩ g rest
      rw [← ih]
      cases hc : isMeta c with
      | true => exact body?_escaped hf (escape?_meta hc f _) _ g
      | false => exact body?_plain hf (isSign_of_isMeta hc) _ g _

/-! ### Reading the code between delimiters -/

/-- Every character, as white space and what is no white space. -/
def eachChar : CharSet := .union (.having .blank) (.compl (.having .blank))

/-- The group for any characters, as few as possible. -/
def anyCode : Pattern := .group 1 (star false (.one eachChar))

theorem body?_anyCode (limit : Nat) (items : List (Option Pattern)) (rest : Text) :
  body? (limit + 4) ⟨{}, [], items⟩ ⟨0, []⟩ (Text.ofString "([\\s\\S]*?)" ++ rest)
    = body? (limit + 3) ⟨{}, [], some anyCode :: items⟩ ⟨1, []⟩ rest
  := by
  rfl

/-- The patterns of a text, the code and a text, one after the other. -/
def written (opening closing : Text) : Pattern :=
  seqs (opening.map char ++ anyCode :: closing.map char)

/-- The written form of two delimiters reads as their characters with the code among them. -/
theorem ofSource?_delimiters (opening closing : Text) :
  ofSource? (escape opening ++ Text.ofString "([\\s\\S]*?)" ++ escape closing)
    = some ⟨written opening closing, 1⟩
  := by
  have hopening := length_le_length_escape opening
  have hclosing := length_le_length_escape closing
  -- there is room for all characters, the code and the end
  obtain ⟨limit, hlimit⟩ : ∃ limit,
      (escape opening ++ Text.ofString "([\\s\\S]*?)" ++ escape closing).length + 1
        = limit + closing.length + 4 + opening.length := by
    use (escape opening).length + 7 + (escape closing).length - closing.length - opening.length
    have hcode : (Text.ofString "([\\s\\S]*?)").length = 10 := rfl
    rw [List.length_append, List.length_append, hcode]
    omega
  have hread : body? (limit + closing.length + 4 + opening.length) ⟨{}, [], []⟩ ⟨0, []⟩
      (escape opening ++ Text.ofString "([\\s\\S]*?)" ++ escape closing)
        = some (written opening closing, ⟨1, []⟩, []) := by
    have hend := body?_escape (f := {}) rfl (limit + 3) [] ⟨1, []⟩ [] closing
      (some anyCode :: ((opening.map (some ∘ char)).reverse ++ []))
    rw [List.append_nil (escape closing)] at hend
    rw [List.append_assoc, body?_escape rfl, body?_anyCode, Nat.add_right_comm]
    apply hend.trans
    rw [body?]
    dsimp only [skipSpace, if_false]
    simp [Partial.pattern, Partial.nextAlternative, alts, written, List.filterMap_append,
      List.filterMap_map, Flags.char_default]
  rw [ofSource?, hlimit, hread]

/-! ### The same matches -/

theorem outcomes_seqs_cons (p : Pattern) (rest : List Pattern) (s : State) :
  outcomes (seqs (p :: rest)) s = (outcomes p s).flatMap (outcomes (seqs rest))
  := by
  cases rest with
  | nil =>
      have hempty : outcomes (seqs []) = fun s => [s] := rfl
      rw [hempty, List.flatMap_singleton']
      rfl
  | cons q rest => rfl

theorem outcomes_seqs_append (ps qs : List Pattern) (s : State) :
  outcomes (seqs (ps ++ qs)) s = (outcomes (seqs ps) s).flatMap (outcomes (seqs qs))
  := by
  induction ps generalizing s with
  | nil => exact (List.append_nil _).symm
  | cons p ps ih =>
      rw [List.cons_append, outcomes_seqs_cons, outcomes_seqs_cons, List.flatMap_assoc, funext ih]

/-- The patterns of the characters of a text match as the text. -/
theorem outcomes_seqs_char_append (t : Text) (rest : List Pattern) (s : State) :
  outcomes (seqs (t.map char ++ rest)) s
    = (outcomes (literal t) s).flatMap (outcomes (seqs rest))
  := by
  induction t generalizing s with
  | nil => simp [literal, outcomes]
  | cons c t ih =>
      rw [List.map_cons, List.cons_append, outcomes_seqs_cons, literal, outcomes,
        List.flatMap_assoc, funext ih]

theorem outcomes_eachChar :
  outcomes (.one eachChar) = outcomes (.one .all)
  := by
  funext s
  have hmem (c : Char) : eachChar.mem c = CharSet.all.mem c := by
    simp [eachChar, CharSet.all, CharSet.mem, Property.holds]
  simp only [outcomes, hmem]

/-- What the written form of two delimiters reads as matches as the pattern of the two. -/
theorem outcomes_written (opening closing : Text) :
  outcomes (written opening closing) = outcomes (TagPattern.between opening closing)
  := by
  funext s
  have hcode : outcomes anyCode = outcomes (.group 1 (star false (.one .all))) := by
    funext s
    change (s :: repeated (outcomes (.one eachChar)) false s).map _
      = (s :: repeated (outcomes (.one .all)) false s).map _
    rw [outcomes_eachChar]
  have hclosing : outcomes (seqs (closing.map char)) = outcomes (literal closing) := by
    funext s
    have h := outcomes_seqs_char_append closing [] s
    rw [List.append_nil] at h
    rw [h]
    apply List.flatMap_singleton'
  rw [written, outcomes_seqs_char_append, TagPattern.between, outcomes]
  congr 1
  funext s
  rw [outcomes_seqs_cons, hcode, hclosing]
  rfl

end Stencil.Pattern
