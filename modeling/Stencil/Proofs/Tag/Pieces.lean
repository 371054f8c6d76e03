import Stencil.Proofs.Tag.Delimiters
import Stencil.Proofs.Tag.Tiling

/-!
# Documents piece by piece

With the default patterns, a document that has a list of tags is a number of pieces followed by a
text.  A piece is a text and a tag after it, which is given by its kind and its code.  The scan
finds the tags of the pieces again if no text between them holds `<%`, no code holds `%>`, and the
code of no evaluate tag begins with the character that would make its opening another one.
-/

namespace Stencil

open Text

/-! ### Where a text of two characters stands -/

namespace Text

variable {a b : Char} {t : Text}

/-- A text that is found stands at the place, and not before. -/
theorem exists_of_find? {needle : Text} {n : Nat} (hneedle : needle ≠ [])
    (h : find? needle t = some n) :
  ∃ front back, t = front ++ needle ++ back ∧ width front = n ∧ ¬ needle <:+: front
  := by
  induction t generalizing n with
  | nil =>
      rw [find?, if_neg (by simpa using hneedle)] at h
      cases h
  | cons c t ih =>
      rw [find?] at h
      split at h
      · next hstarts =>
          obtain rfl := Option.some.inj h
          obtain ⟨back, hback⟩ := List.isPrefixOf_iff_prefix.mp hstarts
          exact ⟨[], back, hback.symm, rfl, fun hin => hneedle (List.infix_nil.mp hin)⟩
      · next hstarts =>
          obtain ⟨m, hm, rfl⟩ := Option.map_eq_some_iff.mp h
          obtain ⟨front, back, rfl, rfl, hfirst⟩ := ih hm
          refine ⟨c :: front, back, rfl, rfl, fun hin => ?_⟩
          rcases List.infix_cons_iff.mp hin with hbegins | hin
          · apply hstarts
            rw [List.isPrefixOf_iff_prefix]
            exact hbegins.trans ⟨needle ++ back, by simp⟩
          · exact hfirst hin

/-- A text of two different characters does not begin within a text without it, also where its
first character follows. -/
theorem not_prefix_of_pair (hab : a ≠ b) (h : ¬ [a, b] <:+: t) (ht : t ≠ []) (rest : Text) :
  ¬ [a, b] <+: t ++ a :: rest
  := by
  intro hbegins
  match t, ht with
  | [c], _ =>
      simp only [List.singleton_append, List.cons_prefix_cons] at hbegins
      exact hab hbegins.2.1.symm
  | c :: d :: t, _ =>
      apply h
      simp only [List.cons_append, List.cons_prefix_cons] at hbegins
      obtain ⟨rfl, rfl, -⟩ := hbegins
      exact ⟨[], t, rfl⟩

/-- A text of two different characters is found where a text without it ends. -/
theorem find?_pair (hab : a ≠ b) (h : ¬ [a, b] <:+: t) (rest : Text) :
  find? [a, b] (t ++ a :: b :: rest) = some (width t)
  := by
  induction t with
  | nil => simp [find?]
  | cons c t ih =>
      have hhere := not_prefix_of_pair hab h (List.cons_ne_nil c t) (b :: rest)
      rw [List.infix_cons_iff, not_or] at h
      rw [List.cons_append] at hhere ⊢
      rw [find?, if_neg (by rwa [List.isPrefixOf_iff_prefix]), ih h.2]
      rfl

end Text

/-! ### The default delimiters -/

/-- The default delimiters of the tags of a kind. -/
def Tag.Kind.delimiters : Tag.Kind → Delimiters
  | .evaluate => ⟨['<', '%'], ['%', '>']⟩
  | .interpolate => ⟨['<', '%', '='], ['%', '>']⟩
  | .escape => ⟨['<', '%', '-'], ['%', '>']⟩

/-- The opening with which a kind of tag is written. -/
def Tag.Kind.opening (kind : Tag.Kind) : Text := kind.delimiters.opening

theorem Tag.Kind.closing_delimiters (kind : Tag.Kind) :
  kind.delimiters.closing = ['%', '>']
  := by cases kind <;> rfl

/-- Every opening begins alike. -/
theorem Tag.Kind.exists_opening (kind : Tag.Kind) :
  ∃ mark, kind.opening = '<' :: '%' :: mark
  := by cases kind <;> exact ⟨_, rfl⟩

/-- The default patterns are those of the default delimiters. -/
theorem Settings.delimited_default :
  ∀ entry ∈ ({} : Settings).ordered, entry.2.Delimited (Tag.Kind.delimiters entry.1)
  := by
  simp only [ordered, List.forall_mem_cons]
  exact ⟨.percent (by decide), .percent (by decide), .percent (by decide), by simp⟩

/-! ### Pieces -/

/-- A text and a tag after it. -/
structure Piece where
  gap : Text
  kind : Tag.Kind
  code : Text

namespace Piece

/-- The code of an evaluate tag does not begin like that of another kind. -/
def Opens (kind : Tag.Kind) (code : Text) : Prop :=
  kind = .evaluate → ∀ c ∈ code.head?, c ≠ '=' ∧ c ≠ '-'

instance decidableOpens (kind : Tag.Kind) (code : Text) : Decidable (Opens kind code) :=
  decidable_of_iff (kind = .evaluate → (code.head?.all fun c => c != '=' && c != '-') = true)
    (imp_congr_right fun _ => by cases code <;> simp)

/-- The tag of the piece is found where it stands. -/
structure Sound (p : Piece) : Prop where
  gap : ¬ ['<', '%'] <:+: p.gap
  code : ¬ ['%', '>'] <:+: p.code
  opens : Opens p.kind p.code

/-- The text of a piece. -/
def text (p : Piece) : Text := p.gap ++ p.kind.opening ++ p.code ++ ['%', '>']

/-- The offset of the code of a piece that stands at the given offset. -/
def codeStart (p : Piece) (pos : Nat) : Nat := pos + width p.gap + width p.kind.opening

/-- The offset after the code of a piece that stands at the given offset. -/
def codeStop (p : Piece) (pos : Nat) : Nat := p.codeStart pos + width p.code

/-- The tag of a piece that stands at the given offset. -/
def tag (p : Piece) (pos : Nat) : Tag :=
  .ofCode p.kind ⟨pos + width p.gap, p.codeStop pos + 2⟩ ⟨p.codeStart pos, p.codeStop pos⟩

/-- The document that is made up of pieces and a last text. -/
def render (pieces : List Piece) (last : Text) : Text := pieces.flatMap text ++ last

/-- The tags of pieces that follow each other from the given offset on. -/
def tags : Nat → List Piece → List Tag
  | _, [] => []
  | pos, p :: rest => p.tag pos :: tags (p.codeStop pos + 2) rest

theorem render_cons (p : Piece) (rest : List Piece) (last : Text) :
  render (p :: rest) last = p.text ++ render rest last
  := by rw [render, List.flatMap_cons, List.append_assoc, render]

theorem width_text (p : Piece) (pos : Nat) :
  pos + width p.text = p.codeStop pos + 2
  := by
  have hclosing : width ['%', '>'] = 2 := rfl
  simp only [text, codeStop, codeStart, width_append, hclosing]
  omega

/-- After its first text a piece goes on with its opening. -/
theorem text_append (p : Piece) (rest : Text) :
  ∃ mark, p.kind.opening = '<' :: '%' :: mark
    ∧ p.text ++ rest = p.gap ++ '<' :: ('%' :: mark ++ (p.code ++ '%' :: '>' :: rest))
  := by
  obtain ⟨mark, hmark⟩ := p.kind.exists_opening
  exact ⟨mark, hmark, by simp [text, hmark]⟩

theorem kind_tags (pos : Nat) (pieces : List Piece) :
  (tags pos pieces).map (·.kind) = pieces.map (·.kind)
  := by
  induction pieces generalizing pos with
  | nil => rfl
  | cons p rest ih =>
      rw [tags, List.map_cons, List.map_cons, ih]
      rfl

end Piece

/-! ### The search for a tag of one kind -/

namespace Delimiters

variable {kind : Tag.Kind} {pos : Nat} {t : Text} {tag : Tag}

/-- No tag begins in a text without `<%`. -/
theorem tag?_append {gap : Text} (h : ¬ ['<', '%'] <:+: gap) (t : Text) :
  kind.delimiters.tag? kind pos (gap ++ '<' :: t)
    = kind.delimiters.tag? kind (pos + width gap) ('<' :: t)
  := by
  induction gap generalizing pos with
  | nil => rfl
  | cons c gap ih =>
      have hhere := Text.not_prefix_of_pair (by decide) h (List.cons_ne_nil c gap) t
      obtain ⟨mark, hmark⟩ := kind.exists_opening
      have hopening : ¬ kind.opening <+: c :: gap ++ '<' :: t := by
        rw [hmark]
        exact fun hbegins => hhere (List.IsPrefix.trans ⟨mark, rfl⟩ hbegins)
      rw [List.infix_cons_iff, not_or] at h
      have hnone : kind.delimiters.tagAt? kind pos (c :: gap ++ '<' :: t) = none := by
        rw [tagAt?, if_neg]
        rwa [List.isPrefixOf_iff_prefix]
      rw [List.cons_append] at hnone ⊢
      rw [tag?, hnone, Option.none_or, ih h.2, width_cons, Nat.add_assoc]

/-- A tag that is found has a text before its opening, and its code goes up to the first
closing. -/
theorem exists_of_tag? (h : kind.delimiters.tag? kind pos t = some tag) :
  ∃ gap code rest, t = gap ++ kind.opening ++ code ++ ['%', '>'] ++ rest
    ∧ ¬ ['%', '>'] <:+: code ∧ tag = (Piece.mk gap kind code).tag pos
  := by
  induction t generalizing pos with
  | nil => cases h
  | cons c t ih =>
      rw [tag?, Option.or_eq_some_iff] at h
      rcases h with hhere | ⟨-, hlater⟩
      · unfold tagAt? at hhere
        split at hhere
        · next hopening =>
            obtain ⟨n, hn, rfl⟩ := Option.map_eq_some_iff.mp hhere
            rw [kind.closing_delimiters] at hn ⊢
            obtain ⟨code, rest, hrest, rfl, hcode⟩ := Text.exists_of_find? (by simp) hn
            obtain ⟨after, hafter⟩ := List.isPrefixOf_iff_prefix.mp hopening
            rw [← hafter, List.drop_left] at hrest
            refine ⟨[], code, rest, ?_, hcode, ?_⟩
            · rw [← hafter, hrest, Tag.Kind.opening]
              simp
            · simp [Piece.tag, Piece.codeStop, Piece.codeStart, Tag.Kind.opening, width]
              rfl
        · cases hhere
      · obtain ⟨gap, code, rest, rfl, hcode, rfl⟩ := ih hlater
        refine ⟨c :: gap, code, rest, rfl, hcode, ?_⟩
        simp only [Piece.tag, Piece.codeStop, Piece.codeStart, width_cons, Nat.add_assoc]

/-- A tag is not found before the place where the search begins. -/
theorem le_of_tag? (h : kind.delimiters.tag? kind pos t = some tag) :
  pos ≤ tag.span.start
  := by
  obtain ⟨gap, code, rest, -, -, rfl⟩ := exists_of_tag? h
  apply Nat.le_add_right

/-- A kind whose opening does not stand at the beginning has its first tag later. -/
theorem lt_of_tag? (hopening : ¬ kind.opening <+: t)
    (h : kind.delimiters.tag? kind pos t = some tag) :
  pos < tag.span.start
  := by
  obtain ⟨gap, code, rest, rfl, -, rfl⟩ := exists_of_tag? h
  cases gap with
  | nil =>
      absurd hopening
      exact ⟨code ++ ['%', '>'] ++ rest, by simp⟩
  | cons c gap =>
      have hc := c.utf8Size_pos
      change pos < pos + (c.utf8Size + width gap)
      omega

/-- The least entry of a list comes first if it is less than those before it. -/
theorem argmin_append_cons {α : Type} {f : α → Nat} {a : α} {l m : List α}
    (hl : ∀ b ∈ l, f a < f b) (hm : ∀ b ∈ m, f a ≤ f b) :
  (l ++ a :: m).argmin f = some a
  := by
  induction m using List.reverseRecOn with
  | nil =>
      rw [List.argmin_concat]
      cases hbest : l.argmin f with
      | none => rfl
      | some c => exact if_pos (hl c (List.argmin_mem hbest))
  | append_singleton m b ih =>
      rw [List.forall_mem_append] at hm
      have hassoc : l ++ a :: (m ++ [b]) = (l ++ a :: m) ++ [b] := by simp
      rw [hassoc, List.argmin_concat, ih hm.1]
      exact if_neg (Nat.not_lt_of_le (hm.2 b (by simp)))

/-- The tag of a kind comes next if tags of other kinds begin later.  An evaluate tag may begin
where a tag of another kind does. -/
theorem next?_eq_some {document : Text} {start : Nat}
    (h : kind.delimiters.tag? kind start (onward start document) = some tag)
    (hother : ∀ other ≠ kind, ∀ t,
      other.delimiters.tag? other start (onward start document) = some t →
        tag.span.start ≤ t.span.start
          ∧ (other ≠ .evaluate → tag.span.start < t.span.start)) :
  next? Tag.Kind.delimiters document start = some tag
  := by
  obtain ⟨earlier, later, hkinds, hearlier, hlater⟩ : ∃ earlier later,
      kinds = earlier ++ kind :: later ∧ (∀ other ∈ earlier, other ≠ kind ∧ other ≠ .evaluate)
        ∧ ∀ other ∈ later, other ≠ kind := by
    cases kind
    · exact ⟨[.escape, .interpolate], [], rfl, by decide, by decide⟩
    · exact ⟨[.escape], [.evaluate], rfl, by decide, by decide⟩
    · exact ⟨[], [.interpolate, .evaluate], rfl, by decide, by decide⟩
  simp only [next?, hkinds, List.filterMap_append, List.filterMap_cons, h]
  apply argmin_append_cons
  · intro t ht
    obtain ⟨other, hmem, ht⟩ := List.mem_filterMap.mp ht
    exact (hother other (hearlier other hmem).1 t ht).2 (hearlier other hmem).2
  · intro t ht
    obtain ⟨other, hmem, ht⟩ := List.mem_filterMap.mp ht
    exact (hother other (hlater other hmem) t ht).1

end Delimiters

namespace Piece

variable {p : Piece} {pos start : Nat} {document rest : Text}

/-! ### Finding the tags of pieces -/

/-- The opening of another kind does not stand where the tag of a sound piece begins, but for that
of an evaluate tag. -/
theorem Sound.not_opening (h : p.Sound) {other : Tag.Kind} (hother : other ≠ p.kind)
    (hevaluate : other ≠ .evaluate) (rest : Text) :
  ¬ other.opening <+: p.kind.opening ++ (p.code ++ '%' :: '>' :: rest)
  := by
  have hopens := h.opens
  revert hother hevaluate hopens
  cases p.kind with
  | evaluate =>
      intro hother hevaluate hopens hbegins
      have hhead := hopens rfl
      cases hcode : p.code with
      | nil => cases other <;> simp [Tag.Kind.opening, Tag.Kind.delimiters, hcode] at *
      | cons c code =>
          have hc := hhead c (by simp [hcode])
          cases other <;> simp [Tag.Kind.opening, Tag.Kind.delimiters, hcode] at *
          · exact hc.1 hbegins.symm
          · exact hc.2 hbegins.symm
  | interpolate =>
      intro hother hevaluate _
      cases other <;> simp [Tag.Kind.opening, Tag.Kind.delimiters] at *
  | escape =>
      intro hother hevaluate _
      cases other <;> simp [Tag.Kind.opening, Tag.Kind.delimiters] at *

/-- A tag stands where its opening does if its code holds no closing. -/
theorem tagAt?_opening {code : Text} (h : ¬ ['%', '>'] <:+: code) (kind : Tag.Kind) (pos : Nat)
    (rest : Text) :
  kind.delimiters.tagAt? kind pos (kind.opening ++ (code ++ '%' :: '>' :: rest))
    = some ((Piece.mk [] kind code).tag pos)
  := by
  have hbegins : kind.delimiters.opening.isPrefixOf
      (kind.opening ++ (code ++ '%' :: '>' :: rest)) = true :=
    List.isPrefixOf_iff_prefix.mpr (List.prefix_append _ _)
  rw [Delimiters.tagAt?, if_pos hbegins, kind.closing_delimiters, ← Tag.Kind.opening,
    List.drop_left, Text.find?_pair (by decide) h, Option.map_some]
  rfl

/-- The tag of a sound piece is the first one of its kind. -/
theorem Sound.tag?_text (h : p.Sound) (rest : Text) :
  p.kind.delimiters.tag? p.kind pos (p.text ++ rest) = some (p.tag pos)
  := by
  obtain ⟨mark, hmark, htext⟩ := p.text_append rest
  have hhere := tagAt?_opening h.code p.kind (pos + width p.gap) rest
  rw [hmark] at hhere
  rw [htext, Delimiters.tag?_append h.gap, Delimiters.tag?]
  change (p.kind.delimiters.tagAt? p.kind (pos + width p.gap)
    ('<' :: '%' :: mark ++ (p.code ++ '%' :: '>' :: rest))).or _ = _
  rw [hhere, Option.some_or]
  rfl

/-- The tag of a sound piece comes next. -/
theorem Sound.next?_eq (h : p.Sound) (hcut : document.Cut start (p.text ++ rest)) :
  Delimiters.next? Tag.Kind.delimiters document start = some (p.tag start)
  := by
  obtain ⟨mark, hmark, htext⟩ := p.text_append rest
  apply Delimiters.next?_eq_some
  · rw [hcut.onward_eq]
    apply h.tag?_text
  · intro other hother t ht
    rw [hcut.onward_eq, htext, Delimiters.tag?_append h.gap] at ht
    constructor
    · apply Delimiters.le_of_tag? ht
    · intro hevaluate
      apply Delimiters.lt_of_tag? _ ht
      have hopening := h.not_opening hother hevaluate rest
      rwa [hmark] at hopening

/-- An opening stands in a text if and only if `<%` does. -/
theorem firstOf?_eq_none_iff {t : Text} :
  Delimiters.firstOf? (Delimiters.kinds.map fun kind => kind.delimiters.opening) t = none
    ↔ ¬ ['<', '%'] <:+: t
  := by
  rw [← Delimiters.min?_find? (by decide), List.min?_eq_none_iff, List.filterMap_eq_nil_iff]
  constructor
  · intro h
    apply Text.find?_eq_none_iff.mp
    exact h ['<', '%'] (by decide)
  · intro h needle hneedle
    obtain ⟨kind, -, rfl⟩ := List.mem_map.mp hneedle
    obtain ⟨mark, hmark⟩ := kind.exists_opening
    rw [Text.find?_eq_none_iff]
    change ¬ kind.opening <:+: t
    rw [hmark]
    exact fun hin => h (List.IsInfix.trans ⟨[], mark, rfl⟩ hin)

/-- The scan takes the tag of a sound piece. -/
theorem Sound.step_eq (h : p.Sound) (hcut : document.Cut start (p.text ++ rest)) :
  Delimiters.step Tag.Kind.delimiters document start = .ok (some (p.tag start))
  := by
  have hgap : slice document start (p.tag start).span.start = p.gap := by
    change before (start + width p.gap - start) (onward start document) = p.gap
    rw [hcut.onward_eq, Nat.add_sub_cancel_left]
    simp only [text, List.append_assoc]
    apply before_append
  simp only [Delimiters.step, h.next?_eq hcut, Option.map_some, Option.getD_some, hgap,
    firstOf?_eq_none_iff.mpr h.gap]

/-- The scan ends at a text without `<%`. -/
theorem step_last (hcut : document.Cut start rest) (h : ¬ ['<', '%'] <:+: rest) :
  Delimiters.step Tag.Kind.delimiters document start = .ok none
  := by
  have hnext : Delimiters.next? Tag.Kind.delimiters document start = none := by
    rw [Delimiters.next?, List.argmin_eq_none, List.filterMap_eq_nil_iff]
    intro kind _
    by_contra hsome
    obtain ⟨tag, htag⟩ := Option.ne_none_iff_exists'.mp hsome
    rw [hcut.onward_eq] at htag
    obtain ⟨gap, code, after, rfl, -, -⟩ := Delimiters.exists_of_tag? htag
    obtain ⟨mark, hmark⟩ := kind.exists_opening
    apply h
    rw [hmark]
    exact ⟨gap, mark ++ code ++ ['%', '>'] ++ after, by simp⟩
  simp only [Delimiters.step, hnext, Option.map_none, Option.getD_none,
    slice_width hcut.isBoundary, hcut.onward_eq, firstOf?_eq_none_iff.mpr h]

/-- From a boundary on the scan takes the tags of sound pieces one after the other. -/
theorem scans_render {pieces : List Piece} {last : Text} (hsound : ∀ p ∈ pieces, p.Sound)
    (hlast : ¬ ['<', '%'] <:+: last) (hcut : document.Cut start (render pieces last)) :
  Tag.Scans (Delimiters.step Tag.Kind.delimiters document) start (.ok (tags start pieces))
  := by
  induction pieces generalizing start with
  | nil => exact .done (step_last hcut hlast)
  | cons p pieces ih =>
      rw [List.forall_mem_cons] at hsound
      rw [render_cons] at hcut
      have hafter := hcut.append
      rw [p.width_text] at hafter
      exact Tag.Scans.tag (hsound.1.step_eq hcut) (ih hsound.2 hafter)

/-- The tags of a document that is made up of sound pieces are those of the pieces. -/
theorem tags_render {pieces : List Piece} {last : Text} (hsound : ∀ p ∈ pieces, p.Sound)
    (hlast : ¬ ['<', '%'] <:+: last) :
  ({} : Settings).tags (render pieces last) = .ok (tags 0 pieces)
  := by
  apply Settings.scans_iff.mp
  rw [Settings.step_eq_step Settings.delimited_default]
  apply scans_render hsound hlast (cut_zero _)

/-! ### The pieces of a document -/

/-- A text between tags and a tag are the text of a sound piece. -/
theorem exists_sound {gap code : Text} (kind : Tag.Kind) (hgap : ¬ ['<', '%'] <:+: gap)
    (hcode : ¬ ['%', '>'] <:+: code) :
  ∃ p : Piece, p.Sound ∧ p.text = (Piece.mk gap kind code).text
  := by
  -- an evaluate tag whose code begins like that of another kind reads as a tag of that kind
  by_cases hopens : Opens kind code
  · exact ⟨⟨gap, kind, code⟩, ⟨hgap, hcode, hopens⟩, rfl⟩
  · rw [Opens, Classical.not_imp] at hopens
    obtain ⟨rfl, hhead⟩ := hopens
    cases code with
    | nil => simp at hhead
    | cons c code =>
        rw [List.infix_cons_iff, not_or] at hcode
        by_cases hc : c = '='
        · subst hc
          refine ⟨⟨gap, .interpolate, code⟩, ⟨hgap, hcode.2, ?_⟩, ?_⟩
          · rintro ⟨⟩
          · simp [text, Tag.Kind.opening, Tag.Kind.delimiters]
        · obtain rfl : c = '-' := by simpa [hc] using hhead
          refine ⟨⟨gap, .escape, code⟩, ⟨hgap, hcode.2, ?_⟩, ?_⟩
          · rintro ⟨⟩
          · simp [text, Tag.Kind.opening, Tag.Kind.delimiters]

/-- A step that takes a tag skips a text and the tag. -/
theorem exists_of_step {tag : Tag} (hcut : document.Cut start rest)
    (hstep : Delimiters.step Tag.Kind.delimiters document start = .ok (some tag)) :
  ∃ (p : Piece) (after : Text), p.Sound ∧ rest = p.text ++ after
    ∧ tag.span.stop = start + width p.text
  := by
  unfold Delimiters.step at hstep
  dsimp only at hstep
  split at hstep
  · cases hstep
  · next hgap =>
      have hnext := Except.ok.inj hstep
      obtain ⟨kind, -, htag⟩ := List.mem_filterMap.mp (List.argmin_mem hnext)
      rw [hcut.onward_eq] at htag
      obtain ⟨gap, code, after, rfl, hcode, rfl⟩ := Delimiters.exists_of_tag? htag
      have hslice : slice document start ((Piece.mk gap kind code).tag start).span.start = gap := by
        change before (start + width gap - start) (onward start document) = gap
        rw [hcut.onward_eq, Nat.add_sub_cancel_left]
        simp only [List.append_assoc]
        apply before_append
      rw [hnext, Option.map_some, Option.getD_some, hslice, firstOf?_eq_none_iff] at hgap
      obtain ⟨p, hsound, htext⟩ := exists_sound kind hgap hcode
      refine ⟨p, after, hsound, ?_, ?_⟩
      · rw [htext]
        simp [text]
      · rw [htext, width_text]
        rfl

/-- What the scan takes from a cut on is made up of sound pieces and a last text. -/
theorem exists_pieces_of_scans {r : Except TagError (List Tag)}
    (h : Tag.Scans (Delimiters.step Tag.Kind.delimiters document) start r) :
    ∀ {rest : Text} {found : List Tag}, document.Cut start rest → r = .ok found →
      ∃ pieces last, (∀ p ∈ pieces, p.Sound) ∧ ¬ ['<', '%'] <:+: last
        ∧ rest = render pieces last
  := by
  induction h with
  | fault _ =>
      intro rest found _ hr
      cases hr
  | @done start hstep =>
      intro rest found hcut _
      refine ⟨[], rest, by simp, ?_, rfl⟩
      unfold Delimiters.step at hstep
      dsimp only at hstep
      split at hstep
      · cases hstep
      · next hgap =>
          rw [Except.ok.inj hstep, Option.map_none, Option.getD_none, slice_width hcut.isBoundary,
            hcut.onward_eq, firstOf?_eq_none_iff] at hgap
          exact hgap
  | @tag start tag r hstep _ ih =>
      intro rest found hcut hr
      obtain ⟨p, after, hsound, rfl, hstop⟩ := exists_of_step hcut hstep
      cases r with
      | error e => cases hr
      | ok later =>
          have hafter := hcut.append
          rw [← hstop] at hafter
          obtain ⟨pieces, last, hpieces, hlast, rfl⟩ := ih hafter rfl
          exact ⟨p :: pieces, last, List.forall_mem_cons.mpr ⟨hsound, hpieces⟩, hlast,
            (render_cons p pieces last).symm⟩

/-- A document that has a list of tags is made up of sound pieces and a last text without `<%`. -/
theorem exists_pieces {found : List Tag} (h : ({} : Settings).tags document = .ok found) :
  ∃ pieces last, (∀ p ∈ pieces, p.Sound) ∧ ¬ ['<', '%'] <:+: last
    ∧ document = render pieces last ∧ found = tags 0 pieces
  := by
  have hscans : Tag.Scans (Settings.step {} document) 0 (.ok found) := Settings.scans_iff.mpr h
  rw [Settings.step_eq_step Settings.delimited_default] at hscans
  obtain ⟨pieces, last, hsound, hlast, rfl⟩ := exists_pieces_of_scans hscans (cut_zero _) rfl
  rw [tags_render hsound hlast] at h
  exact ⟨pieces, last, hsound, hlast, rfl, (Except.ok.inj h).symm⟩

end Piece

end Stencil
