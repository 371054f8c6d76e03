import Stencil.Proofs.Lint.Edits
import Stencil.Proofs.Script.Tokens
import Stencil.Proofs.Tag.Pieces

/-!
# Fixes that tidy the code of a tag

The fixes of the built-in rules replace the blank characters at the ends of a code by others, or
remove semicolons from the code of an output tag.  Apart from these characters the code stays as it
is, so it goes on holding no closing.  It goes on beginning as it has to, unless all the space goes
away that has kept its first character from the opening.
-/

namespace Stencil.Lint

open Text

/-- How far the fixes of a linter reach: whether they join openings with codes, and whether they
strip codes of semicolons. -/
structure Reach where
  joins : Bool
  strips : Bool
  deriving DecidableEq

/-- The code stays apart from the opening when the space between them is fixed: a line ends there,
so that it is not fixed, or the code goes on with a character that belongs to no opening. -/
def StaysApart (code : Text) : Prop :=
  (code.takeWhile isBlank).any isLineBreak = true ∨ Piece.Opens .evaluate (code.dropWhile isBlank)

instance decidableStaysApart (code : Text) : Decidable (StaysApart code) :=
  inferInstanceAs (Decidable (_ ∨ _))

/-- The fix replaces the space at an end of the code at the offset `start`, or it removes a
semicolon from the code of an output tag. -/
inductive Tidies (r : Reach) (kind : Tag.Kind) (code : Text) (start : Nat) : Fix → Prop where
  | opening {lead rest replacement : Text} (hcode : code = lead ++ rest)
      (hlead : ∀ c ∈ lead, isBlank c = true) (hrest : ∃ c ∈ rest.head?, isBlank c = false)
      (hreplacement : ∀ c ∈ replacement, isBlank c = true)
      (hjoins : replacement = [] → r.joins = true)
      (hopens : r.joins = true → Piece.Opens kind rest) :
      Tidies r kind code start ⟨⟨start, start + width lead⟩, replacement⟩
  | closing {front trail replacement : Text} (hcode : code = front ++ trail)
      (hfront : ∃ c ∈ front, isBlank c = false) (htrail : ∀ c ∈ trail, isBlank c = true)
      (hreplacement : ∀ c ∈ replacement, isBlank c = true) :
      Tidies r kind code start
        ⟨⟨start + width front, start + width front + width trail⟩, replacement⟩
  | semicolon {front back : Text} (hcode : code = front ++ ';' :: back)
      (hstrips : r.strips = true) (hkind : kind.isOutput = true) :
      Tidies r kind code start (.remove ⟨start + width front, start + width front + 1⟩)

namespace Reach

variable {r : Reach} {kind : Tag.Kind} {s t : Text}

/-- The code without the semicolons that fixes may remove. -/
def bare (r : Reach) (kind : Tag.Kind) (code : Text) : Text :=
  if r.strips && kind.isOutput then code.filter (· ≠ ';') else code

theorem bare_append (r : Reach) (kind : Tag.Kind) (s t : Text) :
  r.bare kind (s ++ t) = r.bare kind s ++ r.bare kind t
  := by
  unfold bare
  split
  · apply List.filter_append
  · rfl

theorem mem_of_mem_bare {c : Char} (h : c ∈ r.bare kind s) :
  c ∈ s
  := by
  unfold bare at h
  split at h
  · exact (List.mem_filter.mp h).1
  · exact h

/-- The characters that a code may not hold, also when its semicolons are removed. -/
def marks (r : Reach) : List Text := ['%', '>'] :: if r.strips then Script.blurredMarks else []

/-- The code of a kind of tag goes on as such, whichever fixes are made. -/
structure Safe (r : Reach) (kind : Tag.Kind) (code : Text) : Prop where
  opens : Piece.Opens kind code
  apart : r.joins = true → kind = .evaluate → StaysApart code
  marks : ∀ mark ∈ r.marks, ¬ mark <:+: r.bare kind code

end Reach

variable {r : Reach} {kind : Tag.Kind} {code : Text} {start pos : Nat} {f : Fix} {fs : List Fix}

/-- The fix replaces blank characters at the end of a text at the offset `pos`, or it removes a
semicolon. -/
def Fix.Spares (r : Reach) (kind : Tag.Kind) (pos : Nat) (t : Text) (f : Fix) : Prop :=
  f.Replaces
    (fun old back =>
      (∀ c ∈ old, isBlank c = true) ∧ (∀ c ∈ f.replacement, isBlank c = true) ∧ back = []
        ∨ r.bare kind old = [] ∧ f.replacement = [] ∧ kind.isOutput = true)
    pos t

/-- A fix that tidies a code replaces the space at its beginning, or it spares all but the space at
its end and semicolons. -/
theorem Tidies.opens_or_spares (h : Tidies r kind code start f) :
  (∃ lead rest, code = lead ++ rest ∧ (∀ c ∈ lead, isBlank c = true)
      ∧ (∃ c ∈ rest.head?, isBlank c = false) ∧ f.span = ⟨start, start + width lead⟩
      ∧ (∀ c ∈ f.replacement, isBlank c = true) ∧ (f.replacement = [] → r.joins = true)
      ∧ (r.joins = true → Piece.Opens kind rest))
    ∨ f.Spares r kind start code
  := by
  cases h with
  | @opening lead rest replacement hcode hlead hrest hreplacement hjoins hopens =>
      exact Or.inl ⟨lead, rest, hcode, hlead, hrest, rfl, hreplacement, hjoins, hopens⟩
  | @closing front trail replacement hcode hfront htrail hreplacement =>
      exact Or.inr ⟨front, trail, [], by simpa using hcode, rfl,
        Or.inl ⟨htrail, hreplacement, rfl⟩⟩
  | @semicolon front back hcode hstrips hkind =>
      refine Or.inr ⟨front, [';'], back, hcode, rfl, Or.inr ⟨?_, rfl, hkind⟩⟩
      simp [Reach.bare, hstrips, hkind]

/-- Fixes that spare a text leave all of it but blank characters at its end and semicolons. -/
theorem trim_edited_of_spares {t : Text} (hapart : Apart pos fs)
    (hfs : ∀ f ∈ fs, f.Spares r kind pos t) (s : Text) :
  trim isBlank (r.bare kind (s ++ edited pos t fs)) = trim isBlank (r.bare kind (s ++ t))
  := by
  induction fs generalizing pos t s with
  | nil => rfl
  | cons f fs ih =>
      obtain ⟨hf, hrest⟩ := List.forall_mem_cons.mp hfs
      obtain ⟨front, old, back, rfl, hspan, hspares⟩ := hf
      obtain ⟨hapart', hfs'⟩ := hapart.behind hspan hrest
      have hblank {u : Text} (hu : ∀ c ∈ u, isBlank c = true) :
          ∀ c ∈ r.bare kind u, isBlank c = true := fun c hc => hu c (Reach.mem_of_mem_bare hc)
      calc
        trim isBlank (r.bare kind (s ++ edited pos (front ++ (old ++ back)) (f :: fs)))
          = trim isBlank
              (r.bare kind (s ++ front ++ f.replacement ++ edited f.span.stop back fs)) := by
            rw [edited_cons hspan]
            simp only [List.append_assoc]
        _ = trim isBlank (r.bare kind (s ++ front ++ f.replacement ++ back)) :=
            ih hapart' hfs' _
        _ = trim isBlank (r.bare kind (s ++ (front ++ (old ++ back)))) := by
            rcases hspares with ⟨hold, hreplacement, rfl⟩ | ⟨hold, hreplacement, -⟩
            · rw [List.append_nil, List.append_nil, r.bare_append, ← List.append_assoc,
                r.bare_append _ (s ++ front) old, trim_append_right _ (hblank hreplacement),
                trim_append_right _ (hblank hold)]
            · simp only [hreplacement, r.bare_append, hold, List.append_nil, List.append_assoc,
                List.nil_append]

/-- A fix behind the beginning of a code spares it. -/
theorem Tidies.spares (h : Tidies r kind code start f) (hstart : start < f.span.start) :
  f.Spares r kind start code
  := by
  rcases h.opens_or_spares with ⟨lead, rest, -, -, -, hspan, -⟩ | hspares
  · rw [hspan] at hstart
    exact absurd hstart (Nat.lt_irrefl _)
  · exact hspares

/-- All fixes of a code but the first one spare it. -/
theorem Apart.spare (hapart : Apart start (f :: fs)) (hfs : ∀ g ∈ fs, Tidies r kind code start g) :
  ∀ g ∈ fs, g.Spares r kind start code
  := by
  intro g hg
  apply (hfs g hg).spares
  obtain ⟨hforward, hbehind⟩ := hapart.of_cons
  have hf := hapart.le_start f (List.mem_cons_self ..)
  have := hbehind.le_start g hg
  omega

/-- The fix at the beginning of a code replaces the space there. -/
theorem edited_opening {lead rest : Text} (hspan : f.span = ⟨start, start + width lead⟩)
    (hapart : Apart start (f :: fs)) (hfs : ∀ g ∈ fs, g.Spares r kind start (lead ++ rest)) :
  edited start (lead ++ rest) (f :: fs) = f.replacement ++ edited f.span.stop rest fs
    ∧ Apart f.span.stop fs ∧ ∀ g ∈ fs, g.Spares r kind f.span.stop rest
  := by
  have hspan' : f.span = ⟨start + width [], start + width [] + width lead⟩ := by simpa using hspan
  have hedited : edited start ([] ++ (lead ++ rest)) (f :: fs)
      = [] ++ f.replacement ++ edited f.span.stop rest fs := edited_cons hspan'
  exact ⟨hedited, hapart.behind hspan' hfs⟩

/-- Fixes that tidy a code leave all of it but blank characters at its ends and semicolons. -/
theorem trim_edited (hapart : Apart start fs) (hfs : ∀ f ∈ fs, Tidies r kind code start f) :
  trim isBlank (r.bare kind (edited start code fs)) = trim isBlank (r.bare kind code)
  := by
  cases fs with
  | nil => rfl
  | cons f fs =>
      obtain ⟨hf, hrest⟩ := List.forall_mem_cons.mp hfs
      have hspare := hapart.spare hrest
      rcases hf.opens_or_spares with ⟨lead, rest, rfl, hlead, -, hspan, hreplacement, -⟩ | hspares
      · obtain ⟨hedited, hapart', hspare'⟩ := edited_opening hspan hapart hspare
        have hblank {u : Text} (hu : ∀ c ∈ u, isBlank c = true) :
            ∀ c ∈ r.bare kind u, isBlank c = true := fun c hc => hu c (Reach.mem_of_mem_bare hc)
        rw [hedited, trim_edited_of_spares hapart' hspare', r.bare_append,
          trim_append_left (hblank hreplacement), r.bare_append, trim_append_left (hblank hlead)]
      · apply trim_edited_of_spares hapart _ []
        exact List.forall_mem_cons.mpr ⟨hspares, hspare⟩

/-- A text stands in a code that is tidied, with or without its semicolons, only if it does in the
code from which they are removed. -/
theorem not_infix_bare_edited {mark : Text} (hapart : Apart start fs)
    (hfs : ∀ f ∈ fs, Tidies r kind code start f) (hmark : mark ≠ [])
    (hblank : ∀ c ∈ mark, isBlank c = false) (h : ¬ mark <:+: r.bare kind code) :
  ¬ mark <:+: r.bare kind (edited start code fs)
  := by
  rwa [← infix_trim_iff hmark hblank, trim_edited hapart hfs, infix_trim_iff hmark hblank]

/-! ### The beginning of a code -/

/-- A fix of a code with a character that is not blank. -/
theorem Tidies.exists_not_blank (h : Tidies r kind code start f) :
  ∃ c ∈ code, isBlank c = false
  := by
  cases h with
  | opening hcode _ hrest _ _ _ =>
      obtain ⟨c, hc, hblank⟩ := hrest
      rw [hcode]
      exact ⟨c, List.mem_append_right _ (List.mem_of_mem_head? hc), hblank⟩
  | closing hcode hfront _ _ =>
      obtain ⟨c, hc, hblank⟩ := hfront
      rw [hcode]
      exact ⟨c, List.mem_append_left _ hc, hblank⟩
  | semicolon hcode _ _ => exact ⟨';', by simp [hcode], by decide⟩

/-- Fixes that spare the code of an evaluate tag leave it as it is up to a character that is not
blank. -/
theorem edited_evaluate {s t : Text} {c : Char} (hc : isBlank c = false)
    (hfs : ∀ f ∈ fs, f.Spares r .evaluate pos (s ++ c :: t)) :
  ∃ t', edited pos (s ++ c :: t) fs = s ++ c :: t'
  := by
  have htext : s ++ c :: t = (s ++ [c]) ++ t := by simp
  have hlater : ∀ f ∈ fs,
      pos + width (s ++ [c]) ≤ f.span.start ∧ f.Lies pos ((s ++ [c]) ++ t) := by
    intro f hf
    have hspares := hfs f hf
    rw [htext] at hspares
    refine ⟨?_, hspares.lies⟩
    obtain ⟨front, old, back, hcode, hspan, ⟨hold, -, rfl⟩ | ⟨-, -, hkind⟩⟩ := hspares
    · -- the blank characters that are replaced do not include the one that is not blank
      rw [hspan]
      by_contra hless
      rw [List.append_nil] at hcode
      obtain ⟨more, hmore, rfl⟩ := exists_append_of_width_le hcode.symm
        (by dsimp only at hless; omega)
      rcases List.eq_nil_or_concat more with rfl | ⟨init, d, rfl⟩
      · rw [List.append_nil] at hmore
        rw [hmore] at hless
        exact hless (Nat.le_refl _)
      · rw [List.concat_eq_append, ← List.append_assoc] at hmore
        obtain rfl : c = d := by simpa using (List.append_inj_right' hmore rfl)
        have hblank := hold c (by simp)
        rw [hc] at hblank
        cases hblank
    · cases hkind
  use edited (pos + width (s ++ [c])) t fs
  rw [htext, edited_append_left hlater, List.append_assoc, List.singleton_append]

theorem opens_append_cons {s t t' : Text} {c : Char} (h : Piece.Opens kind (s ++ c :: t)) :
  Piece.Opens kind (s ++ c :: t')
  := by
  cases s with
  | nil => exact h
  | cons d s => exact h

theorem staysApart_append_cons {s : Text} {c : Char} (hs : ∀ d ∈ s, isBlank d = true)
    (hc : isBlank c = false) (t : Text) :
  StaysApart (s ++ c :: t) ↔ s.any isLineBreak = true ∨ Piece.Opens .evaluate [c]
  := by
  rw [StaysApart, List.takeWhile_append_of_pos hs, List.dropWhile_append_of_pos hs,
    List.takeWhile_cons, List.dropWhile_cons, hc]
  simp [Piece.Opens]

/-- Blank characters belong to no opening. -/
theorem opens_of_blank {s : Text} (hs : ∀ c ∈ s.head?, isBlank c = true) :
  Piece.Opens kind s
  := by
  intro _ c hc
  have hblank := hs c hc
  constructor
  · rintro rfl
    cases hblank
  · rintro rfl
    cases hblank

/-- A text with a character that is not blank has a first one. -/
theorem exists_eq_blank_append {t : Text} (h : ∃ c ∈ t, isBlank c = false) :
  ∃ s c rest, t = s ++ c :: rest ∧ (∀ d ∈ s, isBlank d = true) ∧ isBlank c = false
  := by
  induction t with
  | nil => simp at h
  | cons c t ih =>
      cases hc : isBlank c with
      | false => exact ⟨[], c, t, rfl, by simp, hc⟩
      | true =>
          obtain ⟨s, d, rest, rfl, hs, hd⟩ := ih (by simpa [hc] using h)
          exact ⟨c :: s, d, rest, rfl, List.forall_mem_cons.mpr ⟨hc, hs⟩, hd⟩

/-- The code of an evaluate tag begins as it has to after fixes that tidy it. -/
theorem begins_edited (hopens : Piece.Opens .evaluate code)
    (hapart : r.joins = true → StaysApart code) (hfixes : Apart start fs)
    (hfs : ∀ f ∈ fs, Tidies r .evaluate code start f) :
  Piece.Opens .evaluate (edited start code fs)
    ∧ (r.joins = true → StaysApart (edited start code fs))
  := by
  cases fs with
  | nil => exact ⟨hopens, hapart⟩
  | cons f fs =>
      obtain ⟨hf, hrest⟩ := List.forall_mem_cons.mp hfs
      have hspare := hfixes.spare hrest
      rcases hf.opens_or_spares with
        ⟨lead, rest, rfl, -, hhead, hspan, hreplacement, hjoins, hbegins⟩ | hspares
      · obtain ⟨hedited, -, hspare'⟩ := edited_opening hspan hfixes hspare
        obtain ⟨c, hc, hblank⟩ := hhead
        obtain ⟨more, rfl⟩ : ∃ more, rest = c :: more := List.head?_eq_some_iff.mp hc
        obtain ⟨t, ht⟩ := edited_evaluate (s := []) hblank hspare'
        rw [List.nil_append, List.nil_append] at ht
        rw [hedited, ht]
        constructor
        · cases hs : f.replacement with
          | nil => exact opens_append_cons (s := []) (hbegins (hjoins hs))
          | cons d s =>
              apply opens_of_blank
              intro e he
              apply hreplacement
              rw [hs]
              exact List.mem_of_mem_head? he
        · intro hj
          rw [staysApart_append_cons hreplacement hblank]
          exact Or.inr (hbegins hj)
      · obtain ⟨s, c, t, rfl, hs, hc⟩ := exists_eq_blank_append hf.exists_not_blank
        obtain ⟨t', ht'⟩ := edited_evaluate hc (List.forall_mem_cons.mpr ⟨hspares, hspare⟩)
        rw [ht', staysApart_append_cons hs hc]
        rw [staysApart_append_cons hs hc] at hapart
        exact ⟨opens_append_cons hopens, hapart⟩

/-- A code that goes on as it has to does so after fixes that tidy it. -/
theorem Reach.Safe.edited (h : r.Safe kind code) (hapart : Apart start fs)
    (hfs : ∀ f ∈ fs, Tidies r kind code start f) :
  r.Safe kind (edited start code fs)
  := by
  have hmarks : ∀ mark ∈ r.marks, mark ≠ [] ∧ ∀ c ∈ mark, isBlank c = false := by
    have hall : (r.marks.all fun mark => !mark.isEmpty && mark.all (!isBlank ·)) = true := by
      unfold Reach.marks
      cases r.strips <;> decide
    simpa [List.all_eq_true] using hall
  have hbegins (hkind : kind = .evaluate) :
      Piece.Opens kind (Lint.edited start code fs)
        ∧ (r.joins = true → StaysApart (Lint.edited start code fs)) := by
    subst hkind
    exact begins_edited h.opens (fun hj => h.apart hj rfl) hapart hfs
  constructor
  · exact fun hkind => (hbegins hkind).1 hkind
  · exact fun hj hkind => (hbegins hkind).2 hj
  · intro mark hmark
    exact not_infix_bare_edited hapart hfs (hmarks mark hmark).1 (hmarks mark hmark).2
      (h.marks mark hmark)

end Stencil.Lint
