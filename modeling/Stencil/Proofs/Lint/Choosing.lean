import Stencil.Proofs.Lint.Edits
import Stencil.Proofs.Span

/-!
# Which fixes are made

The fixes of diagnostics are tried in the order of their spans.  A fix is made if it lies within the
document and begins behind the last one that was made.  So the fixes that are made lie apart, and
each of the others, if it lies within the document, begins before the end of one of them or right
there.  Nothing of the document is changed but the pieces on which the fixes lie that are made.
The order of the diagnostics matters only where different fixes have the same span.
-/

namespace Stencil.Lint

open Text

variable {document : Text} {ds : List Diagnostic} {f : Fix} {fs tried : List Fix}
  {size pos : Nat} {last : Option Nat}

/-! ### The order of fixes -/

/-- Fixes in the order of their spans. -/
def InOrder (fs : List Fix) : Prop := fs.Pairwise fun f g => f.span.le g.span = true

instance InOrder.decidable (fs : List Fix) : Decidable (InOrder fs) :=
  inferInstanceAs (Decidable (fs.Pairwise _))

theorem inOrder_orderedFixes (ds : List Diagnostic) :
  InOrder (orderedFixes ds)
  := by
  apply List.pairwise_mergeSort
  · intro f g h
    apply Span.le_transitive
  · intro f g
    apply Span.le_or_le

/-- The order in which fixes are tried is the only one if those with the same span are the same. -/
theorem orderedFixes_eq (hperm : tried.Perm (ds.filterMap (·.fix))) (horder : InOrder tried)
    (hsame : ∀ f ∈ tried, ∀ g ∈ tried, f.span = g.span → f.replacement = g.replacement) :
  orderedFixes ds = tried
  := by
  have hfixes := (orderedFixes_perm ds).trans hperm.symm
  apply hfixes.eq_of_pairwise _ (inOrder_orderedFixes ds) horder
  intro f g hf hg hfg hgf
  have hspan := Span.le_antisymmetric hfg hgf
  have hreplacement := hsame f (hfixes.subset hf) g hg hspan
  obtain ⟨span, replacement⟩ := f
  obtain rfl : span = g.span := hspan
  obtain rfl : replacement = g.replacement := hreplacement
  rfl

/-! ### The choice of fixes -/

theorem stop_le_of_mem_chooseFixes (hf : f ∈ chooseFixes size last fs) :
  f.span.stop ≤ size
  := by
  fun_induction chooseFixes size last fs with
  | case1 => cases hf
  | case2 last g fs _ ih => exact ih hf
  | case3 last g fs hchosen ih =>
      rcases List.mem_cons.mp hf with rfl | hf
      · rw [Bool.or_eq_true, not_or, decide_eq_true_eq, Nat.not_lt] at hchosen
        exact hchosen.2
      · exact ih hf

theorem Apart.pairwise (h : Apart pos fs) :
  fs.Pairwise fun f g => f.span.stop < g.span.start
  := by
  induction h with
  | nil => exact .nil
  | cons _ _ h ih => exact .cons h.le_start ih

/-- A fix is left out only because of the offset behind which fixes are to begin, because of one
that is tried before it and chosen, or because it reaches too far. -/
theorem exists_of_chooseFixes (horder : InOrder fs)
    (hforward : ∀ f ∈ fs, f.span.start ≤ f.span.stop) (hf : f ∈ fs) (hstop : f.span.stop ≤ size) :
  (∃ n ∈ last, f.span.start ≤ n)
    ∨ ∃ g ∈ chooseFixes size last fs, g.span.le f.span = true ∧ f.span.start ≤ g.span.stop
  := by
  fun_induction chooseFixes size last fs with
  | case1 => cases hf
  | case2 last g fs hskipped ih =>
      rcases List.mem_cons.mp hf with rfl | hlater
      · have hstop : ¬ size < f.span.stop := Nat.not_lt.mpr hstop
        simp only [hstop, decide_false, Bool.or_false, Option.any_eq_true, decide_eq_true_eq]
          at hskipped
        exact .inl hskipped
      · exact ih horder.of_cons (List.forall_mem_cons.mp hforward).2 hlater
  | case3 last g fs _ ih =>
      obtain ⟨hg, hrest⟩ := List.forall_mem_cons.mp hforward
      rcases List.mem_cons.mp hf with rfl | hlater
      · right
        use f, List.mem_cons_self, Span.le_iff.mpr (.inr ⟨rfl, Nat.le_refl _⟩)
      · right
        rcases ih horder.of_cons hrest hlater with ⟨n, hn, hstart⟩ | ⟨k, hk, hbefore, hstart⟩
        · obtain rfl := Option.some.inj hn
          use g, List.mem_cons_self, (List.pairwise_cons.mp horder).1 f hlater
        · use k, List.mem_cons_of_mem g hk

theorem chooseFixes_eq_nil_iff :
  chooseFixes size none fs = [] ↔ ∀ f ∈ fs, ¬ f.span.stop ≤ size
  := by
  induction fs with
  | nil => simp [chooseFixes]
  | cons f fs ih =>
      rw [chooseFixes, Option.any_none, Bool.false_or, List.forall_mem_cons, ← ih]
      by_cases hstop : f.span.stop ≤ size
      · simp [hstop, Nat.not_lt.mpr hstop]
      · simp [hstop, Nat.not_le.mp hstop]

/-- Some fix of the diagnostics lies within the document. -/
def HasFix (document : Text) (ds : List Diagnostic) : Prop :=
  ∃ f ∈ ds.filterMap (·.fix), f.span.stop ≤ width document

/-- No fix is made only if there is none that lies within the document. -/
theorem snd_applyFixes_eq_zero_iff :
  (applyFixes document ds).2 = 0 ↔ ¬ HasFix document ds
  := by
  rw [applyFixes, List.length_eq_zero_iff, chooseFixes_eq_nil_iff, HasFix]
  push Not
  simp only [(orderedFixes_perm ds).mem_iff]

/-- Some fixes are selected to be made in a document of the given size. -/
structure Selects (size : Nat) (fixes selected : List Fix) : Prop where
  /-- They are taken from the fixes in the order of their spans. -/
  inOrder : ∃ tried, tried.Perm fixes ∧ InOrder tried ∧ selected.Sublist tried
  inside : ∀ f ∈ selected, f.span.stop ≤ size
  apart : selected.Pairwise fun f g => f.span.stop < g.span.start
  /-- A fix inside the document is left out only because of a selected one that comes first. -/
  covered : ∀ f ∈ fixes, f.span.stop ≤ size →
    ∃ g ∈ selected, g.span.le f.span = true ∧ f.span.start ≤ g.span.stop

theorem selects_chooseFixes (hforward : ∀ f ∈ ds.filterMap (·.fix), f.span.start ≤ f.span.stop) :
  Selects size (ds.filterMap (·.fix)) (chooseFixes size none (orderedFixes ds))
  := by
  have hperm := orderedFixes_perm ds
  have horder := inOrder_orderedFixes ds
  have hforward : ∀ f ∈ orderedFixes ds, f.span.start ≤ f.span.stop := fun f hf =>
    hforward f (hperm.subset hf)
  constructor
  · exact ⟨orderedFixes ds, hperm, horder, sublist_chooseFixes size none _⟩
  · intro f hf
    apply stop_le_of_mem_chooseFixes hf
  · exact (apart_chooseFixes size none hforward).pairwise
  · intro f hf hstop
    have hf := hperm.symm.subset hf
    exact (exists_of_chooseFixes horder hforward hf hstop).resolve_left (by simp)

/-! ### The fixes in the document -/

/-- What becomes of a text at the offset `pos` when fixes are made: each of them replaces the piece
on which it lies, and the pieces between them stay. -/
inductive Made : Nat → List Fix → Text → Text → Prop where
  | nil {pos : Nat} {t : Text} : Made pos [] t t
  | cons {pos : Nat} {f : Fix} {rest : List Fix} {gap old t t' : Text}
      (hspan : f.span = ⟨pos + width gap, pos + width gap + width old⟩)
      (h : Made f.span.stop rest t t') :
      Made pos (f :: rest) (gap ++ (old ++ t)) (gap ++ (f.replacement ++ t'))

theorem made_edited {t : Text} (hapart : Apart pos fs) (hfs : ∀ f ∈ fs, f.Lies pos t) :
  Made pos fs t (edited pos t fs)
  := by
  induction fs generalizing pos t with
  | nil => exact .nil
  | cons f fs ih =>
      obtain ⟨hf, hrest⟩ := List.forall_mem_cons.mp hfs
      obtain ⟨gap, old, back, rfl, hspan, -⟩ := hf
      obtain ⟨hapart', hfs'⟩ := hapart.behind hspan hrest
      rw [edited_cons hspan, List.append_assoc]
      exact .cons hspan (ih hapart' hfs')

/-- The span of the fix does not run backwards, and if it lies within a document, it cuts the
document between characters. -/
structure Fix.IsProper (document : Text) (f : Fix) : Prop where
  forward : f.span.start ≤ f.span.stop
  onBoundaries : f.span.stop ≤ width document → f.span.OnBoundaries document

instance Fix.IsProper.decidable (document : Text) (f : Fix) : Decidable (f.IsProper document) :=
  decidable_of_iff (f.span.start ≤ f.span.stop
      ∧ (f.span.stop ≤ width document → f.span.OnBoundaries document))
    ⟨fun h => ⟨h.1, h.2⟩, fun h => ⟨h.forward, h.onBoundaries⟩⟩

theorem Fix.IsProper.lies (h : f.IsProper document) (hstop : f.span.stop ≤ width document) :
  f.Lies 0 document
  := by
  obtain ⟨hstart, hend⟩ := h.onBoundaries hstop
  use before f.span.start document, slice document f.span.start f.span.stop,
    onward f.span.stop document
  rw [slice_append_onward hstart hend h.forward, before_append_onward, width_before hstart,
    width_slice hstart hend h.forward, Nat.zero_add, Nat.add_sub_cancel' h.forward]
  exact ⟨rfl, rfl, trivial⟩

/-- The fixes that are made in a document are selected in the order of their spans: they lie within
the document and apart, and each of the others that lie within the document begins no later than
where a selected one ends that is tried before it.  The document is changed where the selected ones
lie and stays as it is everywhere else.  None is made exactly if no fix lies within the document.
The order of the diagnostics makes no difference, unless different fixes have the same span. -/
theorem made_applyFixes (hfixes : ∀ f ∈ ds.filterMap (·.fix), f.IsProper document) :
  (∃ selected, Selects (width document) (ds.filterMap (·.fix)) selected
      ∧ Made 0 selected document (applyFixes document ds).1
      ∧ (applyFixes document ds).2 = selected.length)
    ∧ ((applyFixes document ds).2 = 0 ↔ ¬ HasFix document ds)
    ∧ ((∀ f ∈ ds.filterMap (·.fix), ∀ g ∈ ds.filterMap (·.fix),
        f.span = g.span → f.replacement = g.replacement) →
      ∀ ds', ds.Perm ds' → applyFixes document ds' = applyFixes document ds)
  := by
  have hforward : ∀ f ∈ ds.filterMap (·.fix), f.span.start ≤ f.span.stop := fun f hf =>
    (hfixes f hf).forward
  have hselects : Selects (width document) (ds.filterMap (·.fix))
      (chooseFixes (width document) none (orderedFixes ds)) :=
    selects_chooseFixes hforward
  refine ⟨⟨_, hselects, ?made, rfl⟩, snd_applyFixes_eq_zero_iff, ?order⟩
  case made =>
    have hlies : ∀ f ∈ chooseFixes (width document) none (orderedFixes ds), f.Lies 0 document :=
      fun f hf => (hfixes f (mem_of_mem_chooseFixes hf)).lies (hselects.inside f hf)
    obtain ⟨hapart, hedited⟩ := applyFixes_eq_edited hforward hlies
    rw [hedited]
    exact made_edited hapart hlies
  case order =>
    intro hsame ds' hperm
    have hmem : ∀ f ∈ orderedFixes ds, f ∈ ds.filterMap (·.fix) := fun f hf =>
      (orderedFixes_perm ds).subset hf
    have hordered : orderedFixes ds' = orderedFixes ds :=
      orderedFixes_eq ((orderedFixes_perm ds).trans (hperm.filterMap _)) (inOrder_orderedFixes ds)
        fun f hf g hg => hsame f (hmem f hf) g (hmem g hg)
    rw [applyFixes, applyFixes, hordered]

/-- A diagnostic with a fix. -/
def diagnosed (fix : Option Fix) : Diagnostic :=
  ⟨"test", .warn, "m", ⟨0, 1⟩, ⟨1, 1⟩, ⟨1, 2⟩, fix⟩

/-- An output tag without spaces. -/
def tight : Text := ofString "<%=text%>"

/-- Diagnostics with fixes of which two insert the same, one overlaps with others and one reaches
beyond the document. -/
def overlapping : List Diagnostic :=
  [diagnosed (some (.insert 7 [' '])), diagnosed (some (.insert 3 [' '])), diagnosed none,
    diagnosed (some ⟨⟨3, 7⟩, ['x']⟩), diagnosed (some (.insert 3 [' '])),
    diagnosed (some (.remove ⟨8, 12⟩))]

theorem made_applyFixes_overlapping :
  (∀ f ∈ overlapping.filterMap (·.fix), f.IsProper tight)
    ∧ (∃ selected, Selects (width tight) (overlapping.filterMap (·.fix)) selected
      ∧ Made 0 selected tight (ofString "<%= text %>") ∧ selected.length = 2)
    ∧ (∀ f ∈ overlapping.filterMap (·.fix), ∀ g ∈ overlapping.filterMap (·.fix),
      f.span = g.span → f.replacement = g.replacement)
    ∧ applyFixes tight overlapping.reverse = (ofString "<%= text %>", 2)
  := by
  have hproper : ∀ f ∈ overlapping.filterMap (·.fix), f.IsProper tight := by decide
  have hsame : ∀ f ∈ overlapping.filterMap (·.fix), ∀ g ∈ overlapping.filterMap (·.fix),
      f.span = g.span → f.replacement = g.replacement := by
    decide
  have hordered : orderedFixes overlapping = [.insert 3 [' '], .insert 3 [' '], ⟨⟨3, 7⟩, ['x']⟩,
      .insert 7 [' '], .remove ⟨8, 12⟩] :=
    orderedFixes_eq (by decide) (by decide) (by decide)
  have hfixed : applyFixes tight overlapping = (ofString "<%= text %>", 2) := by
    rw [applyFixes, hordered]
    decide
  obtain ⟨⟨selected, hselects, hmade, hcount⟩, -, horder⟩ := made_applyFixes hproper
  rw [hfixed] at hmade hcount
  refine ⟨hproper, ⟨selected, hselects, hmade, hcount.symm⟩, hsame, ?_⟩
  rw [horder hsame _ overlapping.reverse_perm.symm, hfixed]

end Stencil.Lint
