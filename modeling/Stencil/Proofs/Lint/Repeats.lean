import Stencil.Proofs.Lint.Choosing
import Stencil.Proofs.Lint.Independence

/-!
# Repetitions in diagnostics

Diagnostics are brought in order by their spans, rules and messages, and then those are left out
that are equal to the one before them.  So the same diagnostics are left, in order.  Two that are
equal are both left exactly if a different one that stands in no order to them came between them, as
sorting keeps the order of such diagnostics.
-/

namespace Stencil.Lint

open List

variable {α : Type}

/-! ### Leaving out repetitions -/

section Repeats

variable [DecidableEq α] {a b : α} {l : List α}

theorem mem_dropRepeats :
  a ∈ dropRepeats l ↔ a ∈ l
  := by
  constructor
  · exact mem_of_mem_dropRepeats
  · intro h
    fun_induction dropRepeats l with
    | case1 => exact h
    | case2 => exact h
    | case3 b rest ih => exact ih (by simpa using h)
    | case4 b c rest _ ih =>
        rcases mem_cons.mp h with rfl | h
        · apply mem_cons_self
        · apply mem_cons_of_mem _ (ih h)

theorem sublist_dropRepeats (l : List α) :
  dropRepeats l <+ l
  := by
  fun_induction dropRepeats l with
  | case1 => exact .refl _
  | case2 => exact .refl _
  | case3 b rest ih => exact ih.cons b
  | case4 b c rest _ ih => exact ih.cons_cons b

/-- An entry is left twice exactly if a different one stands between two occurrences of it. -/
theorem nodup_dropRepeats_iff :
  (dropRepeats l).Nodup ↔ ∀ a b, [a, b, a] <+ l → a = b
  := by
  fun_induction dropRepeats l with
  | case1 => simp
  | case2 c =>
      have hshort (a b : α) : ¬ [a, b, a] <+ [c] := fun h => by simpa using h.length_le
      simp [hshort]
  | case3 c rest ih =>
      rw [ih]
      refine ⟨fun h a b hin => ?_, fun h a b hin => h a b (hin.cons c)⟩
      rcases cons_sublist_cons'.mp hin with hrest | ⟨rfl, hrest⟩
      · exact h a b hrest
      · rcases cons_sublist_cons'.mp hrest with hbehind | ⟨rfl, -⟩
        · exact h a b (hbehind.cons_cons a)
        · rfl
  | case4 c d rest hne ih =>
      rw [nodup_cons, mem_dropRepeats, ih]
      constructor
      · rintro ⟨hfirst, h⟩ a b hin
        rcases cons_sublist_cons'.mp hin with hrest | ⟨rfl, hrest⟩
        · exact h a b hrest
        · exact absurd (hrest.subset (by simp)) hfirst
      · intro h
        refine ⟨fun hmem => hne ?_, fun a b hin => h a b (hin.cons c)⟩
        have hrest : c ∈ rest := (mem_cons.mp hmem).resolve_left hne
        exact h c d (((singleton_sublist.mpr hrest).cons_cons d).cons_cons c)

end Repeats

/-- Sorting keeps the order of entries that may stand in any order. -/
theorem sublist_mergeSort_iff {le : α → α → Bool}
    (htrans : ∀ a b c, le a b = true → le b c = true → le a c = true)
    (htotal : ∀ a b, (le a b || le b a) = true) {some l : List α}
    (hsome : ∀ a ∈ some, ∀ b ∈ some, le a b = true) :
  some <+ l.mergeSort le ↔ some <+ l
  := by
  constructor
  · intro h
    cases some with
    | nil => apply nil_sublist
    | cons a rest =>
        -- the entries with which `a` may stand in any order are those of the list as it was
        let same (b : α) : Bool := le a b && le b a
        have hsame : (a :: rest).filter same = a :: rest := by
          rw [filter_eq_self]
          intro b hb
          rw [Bool.and_eq_true]
          exact ⟨hsome a mem_cons_self b hb, hsome b hb a mem_cons_self⟩
        have hkept : (l.filter same).mergeSort le = l.filter same := by
          apply mergeSort_of_pairwise
          rw [pairwise_iff_forall_sublist]
          intro b c hbc
          have hb := (mem_filter.mp (hbc.subset (by simp : b ∈ [b, c]))).2
          have hc := (mem_filter.mp (hbc.subset (by simp : c ∈ [b, c]))).2
          rw [Bool.and_eq_true] at hb hc
          exact htrans b a c hb.2 hc.1
        have hfilter := h.filter same
        rw [hsame, filter_mergeSort htrans htotal, hkept] at hfilter
        exact hfilter.trans (filter_sublist)
  · apply sublist_mergeSort htrans htotal
    exact pairwise_of_forall_mem_list fun a ha b hb => hsome a ha b hb

/-! ### Diagnostics in order -/

variable {ds : List Diagnostic}

theorem mem_normalize {d : Diagnostic} :
  d ∈ normalize ds ↔ d ∈ ds
  := by rw [normalize, mem_dropRepeats, mem_mergeSort]

theorem pairwise_key_mergeSort (ds : List Diagnostic) :
  (ds.mergeSort Diagnostic.le).Pairwise (·.key ≤ ·.key)
  := by
  have hsorted := pairwise_mergeSort Diagnostic.le_transitive Diagnostic.le_or_le ds
  exact hsorted.imp Diagnostic.le_iff.mp

/-- In the sorted list a diagnostic stands around another one exactly if it did so before and
nothing of what the order goes by tells them apart. -/
theorem around_mergeSort_iff {d e : Diagnostic} :
  [d, e, d] <+ ds.mergeSort Diagnostic.le ↔ [d, e, d] <+ ds ∧ d.key = e.key
  := by
  have hany (hkey : d.key = e.key) : ∀ f ∈ [d, e, d], ∀ g ∈ [d, e, d], f.le g = true := by
    simp only [mem_cons, not_mem_nil, or_false]
    intro f hf g hg
    rw [Diagnostic.le_iff]
    apply le_of_eq
    rcases hf with rfl | rfl | rfl <;> rcases hg with rfl | rfl | rfl <;> simp [hkey]
  constructor
  · intro h
    have hsorted := (pairwise_key_mergeSort ds).sublist h
    obtain ⟨hfirst, hrest⟩ := pairwise_cons.mp hsorted
    have hkey : d.key = e.key :=
      le_antisymm (hfirst e (by simp)) ((pairwise_cons.mp hrest).1 d (by simp))
    refine ⟨?_, hkey⟩
    rwa [sublist_mergeSort_iff Diagnostic.le_transitive Diagnostic.le_or_le (hany hkey)] at h
  · rintro ⟨h, hkey⟩
    rwa [sublist_mergeSort_iff Diagnostic.le_transitive Diagnostic.le_or_le (hany hkey)]

/-- Diagnostics that stand in strict order stay as they are. -/
theorem normalize_eq_self (h : ds.Pairwise (·.key < ·.key)) :
  normalize ds = ds
  := by
  have hsorted : ds.mergeSort Diagnostic.le = ds := by
    apply mergeSort_of_pairwise
    exact h.imp fun hlt => Diagnostic.le_iff.mpr hlt.le
  rw [normalize, hsorted]
  clear hsorted
  induction ds with
  | nil => rfl
  | cons d ds ih =>
      obtain ⟨hd, hds⟩ := pairwise_cons.mp h
      rw [dropRepeats_cons_of_ne, ih hds]
      rintro e he rfl
      exact lt_irrefl _ (hd d (mem_of_mem_head? he))

/-- Bringing diagnostics in order leaves the same diagnostics, sorted by their spans, rules and
messages.  No two of them are equal if and only if none stood before and behind a different one with
the same span, rule and message. -/
theorem sorted_normalize (ds : List Diagnostic) :
  (normalize ds).Pairwise (·.key ≤ ·.key)
    ∧ (∀ d, d ∈ normalize ds ↔ d ∈ ds)
    ∧ ((normalize ds).Nodup ↔ ∀ d e, [d, e, d] <+ ds → d.key = e.key → d = e)
  := by
  refine ⟨?sorted, fun d => mem_normalize, ?once⟩
  case sorted => exact (pairwise_key_mergeSort ds).sublist (sublist_dropRepeats _)
  case once =>
    rw [normalize, nodup_dropRepeats_iff]
    simp only [around_mergeSort_iff, and_imp]

/-- Diagnostics of which the first and the last one are equal, while the one between them has a
fix. -/
def interrupted : List Diagnostic :=
  [diagnosed none, diagnosed (some (.remove ⟨0, 1⟩)), diagnosed none]

/-- Equal diagnostics may be left. -/
theorem repeated_normalize :
  normalize interrupted = interrupted ∧ ¬ interrupted.Nodup
  := by
  have hsorted : interrupted.mergeSort Diagnostic.le = interrupted :=
    mergeSort_of_pairwise (by decide)
  rw [normalize, hsorted]
  decide

end Stencil.Lint
